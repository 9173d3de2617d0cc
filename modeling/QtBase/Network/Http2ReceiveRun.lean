import QtBase.Network.Http2ReceiveAccounts

/-! The accounts of what may be received, over all that can happen to the handler. -/
namespace QtBase

open List UInt32

namespace Http2

namespace Handler

variable {Url Device Encoder Decoder : Type} [DecidableEq Url]

variable {o : Outside Url Device Encoder Decoder} {h h' : H Url Device Encoder Decoder}

omit [DecidableEq Url] in
theorem invariant_received {frame : Frame} (ht : frame.type ≠ .DATA)
    (hi : h.ReceiveInvariant noStream) : (h.log (.received frame)).ReceiveInvariant noStream where
  large := hi.large
  maximum := hi.maximum
  initial := hi.initial
  sent := by
    intro id delta hs
    obtain hs | hs := mem_cons.mp hs
    · simp at hs
    · exact hi.sent id delta hs
  queued := hi.queued
  accounts := by
    intro ha
    have hacc := hi.accounts ⟨ha.1, fun hu => ha.2 (mem_cons_of_mem _ hu)⟩
    have hno : frame.dataPayload = 0 := if_neg ht
    constructor
    · change _ - (frame.dataPayload + dataReceived h.trace) = _
      rw [hno, Int.zero_add]
      exact hacc.session
    · exact hacc.session_range
    · intro id stream hskip hs
      change _ - ((if frame.streamID = id then frame.dataPayload else 0) +
        dataReceivedOn id h.trace) = _ ∧ _
      rw [hno, ite_self, Int.zero_add]
      exact hacc.streams id stream hskip hs
  preface := fun ha => hi.preface ⟨ha.1, fun hu => ha.2 (mem_cons_of_mem _ hu)⟩

theorem tolerant_receiveInvariant : Tolerant fun h h' : H Url Device Encoder Decoder =>
    h.ReceiveInvariant noStream → h'.ReceiveInvariant noStream where
  trans := fun k k' hi => k' (k hi)
  calm := fun c => c.receiveInvariant
  fail := fun h errorCode message => (tolerant_keepsReceive.fail h errorCode message).invariant

/-! ## Headers and promises -/

omit [DecidableEq Url] in
theorem keepsReceive_continued (frames : List Frame) (expected : Bool)
    (h : H Url Device Encoder Decoder) :
    KeepsReceive h { h with continuedFrames := frames, continuationExpected := expected } :=
  ⟨rfl, rfl, rfl, rfl, rfl, rfl, fun _ stream hs => ⟨stream, hs, rfl⟩, le_rfl, [], rfl, by simp⟩

omit [DecidableEq Url] in
theorem keepsReceive_promises (promised : AList fun _ : Url => PushPromise)
    (h : H Url Device Encoder Decoder) : KeepsReceive h { h with promisedData := promised } :=
  ⟨rfl, rfl, rfl, rfl, rfl, rfl, fun _ stream hs => ⟨stream, hs, rfl⟩, le_rfl, [], rfl, by simp⟩

omit [DecidableEq Url] in
theorem keepsReceive_decoder (decoder : Decoder) (h : H Url Device Encoder Decoder) :
    KeepsReceive h { h with decoder := decoder } :=
  ⟨rfl, rfl, rfl, rfl, rfl, rfl, fun _ stream hs => ⟨stream, hs, rfl⟩, le_rfl, [], rfl, by simp⟩

omit [DecidableEq Url] in
theorem invariant_undefined {streams : AList fun _ : UInt32 => Stream Url Device}
    (hi : h.ReceiveInvariant noStream) :
    { h.log .undefined with activeStreams := streams }.ReceiveInvariant noStream := by
  have hsent : ∀ id delta, Action.sent (.windowUpdate id delta) ∈ .undefined :: h.trace →
      ValidIncrement delta := by
    intro id delta hs
    obtain hs | hs := mem_cons.mp hs
    · simp at hs
    · exact hi.sent id delta hs
  exact @ReceiveInvariant.dead _ _ _ _ h { h.log .undefined with activeStreams := streams } _ hi
    rfl rfl rfl hsent hi.queued fun ha => ha.2 mem_cons_self

theorem invariant_tryReserveStream (frame : Frame) (requestHeader : HttpHeader)
    (hi : h.ReceiveInvariant noStream) :
    (h.tryReserveStream o frame requestHeader).1.ReceiveInvariant noStream := by
  rw [tryReserveStream]
  dsimp only
  generalize hreserving : Action.reserving (decide (frame.streamID ∈ h.activeStreams))
    (decide (frame.word 0 ∈ h.activeStreams)) (h.streamWasReset (frame.word 0)) = reserving
  have hneutral : reserving.ReceiveNeutral := by
    rw [← hreserving]
    trivial
  have hlog := (keepsReceive_log hneutral h).invariant hi
  generalize h.log reserving = h1 at hlog ⊢
  split
  · exact hlog
  · rename_i url _
    have hassociated : (if frame.streamID ∈ h1.activeStreams then h1
        else { h1.log .undefined with
          activeStreams := h1.activeStreams.insert frame.streamID {} }).ReceiveInvariant
        noStream := by
      split
      · exact hlog
      · exact invariant_undefined hlog
    generalize (if frame.streamID ∈ h1.activeStreams then h1 else { h1.log .undefined with
      activeStreams := h1.activeStreams.insert frame.streamID {} }) = h2 at hassociated ⊢
    split
    · exact hassociated
    · split
      · exact hassociated
      · exact (keepsReceive_promises _ _).invariant (invariant_open hassociated rfl)

theorem invariant_handleContinuedHEADERS (hi : h.ReceiveInvariant noStream) :
    (h.handleContinuedHEADERS o).ReceiveInvariant noStream := by
  revert hi
  apply tolerant_receiveInvariant.handleContinuedHEADERS
  intro first rest _
  apply tolerant_receiveInvariant.handleHpackBlock
  · intro h block decoder hi
    exact (keepsReceive_decoder decoder _).invariant
      ((keepsReceive_log (by trivial) h).invariant hi)
  · intro _ h header
    exact invariant_tryReserveStream first header
  · intro _ h reason
    exact (keepsReceive_resetPromisedStream first reason h).invariant

theorem invariant_startHeaders (frame : Frame) (hi : h.ReceiveInvariant noStream) :
    (h.startHeaders o frame).ReceiveInvariant noStream := by
  rw [startHeaders]
  split
  · exact invariant_handleContinuedHEADERS
      ((keepsReceive_continued [frame] h.continuationExpected h).invariant hi)
  · exact (keepsReceive_continued [frame] true h).invariant hi

theorem invariant_handlePUSH_PROMISE (frame : Frame) (hi : h.ReceiveInvariant noStream) :
    (h.handlePUSH_PROMISE o frame).ReceiveInvariant noStream := by
  revert hi
  apply tolerant_receiveInvariant.handlePUSH_PROMISE
  intro _ _ _ hi
  have hlast : KeepsReceive h { h with lastPromisedID := frame.word 0 } :=
    ⟨rfl, rfl, rfl, rfl, rfl, rfl, fun _ stream hs => ⟨stream, hs, rfl⟩, le_rfl, [], rfl, by simp⟩
  apply invariant_startHeaders
  rw [refusePromise]
  split
  · exact hlast.invariant hi
  · exact (keepsReceive_resetPromisedStream _ _ _).invariant
      ((keepsReceive_log (by trivial) _).invariant (hlast.invariant hi))

theorem invariant_handleCONTINUATION (frame : Frame) (hi : h.ReceiveInvariant noStream) :
    (h.handleCONTINUATION o frame).ReceiveInvariant noStream := by
  rw [handleCONTINUATION]
  split
  · exact (keepsReceive_log (by trivial) h).invariant hi
  · split
    · exact tolerant_receiveInvariant.connectionError _ _ h hi
    · dsimp only
      split
      · exact invariant_handleContinuedHEADERS ((keepsReceive_continued _ false h).invariant hi)
      · exact (keepsReceive_continued _ h.continuationExpected h).invariant hi

theorem setsWindows_receiveInvariant : SetsWindows fun h h' : H Url Device Encoder Decoder =>
    h.ReceiveInvariant noStream → h'.ReceiveInvariant noStream := fun h newValue h0 h1 =>
  (setsWindows_keepsReceive h newValue h0 h1).invariant

theorem invariant_receiveFrame (frame : Frame) (hi : h.ReceiveInvariant noStream)
    (hp : frame.type = .DATA →
      frame.streamID ∈ h.activeStreams ∨ h.streamWasReset frame.streamID = true →
      h.prefaceSent = true) : (h.receiveFrame o frame).ReceiveInvariant noStream := by
  rw [receiveFrame]
  split
  · exact hi
  · dsimp only
    split
    · exact invariant_received_error frame _ _ hi
    · by_cases ht : frame.type = .DATA
      · have hd := @invariant_handleDATA _ _ _ _ _ o _ _ hi ht (hp ht)
        rw [handleFrame, ht]
        exact hd
      · exact tolerant_receiveInvariant.handleFrame setsWindows_receiveInvariant
          (fun _ => invariant_sendClientPreface) (fun htype => absurd htype ht)
          (fun _ h hi => invariant_startHeaders frame hi)
          (fun _ hi => invariant_handlePUSH_PROMISE frame hi)
          (fun _ => (keepsReceive_handleWINDOW_UPDATE frame _).invariant)
          (fun _ hi => invariant_handleCONTINUATION frame hi) (invariant_received ht hi)

/-! ## Requests -/

theorem takesPromises_receiveInvariant : TakesPromises fun h h' : H Url Device Encoder Decoder =>
    h.ReceiveInvariant noStream → h'.ReceiveInvariant noStream := by
  intro h message promise _ hi
  have hi' := (keepsReceive_promises (h.promisedData.erase message.url) h).invariant hi
  rw [takePromisedStream]
  split
  · refine KeepsReceive.invariant ?_ hi'
    apply keepsReceive_updateActive
    intro stream
    rfl
  · exact invariant_open hi' rfl

theorem startsRequests_receiveInvariant :
    StartsRequests o fun h h' : H Url Device Encoder Decoder =>
      h.ReceiveInvariant noStream → h'.ReceiveInvariant noStream := by
  intro h message
  have hnew := @invariant_createNewStream _ _ _ _ h message
  refine ⟨hnew, ?_⟩
  intro _ rest hi
  have hstart := @Tolerant.startRequest _ _ _ _ _ o
    { (h.createNewStream message).1 with h2RequestsToSend := rest } _ tolerant_keepsReceive
    (h.createNewStream message).2 fun h' _ _ => keepsReceive_sendDATA _ h'
  exact hstart.invariant ((calm_requests rest _).receiveInvariant (hnew hi))

/-! ## Uploads -/

theorem keepsReceive_uploadDataReadyRead {id : UInt32} (ha : id ∈ h.activeStreams) :
    KeepsReceive h (h.uploadDataReadyRead o id) :=
  tolerant_keepsReceive.uploadDataReadyRead ha (keepsReceive_sendDATA id h)

theorem keepsReceive_resumeSuspendedStreams (rounds : ℕ) (h : H Url Device Encoder Decoder) :
    KeepsReceive h (resumeSuspendedStreams o rounds h) := by
  induction rounds generalizing h with
  | zero => exact KeepsReceive.refl h
  | succ rounds ih =>
    rw [resumeSuspendedStreams]
    have hp := (calm_popStreamToResume h).keepsReceive
    split
    · generalize h.popStreamToResume = result at hp ⊢
      obtain ⟨h1, id⟩ := result
      dsimp only at hp ⊢
      split
      · exact hp
      · split
        · exact hp.trans (ih h1)
        · rename_i hmem
          exact (hp.trans (keepsReceive_uploadDataReadyRead (not_not.mp hmem))).trans (ih _)
    · exact KeepsReceive.refl h

/-! ## Steps and runs -/

omit [DecidableEq Url] in
theorem invariant_queuedUpdate {id delta : UInt32} {rest : List (UInt32 × UInt32)}
    (hq : h.invocations = (id, delta) :: rest) (hi : h.ReceiveInvariant noStream) :
    ({ h with invocations := rest }.sendWINDOW_UPDATE id delta).1.ReceiveInvariant noStream := by
  have hvalid : ValidIncrement delta := by
    apply hi.queued id
    simp [hq]
  have hqueued : ∀ id' delta', (id', delta') ∈ rest → ValidIncrement delta' := by
    intro id' delta' hm
    apply hi.queued id'
    simp [hq, hm]
  rw [sendWINDOW_UPDATE]
  obtain ⟨hsocket, he⟩ | ⟨n, hn, he⟩ := @write_eq _ _ _ _ { h with invocations := rest }
    (.windowUpdate id delta)
  · rw [he]
    exact @ReceiveInvariant.dead _ _ _ _ h { h with invocations := rest } _ hi rfl rfl rfl hi.sent
      hqueued fun ha => ha.1 hsocket
  · rw [he]
    refine ⟨hi.large, hi.maximum, hi.initial, ?_, hqueued, ?_, ?_⟩
    · intro id' delta' hs
      obtain hs | hs := mem_cons.mp hs
      · simp only [Action.sent.injEq, Outbound.windowUpdate.injEq] at hs
        rw [hs.2]
        exact hvalid
      · exact hi.sent id' delta' hs
    · intro ha
      have ha' : h.Alive := by
        constructor
        · have hn' : h.socket = n + 1 := hn
          omega
        · exact fun hu => ha.2 (mem_cons_of_mem _ hu)
      have hacc := hi.accounts ha'
      refine ⟨?_, hacc.session_range, hacc.streams⟩
      have hs := hacc.session
      rw [hq, updatesQueued] at hs
      change 65535 + ((if id = 0 then (delta.toNat : ℤ) else 0) + updatesSent 0 h.trace +
        updatesQueued 0 rest) - dataReceived h.trace = h.sessionReceiveWindowSize
      omega
    · intro ha
      apply hi.preface
      constructor
      · have hn' : h.socket = n + 1 := hn
        omega
      · exact fun hu => ha.2 (mem_cons_of_mem _ hu)

/-- DATA for a stream is processed only if the preface is sent. -/
def PrefaceBeforeData (h : H Url Device Encoder Decoder) : Event Url Device → Prop
  | .frame frame => frame.type = .DATA →
    frame.streamID ∈ h.activeStreams ∨ h.streamWasReset frame.streamID = true →
    h.prefaceSent = true
  | _ => True

theorem invariant_step (event : Event Url Device) (hp : h.PrefaceBeforeData event)
    (hi : h.ReceiveInvariant noStream) : (h.step o event).ReceiveInvariant noStream := by
  cases event with
  | frame frame => exact invariant_receiveFrame frame hi hp
  | badFrame status => exact tolerant_receiveInvariant.receiveBadFrame status h hi
  | newRequest message => exact (calm_requests _ h).receiveInvariant hi
  | sendRequest =>
    exact tolerant_receiveInvariant.sendRequest (fun _ => invariant_sendClientPreface)
      takesPromises_receiveInvariant startsRequests_receiveInvariant h hi
  | uploadDataReadyRead id =>
    rw [step]
    split
    · rename_i hid
      exact (keepsReceive_uploadDataReadyRead hid.1).invariant hi
    · exact hi
  | replyDestroyed id => exact (calm_replyDestroyed id h).receiveInvariant hi
  | resumeSuspendedStreams rounds =>
    exact (keepsReceive_resumeSuspendedStreams rounds h).invariant hi
  | ensureClientPrefaceSent => exact invariant_sendClientPreface hi
  | sendWINDOW_UPDATE =>
    rw [step]
    split
    · exact hi
    · rename_i hq
      exact invariant_queuedUpdate hq hi
  | connectionClosure =>
    have hgone : KeepsReceive h h.handleConnectionClosure := by
      refine ⟨rfl, rfl, rfl, rfl, rfl, rfl, ?_, le_rfl, [], rfl, by simp⟩
      intro id stream hs
      change (∅ : AList fun _ : UInt32 => Stream Url Device).lookup id = some stream at hs
      simp at hs
    exact hgone.invariant hi

theorem invariant_run (events : List (Outside Url Device Encoder Decoder × Event Url Device))
    (hp : Throughout (fun _ => PrefaceBeforeData) h events) (hi : h.ReceiveInvariant noStream) :
    (h.run events).ReceiveInvariant noStream := by
  induction events generalizing h with
  | nil => exact hi
  | cons e events ih => exact ih hp.2 (invariant_step e.2 hp.1 hi)

theorem invariant_start {config : QHttp2Configuration} (hc : 65535 ≤ config.sessionWindowSize)
    (encoder : Encoder) (decoder : Decoder) (socket : ℕ)
    (upgraded : Option (HttpMessagePair Url Device)) :
    (start config encoder decoder socket upgraded).ReceiveInvariant noStream := by
  have hbase : ({ config := config
                  decoder := decoder
                  encoder := encoder
                  maxSessionReceiveWindowSize := config.sessionWindowSize
                  streamInitialReceiveWindowSize := config.streamWindowSize
                  pushPromiseEnabled := config.pushEnabled
                  socket := socket } : H Url Device Encoder Decoder).ReceiveInvariant noStream := by
    refine ⟨hc, rfl, rfl, by simp, by simp, ?_, fun _ _ => rfl⟩
    intro _
    refine ⟨rfl, ?_, ?_⟩
    · change (0 : ℤ) ≤ 65535 ∧ (65535 : ℤ) ≤ config.sessionWindowSize
      omega
    · intro id stream _ hs
      change (∅ : AList fun _ : UInt32 => Stream Url Device).lookup id = some stream at hs
      simp at hs
  cases upgraded with
  | none => exact hbase
  | some message =>
    have hnew := invariant_createNewStream message hbase
    rw [start]
    exact (calm_state _ .halfClosedLocal _).receiveInvariant hnew

/-- The peer is told what the handler reckons with. -/
structure ReceiveWindowsAgree (h : H Url Device Encoder Decoder) : Prop where
  increments : ∀ id delta, Action.sent (.windowUpdate id delta) ∈ h.trace → ValidIncrement delta
  accounts : h.Alive → h.ReceiveAccounts noStream

omit [DecidableEq Url] in
theorem sent_sendClientPreface {n : ℕ} (hp : h.prefaceSent = false) (hn : h.socket = n + 3)
    (hdelta : h.maxSessionReceiveWindowSize - 65535 ≠ 0) :
    Action.sent (.windowUpdate connectionStreamID
      (ofInt (h.maxSessionReceiveWindowSize - 65535))) ∈ h.sendClientPreface.1.trace := by
  have hdelta' : h.maxSessionReceiveWindowSize - ((defaultSessionWindowSize : ℕ) : ℤ) ≠ 0 := hdelta
  rw [sendClientPreface, hp]
  simp only [Bool.false_eq_true, if_false, write, socketWrite, hn, if_true, Bool.not_true,
    updateInitialWindow, log, sendWINDOW_UPDATE, if_pos hdelta']
  exact mem_cons_self

/-- The windows agree in all runs if and only if the window of the session does not have to be made
smaller by the preface. -/
theorem receiveWindowsAgree_iff (config : QHttp2Configuration)
    (o : Outside Url Device Encoder Decoder) (encoder : Encoder) (decoder : Decoder) :
    (∀ (socket : ℕ) (upgraded : Option (HttpMessagePair Url Device))
      (events : List (Outside Url Device Encoder Decoder × Event Url Device)),
      Throughout (fun _ => PrefaceBeforeData) (start config encoder decoder socket upgraded) events →
      ((start config encoder decoder socket upgraded).run events).ReceiveWindowsAgree) ↔
    65535 ≤ config.sessionWindowSize := by
  constructor
  · intro hall
    by_contra hsmall
    have hpos := config.session_range.1
    have hrun := hall 3 none [(o, .ensureClientPrefaceSent)] ⟨trivial, trivial⟩
    have hsent := @sent_sendClientPreface Url Device Encoder Decoder
      (start config encoder decoder 3 none) 0 rfl rfl (by
        change (config.sessionWindowSize : ℤ) - 65535 ≠ 0
        omega)
    have hvalid := (hrun.increments _ _ hsent).2
    change (ofInt ((config.sessionWindowSize : ℤ) - 65535)).toNat ≤ 2 ^ 31 - 1 at hvalid
    rw [ofInt, toNat_ofNat'] at hvalid
    omega
  · intro hc socket upgraded events hp
    have hi := invariant_run events hp (invariant_start hc encoder decoder socket upgraded)
    exact ⟨hi.sent, hi.accounts⟩

/-- The increment for a window of 1000 is that of a negative number. -/
theorem increment_of_small_window :
    let config := (({} : QHttp2Configuration).setSessionReceiveWindowSize 1000)
    config.2 = true ∧
    Action.sent (.windowUpdate 0 4294902761) ∈ ((start config.1 () () 3 none).run
      [(plainOutside fun _ => none, .ensureClientPrefaceSent)]).trace ∧
    ¬ValidIncrement 4294902761 := by
  refine ⟨rfl, ?_, fun hv => absurd hv.2 (by decide)⟩
  exact @sent_sendClientPreface Unit ByteArrayDevice Unit Unit _ 0 rfl rfl (by decide)

end Handler

end Http2

end QtBase
