import QtBase.Network.Http2Receive

/-! Steps of the handler that close streams and send frames that no account depends on: nothing else
changes. Most of what the handler does is calm in this sense. -/
namespace QtBase

open List Option

namespace Http2

/-- An action that no account depends on. -/
def Action.Neutral : Action → Prop
  | .sent frame => match frame with
    | .data _ _ => False
    | .windowUpdate _ _ => False
    | _ => True
  | _ => False

namespace Handler

variable {Url Device Encoder Decoder : Type}

/-- What a calm step leaves as it is. -/
structure Frozen where
  config : QHttp2Configuration
  prefaceSent : Bool
  continuationExpected : Bool
  continuedFrames : List Frame
  maxSessionReceiveWindowSize : ℤ
  sessionReceiveWindowSize : ℤ
  streamInitialReceiveWindowSize : ℤ
  sessionSendWindowSize : ℤ
  streamInitialSendWindowSize : ℤ
  nextID : UInt32
  pushPromiseEnabled : Bool
  lastPromisedID : UInt32
  invocations : List (UInt32 × UInt32)

def frozen (h : H Url Device Encoder Decoder) : Frozen where
  config := h.config
  prefaceSent := h.prefaceSent
  continuationExpected := h.continuationExpected
  continuedFrames := h.continuedFrames
  maxSessionReceiveWindowSize := h.maxSessionReceiveWindowSize
  sessionReceiveWindowSize := h.sessionReceiveWindowSize
  streamInitialReceiveWindowSize := h.streamInitialReceiveWindowSize
  sessionSendWindowSize := h.sessionSendWindowSize
  streamInitialSendWindowSize := h.streamInitialSendWindowSize
  nextID := h.nextID
  pushPromiseEnabled := h.pushPromiseEnabled
  lastPromisedID := h.lastPromisedID
  invocations := h.invocations

/-- The windows of a stream are those of another one, and it has a reply if that has one. -/
structure SameWindows (stream stream' : Stream Url Device) : Prop where
  send : stream'.sendWindow = stream.sendWindow
  recv : stream'.recvWindow = stream.recvWindow
  pair : stream'.httpPair.isSome = stream.httpPair.isSome

theorem SameWindows.refl (stream : Stream Url Device) : SameWindows stream stream :=
  ⟨rfl, rfl, rfl⟩

theorem SameWindows.trans {s s' s'' : Stream Url Device} (h : SameWindows s s')
    (h' : SameWindows s' s'') : SameWindows s s'' :=
  ⟨h'.send.trans h.send, h'.recv.trans h.recv, h'.pair.trans h.pair⟩

variable [DecidableEq Url]

variable {o : Outside Url Device Encoder Decoder} {h h' h'' : H Url Device Encoder Decoder}

/-- A step that may close streams, but neither opens one nor changes a window. -/
structure Calm (h h' : H Url Device Encoder Decoder) : Prop where
  frozen : h'.frozen = h.frozen
  streams : ∀ id stream', h'.activeStreams.lookup id = some stream' →
    ∃ stream, h.activeStreams.lookup id = some stream ∧ SameWindows stream stream'
  reset : ∀ id, h'.streamWasReset id = true → h.streamWasReset id = true ∨ id ∈ h.activeStreams
  promised : ∀ key promise', h'.promisedData.lookup key = some promise' →
    ∃ key promise, h.promisedData.lookup key = some promise ∧
      promise.reservedID = promise'.reservedID
  suspended : ∀ priority id, id ∈ h'.suspendedStreams priority → id ∈ h.suspendedStreams priority
  goingAway : h.goingAway = true → h'.goingAway = true
  frameSize : 0 < h.sizeLimit → 0 < h'.sizeLimit
  socket : h'.socket ≤ h.socket
  trace : ∃ actions, h'.trace = actions ++ h.trace ∧ ∀ action ∈ actions, action.Neutral

theorem mem_of_lookup {α β : Type} [DecidableEq α] {l : AList fun _ : α => β} {a : α} {b : β}
    (h : l.lookup a = some b) : a ∈ l := by
  rw [← AList.lookup_isSome, h]
  rfl

variable {id : UInt32}

theorem Calm.active (c : Calm h h') (hid : id ∈ h'.activeStreams) :
    id ∈ h.activeStreams := by
  obtain ⟨stream', hs⟩ := isSome_iff_exists.mp (AList.lookup_isSome.mpr hid)
  obtain ⟨stream, hs', -⟩ := c.streams id stream' hs
  exact mem_of_lookup hs'

/-- What a calm step may change, if only in one direction. -/
def loose (h : H Url Device Encoder Decoder) :=
  (h.activeStreams, h.recycledStreams, h.promisedData, h.suspendedStreams, h.goingAway,
    h.maxFrameSize, h.socket, h.trace)

theorem Calm.of_loose (hf : h'.frozen = h.frozen) (hl : h'.loose = h.loose) : Calm h h' := by
  simp only [loose, Prod.mk.injEq] at hl
  obtain ⟨hactive, hrecycled, hpromised, hsuspended, haway, hsize, hsocket, htrace⟩ := hl
  constructor
  · exact hf
  · rw [hactive]
    exact fun _ stream hs => ⟨stream, hs, SameWindows.refl stream⟩
  · intro id hr
    rw [streamWasReset, hrecycled] at hr
    exact .inl hr
  · rw [hpromised]
    exact fun key promise hp => ⟨key, promise, hp, rfl⟩
  · rw [hsuspended]
    exact fun _ _ hid => hid
  · rw [haway]
    exact fun hg => hg
  · rw [sizeLimit, sizeLimit, hsize]
    exact fun hlimit => hlimit
  · exact Nat.le_of_eq hsocket
  · exact ⟨[], htrace, by simp⟩

theorem Calm.refl (h : H Url Device Encoder Decoder) : Calm h h := Calm.of_loose rfl rfl

theorem Calm.trans (c : Calm h h') (c' : Calm h' h'') : Calm h h'' where
  frozen := c'.frozen.trans c.frozen
  streams := by
    intro id stream'' hs''
    obtain ⟨stream', hs', hw'⟩ := c'.streams id stream'' hs''
    obtain ⟨stream, hs, hw⟩ := c.streams id stream' hs'
    exact ⟨stream, hs, hw.trans hw'⟩
  reset := by
    intro id hr
    obtain hr | hr := c'.reset id hr
    · exact c.reset id hr
    · exact .inr (c.active hr)
  promised := by
    intro key promise'' hp''
    obtain ⟨key', promise', hp', he'⟩ := c'.promised key promise'' hp''
    obtain ⟨key, promise, hp, he⟩ := c.promised key' promise' hp'
    exact ⟨key, promise, hp, he.trans he'⟩
  suspended := fun priority id hid => c.suspended priority id (c'.suspended priority id hid)
  goingAway := fun hg => c'.goingAway (c.goingAway hg)
  frameSize := fun hlimit => c'.frameSize (c.frameSize hlimit)
  socket := le_trans c'.socket c.socket
  trace := by
    obtain ⟨actions, ht, hn⟩ := c.trace
    obtain ⟨actions', ht', hn'⟩ := c'.trace
    refine ⟨actions' ++ actions, ?_, ?_⟩
    · rw [ht', ht, append_assoc]
    · intro action ha
      obtain ha | ha := mem_append.mp ha
      · exact hn' action ha
      · exact hn action ha

/-! ## Small steps -/

theorem calm_log {action : Action} (ha : action.Neutral) (h : H Url Device Encoder Decoder) :
    Calm h (h.log action) :=
  { Calm.refl h with trace := ⟨[action], rfl, by simpa using ha⟩ }

theorem calm_streams {streams : AList fun _ : UInt32 => Stream Url Device}
    (hs : ∀ id stream', streams.lookup id = some stream' →
      ∃ stream, h.activeStreams.lookup id = some stream ∧ SameWindows stream stream') :
    Calm h { h with activeStreams := streams } :=
  { Calm.refl h with streams := hs }

theorem calm_suspended {suspended : Priority → List UInt32}
    (hs : ∀ priority id, id ∈ suspended priority → id ∈ h.suspendedStreams priority) :
    Calm h { h with suspendedStreams := suspended } :=
  { Calm.refl h with suspended := hs }

theorem calm_socketWrite (h : H Url Device Encoder Decoder) : Calm h h.socketWrite.1 := by
  rw [socketWrite]
  split
  · exact Calm.refl h
  · rename_i writes hw
    have hle : writes ≤ h.socket := by omega
    exact { Calm.refl h with socket := hle }

theorem calm_write {frame : Outbound} (hf : (Action.sent frame).Neutral)
    (h : H Url Device Encoder Decoder) : Calm h (h.write frame).1 := by
  have hw := calm_socketWrite h
  rw [write]
  generalize h.socketWrite = result at hw ⊢
  obtain ⟨h1, ok⟩ := result
  cases ok with
  | true => exact hw.trans (calm_log hf h1)
  | false => exact hw

theorem calm_writeParts {frame : Outbound} (hf : (Action.sent frame).Neutral)
    (h : H Url Device Encoder Decoder) : Calm h (h.writeParts frame).1 := by
  have hw := calm_socketWrite h
  rw [writeParts]
  generalize h.socketWrite = result at hw ⊢
  obtain ⟨h1, ok⟩ := result
  cases ok with
  | true => exact hw.trans (calm_write hf h1)
  | false => exact hw

theorem calm_writeContinuations (limit : ℕ) (streamID : UInt32) (rounds rest : ℕ)
    (h : H Url Device Encoder Decoder) :
    Calm h (writeContinuations limit streamID rounds rest h).1 := by
  induction rounds generalizing rest h with
  | zero => exact Calm.refl h
  | succ rounds ih =>
    rw [writeContinuations]
    split
    · exact Calm.refl h
    · have hw := @calm_writeParts Url Device Encoder Decoder _
        (.continuation streamID (min limit rest) (min limit rest = rest)) trivial h
      simp only
      split
      · exact hw.trans (ih _ _)
      · exact hw

theorem calm_writeHEADERS (streamID : UInt32) (size : ℕ) (h : H Url Device Encoder Decoder) :
    Calm h (h.writeHEADERS streamID size).1 := by
  rw [writeHEADERS]
  split
  · exact calm_write (by trivial) h
  · have hw := @calm_write Url Device Encoder Decoder _ (.headers streamID h.sizeLimit false) trivial h
    simp only
    split
    · exact hw.trans (calm_writeContinuations _ _ _ _ _)
    · exact hw

theorem calm_sendRST_STREAM (streamID : UInt32) (errorCode : Http2Error)
    (h : H Url Device Encoder Decoder) : Calm h (h.sendRST_STREAM streamID errorCode) :=
  calm_write (by trivial) h

variable {streamID : UInt32}

omit [DecidableEq Url] in
theorem lookup_updateActive {f : Stream Url Device → Stream Url Device} :
    (h.updateActive streamID f).activeStreams.lookup id =
      if id = streamID then (h.activeStreams.lookup id).map f else h.activeStreams.lookup id := by
  rw [updateActive]
  by_cases hid : id = streamID
  · rw [if_pos hid, hid]
    cases hl : h.activeStreams.lookup streamID with
    | none => exact hl
    | some stream => exact AList.lookup_insert _
  · rw [if_neg hid]
    cases hl : h.activeStreams.lookup streamID with
    | none => rfl
    | some stream => exact AList.lookup_insert_ne hid

omit [DecidableEq Url] in
theorem mem_updateActive {f : Stream Url Device → Stream Url Device} :
    id ∈ (h.updateActive streamID f).activeStreams ↔ id ∈ h.activeStreams := by
  rw [← AList.lookup_isSome, ← AList.lookup_isSome, lookup_updateActive]
  split
  · rw [isSome_map]
  · rfl

omit [DecidableEq Url] in
theorem updateActive_frozen (streamID : UInt32) (f : Stream Url Device → Stream Url Device) :
    (h.updateActive streamID f).frozen = h.frozen := by
  rw [updateActive]
  split <;> rfl

theorem calm_updateActive {streamID : UInt32} {f : Stream Url Device → Stream Url Device}
    (hf : ∀ stream, SameWindows stream (f stream)) (h : H Url Device Encoder Decoder) :
    Calm h (h.updateActive streamID f) := by
  rw [updateActive]
  split
  · exact Calm.refl h
  · rename_i stream hl
    apply calm_streams
    intro id stream' hs
    by_cases hid : id = streamID
    · rw [hid, AList.lookup_insert] at hs
      rw [hid, ← some.inj hs]
      exact ⟨stream, hl, hf stream⟩
    · rw [AList.lookup_insert_ne hid] at hs
      exact ⟨stream', hs, SameWindows.refl stream'⟩

theorem calm_state (streamID : UInt32) (state : StreamState) (h : H Url Device Encoder Decoder) :
    Calm h (h.updateActive streamID fun stream => { stream with state := state }) := by
  apply calm_updateActive
  intro stream
  exact ⟨rfl, rfl, rfl⟩

theorem calm_finishStreamWithError (streamID : UInt32) (h : H Url Device Encoder Decoder) :
    Calm h (h.finishStreamWithError streamID) := calm_state streamID .closed h

theorem calm_updatePair (f : HttpMessagePair Url Device → HttpMessagePair Url Device)
    (h : H Url Device Encoder Decoder) :
    Calm h (h.updateActive streamID fun stream => stream.updatePair f) := by
  apply calm_updateActive
  intro stream
  exact ⟨rfl, rfl, isSome_map⟩

/-! ## Resets -/

omit [DecidableEq Url] in
theorem markAsReset_mem (hr : (h.markAsReset streamID).streamWasReset id = true) :
    h.streamWasReset id = true ∨ id = streamID := by
  have hinsert : ∀ recycled : List UInt32, id ∈ (if recycled.contains streamID then recycled
      else recycled.takeWhile (· < streamID) ++ streamID :: recycled.dropWhile (· < streamID)) →
      id ∈ recycled ∨ id = streamID := by
    intro recycled hx
    split at hx
    · exact .inl hx
    · obtain hx | hx := mem_append.mp hx
      · exact .inl ((takeWhile_sublist _).subset hx)
      · obtain hx | hx := mem_cons.mp hx
        · exact .inr hx
        · exact .inl ((dropWhile_sublist _).subset hx)
  obtain hx | hx := hinsert _ (contains_iff_mem.mp hr)
  · left
    apply contains_iff_mem.mpr
    split at hx
    · exact mem_of_mem_drop hx
    · exact hx
  · exact .inr hx

theorem calm_markAsReset (ha : streamID ∈ h.activeStreams) :
    Calm h (h.markAsReset streamID) := by
  have hreset : ∀ id, (h.markAsReset streamID).streamWasReset id = true →
      h.streamWasReset id = true ∨ id ∈ h.activeStreams := by
    intro id hr
    obtain hr | hr := markAsReset_mem hr
    · exact .inl hr
    · rw [hr]
      exact .inr ha
  exact { Calm.refl h with reset := hreset }

theorem calm_removeFromSuspended (streamID : UInt32) (h : H Url Device Encoder Decoder) :
    Calm h (h.removeFromSuspended streamID) := by
  apply calm_suspended
  intro priority id hid
  exact mem_of_mem_filter hid

omit [DecidableEq Url] in
theorem lookup_deleteActiveStream :
    (h.deleteActiveStream streamID).activeStreams.lookup id =
      if id = streamID then none else h.activeStreams.lookup id := by
  split
  · rename_i hid
    rw [hid]
    exact AList.lookup_erase _ _
  · rename_i hid
    exact AList.lookup_erase_ne hid

theorem calm_deleteActiveStream (streamID : UInt32) (h : H Url Device Encoder Decoder) :
    Calm h (h.deleteActiveStream streamID) := by
  rw [deleteActiveStream]
  apply Calm.trans _ (calm_removeFromSuspended streamID _)
  apply calm_streams
  intro id stream hs
  by_cases hid : id = streamID
  · rw [hid, AList.lookup_erase] at hs
    simp at hs
  · rw [AList.lookup_erase_ne hid] at hs
    exact ⟨stream, hs, SameWindows.refl stream⟩

omit [DecidableEq Url] in
theorem active_write {frame : Outbound} : (h.write frame).1.activeStreams = h.activeStreams := by
  rw [write, socketWrite]
  cases h.socket <;> rfl

theorem calm_abandon {streamID : UInt32} (errorCode : Http2Error)
    (ha : streamID ∈ h.activeStreams) : Calm h (h.abandon streamID errorCode) := by
  have h1 := calm_finishStreamWithError streamID h
  have h2 := calm_sendRST_STREAM streamID errorCode (h.finishStreamWithError streamID)
  have hmem : streamID ∈
      ((h.finishStreamWithError streamID).sendRST_STREAM streamID errorCode).activeStreams := by
    rw [sendRST_STREAM, active_write]
    exact mem_updateActive.2 ha
  exact ((h1.trans h2).trans (calm_markAsReset hmem)).trans (calm_deleteActiveStream streamID _)

omit [DecidableEq Url] in
theorem stream_of_lookup {stream : Stream Url Device}
    (hl : h.activeStreams.lookup id = some stream) : h.stream id = stream := by
  rw [Handler.stream, hl]
  rfl

omit [DecidableEq Url] in
theorem lookup_abandon (id : UInt32) (errorCode : Http2Error) (h : H Url Device Encoder Decoder) :
    (h.abandon id errorCode).activeStreams.lookup id = none := by
  rw [abandon, lookup_deleteActiveStream, if_pos rfl]

theorem calm_closeSession (h : H Url Device Encoder Decoder) : Calm h h.closeSession where
  frozen := rfl
  streams := by
    intro id stream hs
    change (∅ : AList fun _ : UInt32 => Stream Url Device).lookup id = some stream at hs
    simp at hs
  reset := by
    intro id hr
    change List.contains [] id = true at hr
    simp at hr
  promised := fun key promise hp => ⟨key, promise, hp, rfl⟩
  suspended := by
    intro priority id hid
    change id ∈ [] at hid
    simp at hid
  goingAway := fun hg => hg
  frameSize := fun hlimit => hlimit
  socket := Nat.zero_le _
  trace := ⟨[], rfl, by simp⟩

/-! ## Handlers -/

omit [DecidableEq Url] in
theorem mem_of_pair {pair : HttpMessagePair Url Device}
    (hp : (h.stream streamID).httpPair = some pair) : streamID ∈ h.activeStreams := by
  rw [← AList.lookup_isSome]
  rw [stream] at hp
  cases hl : h.activeStreams.lookup streamID with
  | none => rw [hl] at hp; simp at hp
  | some stream => rfl

theorem calm_promise {key : Url} {promise promise' : PushPromise}
    (hl : h.promisedData.lookup key = some promise) (hid : promise'.reservedID = promise.reservedID) :
    Calm h { h with promisedData := h.promisedData.insert key promise' } := by
  have hpromised : ∀ key' promise'', (h.promisedData.insert key promise').lookup key' =
      some promise'' → ∃ key promise, h.promisedData.lookup key = some promise ∧
        promise.reservedID = promise''.reservedID := by
    intro key' promise'' hp
    by_cases hk : key' = key
    · rw [hk, AList.lookup_insert] at hp
      have he : promise' = promise'' := some.inj hp
      exact ⟨key, promise, hl, by rw [← he, hid]⟩
    · rw [AList.lookup_insert_ne hk] at hp
      exact ⟨key', promise'', hp, rfl⟩
  exact { Calm.refl h with promised := hpromised }

theorem calm_updateStreamData (streamID : UInt32) (frame : Frame)
    (h : H Url Device Encoder Decoder) : Calm h (h.updateStreamData streamID frame) := by
  rw [updateStreamData]
  split
  · split
    · exact Calm.refl h
    · rename_i hl
      exact calm_promise hl rfl
  · exact Calm.refl h

theorem calm_updateStreamHeaders (streamID : UInt32) (headers : HttpHeader)
    (h : H Url Device Encoder Decoder) : Calm h (h.updateStreamHeaders o streamID headers) := by
  rw [updateStreamHeaders]
  split
  · split
    · exact Calm.refl h
    · split
      · exact Calm.refl h
      · rename_i hl
        exact calm_promise hl rfl
  · rename_i pair hpair
    have hmem := mem_of_pair hpair
    simp only
    split
    · refine (((calm_updatePair _ h).trans (calm_finishStreamWithError streamID _)).trans
        (calm_sendRST_STREAM streamID _ _)).trans (calm_markAsReset ?_)
      rw [sendRST_STREAM, active_write]
      exact mem_updateActive.2 (mem_updateActive.2 hmem)
    · split
      · exact (calm_updatePair _ h).trans (calm_updatePair _ _)
      · exact calm_updatePair _ h

theorem calm_requests (requests : List (HttpMessagePair Url Device))
    (h : H Url Device Encoder Decoder) : Calm h { h with h2RequestsToSend := requests } :=
  Calm.of_loose rfl rfl

theorem calm_handleAuthorization (streamID : UInt32) (h : H Url Device Encoder Decoder) :
    Calm h (h.handleAuthorization o streamID) := by
  rw [handleAuthorization]
  split
  · exact Calm.refl h
  · rename_i pair hpair
    split
    · have hmem := mem_of_pair hpair
      apply Calm.trans _ (calm_deleteActiveStream streamID _)
      apply Calm.trans (calm_requests _ h)
      exact calm_markAsReset hmem
    · exact Calm.refl h
    · exact calm_finishStreamWithError streamID h

theorem calm_finishStream (streamID : UInt32) (h : H Url Device Encoder Decoder) :
    Calm h (h.finishStream o streamID) := by
  have hu := calm_state streamID .closed h
  rw [finishStream]
  split
  · exact hu
  · split
    · exact hu.trans (calm_handleAuthorization streamID _)
    · exact hu

theorem calm_endStream (streamID : UInt32) (h : H Url Device Encoder Decoder) :
    Calm h ((h.finishStream o streamID).deleteActiveStream streamID) :=
  (calm_finishStream streamID h).trans (calm_deleteActiveStream streamID _)

theorem calm_replyDestroyed (streamID : UInt32) (h : H Url Device Encoder Decoder) :
    Calm h (h.replyDestroyed streamID) := by
  rw [replyDestroyed]
  split
  · rename_i hmem
    have hmem' : streamID ∈ (h.sendRST_STREAM streamID .CANCEL).activeStreams := by
      rw [sendRST_STREAM, active_write]
      exact hmem
    exact ((calm_sendRST_STREAM streamID _ h).trans (calm_markAsReset hmem')).trans
      (calm_deleteActiveStream streamID _)
  · exact Calm.refl h

theorem calm_peerReset (ha : streamID ∈ h.activeStreams) :
    Calm h (((h.finishStreamWithError streamID).markAsReset streamID).deleteActiveStream
      streamID) :=
  ((calm_finishStreamWithError streamID h).trans
    (calm_markAsReset (mem_updateActive.2 ha))).trans (calm_deleteActiveStream streamID _)

theorem calm_finishFrom (rounds : ℕ) (id : UInt32) (h : H Url Device Encoder Decoder) :
    Calm h (finishFrom rounds id h) := by
  induction rounds generalizing id h with
  | zero => exact Calm.refl h
  | succ rounds ih =>
    rw [finishFrom]
    split
    · refine Calm.trans ?_ (ih _ _)
      split
      · rename_i hmem
        exact calm_peerReset hmem
      · exact calm_removeFromSuspended id h
    · exact Calm.refl h

theorem calm_goAway (lastStreamID : UInt32) (h : H Url Device Encoder Decoder) :
    Calm h (h.goAway lastStreamID) := by
  have h0 : Calm h { h with goingAway := true, h2RequestsToSend := [] } :=
    { Calm.refl h with goingAway := fun _ => rfl }
  have h1 := h0.trans (calm_finishFrom (h.nextID.toNat - lastStreamID.toNat) lastStreamID _)
  rw [goAway]
  simp only
  split
  · exact h1.trans (calm_closeSession _)
  · exact h1

theorem calm_encoder (encoder : Encoder) (h : H Url Device Encoder Decoder) :
    Calm h { h with encoder := encoder } := Calm.of_loose rfl rfl

theorem calm_sendHEADERS (streamID : UInt32) (h : H Url Device Encoder Decoder) :
    Calm h (h.sendHEADERS o streamID).1 := by
  have hu := @calm_updateActive Url Device Encoder Decoder _ streamID
    (fun stream => { stream.updatePair fun pair => { pair with
        needResendWithCredentials := pair.needResendWithCredentials && !pair.withCredentials } with
      state := if stream.data.isSome then .open else .halfClosedLocal }) (fun _ => ⟨rfl, rfl, isSome_map⟩) h
  rw [sendHEADERS]
  simp only
  split
  · exact hu
  · split
    · exact hu.trans (calm_encoder _ _)
    · exact (hu.trans (calm_encoder _ _)).trans (calm_writeHEADERS _ _ _)

theorem calm_updateAllData (id : UInt32) (frames : List Frame) (h : H Url Device Encoder Decoder) :
    Calm h (frames.foldl (fun h frame => h.updateStreamData id frame) h) := by
  induction frames generalizing h with
  | nil => exact Calm.refl h
  | cons frame frames ih => exact (calm_updateStreamData id frame h).trans (ih _)

theorem calm_replayPromise (promise : PushPromise) (h : H Url Device Encoder Decoder) :
    Calm h (h.replayPromise o promise) := by
  rw [replayPromise]
  apply Calm.trans _ (calm_updateAllData _ _ _)
  split
  · exact calm_updateStreamHeaders _ _ h
  · exact Calm.refl h

theorem calm_endUpload (streamID : UInt32) (h : H Url Device Encoder Decoder) :
    Calm h (((h.write (.endStream streamID)).1.updateActive streamID fun stream =>
      { stream with state := .halfClosedLocal }).removeFromSuspended streamID) :=
  ((calm_write (by trivial) h).trans (calm_state streamID _ _)).trans
    (calm_removeFromSuspended streamID _)

theorem calm_popStreamToResume (h : H Url Device Encoder Decoder) :
    Calm h h.popStreamToResume.1 := by
  rw [popStreamToResume]
  split
  · exact Calm.refl h
  · apply calm_suspended
    intro priority id hid
    split at hid
    · exact mem_of_mem_erase hid
    · exact hid

end Handler

end Http2

end QtBase
