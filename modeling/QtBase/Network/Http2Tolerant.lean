import QtBase.Network.Http2Writing

/-! What the handler does, seen by a relation that does not mind calm steps and errors. An invariant
gives such a relation, too: that it holds behind a step if it holds before. -/
namespace QtBase

namespace Http2

namespace Handler

variable {Url Device Encoder Decoder : Type} [DecidableEq Url]

variable {o : Outside Url Device Encoder Decoder} {h h' : H Url Device Encoder Decoder}

/-! ## Streams that can not be adjusted -/

omit [DecidableEq Url] in
theorem mem_abandon {id id' : UInt32} {errorCode : Http2Error} (hne : id' ≠ id)
    (ha : id' ∈ h.activeStreams) : id' ∈ (h.abandon id errorCode).activeStreams := by
  rw [← AList.lookup_isSome, abandon, lookup_deleteActiveStream, if_neg hne, AList.lookup_isSome]
  change id' ∈ ((h.finishStreamWithError id).sendRST_STREAM id errorCode).activeStreams
  rw [sendRST_STREAM, active_write]
  exact mem_updateActive.2 ha

theorem calm_abandonAll (errorCode : Http2Error) {ids : List UInt32} (hn : ids.Nodup)
    (ha : ∀ id ∈ ids, id ∈ h.activeStreams) :
    Calm h (ids.foldl (fun h id => h.abandon id errorCode) h) := by
  induction ids generalizing h with
  | nil => exact Calm.refl h
  | cons id ids ih =>
    obtain ⟨hid, hn⟩ := List.nodup_cons.mp hn
    apply Calm.trans (calm_abandon errorCode (ha id List.mem_cons_self))
    apply ih hn
    intro id' hid'
    have hne : id' ≠ id := fun he => hid (he ▸ hid')
    exact mem_abandon hne (ha id' (List.mem_cons_of_mem _ hid'))

omit [DecidableEq Url] in
theorem adjustWindows_broken (delta : ℤ) (ids : List UInt32) (h : H Url Device Encoder Decoder) :
    (adjustWindows delta ids h).2.Sublist ids ∧
    ∀ id, id ∈ (adjustWindows delta ids h).1.activeStreams ↔ id ∈ h.activeStreams := by
  induction ids generalizing h with
  | nil => exact ⟨List.Sublist.refl [], fun _ => Iff.rfl⟩
  | cons id ids ih =>
    rw [adjustWindows]
    split
    · exact ⟨(ih h).1.cons_cons id, (ih h).2⟩
    · obtain ⟨hsub, hmem⟩ := ih (h.updateActive id fun stream =>
        { stream with sendWindow := stream.sendWindow + delta })
      exact ⟨hsub.cons id, fun id' => (hmem id').trans mem_updateActive⟩

theorem calm_abandonBroken (delta : ℤ) (h : H Url Device Encoder Decoder) :
    Calm (adjustWindows delta h.activeStreams.keys h).1
      ((adjustWindows delta h.activeStreams.keys h).2.foldl
        (fun h id => h.abandon id .PROTOCOL_ERROR) (adjustWindows delta h.activeStreams.keys h).1) := by
  obtain ⟨hsub, hmem⟩ := adjustWindows_broken delta h.activeStreams.keys h
  apply calm_abandonAll
  · exact h.activeStreams.keys_nodup.sublist hsub
  · intro id hid
    exact (hmem id).mpr (AList.mem_keys.mpr (hsub.subset hid))

/-! ## Relations -/

/-- A relation between the states before and behind something that happens. -/
structure Tolerant (R : H Url Device Encoder Decoder → H Url Device Encoder Decoder → Prop) :
    Prop where
  trans : ∀ {h h' h''}, R h h' → R h' h'' → R h h''
  calm : ∀ {h h'}, Calm h h' → R h h'
  fail : ∀ (h : H Url Device Encoder Decoder) errorCode message,
    R h { h.log (.connectionError h.goingAway errorCode message) with goingAway := true }

/-- A new initial window is accepted. -/
def SetsWindows (R : H Url Device Encoder Decoder → H Url Device Encoder Decoder → Prop) : Prop :=
  ∀ (h : H Url Device Encoder Decoder) (newValue : ℤ), 0 ≤ newValue → newValue ≤ qint32Max →
    R h (h.acceptInitialWindowSize newValue)

/-- The preface is sent. -/
def SendsPreface (R : H Url Device Encoder Decoder → H Url Device Encoder Decoder → Prop) : Prop :=
  ∀ h : H Url Device Encoder Decoder, R h h.sendClientPreface.1

/-- A promise is used for a request. -/
def TakesPromises (R : H Url Device Encoder Decoder → H Url Device Encoder Decoder → Prop) : Prop :=
  ∀ (h : H Url Device Encoder Decoder) (message : HttpMessagePair Url Device) promise,
    h.promisedData.lookup message.url = some promise →
    R h ({ h with promisedData := h.promisedData.erase message.url }.takePromisedStream
      promise.reservedID message)

/-- A request is sent on a new stream. -/
def StartsRequests (o : Outside Url Device Encoder Decoder)
    (R : H Url Device Encoder Decoder → H Url Device Encoder Decoder → Prop) : Prop :=
  ∀ (h : H Url Device Encoder Decoder) (message : HttpMessagePair Url Device),
    R h (h.createNewStream message).1 ∧ ((h.createNewStream message).2 ≠ 0 → ∀ rest,
      R h ({ (h.createNewStream message).1 with h2RequestsToSend := rest }.startRequest o
        (h.createNewStream message).2))

namespace Tolerant

variable {R : H Url Device Encoder Decoder → H Url Device Encoder Decoder → Prop}

theorem refl (t : Tolerant R) (h : H Url Device Encoder Decoder) : R h h := t.calm (Calm.refl h)

theorem connectionError (t : Tolerant R) (errorCode : Http2Error) (message : String)
    (h : H Url Device Encoder Decoder) : R h (h.connectionError errorCode message) := by
  have hwrite := @calm_write Url Device Encoder Decoder _ (.goaway errorCode) (by trivial)
    { h.log (.connectionError h.goingAway errorCode message) with goingAway := true }
  exact t.trans (t.fail h errorCode message) (t.calm (hwrite.trans (calm_closeSession _)))

theorem handlePRIORITY (t : Tolerant R) (frame : Frame) (h : H Url Device Encoder Decoder) :
    R h (h.handlePRIORITY frame) := by
  rw [Handler.handlePRIORITY]
  split
  · exact t.connectionError _ _ h
  · split
    · exact t.connectionError _ _ h
    · exact t.refl h

theorem handleRST_STREAM (t : Tolerant R) (frame : Frame) (h : H Url Device Encoder Decoder) :
    R h (h.handleRST_STREAM frame) := by
  rw [Handler.handleRST_STREAM]
  split
  · exact t.connectionError _ _ h
  · split
    · exact t.refl h
    · split
      · exact t.connectionError _ _ h
      · split
        · exact t.refl h
        · rename_i hmem
          exact t.calm (calm_peerReset (not_not.mp hmem))

theorem handlePING (t : Tolerant R) (frame : Frame) (h : H Url Device Encoder Decoder) :
    R h (h.handlePING frame) := by
  rw [Handler.handlePING]
  split
  · exact t.connectionError _ _ h
  · split
    · exact t.connectionError _ _ h
    · exact t.calm (calm_write (by trivial) h)

theorem handleGOAWAY (t : Tolerant R) (frame : Frame) (h : H Url Device Encoder Decoder) :
    R h (h.handleGOAWAY frame) := by
  rw [Handler.handleGOAWAY]
  split
  · exact t.connectionError _ _ h
  · split
    · exact t.calm (calm_goAway _ h)
    · split
      · exact t.connectionError _ _ h
      · split
        · split
          · exact t.connectionError _ _ h
          · exact t.calm (calm_goAway _ h)
        · exact t.calm (calm_goAway _ h)

theorem receiveBadFrame (t : Tolerant R) (status : FrameStatus) (h : H Url Device Encoder Decoder) :
    R h (h.receiveBadFrame status) := by
  unfold Handler.receiveBadFrame
  by_cases hr : (!h.receiving) = true
  · rw [if_pos hr]
    exact t.refl h
  · rw [if_neg hr]
    cases status with
    | protocolError => exact t.connectionError _ _ h
    | sizeError => exact t.connectionError _ _ h
    | _ => exact t.refl h

/-! ## Settings -/

theorem acceptSetting (t : Tolerant R)
    (hwindow : SetsWindows R)
    (identifier : UInt16) (newValue : UInt32) (h : H Url Device Encoder Decoder) :
    R h (h.acceptSetting o identifier newValue).1 := by
  rw [Handler.acceptSetting]
  split
  · split
    · exact t.connectionError _ _ h
    · exact t.calm (calm_encoder _ h)
  · exact t.calm (Calm.of_loose rfl rfl)
  · split
    · exact t.connectionError _ _ h
    · rename_i hfit
      exact hwindow h _ (Int.natCast_nonneg _) (Int.not_lt.mp hfit)
  · split
    · exact t.connectionError _ _ h
    · rename_i hfit
      have hsize : 0 < { h with maxFrameSize := newValue }.sizeLimit := by
        have hle : ¬newValue < minPayloadLimit := fun hl => hfit (Or.inl hl)
        rw [UInt32.lt_iff_toNat_lt] at hle
        have hmin : minPayloadLimit.toNat = 16384 := rfl
        have hmax : maxPayloadSize.toNat = 16777215 := rfl
        rw [sizeLimit, hmax]
        dsimp only
        omega
      exact t.calm { Calm.refl h with frameSize := fun _ => hsize }
  · exact t.calm (Calm.of_loose rfl rfl)
  · exact t.refl h

theorem acceptSettings (t : Tolerant R)
    (hwindow : SetsWindows R)
    (values : List UInt8) (h : H Url Device Encoder Decoder) :
    R h (Handler.acceptSettings o values h).1 := by
  fun_induction Handler.acceptSettings o values h with
  | case1 a b c d e f rest h h1 hset ih =>
    have hk := @acceptSetting _ _ _ _ _ o R t hwindow (qFromBigEndian16 [a, b])
      (qFromBigEndian32 [c, d, e, f]) h
    rw [hset] at hk
    exact t.trans hk ih
  | case2 a b c d e f rest h h1 ok hset hok =>
    have hk := @acceptSetting _ _ _ _ _ o R t hwindow (qFromBigEndian16 [a, b])
      (qFromBigEndian32 [c, d, e, f]) h
    rw [hset] at hk
    exact hk
  | case3 => exact t.refl _

theorem sendSETTINGS_ACK (t : Tolerant R)
    (hpreface : SendsPreface R)
    (h : H Url Device Encoder Decoder) : R h h.sendSETTINGS_ACK := by
  have hp := hpreface h
  rw [Handler.sendSETTINGS_ACK]
  generalize h.sendClientPreface = result at hp ⊢
  obtain ⟨h1, ok⟩ := result
  cases ok with
  | false => exact hp
  | true => exact t.trans hp (t.calm (calm_write (by trivial) h1))

theorem handleSETTINGS (t : Tolerant R)
    (hwindow : SetsWindows R)
    (hpreface : SendsPreface R)
    (frame : Frame) (h : H Url Device Encoder Decoder) : R h (h.handleSETTINGS o frame) := by
  rw [Handler.handleSETTINGS]
  split
  · exact t.connectionError _ _ h
  · split
    · split
      · exact t.calm (Calm.of_loose rfl rfl)
      · exact t.connectionError _ _ h
    · have hs := @acceptSettings _ _ _ _ _ o R t hwindow frame.data h
      dsimp only
      split
      · exact t.trans hs (t.sendSETTINGS_ACK hpreface _)
      · exact hs

/-! ## Headers -/

theorem handleHpackBlock (t : Tolerant R) {first : Frame}
    (hdecode : ∀ (h : H Url Device Encoder Decoder) block decoder,
      R h { h.log (.decoded block) with decoder := decoder })
    (hreserve : first.type = .PUSH_PROMISE → ∀ (h : H Url Device Encoder Decoder) header,
      R h (h.tryReserveStream o first header).1)
    (hreset : first.type = .PUSH_PROMISE → ∀ (h : H Url Device Encoder Decoder) reason,
      R h (h.resetPromisedStream first reason))
    (h : H Url Device Encoder Decoder) : R h (h.handleHpackBlock o first) := by
  rw [Handler.handleHpackBlock]
  dsimp only
  split
  · rename_i hempty
    exact hreset hempty.2 h _
  · generalize (if assemble_hpack_block h.continuedFrames ≠ [] then
      o.decodeHeaderFields h.decoder (assemble_hpack_block h.continuedFrames)
      else (h.decoder, some [])) = result
    obtain ⟨decoder, header⟩ := result
    have h1 : R h (if assemble_hpack_block h.continuedFrames ≠ [] then
        { h.log (.decoded (assemble_hpack_block h.continuedFrames)) with decoder := decoder }
        else h) := by
      split
      · exact hdecode h _ decoder
      · exact t.refl h
    dsimp only
    generalize (if assemble_hpack_block h.continuedFrames ≠ [] then
      { h.log (.decoded (assemble_hpack_block h.continuedFrames)) with decoder := decoder }
      else h) = decoded at h1 ⊢
    split
    · exact t.trans h1 (t.connectionError _ _ decoded)
    · rename_i header
      split
      · split
        · have h2 : R h (if assemble_hpack_block h.continuedFrames ≠ [] then
              decoded.updateStreamHeaders o first.streamID header else decoded) := by
            split
            · exact t.trans h1 (t.calm (calm_updateStreamHeaders first.streamID header decoded))
            · exact h1
          generalize (if assemble_hpack_block h.continuedFrames ≠ [] then
            decoded.updateStreamHeaders o first.streamID header else decoded) = updated at h2 ⊢
          split
          · exact t.trans h2 (t.calm (calm_endStream first.streamID updated))
          · exact h2
        · exact h1
      · rename_i htype
        have h2 := t.trans h1 (hreserve htype decoded header)
        split
        · exact h2
        · exact t.trans h2 (hreset htype _ _)
      · exact h1

theorem handleContinuedHEADERS (t : Tolerant R)
    (hblock : ∀ first rest, h.continuedFrames = first :: rest → R h (h.handleHpackBlock o first)) :
    R h (h.handleContinuedHEADERS o) := by
  rw [Handler.handleContinuedHEADERS]
  split
  · exact t.refl h
  · rename_i first rest hframes
    dsimp only
    split
    · split
      · rename_i hmem
        split
        · exact t.calm (calm_abandon _ hmem)
        · exact hblock first rest hframes
      · split
        · exact t.connectionError _ _ h
        · exact hblock first rest hframes
    · exact hblock first rest hframes

theorem handleHEADERS (t : Tolerant R) {frame : Frame}
    (hstart : ∀ h : H Url Device Encoder Decoder, R h (h.startHeaders o frame))
    (h : H Url Device Encoder Decoder) : R h (h.handleHEADERS o frame) := by
  rw [Handler.handleHEADERS]
  split
  · exact t.connectionError _ _ h
  · split
    · exact t.connectionError _ _ h
    · split
      · have hp := t.handlePRIORITY frame h
        dsimp only
        split
        · exact hp
        · exact t.trans hp (hstart _)
      · exact hstart h

theorem handlePUSH_PROMISE (t : Tolerant R) {frame : Frame}
    (hpromise : (frame.streamID ∈ h.activeStreams ∨ h.streamWasReset frame.streamID = true) →
      frame.word 0 &&& 1 = 0 → h.lastPromisedID < frame.word 0 →
      R h (({ h with lastPromisedID := frame.word 0 }.refusePromise frame).startHeaders o frame)) :
    R h (h.handlePUSH_PROMISE o frame) := by
  rw [Handler.handlePUSH_PROMISE]
  split
  · exact t.connectionError _ _ h
  · split
    · exact t.connectionError _ _ h
    · split
      · exact t.connectionError _ _ h
      · rename_i hknown
        split
        · exact t.connectionError _ _ h
        · rename_i hid
          rw [not_or, not_or, not_not, UInt32.not_le] at hid
          apply hpromise _ hid.1 hid.2.1
          by_contra hno
          rw [not_or, Bool.not_eq_true] at hno
          exact hknown hno

theorem handleFrame (t : Tolerant R) {frame : Frame} (hwindow : SetsWindows R)
    (hpreface : SendsPreface R)
    (hdata : frame.type = .DATA → R h (h.handleDATA o frame))
    (hheaders : frame.type = .HEADERS →
      ∀ h : H Url Device Encoder Decoder, R h (h.startHeaders o frame))
    (hpromise : frame.type = .PUSH_PROMISE → R h (h.handlePUSH_PROMISE o frame))
    (hupdate : frame.type = .WINDOW_UPDATE → R h (h.handleWINDOW_UPDATE frame))
    (hcontinuation : frame.type = .CONTINUATION → R h (h.handleCONTINUATION o frame)) :
    R h (h.handleFrame o frame) := by
  rw [Handler.handleFrame]
  cases htype : frame.type with
  | DATA => exact hdata htype
  | HEADERS => exact t.handleHEADERS (hheaders htype) h
  | PRIORITY => exact t.handlePRIORITY frame h
  | RST_STREAM => exact t.handleRST_STREAM frame h
  | SETTINGS => exact t.handleSETTINGS hwindow hpreface frame h
  | PUSH_PROMISE => exact hpromise htype
  | PING => exact t.handlePING frame h
  | GOAWAY => exact t.handleGOAWAY frame h
  | WINDOW_UPDATE => exact hupdate htype
  | CONTINUATION => exact hcontinuation htype
  | LAST_FRAME_TYPE => exact t.refl h

/-! ## Requests -/

theorem initReplyFromPushPromise (t : Tolerant R)
    (htake : TakesPromises R)
    (message : HttpMessagePair Url Device) (h : H Url Device Encoder Decoder) :
    R h (h.initReplyFromPushPromise o message) := by
  rw [Handler.initReplyFromPushPromise]
  split
  · exact t.refl h
  · rename_i promise hl
    have h2 := t.trans (htake h message promise hl)
      (t.calm (@calm_replayPromise _ _ _ _ _ o promise _))
    dsimp only
    split
    · exact h2
    · exact t.trans h2 (t.calm (calm_endStream promise.reservedID _))

theorem usePromises (t : Tolerant R)
    (htake : TakesPromises R)
    (messages : List (HttpMessagePair Url Device)) (h : H Url Device Encoder Decoder) :
    R h (Handler.usePromises o messages h).1 := by
  induction messages generalizing h with
  | nil => exact t.refl h
  | cons message messages ih =>
    rw [Handler.usePromises]
    split
    · exact t.trans (t.initReplyFromPushPromise htake message h) (ih _)
    · exact ih h

theorem startRequest (t : Tolerant R) {id : UInt32}
    (hsend : ∀ h', Calm h h' → id ∈ h'.activeStreams → R h' (h'.sendDATA o id).1) :
    R h (h.startRequest o id) := by
  have hc := @calm_sendHEADERS _ _ _ _ _ o id h
  rw [Handler.startRequest]
  generalize h.sendHEADERS o id = result at hc ⊢
  obtain ⟨h1, ok⟩ := result
  dsimp only at hc ⊢
  split
  · exact t.calm ((hc.trans (calm_finishStreamWithError id h1)).trans (calm_deleteActiveStream id _))
  · split
    · rename_i hdata
      have hmem : id ∈ h1.activeStreams := by
        obtain ⟨data, hdata⟩ := Option.isSome_iff_exists.mp hdata
        obtain ⟨pair, hpair, -⟩ := Option.bind_eq_some_iff.mp hdata
        exact mem_of_pair hpair
      have hs := t.trans (t.calm hc) (hsend h1 hc hmem)
      split
      · exact hs
      · exact t.trans hs (t.calm (calm_abandon _ (mem_sendDATA hmem)))
    · exact t.calm hc

theorem startRequests (t : Tolerant R)
    (hnew : StartsRequests o R)
    (rounds : ℕ) (h : H Url Device Encoder Decoder) :
    R h (Handler.startRequests o rounds h) := by
  induction rounds generalizing h with
  | zero => exact t.refl h
  | succ rounds ih =>
    rw [Handler.startRequests]
    split
    · exact t.refl h
    · rename_i message rest _
      obtain ⟨hopened, hstarted⟩ := hnew h message
      dsimp only
      split
      · exact hopened
      · rename_i hid
        exact t.trans (hstarted hid rest) (ih _)

theorem sendRequest (t : Tolerant R)
    (hpreface : SendsPreface R)
    (htake : TakesPromises R)
    (hnew : StartsRequests o R)
    (h : H Url Device Encoder Decoder) : R h (h.sendRequest o) := by
  have hrequests : ∀ requests (h : H Url Device Encoder Decoder),
      R h { h with h2RequestsToSend := requests } := fun requests h =>
    t.calm (calm_requests requests h)
  rw [Handler.sendRequest]
  split
  · exact hrequests _ h
  · dsimp only
    generalize h.h2RequestsToSend.filter (fun message => !message.preconnect) = requests
    have h1 := hrequests requests h
    split
    · exact h1
    · have h2 := t.trans h1 (hpreface _)
      generalize { h with h2RequestsToSend := requests }.sendClientPreface = result at h2 ⊢
      obtain ⟨prefaced, ok⟩ := result
      dsimp only at h2 ⊢
      split
      · exact h2
      · have h3 := t.trans (hrequests [] prefaced)
          (@usePromises _ _ _ _ _ o R t htake requests _)
        exact t.trans (t.trans h2 h3)
          (t.trans (hrequests _ _) (@startRequests _ _ _ _ _ o R t hnew _ _))

/-! ## Uploads -/

theorem uploadDataReadyRead (t : Tolerant R) {id : UInt32} (ha : id ∈ h.activeStreams)
    (hsend : R h (h.sendDATA o id).1) : R h (h.uploadDataReadyRead o id) := by
  rw [Handler.uploadDataReadyRead]
  dsimp only
  split
  · exact hsend
  · exact t.trans hsend (t.calm (calm_abandon _ (mem_sendDATA ha)))

end Tolerant

end Handler

end Http2

end QtBase
