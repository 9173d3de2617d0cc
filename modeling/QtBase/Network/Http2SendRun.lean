import QtBase.Network.Http2SendAccounts

/-! The accounts of what is sent, over all that can happen to the handler. -/
namespace QtBase

open List

namespace Http2

namespace Handler

variable {Url Device Encoder Decoder : Type} [DecidableEq Url]

variable {o : Outside Url Device Encoder Decoder} {h h' : H Url Device Encoder Decoder}

/-! ## A payload -/

omit [DecidableEq Url] in
theorem stream_lookedAt (streamID : UInt32) (data : Device) (h : H Url Device Encoder Decoder) :
    ((h.lookedAt streamID data).stream streamID).sendWindow = (h.stream streamID).sendWindow := by
  rw [lookedAt, Handler.stream, Handler.stream, lookup_updateActive, if_pos rfl]
  cases h.activeStreams.lookup streamID <;> rfl

omit [DecidableEq Url] in
theorem slot_lookedAt (streamID : UInt32) (data : Device) (h : H Url Device Encoder Decoder) :
    (h.lookedAt streamID data).slot streamID = h.slot streamID := by
  have hsession : (h.lookedAt streamID data).sessionSendWindowSize = h.sessionSendWindowSize :=
    congrArg Frozen.sessionSendWindowSize (updateActive_frozen _ _)
  rw [slot, slot, stream_lookedAt, hsession]

theorem bytesWritten_bounds {slot len : ℤ} (h0 : 0 < slot) (hne : len ≠ -1) (hne' : len ≠ 0)
    (hlen : -1 ≤ len ∧ len < 2 ^ 31) :
    0 < min slot (len.bmod (2 ^ 32)) ∧ min slot (len.bmod (2 ^ 32)) ≤ slot := by
  have hmod : len.bmod (2 ^ 32) = len := by
    apply Int.bmod_eq_of_le <;> omega
  omega

variable {id : UInt32}

theorem sendInvariant_writeDATA {size : ℤ} {stream : Stream Url Device}
    (hi : h.SendInvariant allStreams) (hodd : id &&& 1 = 1)
    (hl : h.activeStreams.lookup id = some stream) (hpair : stream.httpPair.isSome = true)
    (h0 : 0 < size) (hfit : size ≤ min h.sessionSendWindowSize stream.sendWindow) :
    let logged := h.log (.payload id size h.sessionSendWindowSize stream.sendWindow)
    ((logged.writeDATA id size).2 = false →
      (logged.writeDATA id size).1.SendInvariant allStreams) ∧
    ((logged.writeDATA id size).2 = true →
      ((logged.writeDATA id size).1.payloadWritten o id size).SendInvariant allStreams) := by
  intro logged
  have hmax : qint32Max = 2 ^ 31 - 1 := rfl
  have hrange := hi.session
  obtain ⟨n, sizes, he, hn, hsum, hfail, -, hpos, hnone⟩ := writeDATA_eq id size logged
  have hle : (sizes.sum : ℤ) ≤ size := by omega
  have hgrants : sizes ≠ [] →
      dataSentOn id logged.trace + (sizes.sum : ℕ) ≤ Http2.streamGrant id logged.trace ∧
      dataSent logged.trace + (sizes.sum : ℕ) ≤ Http2.sessionGrant logged.trace := by
    intro hne
    have hsocket : h.socket ≠ 0 := fun hs => hne (hnone hs)
    have hst := hi.streamGrant hsocket id stream (fun hno => hno) hl hodd hpair
    have hse := hi.sessionGrant hsocket
    change dataSentOn id h.trace + (sizes.sum : ℕ) ≤ Http2.streamGrant id h.trace ∧
      dataSent h.trace + (sizes.sum : ℕ) ≤ Http2.sessionGrant h.trace
    omega
  obtain ⟨hw, hsent, hsentOn, hsession, hinitial, hinc⟩ := within_sizes
    (show WithinGrants logged.trace from ⟨⟨h0, hfit⟩, hi.within⟩) (hpos hi.frameSize)
    (fun hne => (hgrants hne).1) (fun hne => (hgrants hne).2)
  have htrace : (logged.sentFrames n (sizes.map (Outbound.data id))).trace =
      sizes.map (fun size => Action.sent (.data id size)) ++ logged.trace := by
    rw [sentFrames, map_map]
    rfl
  have hinit : h.streamInitialSendWindowSize =
      initialGrant (logged.sentFrames n (sizes.map (Outbound.data id))).trace := by
    rw [htrace, hinitial]
    exact hi.initial
  have hwithin : WithinGrants (logged.sentFrames n (sizes.map (Outbound.data id))).trace := by
    rw [htrace]
    exact hw
  rw [he]
  constructor
  · intro hok
    have hn0 : n = 0 := hfail hok
    exact ⟨hi.nextID, hi.suspended, hi.promised, hi.pending, hi.frameSize, hi.session, hinit,
      hi.initial_range, hi.streams, fun hs => absurd hn0 hs, fun hs => absurd hn0 hs, hwithin⟩
  · intro _
    have hl' : (logged.sentFrames n (sizes.map (Outbound.data id))).activeStreams.lookup id =
        some stream := hl
    rw [payloadWritten, updateActive, hl']
    have hsocket : n ≠ 0 → h.socket ≠ 0 := by
      have hn' : n ≤ h.socket := hn
      omega
    refine ⟨hi.nextID, hi.suspended, hi.promised, hi.pending, hi.frameSize, ?_, hinit,
      hi.initial_range, ?_, ?_, ?_, hwithin⟩
    · change 0 ≤ h.sessionSendWindowSize - size ∧ h.sessionSendWindowSize - size ≤ qint32Max
      omega
    · intro id' stream' hl'
      change AList.lookup id' (h.activeStreams.insert id _) = some stream' at hl'
      by_cases hid : id' = id
      · rw [hid, AList.lookup_insert] at hl'
        rw [← Option.some.inj hl']
        have hst := hi.streams id stream hl
        have hmin : qint32Min = -2 ^ 31 := rfl
        constructor
        · change qint32Min ≤ stream.sendWindow - size
          omega
        · change stream.sendWindow - size ≤ qint32Max
          have := hst.2
          omega
      · rw [AList.lookup_insert_ne hid] at hl'
        exact hi.streams id' stream' hl'
    · intro hs
      have hg := hi.sessionGrant (hsocket hs)
      change h.sessionSendWindowSize - size +
        dataSent (logged.sentFrames n (sizes.map (Outbound.data id))).trace ≤
        Http2.sessionGrant (logged.sentFrames n (sizes.map (Outbound.data id))).trace
      rw [htrace, hsent, hsession]
      change h.sessionSendWindowSize - size + (dataSent h.trace + (sizes.sum : ℕ)) ≤
        Http2.sessionGrant h.trace
      omega
    · intro hs id' stream' hskip hl' hodd' hpair'
      change AList.lookup id' (h.activeStreams.insert id _) = some stream' at hl'
      change stream'.sendWindow +
        dataSentOn id' (logged.sentFrames n (sizes.map (Outbound.data id))).trace ≤
        initialGrant (logged.sentFrames n (sizes.map (Outbound.data id))).trace +
          incrementsOn id' (logged.sentFrames n (sizes.map (Outbound.data id))).trace
      rw [htrace, hsentOn, hinitial, hinc]
      change stream'.sendWindow + ((if id = id' then ((sizes.sum : ℕ) : ℤ) else 0) +
        dataSentOn id' h.trace) ≤ initialGrant h.trace + incrementsOn id' h.trace
      by_cases hid : id' = id
      · rw [hid, AList.lookup_insert] at hl'
        have hg := hi.streamGrant (hsocket hs) id stream (fun hno => hno) hl hodd hpair
        rw [Http2.streamGrant] at hg
        rw [← Option.some.inj hl', hid, if_pos rfl]
        change stream.sendWindow - size + ((sizes.sum : ℕ) + dataSentOn id h.trace) ≤ _
        omega
      · rw [AList.lookup_insert_ne hid] at hl'
        have hg := hi.streamGrant (hsocket hs) id' stream' hskip hl' hodd' hpair'
        rw [if_neg (Ne.symm hid), Int.zero_add]
        exact hg

/-! ## `sendDATA` -/

theorem sendInvariant_addToSuspended (hodd : id &&& 1 = 1) (priority : Priority)
    (hi : h.SendInvariant allStreams) : (h.addToSuspended id priority).SendInvariant allStreams := by
  refine ⟨hi.nextID, ?_, hi.promised, hi.pending, hi.frameSize, hi.session, hi.initial,
    hi.initial_range, hi.streams, hi.sessionGrant, hi.streamGrant, hi.within⟩
  intro p id' hid'
  change id' ∈ (if p = priority then h.suspendedStreams p ++ [id] else h.suspendedStreams p) at hid'
  split at hid'
  · obtain hid' | hid' := mem_append.mp hid'
    · exact hi.suspended p id' hid'
    · rw [mem_singleton.mp hid']
      exact hodd
  · exact hi.suspended p id' hid'

theorem sendInvariant_finishDATA (hodd : id &&& 1 = 1)
    (hi : h.SendInvariant allStreams) : (h.finishDATA o id).SendInvariant allStreams := by
  rw [finishDATA]
  split
  · exact hi
  · split
    · exact (calm_endUpload id h).sendInvariant hi
    · split
      · exact hi
      · exact sendInvariant_addToSuspended hodd _ hi

omit [DecidableEq Url] in
theorem slot_writeDATA (id : UInt32) (size : ℤ) (h : H Url Device Encoder Decoder) :
    (h.writeDATA id size).1.slot id = h.slot id := by
  obtain ⟨n, sizes, he, -⟩ := writeDATA_eq id size h
  rw [he]
  rfl

omit [DecidableEq Url] in
theorem slot_payloadWritten {size : ℤ} {stream : Stream Url Device}
    (hl : h.activeStreams.lookup id = some stream) :
    (h.payloadWritten o id size).slot id = h.slot id - size := by
  have hs : ((h.payloadWritten o id size).stream id).sendWindow = (h.stream id).sendWindow - size := by
    rw [Handler.stream, payloadWritten]
    dsimp only
    rw [lookup_updateActive, if_pos rfl, Handler.stream, hl]
    rfl
  rw [slot, hs, slot]
  change min (h.sessionSendWindowSize - size) _ = _
  omega

theorem sendInvariant_sendDATALoop {id : UInt32} (hodd : id &&& 1 = 1) (rounds : ℕ)
    (hi : h.SendInvariant allStreams) (hslot : 0 ≤ h.slot id) :
    (sendDATALoop o id rounds (h.slot id) h).1.SendInvariant allStreams := by
  suffices hboth : (sendDATALoop o id rounds (h.slot id) h).1.SendInvariant allStreams ∧
      0 ≤ (sendDATALoop o id rounds (h.slot id) h).1.slot id from hboth.1
  refine sendDATALoop_induction (P := fun h1 => h1.SendInvariant allStreams ∧ 0 ≤ h1.slot id)
    ?_ ?_ rounds h ⟨hi, hslot⟩
  · intro h1 data hP
    refine ⟨(calm_updatePair _ h1).sendInvariant hP.1, ?_⟩
    rw [slot_lookedAt]
    exact hP.2
  · intro h1 data pair slot hP hpair hdata _ hslot0 hslot hend hnone looked bytesWritten logged
    have hmax : qint32Max = 2 ^ 31 - 1 := rfl
    have hi1 : looked.SendInvariant allStreams := (calm_updatePair _ h1).sendInvariant hP.1
    have hpos := hP.2
    have hsession := hP.1.session
    have hslot1 : looked.slot id = slot := (slot_lookedAt id _ h1).trans hslot.symm
    have hle : slot ≤ h1.sessionSendWindowSize := by
      rw [hslot, Handler.slot]
      exact Int.min_le_left _ _
    have hlen := o.readPointer_len data slot (by omega) (by omega)
    have hbytes := bytesWritten_bounds (show 0 < slot by omega) hend hnone hlen
    obtain ⟨stream, hl⟩ := Option.isSome_iff_exists.mp (AList.lookup_isSome.mpr (mem_of_pair hpair))
    obtain ⟨stream', hl', hpair'⟩ : ∃ stream', looked.activeStreams.lookup id = some stream' ∧
        stream'.httpPair.isSome = true := by
      refine ⟨_, (lookup_updateActive.trans (if_pos rfl)).trans (congrArg _ hl), ?_⟩
      rw [stream_of_lookup hl] at hpair
      change (stream.httpPair.map _).isSome = true
      rw [hpair]
      rfl
    have hs : looked.stream id = stream' := stream_of_lookup hl'
    have hlogged : logged = looked.log (.payload id bytesWritten looked.sessionSendWindowSize
        stream'.sendWindow) := by
      rw [← hs]
    have hfit : bytesWritten ≤ min looked.sessionSendWindowSize stream'.sendWindow := by
      rw [← hs]
      exact Int.le_trans hbytes.2 (Int.le_of_eq hslot1.symm)
    have hwritten := sendInvariant_writeDATA (o := o) hi1 hodd hl' hpair' hbytes.1 hfit
    have hwrittenSlot : (logged.writeDATA id bytesWritten).1.slot id = slot :=
      (slot_writeDATA id bytesWritten logged).trans hslot1
    have hl'' : (logged.writeDATA id bytesWritten).1.activeStreams.lookup id = some stream' := by
      obtain ⟨n, sizes, he, -⟩ := writeDATA_eq id bytesWritten logged
      rw [he]
      exact hl'
    rw [← hlogged] at hwritten
    constructor
    · intro hok
      refine ⟨hwritten.1 hok, ?_⟩
      omega
    · intro hok
      refine ⟨hwritten.2 hok, ?_⟩
      rw [slot_payloadWritten hl'', hwrittenSlot]
      have := hbytes.2
      omega

theorem sendInvariant_sendDATA (hodd : id &&& 1 = 1) (hslot : 0 ≤ h.slot id)
    (hi : h.SendInvariant allStreams) : (h.sendDATA o id).1.SendInvariant allStreams := by
  have hloop := @sendInvariant_sendDATALoop _ _ _ _ _ o _ _ hodd ((h.slot id).natAbs + 1) hi hslot
  rw [sendDATA]
  generalize sendDATALoop o id ((h.slot id).natAbs + 1) (h.slot id) h = result at hloop ⊢
  obtain ⟨h1, returned⟩ := result
  cases returned with
  | some b => exact hloop
  | none => exact sendInvariant_finishDATA hodd hloop

/-- The device of a stream has no data that could be sent now. -/
def NothingToWrite (o : Outside Url Device Encoder Decoder) (h : H Url Device Encoder Decoder)
    (id : UInt32) : Prop :=
  ∀ pair data, (h.stream id).httpPair = some pair → pair.data = some data →
    pair.totallyUploadedData < pair.contentLength →
    (o.readPointer data (h.slot id)).2.2 = -1 ∨ (o.readPointer data (h.slot id)).2.1 = false ∨
      (o.readPointer data (h.slot id)).2.2 = 0

theorem sendInvariant_nothingToWrite (hodd : id &&& 1 = 1) (hnothing : h.NothingToWrite o id)
    (hi : h.SendInvariant allStreams) :
    (h.sendDATA o id).1.SendInvariant allStreams := by
  have hlooked : ∀ data, (h.lookedAt id data).SendInvariant allStreams := fun data =>
    (calm_updatePair _ h).sendInvariant hi
  have hloop : (sendDATALoop o id ((h.slot id).natAbs + 1) (h.slot id) h).1.SendInvariant
      allStreams := by
    rw [sendDATALoop]
    split
    · exact hi
    · rename_i pair hpair
      split
      · exact hi
      · rename_i data hdata
        split
        · rename_i hguard
          have hnone := hnothing pair data hpair hdata hguard.1
          dsimp only
          split
          · exact hlooked _
          · rename_i hend
            rw [if_pos]
            · exact hlooked _
            · obtain hnone | hnone | hnone := hnone
              · exact absurd hnone hend
              · simp [hnone]
              · simp [hnone]
        · exact hi
  rw [sendDATA]
  generalize sendDATALoop o id ((h.slot id).natAbs + 1) (h.slot id) h = result at hloop ⊢
  obtain ⟨h1, returned⟩ := result
  cases returned with
  | some b => exact hloop
  | none => exact sendInvariant_finishDATA hodd hloop

/-! ## Streams that are opened -/

theorem sendInvariant_open {id : UInt32} {stream : Stream Url Device}
    (hi : h.SendInvariant allStreams) (hrange : InRange stream.sendWindow)
    (hgrant : id &&& 1 = 1 → stream.httpPair.isSome = true →
      stream.sendWindow ≤ h.streamInitialSendWindowSize) :
    { h.log (.opened id) with
      activeStreams := h.activeStreams.insert id stream }.SendInvariant allStreams := by
  refine ⟨hi.nextID, hi.suspended, hi.promised, hi.pending, hi.frameSize, hi.session, hi.initial,
    hi.initial_range, ?_, hi.sessionGrant, ?_, hi.within⟩
  · intro id' stream' hl
    change AList.lookup id' (h.activeStreams.insert id stream) = some stream' at hl
    by_cases hid : id' = id
    · rw [hid, AList.lookup_insert] at hl
      rw [← Option.some.inj hl]
      exact hrange
    · rw [AList.lookup_insert_ne hid] at hl
      exact hi.streams id' stream' hl
  · intro hs id' stream' hskip hl hodd hpair
    change AList.lookup id' (h.activeStreams.insert id stream) = some stream' at hl
    change stream'.sendWindow + (if id = id' then 0 else dataSentOn id' h.trace) ≤
      initialGrant h.trace + (if id = id' then 0 else incrementsOn id' h.trace)
    by_cases hid : id' = id
    · rw [hid, AList.lookup_insert] at hl
      rw [← Option.some.inj hl] at hpair ⊢
      have hg := hgrant (hid ▸ hodd) hpair
      have hinit := hi.initial
      rw [if_pos hid.symm, if_pos hid.symm]
      omega
    · rw [AList.lookup_insert_ne hid] at hl
      rw [if_neg (Ne.symm hid), if_neg (Ne.symm hid)]
      exact hi.streamGrant hs id' stream' hskip hl hodd hpair

theorem odd_add_two (hodd : id &&& 1 = 1) : (id + 2) &&& 1 = 1 := by
  rw [← UInt32.toNat_inj, UInt32.toNat_and] at hodd ⊢
  rw [UInt32.toNat_add]
  have hone : (1 : UInt32).toNat = 1 := rfl
  have htwo : (2 : UInt32).toNat = 2 := rfl
  rw [hone, Nat.and_one_is_mod] at hodd ⊢
  omega

theorem SendInvariant.initial_inRange (hi : h.SendInvariant allStreams) :
    InRange h.streamInitialSendWindowSize := by
  have hr := hi.initial_range
  have hmin : qint32Min = -2 ^ 31 := rfl
  exact ⟨by omega, hr.2⟩

theorem sendInvariant_createNewStream (message : HttpMessagePair Url Device)
    (hi : h.SendInvariant allStreams) :
    (h.createNewStream message).1.SendInvariant allStreams := by
  rw [createNewStream]
  split
  · exact hi
  · have hopen := @sendInvariant_open _ _ _ _ _ h h.nextID
      { httpPair := some message
        streamID := h.nextID
        sendWindow := h.streamInitialSendWindowSize
        recvWindow := h.streamInitialReceiveWindowSize } hi hi.initial_inRange
      (fun _ _ => Int.le_refl _)
    exact ⟨odd_add_two hi.nextID, hopen.suspended, hopen.promised, hopen.pending, hopen.frameSize,
      hopen.session, hopen.initial, hopen.initial_range, hopen.streams, hopen.sessionGrant,
      hopen.streamGrant, hopen.within⟩

omit [DecidableEq Url] in
theorem createNewStream_lookup {message : HttpMessagePair Url Device}
    (hid : (h.createNewStream message).2 ≠ 0) :
    (h.createNewStream message).2 = h.nextID ∧
    (h.createNewStream message).1.sessionSendWindowSize = h.sessionSendWindowSize ∧
    ∃ stream, (h.createNewStream message).1.activeStreams.lookup (h.createNewStream message).2 =
      some stream ∧ stream.sendWindow = h.streamInitialSendWindowSize := by
  rw [createNewStream] at hid ⊢
  by_cases hlast : h.nextID > lastValidStreamID
  · rw [if_pos hlast] at hid
    exact absurd rfl hid
  · rw [if_neg hlast]
    exact ⟨rfl, rfl, { httpPair := some message
                       streamID := h.nextID
                       sendWindow := h.streamInitialSendWindowSize
                       recvWindow := h.streamInitialReceiveWindowSize },
      AList.lookup_insert _, rfl⟩

theorem startsRequests_sendInvariant : StartsRequests o fun h h' : H Url Device Encoder Decoder =>
    h.SendInvariant allStreams → h'.SendInvariant allStreams := by
  intro h message
  refine ⟨sendInvariant_createNewStream message, ?_⟩
  intro hid rest
  obtain ⟨hnew, hsession, stream, hl, hwindow⟩ := createNewStream_lookup hid
  intro hi
  have hodd : (h.createNewStream message).2 &&& 1 = 1 := by
    rw [hnew]
    exact hi.nextID
  have hi1 : { (h.createNewStream message).1 with h2RequestsToSend := rest }.SendInvariant
      allStreams := (calm_requests rest _).sendInvariant (sendInvariant_createNewStream message hi)
  revert hi1
  refine Tolerant.startRequest tolerant_sendInvariant ?_
  intro h' c _ hi'
  apply sendInvariant_sendDATA hodd _ hi'
  have hpos := hi.session.1
  have hinitial := hi.initial_range.1
  have hs' : h'.sessionSendWindowSize = h.sessionSendWindowSize :=
    (congrArg Frozen.sessionSendWindowSize c.frozen).trans hsession
  rw [slot, hs', Handler.stream]
  cases hl' : h'.activeStreams.lookup (h.createNewStream message).2 with
  | none =>
    change 0 ≤ min h.sessionSendWindowSize 65535
    omega
  | some stream' =>
    obtain ⟨before, hbefore, hw⟩ := c.streams _ _ hl'
    have he : stream = before := Option.some.inj (hl.symm.trans hbefore)
    change 0 ≤ min h.sessionSendWindowSize stream'.sendWindow
    rw [hw.send, ← he, hwindow]
    omega

theorem sendInvariant_promises {promised : AList fun _ : Url => PushPromise}
    (hp : ∀ key promise, promised.lookup key = some promise → promise.reservedID &&& 1 = 0)
    (hi : h.SendInvariant allStreams) :
    { h with promisedData := promised }.SendInvariant allStreams :=
  ⟨hi.nextID, hi.suspended, hp, hi.pending, hi.frameSize, hi.session, hi.initial, hi.initial_range,
    hi.streams, hi.sessionGrant, hi.streamGrant, hi.within⟩

theorem not_odd_of_even (heven : id &&& 1 = 0) (hodd : id &&& 1 = 1) : False := by
  rw [heven] at hodd
  exact absurd hodd (by decide)

theorem takesPromises_sendInvariant : TakesPromises fun h h' : H Url Device Encoder Decoder =>
    h.SendInvariant allStreams → h'.SendInvariant allStreams := by
  intro h message promise hl hi
  have heven := hi.promised _ promise hl
  have hi' : { h with promisedData := h.promisedData.erase message.url }.SendInvariant
      allStreams := by
    apply sendInvariant_promises _ hi
    intro key promise' hp
    by_cases hk : key = message.url
    · rw [hk, AList.lookup_erase] at hp
      simp at hp
    · rw [AList.lookup_erase_ne hk] at hp
      exact hi.promised key promise' hp
  rw [takePromisedStream]
  split
  · rw [updateActive]
    split
    · exact hi'
    · rename_i stream hs
      exact hi'.insert (hi'.streams _ stream hs)
        (fun _ _ hodd => (not_odd_of_even heven hodd).elim)
  · exact sendInvariant_open hi' hi'.initial_inRange
      (fun hodd => (not_odd_of_even heven hodd).elim)

/-! ## Headers and promises -/

theorem default_inRange : InRange 65535 := by
  constructor <;> decide

theorem sendInvariant_tryReserveStream {frame : Frame} (requestHeader : HttpHeader)
    (heven : frame.word 0 &&& 1 = 0) (hi : h.SendInvariant allStreams) :
    (h.tryReserveStream o frame requestHeader).1.SendInvariant allStreams := by
  rw [tryReserveStream]
  dsimp only
  generalize hreserving : Action.reserving (decide (frame.streamID ∈ h.activeStreams))
    (decide (frame.word 0 ∈ h.activeStreams)) (h.streamWasReset (frame.word 0)) = reserving
  have hneutral : reserving.SendNeutral := by
    rw [← hreserving]
    trivial
  have hlog := (keepsSend_log hneutral h).invariant hi
  generalize h.log reserving = h1 at hlog ⊢
  split
  · exact hlog
  · rename_i url _
    have hassociated : (if frame.streamID ∈ h1.activeStreams then h1
        else { h1.log .undefined with
          activeStreams := h1.activeStreams.insert frame.streamID {} }).SendInvariant
        allStreams := by
      split
      · exact hlog
      · have hundefined : (h1.log .undefined).SendInvariant allStreams :=
          (keepsSend_log (by trivial) h1).invariant hlog
        apply hundefined.insert default_inRange
        intro _ _ _ hpair
        simp at hpair
    generalize (if frame.streamID ∈ h1.activeStreams then h1 else { h1.log .undefined with
      activeStreams := h1.activeStreams.insert frame.streamID {} }) = h2 at hassociated ⊢
    split
    · exact hassociated
    · split
      · exact hassociated
      · have hopen := @sendInvariant_open _ _ _ _ _ h2 (frame.word 0)
          { streamID := frame.word 0
            recvWindow := h2.streamInitialReceiveWindowSize
            state := .remoteReserved
            key := some url } hassociated default_inRange
          (fun hodd => (not_odd_of_even heven hodd).elim)
        have hpromised : ∀ key promise, (h2.promisedData.insert url
            { reservedID := frame.word 0, pushHeader := requestHeader }).lookup key = some promise →
            promise.reservedID &&& 1 = 0 := by
          intro key promise hp
          by_cases hk : key = url
          · rw [hk, AList.lookup_insert] at hp
            rw [← Option.some.inj hp]
            exact heven
          · rw [AList.lookup_insert_ne hk] at hp
            exact hassociated.promised key promise hp
        exact sendInvariant_promises hpromised hopen

theorem keepsSend_resetPromisedStream (frame : Frame) (reason : Http2Error)
    (h : H Url Device Encoder Decoder) : KeepsSend h (h.resetPromisedStream frame reason) :=
  (calm_sendRST_STREAM _ reason h).keepsSend.trans (KeepsSend.of_same rfl rfl rfl)

theorem sendInvariant_handleContinuedHEADERS (hi : h.SendInvariant allStreams) :
    (h.handleContinuedHEADERS o).SendInvariant allStreams := by
  have hpending := hi.pending
  revert hi
  apply tolerant_sendInvariant.handleContinuedHEADERS
  intro first rest hframes
  apply tolerant_sendInvariant.handleHpackBlock
  · intro h block decoder hi
    have hdecoder : KeepsSend (h.log (.decoded block))
        { h.log (.decoded block) with decoder := decoder } := KeepsSend.of_same rfl rfl rfl
    exact hdecoder.invariant ((keepsSend_log (by trivial) h).invariant hi)
  · intro htype h header
    exact sendInvariant_tryReserveStream header (hpending first rest hframes htype)
  · intro _ h reason
    exact (keepsSend_resetPromisedStream first reason h).invariant

theorem sendInvariant_continued {frames : List Frame} (expected : Bool)
    (hp : ∀ first rest, frames = first :: rest → first.type = .PUSH_PROMISE →
      first.word 0 &&& 1 = 0) (hi : h.SendInvariant allStreams) :
    { h with
      continuedFrames := frames
      continuationExpected := expected }.SendInvariant allStreams :=
  ⟨hi.nextID, hi.suspended, hi.promised, hp, hi.frameSize, hi.session, hi.initial, hi.initial_range,
    hi.streams, hi.sessionGrant, hi.streamGrant, hi.within⟩

theorem sendInvariant_startHeaders {frame : Frame}
    (heven : frame.type = .PUSH_PROMISE → frame.word 0 &&& 1 = 0)
    (hi : h.SendInvariant allStreams) : (h.startHeaders o frame).SendInvariant allStreams := by
  have hp : ∀ first rest, [frame] = first :: rest → first.type = .PUSH_PROMISE →
      first.word 0 &&& 1 = 0 := by
    intro first rest he htype
    rw [← (List.cons.inj he).1] at htype ⊢
    exact heven htype
  rw [startHeaders]
  split
  · exact sendInvariant_handleContinuedHEADERS
      (sendInvariant_continued h.continuationExpected hp hi)
  · exact @sendInvariant_continued _ _ _ _ _ h [frame] true hp hi

theorem sendInvariant_handlePUSH_PROMISE (frame : Frame) (hi : h.SendInvariant allStreams) :
    (h.handlePUSH_PROMISE o frame).SendInvariant allStreams := by
  revert hi
  apply tolerant_sendInvariant.handlePUSH_PROMISE
  intro _ heven _ hi
  have hlast : KeepsSend h { h with lastPromisedID := frame.word 0 } := KeepsSend.of_same rfl rfl rfl
  apply sendInvariant_startHeaders (fun _ => heven)
  rw [refusePromise]
  split
  · exact hlast.invariant hi
  · exact (keepsSend_resetPromisedStream _ _ _).invariant
      ((keepsSend_log (by trivial) _).invariant (hlast.invariant hi))

theorem sendInvariant_handleCONTINUATION (frame : Frame) (hi : h.SendInvariant allStreams) :
    (h.handleCONTINUATION o frame).SendInvariant allStreams := by
  rw [handleCONTINUATION]
  split
  · exact (keepsSend_log (by trivial) h).invariant hi
  · rename_i front rest hframes
    have hp : ∀ first rest, h.continuedFrames ++ [frame] = first :: rest →
        first.type = .PUSH_PROMISE → first.word 0 &&& 1 = 0 := by
      intro first rest' he
      rw [hframes, cons_append] at he
      rw [← (List.cons.inj he).1]
      exact hi.pending front rest hframes
    split
    · exact tolerant_sendInvariant.connectionError _ _ h hi
    · dsimp only
      split
      · exact sendInvariant_handleContinuedHEADERS (sendInvariant_continued false hp hi)
      · exact sendInvariant_continued h.continuationExpected hp hi

/-! ## What does not concern the windows to send -/

theorem keepsSend_updateRecv (id : UInt32) (window : Stream Url Device → ℤ)
    (h : H Url Device Encoder Decoder) :
    KeepsSend h (h.updateActive id fun stream => { stream with recvWindow := window stream }) := by
  rw [updateActive]
  split
  · exact KeepsSend.refl h
  · rename_i stream hl
    refine KeepsSend.of_sendState ?_ ?_ ?_
    · rfl
    · intro id' stream' hl'
      change AList.lookup id' (h.activeStreams.insert id _) = some stream' at hl'
      by_cases hid : id' = id
      · rw [hid, AList.lookup_insert] at hl'
        rw [hid, ← Option.some.inj hl']
        exact ⟨stream, hl, rfl, rfl⟩
      · rw [AList.lookup_insert_ne hid] at hl'
        exact ⟨stream', hl', rfl, rfl⟩
    · exact ⟨[], rfl, by simp⟩

theorem keepsSend_invoke (id delta : UInt32) (h : H Url Device Encoder Decoder) :
    KeepsSend h (h.invokeSendWINDOW_UPDATE id delta) :=
  (keepsSend_log (by trivial) h).trans (KeepsSend.of_same rfl rfl rfl)

theorem keepsSend_handleStreamDATA {frame : Frame} (ha : frame.streamID ∈ h.activeStreams) :
    KeepsSend h (h.handleStreamDATA o frame) := by
  rw [handleStreamDATA]
  split
  · exact (calm_abandon _ ha).keepsSend
  · dsimp only
    have hk := (keepsSend_updateRecv frame.streamID
      (fun stream => stream.recvWindow - frame.payloadSize.toNat) h).trans
      (calm_updateStreamData frame.streamID frame _).keepsSend
    generalize (h.updateActive frame.streamID fun stream =>
      { stream with recvWindow := stream.recvWindow - frame.payloadSize.toNat }).updateStreamData
        frame.streamID frame = h1 at hk ⊢
    split
    · exact hk.trans (calm_endStream frame.streamID h1).keepsSend
    · split
      · exact (hk.trans (keepsSend_invoke _ _ h1)).trans (keepsSend_updateRecv _ _ _)
      · exact hk

theorem keepsSend_updateSessionWindow (h : H Url Device Encoder Decoder) :
    KeepsSend h h.updateSessionWindow := by
  rw [updateSessionWindow]
  split
  · exact (keepsSend_invoke _ _ h).trans (KeepsSend.of_same rfl rfl rfl)
  · exact KeepsSend.refl h

theorem keepsSend_handleDATA (frame : Frame) (h : H Url Device Encoder Decoder) :
    KeepsSend h (h.handleDATA o frame) := by
  rw [handleDATA]
  split
  · exact tolerant_keepsSend.connectionError _ _ h
  · split
    · exact tolerant_keepsSend.connectionError _ _ h
    · split
      · exact tolerant_keepsSend.connectionError _ _ h
      · have hset : KeepsSend h { h with sessionReceiveWindowSize :=
            h.sessionReceiveWindowSize - frame.payloadSize.toNat } := KeepsSend.of_same rfl rfl rfl
        dsimp only
        split
        · rename_i ha
          exact (hset.trans (keepsSend_handleStreamDATA ha)).trans (keepsSend_updateSessionWindow _)
        · exact hset.trans (keepsSend_updateSessionWindow _)

theorem keepsSend_write {frame : Outbound} (hf : (Action.sent frame).SendNeutral)
    (h : H Url Device Encoder Decoder) : KeepsSend h (h.write frame).1 := by
  have hw := (calm_socketWrite h).keepsSend
  rw [write]
  generalize h.socketWrite = result at hw ⊢
  obtain ⟨h1, ok⟩ := result
  cases ok with
  | true => exact hw.trans (keepsSend_log hf h1)
  | false => exact hw

theorem keepsSend_updateInitialWindow (h : H Url Device Encoder Decoder) :
    KeepsSend h h.updateInitialWindow.1 := by
  have hset : KeepsSend h { h with sessionReceiveWindowSize := h.maxSessionReceiveWindowSize } :=
    KeepsSend.of_same rfl rfl rfl
  rw [updateInitialWindow]
  dsimp only
  split
  · exact (hset.trans (keepsSend_log (by trivial) _)).trans (keepsSend_write (by trivial) _)
  · exact hset

theorem sendsPreface_keepsSend : SendsPreface (@KeepsSend Url Device Encoder Decoder _) := by
  intro h
  rw [sendClientPreface]
  split
  · exact KeepsSend.refl h
  · have k1 := @keepsSend_write _ _ _ _ _ .clientPreface (by trivial) h
    generalize h.write .clientPreface = result at k1 ⊢
    obtain ⟨h1, ok⟩ := result
    cases ok with
    | false => exact k1
    | true =>
      have k2 := k1.trans (@keepsSend_write _ _ _ _ _
        (.settings (configurationToSettings h1.config)) (by trivial) h1)
      dsimp only [Bool.not_true, Bool.false_eq_true, if_false]
      generalize h1.write (.settings (configurationToSettings h1.config)) = result at k2 ⊢
      obtain ⟨h2, ok⟩ := result
      cases ok with
      | false => exact k2
      | true =>
        have k3 := k2.trans (keepsSend_updateInitialWindow h2)
        simp only [Bool.not_true, Bool.false_eq_true, if_false]
        generalize h2.updateInitialWindow = result at k3 ⊢
        obtain ⟨h3, ok⟩ := result
        cases ok with
        | false => exact k3
        | true => exact k3.trans (KeepsSend.of_same rfl rfl rfl)

theorem sendsPreface_sendInvariant : SendsPreface fun h h' : H Url Device Encoder Decoder =>
    h.SendInvariant allStreams → h'.SendInvariant allStreams := fun h =>
  (sendsPreface_keepsSend h).invariant

/-! ## Steps and runs -/

theorem sendInvariant_receiveFrame (frame : Frame) (hi : h.SendInvariant allStreams) :
    (h.receiveFrame o frame).SendInvariant allStreams := by
  have hr := sendInvariant_received frame hi
  rw [receiveFrame]
  split
  · exact hi
  · dsimp only
    split
    · exact tolerant_sendInvariant.connectionError _ _ _ hr
    · by_cases ht : frame.type = .WINDOW_UPDATE
      · have hu := sendInvariant_handleWINDOW_UPDATE ht hi
        rw [handleFrame, ht]
        exact hu
      · exact tolerant_sendInvariant.handleFrame setsWindows_sendInvariant
          sendsPreface_sendInvariant (fun _ => (keepsSend_handleDATA frame _).invariant)
          (fun htype h hi => sendInvariant_startHeaders (fun hp => by simp [htype] at hp) hi)
          (fun _ hi => sendInvariant_handlePUSH_PROMISE frame hi) (fun htype => absurd htype ht)
          (fun _ hi => sendInvariant_handleCONTINUATION frame hi) hr

omit [DecidableEq Url] in
theorem popStreamToResume_spec :
    h.popStreamToResume.1.activeStreams = h.activeStreams ∧
    h.popStreamToResume.1.sessionSendWindowSize = h.sessionSendWindowSize ∧
    (h.popStreamToResume.2 ≠ 0 → (h.stream h.popStreamToResume.2).sendWindow > 0 ∧
      ∃ priority, h.popStreamToResume.2 ∈ h.suspendedStreams priority) := by
  rw [popStreamToResume]
  split
  · exact ⟨rfl, rfl, fun hne => absurd rfl hne⟩
  · rename_i rank id hfound
    refine ⟨rfl, rfl, fun _ => ?_⟩
    obtain ⟨rank', -, hrank⟩ := exists_of_findSome?_eq_some hfound
    obtain ⟨id', hpop, he⟩ := Option.map_eq_some_iff.mp hrank
    have hid : id' = id := (Prod.mk.inj he).2
    rw [hid] at hpop
    rw [popFrom] at hpop
    have hwindow := List.find?_some hpop
    have hmem := mem_of_find?_eq_some hpop
    rw [Bool.and_eq_true, decide_eq_true_iff, decide_eq_true_iff] at hwindow
    exact ⟨hwindow.2, rank', hmem⟩

theorem sendInvariant_resumeSuspendedStreams (rounds : ℕ) (hi : h.SendInvariant allStreams) :
    (resumeSuspendedStreams o rounds h).SendInvariant allStreams := by
  induction rounds generalizing h with
  | zero => exact hi
  | succ rounds ih =>
    rw [resumeSuspendedStreams]
    have hp := (calm_popStreamToResume h).sendInvariant hi
    obtain ⟨hactive, hsession, hwindow⟩ := @popStreamToResume_spec _ _ _ _ h
    split
    · rename_i hpos
      generalize h.popStreamToResume = result at hp hactive hsession hwindow ⊢
      obtain ⟨h1, id⟩ := result
      dsimp only at hp hactive hsession hwindow ⊢
      split
      · exact hp
      · rename_i hid
        obtain ⟨hw, priority, hmem⟩ := hwindow hid
        split
        · exact ih hp
        · rename_i ha
          have hslot : 0 ≤ h1.slot id := by
            rw [slot, hsession, Handler.stream, hactive]
            change 0 ≤ min h.sessionSendWindowSize (h.stream id).sendWindow
            omega
          apply ih
          exact tolerant_sendInvariant.uploadDataReadyRead (not_not.mp ha)
            (sendInvariant_sendDATA (hi.suspended priority id hmem) hslot) hp
    · exact hi

/-- A stream whose device has data is ready to send it: its window is not negative. -/
def UploadInWindow (o : Outside Url Device Encoder Decoder) (h : H Url Device Encoder Decoder) :
    Event Url Device → Prop
  | .uploadDataReadyRead id => 0 ≤ (h.stream id).sendWindow ∨ h.NothingToWrite o id
  | _ => True

theorem sendInvariant_step (event : Event Url Device) (hu : h.UploadInWindow o event)
    (hi : h.SendInvariant allStreams) : (h.step o event).SendInvariant allStreams := by
  cases event with
  | frame frame => exact sendInvariant_receiveFrame frame hi
  | badFrame status => exact tolerant_sendInvariant.receiveBadFrame status h hi
  | newRequest message => exact (calm_requests _ h).sendInvariant hi
  | sendRequest =>
    exact tolerant_sendInvariant.sendRequest sendsPreface_sendInvariant
      takesPromises_sendInvariant startsRequests_sendInvariant h hi
  | uploadDataReadyRead id =>
    rw [step]
    split
    · rename_i hid
      refine tolerant_sendInvariant.uploadDataReadyRead hid.1 ?_ hi
      obtain hwindow | hnothing := hu
      · apply sendInvariant_sendDATA hid.2
        have hpos := hi.session.1
        rw [slot]
        omega
      · exact sendInvariant_nothingToWrite hid.2 hnothing
    · exact hi
  | replyDestroyed id => exact (calm_replyDestroyed id h).sendInvariant hi
  | resumeSuspendedStreams rounds => exact sendInvariant_resumeSuspendedStreams rounds hi
  | ensureClientPrefaceSent => exact sendsPreface_sendInvariant h hi
  | sendWINDOW_UPDATE =>
    rw [step]
    split
    · exact hi
    · rename_i id delta rest hq
      have hpop : KeepsSend h { h with invocations := rest } := KeepsSend.of_same rfl rfl rfl
      exact (hpop.trans (keepsSend_write (by trivial) _)).invariant hi
  | connectionClosure =>
    have hgone : KeepsSend h h.handleConnectionClosure := by
      refine KeepsSend.of_sendState ?_ ?_ ?_
      · rfl
      · intro id stream hs
        change (∅ : AList fun _ : UInt32 => Stream Url Device).lookup id = some stream at hs
        simp at hs
      · exact ⟨[], rfl, by simp⟩
    exact hgone.invariant hi

theorem sendInvariant_run (events : List (Outside Url Device Encoder Decoder × Event Url Device))
    (hu : Throughout UploadInWindow h events) (hi : h.SendInvariant allStreams) :
    (h.run events).SendInvariant allStreams := by
  induction events generalizing h with
  | nil => exact hi
  | cons e events ih => exact ih hu.2 (sendInvariant_step e.2 hu.1 hi)

theorem sendInvariant_start (config : QHttp2Configuration) (encoder : Encoder) (decoder : Decoder)
    (socket : ℕ) (upgraded : Option (HttpMessagePair Url Device)) :
    (start config encoder decoder socket upgraded).SendInvariant allStreams := by
  have hbase : ({ config := config
                  decoder := decoder
                  encoder := encoder
                  maxSessionReceiveWindowSize := config.sessionWindowSize
                  streamInitialReceiveWindowSize := config.streamWindowSize
                  pushPromiseEnabled := config.pushEnabled
                  socket := socket } : H Url Device Encoder Decoder).SendInvariant allStreams := by
    have hone : (1 : UInt32) &&& 1 = 1 := by decide
    have hlimit : 0 < min minPayloadLimit.toNat maxPayloadSize.toNat := by decide
    have hrange : (0 : ℤ) ≤ 65535 ∧ (65535 : ℤ) ≤ qint32Max := by decide
    refine ⟨hone, by simp, ?_, by simp, hlimit, hrange, rfl, hrange, ?_, ?_, ?_, trivial⟩
    · intro key promise hp
      change (∅ : AList fun _ : Url => PushPromise).lookup key = some promise at hp
      simp at hp
    · intro id stream hs
      change (∅ : AList fun _ : UInt32 => Stream Url Device).lookup id = some stream at hs
      simp at hs
    · intro _
      exact Int.le_refl 65535
    · intro _ id stream _ hs
      change (∅ : AList fun _ : UInt32 => Stream Url Device).lookup id = some stream at hs
      simp at hs
  cases upgraded with
  | none => exact hbase
  | some message =>
    have hnew := sendInvariant_createNewStream message hbase
    rw [start]
    exact (calm_state _ .halfClosedLocal _).sendInvariant hnew

/-- What is sent fits into what the peer has granted. -/
structure SendsWithinGrants (h : H Url Device Encoder Decoder) : Prop where
  within : WithinGrants h.trace
  session : 0 ≤ h.sessionSendWindowSize ∧ h.sessionSendWindowSize ≤ qint32Max
  streams : ∀ id stream, h.activeStreams.lookup id = some stream → InRange stream.sendWindow

/-- A request with an upload, for an environment where all of it is there. -/
def uploadRequest (size : ℤ) : HttpMessagePair Unit ByteArrayDevice where
  url := ()
  priority := .NormalPriority
  contentLength := size
  preconnect := false
  followRedirects := false
  withCredentials := false
  needResendWithCredentials := false
  data := some { size := size }
  statusCode := 0
  totallyUploadedData := 0

/-- The peer sets the initial window to a number of bytes. -/
def windowSetting (size : UInt8) : Event Unit ByteArrayDevice :=
  .frame ⟨[0, 0, 6, 4, 0, 0, 0, 0, 0, 0, 4, 0, 0, 0, size]⟩

/-- The window is filled, then made negative, and the device gets ready. -/
def shrinkingWindow : List (Outside Unit ByteArrayDevice Unit Unit × Event Unit ByteArrayDevice) :=
  [windowSetting 10, .newRequest (uploadRequest 20), .sendRequest, windowSetting 0,
    .uploadDataReadyRead 1].map fun event => (plainOutside fun _ => none, event)

end Handler

end Http2

end QtBase
