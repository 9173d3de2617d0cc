import QtBase.Network.Http2SendWindow

/-! The accounts of what is sent. DATA is sent on streams of requests only, and their IDs are odd. -/
namespace QtBase

open List Option

namespace Http2

namespace Handler

variable {Url Device Encoder Decoder : Type} [DecidableEq Url]

variable {o : Outside Url Device Encoder Decoder} {h h' : H Url Device Encoder Decoder}

/-- A window fits into a `qint32`. -/
def InRange (window : ℤ) : Prop := qint32Min ≤ window ∧ window ≤ qint32Max

/-- What the runs keep. The grant of a stream may be left out. -/
structure SendInvariant (skip : UInt32 → Prop) (h : H Url Device Encoder Decoder) : Prop where
  nextID : h.nextID &&& 1 = 1
  suspended : ∀ priority id, id ∈ h.suspendedStreams priority → id &&& 1 = 1
  promised : ∀ key promise, h.promisedData.lookup key = some promise → promise.reservedID &&& 1 = 0
  pending : ∀ first rest, h.continuedFrames = first :: rest → first.type = .PUSH_PROMISE →
    first.word 0 &&& 1 = 0
  frameSize : 0 < h.sizeLimit
  session : 0 ≤ h.sessionSendWindowSize ∧ h.sessionSendWindowSize ≤ qint32Max
  initial : h.streamInitialSendWindowSize = initialGrant h.trace
  initial_range : 0 ≤ h.streamInitialSendWindowSize ∧ h.streamInitialSendWindowSize ≤ qint32Max
  streams : ∀ id stream, h.activeStreams.lookup id = some stream → InRange stream.sendWindow
  sessionGrant : h.socket ≠ 0 →
    h.sessionSendWindowSize + dataSent h.trace ≤ Http2.sessionGrant h.trace
  streamGrant : h.socket ≠ 0 → ∀ id stream, ¬skip id → h.activeStreams.lookup id = some stream →
    id &&& 1 = 1 → stream.httpPair.isSome = true →
    stream.sendWindow + dataSentOn id h.trace ≤ Http2.streamGrant id h.trace
  within : WithinGrants h.trace

/-- The grants of all streams count. -/
def allStreams : UInt32 → Prop := fun _ => False

variable {skip : UInt32 → Prop}

theorem KeepsSend.invariant (k : KeepsSend h h') (hi : h.SendInvariant skip) :
    h'.SendInvariant skip := by
  have hc := k.sameCounts
  constructor
  · rw [k.nextID]
    exact hi.nextID
  · exact fun priority id hid => hi.suspended priority id (k.suspended priority id hid)
  · intro key promise' hp'
    obtain ⟨key', promise, hp, he⟩ := k.promised key promise' hp'
    rw [← he]
    exact hi.promised key' promise hp
  · rw [k.pending]
    exact hi.pending
  · exact k.frameSize hi.frameSize
  · rw [k.session]
    exact hi.session
  · rw [k.initial, hc.initial]
    exact hi.initial
  · rw [k.initial]
    exact hi.initial_range
  · intro id stream' hs'
    obtain ⟨stream, hs, hw, -⟩ := k.streams id stream' hs'
    rw [hw]
    exact hi.streams id stream hs
  · intro h0
    have hle := k.socket
    rw [k.session, hc.sent, hc.session]
    exact hi.sessionGrant (by omega)
  · intro h0 id stream' hskip hs' hodd hpair
    have hle := k.socket
    obtain ⟨stream, hs, hw, hp⟩ := k.streams id stream' hs'
    rw [hw, hc.sentOn, hc.grant]
    exact hi.streamGrant (by omega) id stream hskip hs hodd (hp ▸ hpair)
  · exact hc.within hi.within

theorem Calm.sendInvariant (c : Calm h h') (hi : h.SendInvariant skip) : h'.SendInvariant skip :=
  c.keepsSend.invariant hi

theorem keepsSend_away (h : H Url Device Encoder Decoder) : KeepsSend h { h with goingAway := true } :=
  KeepsSend.of_same rfl rfl rfl

theorem KeepsSend.trans {h'' : H Url Device Encoder Decoder} (k : KeepsSend h h')
    (k' : KeepsSend h' h'') : KeepsSend h h'' where
  nextID := k'.nextID.trans k.nextID
  session := k'.session.trans k.session
  initial := k'.initial.trans k.initial
  pending := k'.pending.trans k.pending
  frameSize := fun hlimit => k'.frameSize (k.frameSize hlimit)
  suspended := fun priority id hid => k.suspended priority id (k'.suspended priority id hid)
  promised := by
    intro key promise'' hp''
    obtain ⟨key', promise', hp', he'⟩ := k'.promised key promise'' hp''
    obtain ⟨key, promise, hp, he⟩ := k.promised key' promise' hp'
    exact ⟨key, promise, hp, he.trans he'⟩
  streams := by
    intro id stream'' hs''
    obtain ⟨stream', hs', hw', hp'⟩ := k'.streams id stream'' hs''
    obtain ⟨stream, hs, hw, hp⟩ := k.streams id stream' hs'
    exact ⟨stream, hs, hw'.trans hw, hp'.trans hp⟩
  socket := le_trans k'.socket k.socket
  trace := by
    obtain ⟨actions, ht, hn⟩ := k.trace
    obtain ⟨actions', ht', hn'⟩ := k'.trace
    refine ⟨actions' ++ actions, ?_, ?_⟩
    · rw [ht', ht, append_assoc]
    · intro action ha
      obtain ha | ha := mem_append.mp ha
      · exact hn' action ha
      · exact hn action ha

theorem tolerant_keepsSend : Tolerant (@KeepsSend Url Device Encoder Decoder _) where
  trans := KeepsSend.trans
  calm := Calm.keepsSend
  fail := by
    intro h errorCode message
    exact (keepsSend_log (by trivial) h).trans (keepsSend_away _)

theorem tolerant_sendInvariant : Tolerant fun h h' : H Url Device Encoder Decoder =>
    h.SendInvariant allStreams → h'.SendInvariant allStreams where
  trans := fun k k' hi => k' (k hi)
  calm := fun c => c.sendInvariant
  fail := fun h errorCode message => (tolerant_keepsSend.fail h errorCode message).invariant

/-! ## Windows that grow -/

theorem inRange_of_not_overflow {window delta : ℤ} (hw : InRange window) (hd : InRange delta)
    (h : sum_will_overflow window delta = false) : InRange (window + delta) := by
  obtain ⟨hw0, hw1⟩ := hw
  obtain ⟨hd0, hd1⟩ := hd
  have hmax : qint32Max = 2 ^ 31 - 1 := rfl
  have hmin : qint32Min = -2 ^ 31 := rfl
  rw [sum_will_overflow] at h
  split at h
  · have hle := of_decide_eq_false h
    constructor
    · omega
    · omega
  · have hle := of_decide_eq_false h
    constructor
    · omega
    · omega

theorem windowIncrement_nonneg (frame : Frame) : 0 ≤ frame.windowIncrement := by
  rw [Frame.windowIncrement]
  split
  · exact Int.natCast_nonneg _
  · exact Int.le_refl 0

theorem sendInvariant_received (frame : Frame) (hi : h.SendInvariant skip) :
    (h.log (.received frame)).SendInvariant skip where
  nextID := hi.nextID
  suspended := hi.suspended
  promised := hi.promised
  pending := hi.pending
  frameSize := hi.frameSize
  session := hi.session
  initial := hi.initial
  initial_range := hi.initial_range
  streams := hi.streams
  sessionGrant := by
    intro h0
    have hs := hi.sessionGrant h0
    have hinc := windowIncrement_nonneg frame
    change h.sessionSendWindowSize + dataSent h.trace ≤
      (if frame.streamID = 0 then frame.windowIncrement else 0) + Http2.sessionGrant h.trace
    split <;> omega
  streamGrant := by
    intro h0 id stream hskip hl hodd hpair
    have hs := hi.streamGrant h0 id stream hskip hl hodd hpair
    have hinc := windowIncrement_nonneg frame
    rw [Http2.streamGrant] at hs
    change stream.sendWindow + dataSentOn id h.trace ≤ initialGrant h.trace +
      ((if frame.streamID = id then frame.windowIncrement else 0) + incrementsOn id h.trace)
    split <;> omega
  within := hi.within

theorem SendInvariant.insert {id : UInt32} {stream : Stream Url Device}
    (hi : h.SendInvariant skip) (hrange : InRange stream.sendWindow)
    (hgrant : h.socket ≠ 0 → ¬skip id → id &&& 1 = 1 → stream.httpPair.isSome = true →
      stream.sendWindow + dataSentOn id h.trace ≤ Http2.streamGrant id h.trace) :
    { h with activeStreams := h.activeStreams.insert id stream }.SendInvariant skip := by
  refine ⟨hi.nextID, hi.suspended, hi.promised, hi.pending, hi.frameSize, hi.session, hi.initial,
    hi.initial_range, ?_, hi.sessionGrant, ?_, hi.within⟩
  · intro id' stream' hl
    change AList.lookup id' (h.activeStreams.insert id stream) = some stream' at hl
    by_cases hid : id' = id
    · rw [hid, AList.lookup_insert] at hl
      rw [← some.inj hl]
      exact hrange
    · rw [AList.lookup_insert_ne hid] at hl
      exact hi.streams id' stream' hl
  · intro hs id' stream' hskip hl hodd hpair
    change AList.lookup id' (h.activeStreams.insert id stream) = some stream' at hl
    by_cases hid : id' = id
    · rw [hid, AList.lookup_insert] at hl
      rw [← some.inj hl] at hpair ⊢
      rw [hid] at hskip hodd ⊢
      exact hgrant hs hskip hodd hpair
    · rw [AList.lookup_insert_ne hid] at hl
      exact hi.streamGrant hs id' stream' hskip hl hodd hpair

theorem SendInvariant.setSession {window : ℤ} (hi : h.SendInvariant skip)
    (h0 : 0 ≤ window) (h1 : window ≤ qint32Max)
    (hgrant : h.socket ≠ 0 → window + dataSent h.trace ≤ Http2.sessionGrant h.trace) :
    { h with sessionSendWindowSize := window }.SendInvariant skip :=
  ⟨hi.nextID, hi.suspended, hi.promised, hi.pending, hi.frameSize, ⟨h0, h1⟩, hi.initial,
    hi.initial_range, hi.streams, hgrant, hi.streamGrant, hi.within⟩

theorem SendInvariant.session_inRange (hi : h.SendInvariant skip) :
    InRange h.sessionSendWindowSize := by
  have h0 := hi.session.1
  have hmin : qint32Min = -2 ^ 31 := rfl
  exact ⟨by omega, hi.session.2⟩

theorem sendInvariant_handleWINDOW_UPDATE {frame : Frame} (ht : frame.type = .WINDOW_UPDATE)
    (hi : h.SendInvariant allStreams) :
    ((h.log (.received frame)).handleWINDOW_UPDATE frame).SendInvariant allStreams := by
  have hr := sendInvariant_received frame hi
  have hinc : frame.windowIncrement = (frame.word 0).toNat := if_pos ht
  have hdelta : ((frame.word 0).toNat : ℤ) ≤ qint32Max → InRange (frame.word 0).toNat := by
    intro hle
    have hmin : qint32Min = -2 ^ 31 := rfl
    exact ⟨by omega, hle⟩
  rw [handleWINDOW_UPDATE]
  split
  · rename_i h0
    have hzero : frame.streamID = 0 := h0
    split
    · exact tolerant_sendInvariant.connectionError _ _ _ hr
    · rename_i hvalid
      rw [not_or, not_not, Bool.not_eq_true] at hvalid
      have hsum := inRange_of_not_overflow hr.session_inRange (hdelta hvalid.1.2) hvalid.2
      have hpos := hr.session.1
      refine hr.setSession (by omega) hsum.2 ?_
      intro hs
      have hg := hi.sessionGrant hs
      change h.sessionSendWindowSize + ((frame.word 0).toNat : ℤ) + dataSent h.trace ≤
        (if frame.streamID = 0 then frame.windowIncrement else 0) + Http2.sessionGrant h.trace
      rw [if_pos hzero, hinc]
      omega
  · split
    · exact hr
    · rename_i hmem
      split
      · exact (calm_abandon _ (not_not.mp hmem)).sendInvariant hr
      · rename_i hvalid
        rw [not_or, not_not, Bool.not_eq_true] at hvalid
        obtain ⟨stream, hl⟩ := isSome_iff_exists.mp (AList.lookup_isSome.mpr (not_not.mp hmem))
        have hfit := hvalid.2
        rw [stream_of_lookup hl] at hfit
        have hsum := inRange_of_not_overflow (hi.streams _ stream hl) (hdelta hvalid.1.2) hfit
        rw [updateActive, hl]
        apply hr.insert hsum
        intro hs hskip hodd hpair
        have hg := hi.streamGrant hs frame.streamID stream hskip hl hodd hpair
        rw [Http2.streamGrant] at hg
        change stream.sendWindow + ((frame.word 0).toNat : ℤ) + dataSentOn frame.streamID h.trace ≤
          initialGrant h.trace + ((if frame.streamID = frame.streamID then frame.windowIncrement
            else 0) + incrementsOn frame.streamID h.trace)
        rw [if_pos rfl, hinc]
        omega

/-! ## A new initial window -/

/-- A stream that is adjusted, if it can be. -/
def adjusted (delta : ℤ) (stream : Stream Url Device) : Stream Url Device :=
  if sum_will_overflow stream.sendWindow delta then stream
  else { stream with sendWindow := stream.sendWindow + delta }

omit [DecidableEq Url] in
theorem adjustWindows_state (delta : ℤ) (ids : List UInt32) (h : H Url Device Encoder Decoder) :
    ∃ streams, (adjustWindows delta ids h).1 = { h with activeStreams := streams } := by
  induction ids generalizing h with
  | nil => exact ⟨h.activeStreams, rfl⟩
  | cons id ids ih =>
    rw [adjustWindows]
    split
    · exact ih h
    · obtain ⟨streams, he⟩ := ih (h.updateActive id fun stream =>
        { stream with sendWindow := stream.sendWindow + delta })
      rw [he, updateActive]
      split
      · exact ⟨streams, rfl⟩
      · exact ⟨streams, rfl⟩

omit [DecidableEq Url] in
theorem adjustWindows_lookup (delta : ℤ) {ids : List UInt32} (hn : ids.Nodup)
    (h : H Url Device Encoder Decoder) (id : UInt32) :
    (adjustWindows delta ids h).1.activeStreams.lookup id =
      if id ∈ ids then (h.activeStreams.lookup id).map (adjusted delta)
      else h.activeStreams.lookup id := by
  induction ids generalizing h with
  | nil => rfl
  | cons first ids ih =>
    obtain ⟨hfirst, hn⟩ := nodup_cons.mp hn
    rw [adjustWindows]
    by_cases hid : id = first
    · have hmem : id ∈ first :: ids := mem_cons.mpr (.inl hid)
      have hnot : id ∉ ids := hid ▸ hfirst
      rw [if_pos hmem]
      split
      · rename_i hoverflow
        rw [ih hn, if_neg hnot]
        cases hl : h.activeStreams.lookup id with
        | none => rfl
        | some stream =>
          rw [← hid, stream_of_lookup hl] at hoverflow
          rw [map_some, adjusted, if_pos hoverflow]
      · rename_i hoverflow
        rw [ih hn, if_neg hnot, lookup_updateActive, if_pos hid]
        cases hl : h.activeStreams.lookup id with
        | none => rfl
        | some stream =>
          rw [← hid, stream_of_lookup hl] at hoverflow
          rw [map_some, map_some, adjusted, if_neg hoverflow]
    · have hmem : id ∈ first :: ids ↔ id ∈ ids := by
        rw [mem_cons]
        exact ⟨fun hm => hm.resolve_left hid, .inr⟩
      simp only [hmem]
      split
      · exact ih hn h
      · rw [ih hn, lookup_updateActive, if_neg hid]

omit [DecidableEq Url] in
theorem mem_broken (delta : ℤ) {ids : List UInt32} (hn : ids.Nodup)
    (h : H Url Device Encoder Decoder) {id : UInt32} (hid : id ∈ ids)
    (hoverflow : sum_will_overflow (h.stream id).sendWindow delta = true) :
    id ∈ (adjustWindows delta ids h).2 := by
  induction ids generalizing h with
  | nil => simp at hid
  | cons first ids ih =>
    obtain ⟨hfirst, hn⟩ := nodup_cons.mp hn
    rw [adjustWindows]
    obtain hid | hid := mem_cons.mp hid
    · rw [hid] at hoverflow
      rw [if_pos hoverflow]
      exact mem_cons.mpr (.inl hid)
    · split
      · exact mem_cons_of_mem _ (ih hn h hid hoverflow)
      · apply ih hn _ hid
        have hne : id ≠ first := fun he => hfirst (he ▸ hid)
        rw [Handler.stream, lookup_updateActive, if_neg hne]
        exact hoverflow

theorem lookup_abandonAll {errorCode : Http2Error} {ids : List UInt32} (hn : ids.Nodup)
    (ha : ∀ id ∈ ids, id ∈ h.activeStreams) {id : UInt32} (hid : id ∈ ids) :
    (ids.foldl (fun h id => h.abandon id errorCode) h).activeStreams.lookup id = none := by
  induction ids generalizing h with
  | nil => simp at hid
  | cons first ids ih =>
    obtain ⟨hfirst, hn⟩ := nodup_cons.mp hn
    have ha' : ∀ id ∈ ids, id ∈ (h.abandon first errorCode).activeStreams := by
      intro id' hid'
      have hne : id' ≠ first := fun he => hfirst (he ▸ hid')
      exact mem_abandon hne (ha id' (mem_cons_of_mem _ hid'))
    obtain hid | hid := mem_cons.mp hid
    · have hgone := lookup_abandon first errorCode h
      have hcalm := calm_abandonAll errorCode hn ha'
      rw [hid, foldl_cons, AList.lookup_eq_none]
      intro hmem
      exact AList.lookup_eq_none.mp hgone (hcalm.active hmem)
    · exact ih hn ha' hid

omit [DecidableEq Url] in
theorem delta_inRange {newValue initial : ℤ} (h0 : 0 ≤ newValue) (h1 : newValue ≤ qint32Max)
    (hi : 0 ≤ initial ∧ initial ≤ qint32Max) : InRange (newValue - initial) := by
  have hmax : qint32Max = 2 ^ 31 - 1 := rfl
  have hmin : qint32Min = -2 ^ 31 := rfl
  constructor
  · omega
  · omega

theorem sendInvariant_adjustWindows {newValue : ℤ} (h0 : 0 ≤ newValue) (h1 : newValue ≤ qint32Max)
    (hi : h.SendInvariant allStreams) :
    let delta := newValue - h.streamInitialSendWindowSize
    let adjusting := h.setInitialWindowSize newValue
    (adjustWindows delta adjusting.activeStreams.keys adjusting).1.SendInvariant
      (· ∈ (adjustWindows delta adjusting.activeStreams.keys adjusting).2) := by
  intro delta adjusting
  have hd := delta_inRange h0 h1 hi.initial_range
  have hn := adjusting.activeStreams.keys_nodup
  have hlookup := adjustWindows_lookup delta hn adjusting
  have hbroken := fun id => @mem_broken _ _ _ _ delta _ hn adjusting id
  have hkeys : ∀ id stream, h.activeStreams.lookup id = some stream →
      id ∈ adjusting.activeStreams.keys := fun id stream hl =>
    AList.mem_keys.mp (mem_of_lookup hl)
  obtain ⟨streams, he⟩ := adjustWindows_state delta adjusting.activeStreams.keys adjusting
  generalize (adjustWindows delta adjusting.activeStreams.keys adjusting).2 = broken at hbroken ⊢
  rw [he] at hlookup ⊢
  have hfrom : ∀ id stream', streams.lookup id = some stream' →
      ∃ stream, h.activeStreams.lookup id = some stream ∧ stream' = adjusted delta stream := by
    intro id stream' hl'
    have hl := (hlookup id).symm.trans hl'
    split at hl
    · obtain ⟨stream, hs, he⟩ := map_eq_some_iff.mp hl
      exact ⟨stream, hs, he.symm⟩
    · rename_i hnot
      exact absurd (hkeys id stream' hl) hnot
  refine ⟨hi.nextID, hi.suspended, hi.promised, hi.pending, hi.frameSize, hi.session, rfl,
    ⟨h0, h1⟩, ?_, hi.sessionGrant, ?_, hi.within⟩
  · intro id stream' hl'
    obtain ⟨stream, hl, rfl⟩ := hfrom id stream' hl'
    rw [adjusted]
    split
    · exact hi.streams id stream hl
    · rename_i hfit
      exact inRange_of_not_overflow (hi.streams id stream hl) hd ((Bool.not_eq_true _).mp hfit)
  · intro hs id stream' hskip hl' hodd hpair
    obtain ⟨stream, hl, rfl⟩ := hfrom id stream' hl'
    have hfit : ¬sum_will_overflow stream.sendWindow delta = true := by
      intro hoverflow
      apply hskip
      apply hbroken id (hkeys id stream hl)
      rw [show adjusting.stream id = stream from stream_of_lookup hl]
      exact hoverflow
    rw [adjusted, if_neg hfit] at hpair ⊢
    have hg := hi.streamGrant hs id stream (fun hno => hno) hl hodd hpair
    have hinit := hi.initial
    rw [Http2.streamGrant, ← hinit] at hg
    change stream.sendWindow + delta + dataSentOn id h.trace ≤ newValue + incrementsOn id h.trace
    omega

theorem setsWindows_sendInvariant : SetsWindows fun h h' : H Url Device Encoder Decoder =>
    h.SendInvariant allStreams → h'.SendInvariant allStreams := by
  intro h newValue h0 h1 hi
  have hadjusted := sendInvariant_adjustWindows h0 h1 hi
  rw [acceptInitialWindowSize]
  dsimp only at hadjusted ⊢
  generalize newValue - h.streamInitialSendWindowSize = delta at hadjusted ⊢
  generalize h.setInitialWindowSize newValue = adjusting at hadjusted ⊢
  have hi' := (calm_abandonBroken delta adjusting).sendInvariant hadjusted
  obtain ⟨hsub, hmem⟩ := adjustWindows_broken delta adjusting.activeStreams.keys adjusting
  have hgone := fun id => @lookup_abandonAll _ _ _ _ _
    (adjustWindows delta adjusting.activeStreams.keys adjusting).1 .PROTOCOL_ERROR _
    (adjusting.activeStreams.keys_nodup.sublist hsub)
    (fun id hid => (hmem id).mpr (AList.mem_keys.mpr (hsub.subset hid))) id
  refine ⟨hi'.nextID, hi'.suspended, hi'.promised, hi'.pending, hi'.frameSize, hi'.session,
    hi'.initial, hi'.initial_range, hi'.streams, hi'.sessionGrant, ?_, hi'.within⟩
  intro hs id stream _ hl
  apply hi'.streamGrant hs id stream _ hl
  intro hid
  rw [hgone id hid] at hl
  simp at hl

end Handler

end Http2

end QtBase
