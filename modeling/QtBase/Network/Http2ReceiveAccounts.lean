import QtBase.Network.Http2ReceiveWindow

/-! The accounts of what may be received hold in every run, if the window of the session is not
smaller than the one that a connection starts with. -/
namespace QtBase

open List Option UInt32

namespace Http2

namespace Handler

variable {Url Device Encoder Decoder : Type} [DecidableEq Url]

variable {o : Outside Url Device Encoder Decoder} {h h' : H Url Device Encoder Decoder}

/-- The socket takes writes, and no assertion has failed. -/
def Alive (h : H Url Device Encoder Decoder) : Prop := h.socket ≠ 0 ∧ Action.undefined ∉ h.trace

/-- The windows are what the peer makes of the frames, with those that are on their way to it.
Streams may be left out. -/
structure ReceiveAccounts (skip : UInt32 → Prop) (h : H Url Device Encoder Decoder) : Prop where
  session : 65535 + (updatesSent 0 h.trace + updatesQueued 0 h.invocations) -
    dataReceived h.trace = h.sessionReceiveWindowSize
  session_range : 0 ≤ h.sessionReceiveWindowSize ∧
    h.sessionReceiveWindowSize ≤ h.config.sessionWindowSize
  streams : ∀ id stream, ¬skip id → h.activeStreams.lookup id = some stream →
    h.config.streamWindowSize + updatesCalledOn id h.trace - dataReceivedOn id h.trace =
      stream.recvWindow ∧
    0 ≤ stream.recvWindow ∧ stream.recvWindow ≤ h.config.streamWindowSize

/-- What the runs keep. -/
structure ReceiveInvariant (skip : UInt32 → Prop) (h : H Url Device Encoder Decoder) : Prop where
  large : 65535 ≤ h.config.sessionWindowSize
  maximum : h.maxSessionReceiveWindowSize = h.config.sessionWindowSize
  initial : h.streamInitialReceiveWindowSize = h.config.streamWindowSize
  sent : ∀ id delta, Action.sent (.windowUpdate id delta) ∈ h.trace → ValidIncrement delta
  queued : ∀ id delta, (id, delta) ∈ h.invocations → ValidIncrement delta
  accounts : h.Alive → h.ReceiveAccounts skip
  preface : h.Alive → h.prefaceSent = false → h.sessionReceiveWindowSize = 65535

/-- No stream is left out. -/
def noStream : UInt32 → Prop := fun _ => False

variable {skip : UInt32 → Prop}

omit [DecidableEq Url] in
theorem KeepsReceive.alive (k : KeepsReceive h h') (ha : h'.Alive) : h.Alive := by
  obtain ⟨actions, ht, -⟩ := k.trace
  constructor
  · have := k.socket
    have := ha.1
    omega
  · intro hu
    apply ha.2
    simp [ht, hu]

omit [DecidableEq Url] in
theorem KeepsReceive.invariant (k : KeepsReceive h h') (hi : h.ReceiveInvariant skip) :
    h'.ReceiveInvariant skip := by
  obtain ⟨actions, ht, hn⟩ := k.trace
  constructor
  · rw [k.config]
    exact hi.large
  · rw [k.maximum, k.config, hi.maximum]
  · rw [k.initial, k.config, hi.initial]
  · intro id delta hs
    rw [ht] at hs
    obtain hs | hs := mem_append.mp hs
    · exact (hn _ hs).elim
    · exact hi.sent id delta hs
  · intro id delta hs
    rw [k.invocations] at hs
    exact hi.queued id delta hs
  · intro ha
    have hacc := hi.accounts (k.alive ha)
    constructor
    · obtain ⟨h1, -, -, h4⟩ := counts_append hn h.trace 0
      rw [k.session, k.invocations, ht, h1, h4]
      exact hacc.session
    · rw [k.session, k.config]
      exact hacc.session_range
    · intro id stream' hskip hs'
      obtain ⟨stream, hs, hw⟩ := k.streams id stream' hs'
      obtain ⟨-, h2, h3, -⟩ := counts_append hn h.trace id
      rw [hw, k.config, ht, h2, h3]
      exact hacc.streams id stream hskip hs
  · intro ha hp
    rw [k.session]
    rw [k.prefaceSent] at hp
    exact hi.preface (k.alive ha) hp

theorem Calm.receiveInvariant (c : Calm h h') (hi : h.ReceiveInvariant skip) :
    h'.ReceiveInvariant skip := c.keepsReceive.invariant hi

omit [DecidableEq Url] in
/-- A stream that is left out is not missed when it is gone. -/
theorem ReceiveInvariant.gone {id : UInt32} (hi : h.ReceiveInvariant (· = id))
    (hgone : h.activeStreams.lookup id = none) : h.ReceiveInvariant noStream where
  large := hi.large
  maximum := hi.maximum
  initial := hi.initial
  sent := hi.sent
  queued := hi.queued
  preface := hi.preface
  accounts := by
    intro ha
    have hacc := hi.accounts ha
    constructor
    · exact hacc.session
    · exact hacc.session_range
    · intro id' stream _ hs
      apply hacc.streams id' stream _ hs
      intro hid
      rw [hid, hgone] at hs
      simp at hs

omit [DecidableEq Url] in
/-- Nothing is asked of a handler that is not alive, except for what it has sent. -/
theorem ReceiveInvariant.dead (hi : h.ReceiveInvariant skip) (hc : h'.config = h.config)
    (hmax : h'.maxSessionReceiveWindowSize = h.maxSessionReceiveWindowSize)
    (hinit : h'.streamInitialReceiveWindowSize = h.streamInitialReceiveWindowSize)
    (hsent : ∀ id delta, Action.sent (.windowUpdate id delta) ∈ h'.trace → ValidIncrement delta)
    (hqueued : ∀ id delta, (id, delta) ∈ h'.invocations → ValidIncrement delta)
    (hdead : ¬h'.Alive) : h'.ReceiveInvariant noStream where
  large := by
    rw [hc]
    exact hi.large
  maximum := by rw [hmax, hc, hi.maximum]
  initial := by rw [hinit, hc, hi.initial]
  sent := hsent
  queued := hqueued
  accounts := fun ha => absurd ha hdead
  preface := fun ha => absurd ha hdead

/-! ## The preface -/

theorem toNat_ofInt {delta : ℤ} (h0 : 0 ≤ delta) (h1 : delta < 2 ^ 32) :
    ((ofInt delta).toNat : ℤ) = delta := by
  rw [ofInt, toNat_ofNat']
  omega

omit [DecidableEq Url] in
theorem invariant_updateInitialWindow (hi : h.ReceiveInvariant noStream) (hp : h.prefaceSent = false) :
    (h.updateInitialWindow.2 = false → h.updateInitialWindow.1.ReceiveInvariant noStream) ∧
    (h.updateInitialWindow.2 = true →
      { h.updateInitialWindow.1 with
        prefaceSent := true
        waitingForSettingsACK := true }.ReceiveInvariant noStream) := by
  let announced := { h with sessionReceiveWindowSize := h.maxSessionReceiveWindowSize }
  let delta : ℤ := h.maxSessionReceiveWindowSize - (defaultSessionWindowSize : ℤ)
  have hmax := hi.maximum
  have hlarge := hi.large
  have hrange := h.config.session_range.2
  have hdelta : delta = (h.config.sessionWindowSize : ℤ) - 65535 := by
    change h.maxSessionReceiveWindowSize - ((defaultSessionWindowSize : ℕ) : ℤ) = _
    rw [hmax]
    rfl
  have hbound : h.config.sessionWindowSize ≤ 2 ^ 31 - 1 := hrange
  by_cases h0 : delta = 0
  · have hw : h.updateInitialWindow = (announced, true) := if_neg (not_not.mpr h0)
    rw [hw]
    refine ⟨by simp, fun _ => ?_⟩
    refine ⟨hi.large, hi.maximum, hi.initial, hi.sent, hi.queued, ?_, by simp⟩
    intro ha
    have hacc := hi.accounts ha
    have h65535 := hi.preface ha hp
    refine ⟨?_, ?_, hacc.streams⟩
    · have hs := hacc.session
      change _ = h.maxSessionReceiveWindowSize
      change _ + (updatesSent 0 h.trace + updatesQueued 0 h.invocations) - dataReceived h.trace = _
      omega
    · change 0 ≤ h.maxSessionReceiveWindowSize ∧
        h.maxSessionReceiveWindowSize ≤ (h.config.sessionWindowSize : ℤ)
      omega
  · have hto := toNat_ofInt (show 0 ≤ delta by omega) (by omega)
    have hvalid : ValidIncrement (ofInt delta) := by
      constructor <;> omega
    have hw : h.updateInitialWindow = (announced.log (.called connectionStreamID
        (ofInt delta))).write (.windowUpdate connectionStreamID (ofInt delta)) :=
      if_pos h0
    rw [hw]
    obtain ⟨hsocket, he⟩ | ⟨n, hn, he⟩ := @write_eq Url Device Encoder Decoder
      (announced.log (.called connectionStreamID (ofInt delta)))
      (.windowUpdate connectionStreamID (ofInt delta))
    · rw [he]
      refine ⟨fun _ => ?_, by simp⟩
      have hsent : ∀ id d, Action.sent (.windowUpdate id d) ∈
          .called connectionStreamID (ofInt delta) :: h.trace → ValidIncrement d := by
        intro id d hs
        obtain hs | hs := mem_cons.mp hs
        · simp at hs
        · exact hi.sent id d hs
      exact @ReceiveInvariant.dead _ _ _ _ h
        (announced.log (.called connectionStreamID (ofInt delta))) _ hi rfl rfl rfl hsent
        hi.queued fun ha => ha.1 hsocket
    · rw [he]
      refine ⟨by simp, fun _ => ?_⟩
      refine ⟨hi.large, hi.maximum, hi.initial, ?_, hi.queued, ?_, by simp⟩
      · intro id d hs
        obtain hs | hs := mem_cons.mp hs
        · simp only [Action.sent.injEq, Outbound.windowUpdate.injEq] at hs
          rw [hs.2]
          exact hvalid
        · obtain hs | hs := mem_cons.mp hs
          · simp at hs
          · exact hi.sent id d hs
      · intro ha
        have ha' : h.Alive := by
          constructor
          · have hn' : h.socket = n + 1 := hn
            omega
          · intro hu
            exact ha.2 (mem_cons_of_mem _ (mem_cons_of_mem _ hu))
        have hacc := hi.accounts ha'
        have h65535 := hi.preface ha' hp
        refine ⟨?_, ?_, ?_⟩
        · have hs := hacc.session
          change 65535 + (((if connectionStreamID = 0 then
            ((ofInt delta).toNat : ℤ) else 0) + updatesSent 0 h.trace) +
            updatesQueued 0 h.invocations) - dataReceived h.trace = h.maxSessionReceiveWindowSize
          rw [if_pos (show connectionStreamID = 0 from rfl), hto]
          omega
        · change 0 ≤ h.maxSessionReceiveWindowSize ∧
            h.maxSessionReceiveWindowSize ≤ (h.config.sessionWindowSize : ℤ)
          omega
        · intro id stream hskip hs
          have hst := hacc.streams id stream hskip hs
          change _ + ((if connectionStreamID = id ∧ connectionStreamID ≠ 0 then
            ((ofInt delta).toNat : ℤ) else 0) + updatesCalledOn id h.trace) -
            dataReceivedOn id h.trace = _ ∧ _
          rw [if_neg fun hc => hc.2 rfl, Int.zero_add]
          exact hst

theorem invariant_sendClientPreface (hi : h.ReceiveInvariant noStream) :
    h.sendClientPreface.1.ReceiveInvariant noStream := by
  rw [sendClientPreface]
  split
  · exact hi
  · rename_i hp
    have hp' : h.prefaceSent = false := by simpa using hp
    have c1 := @calm_write Url Device Encoder Decoder _ .clientPreface (by trivial) h
    generalize h.write .clientPreface = result at c1 ⊢
    obtain ⟨h1, ok⟩ := result
    cases ok with
    | false => exact c1.receiveInvariant hi
    | true =>
      have c2 := @calm_write Url Device Encoder Decoder _
        (.settings (configurationToSettings h1.config)) (by trivial) h1
      dsimp only [Bool.not_true, Bool.false_eq_true, if_false]
      generalize h1.write (.settings (configurationToSettings h1.config)) = result at c2 ⊢
      obtain ⟨h2, ok⟩ := result
      have c : Calm h h2 := c1.trans c2
      cases ok with
      | false => exact c.receiveInvariant hi
      | true =>
        have hp2 : h2.prefaceSent = false := (congrArg Frozen.prefaceSent c.frozen).trans hp'
        obtain ⟨hf, ht⟩ := invariant_updateInitialWindow (c.receiveInvariant hi) hp2
        simp only [Bool.not_true, Bool.false_eq_true, if_false]
        generalize h2.updateInitialWindow = result at hf ht ⊢
        obtain ⟨h3, ok⟩ := result
        cases ok with
        | false => exact hf rfl
        | true => exact ht rfl

/-! ## Streams that are opened -/

omit [DecidableEq Url] in
theorem invariant_open {id : UInt32} {stream : Stream Url Device}
    (hi : h.ReceiveInvariant noStream)
    (hw : stream.recvWindow = h.streamInitialReceiveWindowSize) :
    { h.log (.opened id) with
      activeStreams := h.activeStreams.insert id stream }.ReceiveInvariant noStream where
  large := hi.large
  maximum := hi.maximum
  initial := hi.initial
  sent := by
    intro id' delta hs
    obtain hs | hs := mem_cons.mp hs
    · simp at hs
    · exact hi.sent id' delta hs
  queued := hi.queued
  accounts := by
    intro ha
    have hacc := hi.accounts ⟨ha.1, fun hu => ha.2 (mem_cons_of_mem _ hu)⟩
    have hrange := h.config.stream_range
    have hinit := hi.initial
    constructor
    · exact hacc.session
    · exact hacc.session_range
    · intro id' stream' hskip hs
      change AList.lookup id' (h.activeStreams.insert id stream) = some stream' at hs
      change _ + (if id = id' then 0 else updatesCalledOn id' h.trace) -
        (if id = id' then 0 else dataReceivedOn id' h.trace) = _ ∧ _
      by_cases hid : id' = id
      · rw [hid, AList.lookup_insert] at hs
        have he : stream = stream' := some.inj hs
        rw [if_pos hid.symm, if_pos hid.symm, ← he, hw, hinit]
        have hpos : (0 : ℤ) < h.config.streamWindowSize := by omega
        exact ⟨Int.add_sub_cancel _ 0, Int.le_of_lt hpos, Int.le_refl _⟩
      · rw [AList.lookup_insert_ne hid] at hs
        rw [if_neg (Ne.symm hid), if_neg (Ne.symm hid)]
        exact hacc.streams id' stream' hskip hs
  preface := fun ha => hi.preface ⟨ha.1, fun hu => ha.2 (mem_cons_of_mem _ hu)⟩

omit [DecidableEq Url] in
theorem invariant_createNewStream (message : HttpMessagePair Url Device)
    (hi : h.ReceiveInvariant noStream) :
    (h.createNewStream message).1.ReceiveInvariant noStream := by
  rw [createNewStream]
  split
  · exact hi
  · have hopen := @invariant_open Url Device Encoder Decoder h h.nextID
      { httpPair := some message
        streamID := h.nextID
        sendWindow := h.streamInitialSendWindowSize
        recvWindow := h.streamInitialReceiveWindowSize } hi rfl
    exact ⟨hopen.large, hopen.maximum, hopen.initial, hopen.sent, hopen.queued,
      fun ha => ⟨(hopen.accounts ha).session, (hopen.accounts ha).session_range,
        (hopen.accounts ha).streams⟩, hopen.preface⟩

/-! ## DATA -/

omit [DecidableEq Url] in
theorem invariant_updateStreamWindow {id : UInt32} {stream : Stream Url Device}
    (hi : h.ReceiveInvariant noStream) (hid : id ≠ 0)
    (hl : h.activeStreams.lookup id = some stream) (h0 : 0 ≤ stream.recvWindow)
    (hlow : stream.recvWindow < h.streamInitialReceiveWindowSize / 2) :
    ((h.invokeSendWINDOW_UPDATE id (ofInt (h.streamInitialReceiveWindowSize -
      stream.recvWindow))).updateActive id fun stream =>
        { stream with recvWindow := h.streamInitialReceiveWindowSize }).ReceiveInvariant
      noStream := by
  have hinit := hi.initial
  have hrange := h.config.stream_range
  have hmax : h.config.streamWindowSize ≤ 2 ^ 31 - 1 := hrange.2
  have hto : ((ofInt (h.streamInitialReceiveWindowSize - stream.recvWindow)).toNat : ℤ) =
      h.streamInitialReceiveWindowSize - stream.recvWindow := by
    apply toNat_ofInt
    · omega
    · omega
  rw [updateActive]
  have hl' : (h.invokeSendWINDOW_UPDATE id (ofInt (h.streamInitialReceiveWindowSize -
      stream.recvWindow))).activeStreams.lookup id = some stream := hl
  rw [hl']
  refine ⟨hi.large, hi.maximum, hi.initial, ?_, ?_, ?_, ?_⟩
  · intro id' delta hs
    obtain hs | hs := mem_cons.mp hs
    · simp at hs
    · exact hi.sent id' delta hs
  · intro id' delta hq
    obtain hq | hq := mem_append.mp hq
    · exact hi.queued id' delta hq
    · simp only [mem_singleton, Prod.mk.injEq] at hq
      rw [hq.2]
      constructor <;> omega
  · intro ha
    have hacc := hi.accounts ⟨ha.1, fun hu => ha.2 (mem_cons_of_mem _ hu)⟩
    constructor
    · have hs := hacc.session
      change 65535 + (updatesSent 0 h.trace + updatesQueued 0 (h.invocations ++
        [(id, ofInt (h.streamInitialReceiveWindowSize - stream.recvWindow))])) -
        dataReceived h.trace = h.sessionReceiveWindowSize
      rw [updatesQueued_append, updatesQueued, if_neg hid]
      simp only [updatesQueued]
      omega
    · exact hacc.session_range
    · intro id' stream' hskip hs
      change AList.lookup id' (h.activeStreams.insert id _) = some stream' at hs
      change (h.config.streamWindowSize : ℤ) + ((if id = id' ∧ id ≠ 0 then
        ((ofInt (h.streamInitialReceiveWindowSize - stream.recvWindow)).toNat : ℤ) else 0) +
        updatesCalledOn id' h.trace) - dataReceivedOn id' h.trace = _ ∧ _ ∧
        _ ≤ (h.config.streamWindowSize : ℤ)
      by_cases he : id' = id
      · rw [he, AList.lookup_insert] at hs
        have hst := (hacc.streams id stream hskip hl).1
        rw [← some.inj hs, he, if_pos ⟨rfl, hid⟩, hto]
        change _ = h.streamInitialReceiveWindowSize ∧ 0 ≤ h.streamInitialReceiveWindowSize ∧
          h.streamInitialReceiveWindowSize ≤ _
        omega
      · rw [AList.lookup_insert_ne he] at hs
        rw [if_neg fun hc => he hc.1.symm, Int.zero_add]
        exact hacc.streams id' stream' hskip hs
  · exact fun ha => hi.preface ⟨ha.1, fun hu => ha.2 (mem_cons_of_mem _ hu)⟩

omit [DecidableEq Url] in
theorem invariant_updateSessionWindow (hi : h.ReceiveInvariant noStream)
    (hp : h.prefaceSent = true) (h0 : 0 ≤ h.sessionReceiveWindowSize) :
    h.updateSessionWindow.ReceiveInvariant noStream := by
  have hmax := hi.maximum
  have hlarge := hi.large
  have hrange : h.config.sessionWindowSize ≤ 2 ^ 31 - 1 := h.config.session_range.2
  rw [updateSessionWindow]
  split
  · rename_i hlow
    have hto : ((ofInt (h.maxSessionReceiveWindowSize -
        h.sessionReceiveWindowSize)).toNat : ℤ) =
        h.maxSessionReceiveWindowSize - h.sessionReceiveWindowSize := by
      apply toNat_ofInt
      · omega
      · omega
    refine ⟨hi.large, hi.maximum, hi.initial, ?_, ?_, ?_, ?_⟩
    · intro id' delta hs
      obtain hs | hs := mem_cons.mp hs
      · simp at hs
      · exact hi.sent id' delta hs
    · intro id' delta hq
      obtain hq | hq := mem_append.mp hq
      · exact hi.queued id' delta hq
      · simp only [mem_singleton, Prod.mk.injEq] at hq
        rw [hq.2]
        constructor <;> omega
    · intro ha
      have hacc := hi.accounts ⟨ha.1, fun hu => ha.2 (mem_cons_of_mem _ hu)⟩
      constructor
      · have hs := hacc.session
        change 65535 + (updatesSent 0 h.trace + updatesQueued 0 (h.invocations ++
          [(connectionStreamID, ofInt (h.maxSessionReceiveWindowSize -
            h.sessionReceiveWindowSize))])) - dataReceived h.trace = h.maxSessionReceiveWindowSize
        rw [updatesQueued_append, updatesQueued, if_pos (show connectionStreamID = 0 from rfl), hto]
        simp only [updatesQueued]
        omega
      · change 0 ≤ h.maxSessionReceiveWindowSize ∧
          h.maxSessionReceiveWindowSize ≤ (h.config.sessionWindowSize : ℤ)
        omega
      · intro id stream hskip hs
        have hst := hacc.streams id stream hskip hs
        change _ + ((if connectionStreamID = id ∧ connectionStreamID ≠ 0 then _ else 0) +
          updatesCalledOn id h.trace) - dataReceivedOn id h.trace = _ ∧ _
        rw [if_neg fun hc => hc.2 rfl, Int.zero_add]
        exact hst
    · intro _ hp'
      have hp'' : h.prefaceSent = false := hp'
      rw [hp] at hp''
      simp at hp''
  · exact hi

/-- The window of the session after a DATA frame. -/
def acceptDATA (h : H Url Device Encoder Decoder) (frame : Frame) : H Url Device Encoder Decoder :=
  { h.log (.received frame) with
    sessionReceiveWindowSize := h.sessionReceiveWindowSize - frame.payloadSize.toNat }

omit [DecidableEq Url] in
theorem dataPayload_eq {frame : Frame} (ht : frame.type = .DATA) :
    frame.dataPayload = frame.payloadSize.toNat := if_pos ht

omit [DecidableEq Url] in
theorem invariant_acceptDATA {frame : Frame} (hi : h.ReceiveInvariant noStream)
    (ht : frame.type = .DATA) (hp : h.prefaceSent = true)
    (hle : (frame.payloadSize.toNat : ℤ) ≤ h.sessionReceiveWindowSize) :
    (h.acceptDATA frame).ReceiveInvariant (· = frame.streamID) where
  large := hi.large
  maximum := hi.maximum
  initial := hi.initial
  sent := by
    intro id delta hs
    obtain hs | hs := mem_cons.mp hs
    · simp at hs
    · exact hi.sent id delta hs
  queued := hi.queued
  accounts := by
    intro ha
    have hacc := hi.accounts ⟨ha.1, fun hu => ha.2 (mem_cons_of_mem _ hu)⟩
    constructor
    · have hs := hacc.session
      change 65535 + (updatesSent 0 h.trace + updatesQueued 0 h.invocations) -
        (frame.dataPayload + dataReceived h.trace) =
        h.sessionReceiveWindowSize - frame.payloadSize.toNat
      rw [dataPayload_eq ht]
      omega
    · have hs := hacc.session_range
      change 0 ≤ h.sessionReceiveWindowSize - frame.payloadSize.toNat ∧
        h.sessionReceiveWindowSize - frame.payloadSize.toNat ≤ (h.config.sessionWindowSize : ℤ)
      omega
    · intro id stream hskip hs
      change _ + updatesCalledOn id h.trace -
        ((if frame.streamID = id then frame.dataPayload else 0) + dataReceivedOn id h.trace) = _ ∧ _
      rw [if_neg (Ne.symm hskip), Int.zero_add]
      exact hacc.streams id stream (fun hno => hno) hs
  preface := by
    intro _ hp'
    have hp'' : h.prefaceSent = false := hp'
    rw [hp] at hp''
    simp at hp''

omit [DecidableEq Url] in
theorem invariant_acceptStreamDATA {frame : Frame} {stream : Stream Url Device}
    (hi : h.ReceiveInvariant noStream) (ht : frame.type = .DATA) (hp : h.prefaceSent = true)
    (hle : (frame.payloadSize.toNat : ℤ) ≤ h.sessionReceiveWindowSize)
    (hl : h.activeStreams.lookup frame.streamID = some stream)
    (hle' : (frame.payloadSize.toNat : ℤ) ≤ stream.recvWindow) :
    ((h.acceptDATA frame).updateActive frame.streamID fun stream =>
      { stream with recvWindow := stream.recvWindow - frame.payloadSize.toNat }).ReceiveInvariant
      noStream := by
  have hi' := invariant_acceptDATA hi ht hp hle
  rw [updateActive]
  have hl' : (h.acceptDATA frame).activeStreams.lookup frame.streamID = some stream := hl
  rw [hl']
  refine ⟨hi'.large, hi'.maximum, hi'.initial, hi'.sent, hi'.queued, ?_, hi'.preface⟩
  intro ha
  have hacc := hi.accounts ⟨ha.1, fun hu => ha.2 (mem_cons_of_mem _ hu)⟩
  have hacc' := hi'.accounts ha
  refine ⟨hacc'.session, hacc'.session_range, ?_⟩
  intro id stream' hskip hs
  change AList.lookup id (h.activeStreams.insert frame.streamID _) = some stream' at hs
  by_cases hid : id = frame.streamID
  · rw [hid, AList.lookup_insert] at hs
    have hst := hacc.streams frame.streamID stream (fun hno => hno) hl
    change (h.config.streamWindowSize : ℤ) + updatesCalledOn id h.trace -
      ((if frame.streamID = id then frame.dataPayload else 0) + dataReceivedOn id h.trace) = _ ∧ _ ∧
      _ ≤ (h.config.streamWindowSize : ℤ)
    rw [← some.inj hs, hid, if_pos rfl, dataPayload_eq ht]
    change _ = stream.recvWindow - frame.payloadSize.toNat ∧
      0 ≤ stream.recvWindow - frame.payloadSize.toNat ∧
      stream.recvWindow - frame.payloadSize.toNat ≤ _
    omega
  · rw [AList.lookup_insert_ne hid] at hs
    exact hacc'.streams id stream' hid hs

theorem active_updateStreamData (streamID : UInt32) (frame : Frame)
    (h : H Url Device Encoder Decoder) :
    (h.updateStreamData streamID frame).activeStreams = h.activeStreams := by
  rw [updateStreamData]
  split
  · split <;> rfl
  · rfl

theorem invariant_handleStreamDATA {frame : Frame} (hi : h.ReceiveInvariant noStream)
    (ht : frame.type = .DATA) (hp : h.prefaceSent = true) (h0 : frame.streamID ≠ 0)
    (hle : (frame.payloadSize.toNat : ℤ) ≤ h.sessionReceiveWindowSize)
    (ha : frame.streamID ∈ h.activeStreams) :
    ((h.acceptDATA frame).handleStreamDATA o frame).ReceiveInvariant noStream := by
  obtain ⟨stream, hl⟩ := isSome_iff_exists.mp (AList.lookup_isSome.mpr ha)
  have hs : (h.acceptDATA frame).stream frame.streamID = stream := stream_of_lookup hl
  rw [handleStreamDATA, hs]
  split
  · have hc := @calm_abandon _ _ _ _ _ (h.acceptDATA frame) frame.streamID .FLOW_CONTROL_ERROR ha
    have hi' := hc.receiveInvariant (invariant_acceptDATA hi ht hp hle)
    exact hi'.gone (lookup_abandon _ _ _)
  · rename_i hfit
    have hi1 := invariant_acceptStreamDATA hi ht hp hle hl (Int.not_lt.mp hfit)
    dsimp only
    generalize hh1 : (h.acceptDATA frame).updateActive frame.streamID (fun stream =>
      { stream with recvWindow := stream.recvWindow - frame.payloadSize.toNat }) = h1 at hi1 ⊢
    have hi2 := (calm_updateStreamData frame.streamID frame h1).receiveInvariant hi1
    have hl2 : (h1.updateStreamData frame.streamID frame).activeStreams.lookup frame.streamID =
        some { stream with recvWindow := stream.recvWindow - frame.payloadSize.toNat } := by
      rw [active_updateStreamData, ← hh1, lookup_updateActive, if_pos rfl]
      change (h.activeStreams.lookup frame.streamID).map _ = _
      rw [hl]
      rfl
    split
    · exact (calm_endStream frame.streamID _).receiveInvariant hi2
    · split
      · rename_i hlow
        rw [stream_of_lookup hl2] at hlow ⊢
        exact invariant_updateStreamWindow hi2 h0 hl2 (by
          change 0 ≤ stream.recvWindow - frame.payloadSize.toNat
          omega) hlow
      · exact hi2

theorem session_handleStreamDATA {frame : Frame} (ha : frame.streamID ∈ h.activeStreams) :
    (h.handleStreamDATA o frame).sessionReceiveWindowSize = h.sessionReceiveWindowSize ∧
    (h.handleStreamDATA o frame).prefaceSent = h.prefaceSent := by
  rw [handleStreamDATA]
  split
  · have k := (calm_abandon .FLOW_CONTROL_ERROR ha).keepsReceive
    exact ⟨k.session, k.prefaceSent⟩
  · dsimp only
    have hf := (calm_updateStreamData frame.streamID frame (h.updateActive frame.streamID fun stream =>
      { stream with recvWindow := stream.recvWindow - frame.payloadSize.toNat })).frozen
    rw [updateActive_frozen] at hf
    generalize (h.updateActive frame.streamID fun stream =>
      { stream with recvWindow := stream.recvWindow - frame.payloadSize.toNat }).updateStreamData
        frame.streamID frame = h1 at hf ⊢
    have hfrozen : ∀ h2 : H Url Device Encoder Decoder, h2.frozen = h1.frozen →
        h2.sessionReceiveWindowSize = h.sessionReceiveWindowSize ∧
        h2.prefaceSent = h.prefaceSent := fun h2 h2f =>
      ⟨congrArg Frozen.sessionReceiveWindowSize (h2f.trans hf),
        congrArg Frozen.prefaceSent (h2f.trans hf)⟩
    split
    · exact hfrozen _ (calm_endStream frame.streamID h1).frozen
    · split
      · have hu' := @updateActive_frozen _ _ _ _ (h1.invokeSendWINDOW_UPDATE frame.streamID (ofInt
          (h1.streamInitialReceiveWindowSize - (h1.stream frame.streamID).recvWindow)))
          frame.streamID fun stream =>
            { stream with recvWindow := h1.streamInitialReceiveWindowSize }
        have hs := congrArg Frozen.sessionReceiveWindowSize hu'
        have hp := congrArg Frozen.prefaceSent hu'
        exact ⟨hs.trans (hfrozen h1 rfl).1, hp.trans (hfrozen h1 rfl).2⟩
      · exact hfrozen h1 rfl

theorem invariant_received_error (frame : Frame) (errorCode : Http2Error) (message : String)
    (hi : h.ReceiveInvariant noStream) :
    ((h.log (.received frame)).connectionError errorCode message).ReceiveInvariant noStream := by
  have k := tolerant_keepsReceive.connectionError errorCode message (h.log (.received frame))
  obtain ⟨actions, htr, hn⟩ := k.trace
  have hsent : ∀ id delta, Action.sent (.windowUpdate id delta) ∈
      ((h.log (.received frame)).connectionError errorCode message).trace →
      ValidIncrement delta := by
    intro id delta hs
    rw [htr] at hs
    obtain hs | hs := mem_append.mp hs
    · exact (hn _ hs).elim
    · obtain hs | hs := mem_cons.mp hs
      · simp at hs
      · exact hi.sent id delta hs
  apply hi.dead k.config k.maximum k.initial hsent
  · rw [k.invocations]
    exact hi.queued
  · exact fun ha => ha.1 rfl

theorem invariant_handleDATA {frame : Frame} (hi : h.ReceiveInvariant noStream)
    (ht : frame.type = .DATA)
    (hp : frame.streamID ∈ h.activeStreams ∨ h.streamWasReset frame.streamID = true →
      h.prefaceSent = true) :
    ((h.log (.received frame)).handleDATA o frame).ReceiveInvariant noStream := by
  rw [handleDATA]
  split
  · exact invariant_received_error frame _ _ hi
  · rename_i h0
    split
    · exact invariant_received_error frame _ _ hi
    · rename_i hknown
      have hp' : h.prefaceSent = true := by
        apply hp
        by_contra hno
        rw [not_or, Bool.not_eq_true] at hno
        exact hknown hno
      split
      · exact invariant_received_error frame _ _ hi
      · rename_i hfit
        have hle : (frame.payloadSize.toNat : ℤ) ≤ h.sessionReceiveWindowSize := Int.not_lt.mp hfit
        have hpos : 0 ≤ (h.acceptDATA frame).sessionReceiveWindowSize := by
          change 0 ≤ h.sessionReceiveWindowSize - frame.payloadSize.toNat
          omega
        dsimp only
        split
        · rename_i hactive
          have hi' := @invariant_handleStreamDATA _ _ _ _ _ o _ _ hi ht hp' h0 hle hactive
          obtain ⟨hs, hsent⟩ := @session_handleStreamDATA _ _ _ _ _ o (h.acceptDATA frame) frame hactive
          apply invariant_updateSessionWindow hi'
          · rw [hsent]
            exact hp'
          · omega
        · rename_i hactive
          have hi' := (invariant_acceptDATA hi ht hp' hle).gone (AList.lookup_eq_none.mpr hactive)
          exact invariant_updateSessionWindow hi' hp' hpos

end Handler

end Http2

end QtBase
