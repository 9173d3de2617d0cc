import QtBase.Network.Http2Tolerant

/-! The windows for data that is received: what the peer may send, and what it is told. -/
namespace QtBase

open List

namespace Http2

/-! ## What an observer counts -/

/-- The payload of a DATA frame. -/
def Frame.dataPayload (f : Frame) : ℤ := if f.type = .DATA then f.payloadSize.toNat else 0

/-- The DATA that the peer has sent. -/
def dataReceived : List Action → ℤ
  | [] => 0
  | .received frame :: actions => frame.dataPayload + dataReceived actions
  | _ :: actions => dataReceived actions

/-- The DATA that the peer has sent on a stream since it was opened. -/
def dataReceivedOn (streamID : UInt32) : List Action → ℤ
  | [] => 0
  | .opened id :: actions => if id = streamID then 0 else dataReceivedOn streamID actions
  | .received frame :: actions =>
    (if frame.streamID = streamID then frame.dataPayload else 0) + dataReceivedOn streamID actions
  | _ :: actions => dataReceivedOn streamID actions

/-- The increments that `sendWINDOW_UPDATE` is called with for a stream since it was opened. Those
with ID 0 are for the connection. -/
def updatesCalledOn (streamID : UInt32) : List Action → ℤ
  | [] => 0
  | .opened id :: actions => if id = streamID then 0 else updatesCalledOn streamID actions
  | .called id delta :: actions =>
    (if id = streamID ∧ id ≠ 0 then (delta.toNat : ℤ) else 0) + updatesCalledOn streamID actions
  | _ :: actions => updatesCalledOn streamID actions

/-- The increments that are sent. -/
def updatesSent (streamID : UInt32) : List Action → ℤ
  | [] => 0
  | .sent (.windowUpdate id delta) :: actions =>
    (if id = streamID then (delta.toNat : ℤ) else 0) + updatesSent streamID actions
  | _ :: actions => updatesSent streamID actions

/-- The increments whose frames are still to be sent. -/
def updatesQueued (streamID : UInt32) : List (UInt32 × UInt32) → ℤ
  | [] => 0
  | (id, delta) :: rest =>
    (if id = streamID then (delta.toNat : ℤ) else 0) + updatesQueued streamID rest

/-- An increment that a WINDOW_UPDATE may carry. -/
def ValidIncrement (delta : UInt32) : Prop := 1 ≤ delta.toNat ∧ delta.toNat ≤ 2 ^ 31 - 1

/-- An action that does not count here. -/
def Action.ReceiveNeutral : Action → Prop
  | .received _ => False
  | .opened _ => False
  | .called _ _ => False
  | .sent (.windowUpdate _ _) => False
  | _ => True

theorem Action.Neutral.receiveNeutral {action : Action} (ha : action.Neutral) :
    action.ReceiveNeutral := by
  cases action with
  | sent frame => cases frame <;> trivial
  | _ => exact ha.elim

theorem counts_append {actions : List Action} (hn : ∀ action ∈ actions, action.ReceiveNeutral)
    (trace : List Action) (id : UInt32) : dataReceived (actions ++ trace) = dataReceived trace ∧
    dataReceivedOn id (actions ++ trace) = dataReceivedOn id trace ∧
    updatesCalledOn id (actions ++ trace) = updatesCalledOn id trace ∧
    updatesSent id (actions ++ trace) = updatesSent id trace := by
  induction actions with
  | nil => exact ⟨rfl, rfl, rfl, rfl⟩
  | cons action actions ih =>
    obtain ⟨h1, h2, h3, h4⟩ := ih fun a ha => hn a (mem_cons_of_mem action ha)
    have ha := hn action mem_cons_self
    cases action with
    | sent frame => cases frame <;> first | exact ⟨h1, h2, h3, h4⟩ | exact ha.elim
    | received frame => exact ha.elim
    | opened id => exact ha.elim
    | called id delta => exact ha.elim
    | _ => exact ⟨h1, h2, h3, h4⟩

theorem updatesQueued_append (id : UInt32) (queue queue' : List (UInt32 × UInt32)) :
    updatesQueued id (queue ++ queue') = updatesQueued id queue + updatesQueued id queue' := by
  induction queue with
  | nil => simp [updatesQueued]
  | cons entry queue ih =>
    obtain ⟨id', delta⟩ := entry
    rw [cons_append, updatesQueued, updatesQueued, ih, Int.add_assoc]

namespace Handler

variable {Url Device Encoder Decoder : Type} [DecidableEq Url]

variable {o : Outside Url Device Encoder Decoder} {h h' h'' : H Url Device Encoder Decoder}

/-! ## Steps without an effect on the accounts -/

/-- No window for data to receive is changed, and nothing that counts happens. -/
structure KeepsReceive (h h' : H Url Device Encoder Decoder) : Prop where
  config : h'.config = h.config
  prefaceSent : h'.prefaceSent = h.prefaceSent
  maximum : h'.maxSessionReceiveWindowSize = h.maxSessionReceiveWindowSize
  session : h'.sessionReceiveWindowSize = h.sessionReceiveWindowSize
  initial : h'.streamInitialReceiveWindowSize = h.streamInitialReceiveWindowSize
  invocations : h'.invocations = h.invocations
  streams : ∀ id stream', h'.activeStreams.lookup id = some stream' →
    ∃ stream, h.activeStreams.lookup id = some stream ∧ stream'.recvWindow = stream.recvWindow
  socket : h'.socket ≤ h.socket
  trace : ∃ actions, h'.trace = actions ++ h.trace ∧ ∀ action ∈ actions, action.ReceiveNeutral

omit [DecidableEq Url] in
theorem KeepsReceive.refl (h : H Url Device Encoder Decoder) : KeepsReceive h h :=
  ⟨rfl, rfl, rfl, rfl, rfl, rfl, fun _ stream hs => ⟨stream, hs, rfl⟩, le_rfl, [], rfl, by simp⟩

omit [DecidableEq Url] in
theorem KeepsReceive.trans (k : KeepsReceive h h') (k' : KeepsReceive h' h'') :
    KeepsReceive h h'' where
  config := k'.config.trans k.config
  prefaceSent := k'.prefaceSent.trans k.prefaceSent
  maximum := k'.maximum.trans k.maximum
  session := k'.session.trans k.session
  initial := k'.initial.trans k.initial
  invocations := k'.invocations.trans k.invocations
  streams := by
    intro id stream'' hs''
    obtain ⟨stream', hs', hw'⟩ := k'.streams id stream'' hs''
    obtain ⟨stream, hs, hw⟩ := k.streams id stream' hs'
    exact ⟨stream, hs, hw'.trans hw⟩
  socket := le_trans k'.socket k.socket
  trace := by
    obtain ⟨actions, ht, hn⟩ := k.trace
    obtain ⟨actions', ht', hn'⟩ := k'.trace
    refine ⟨actions' ++ actions, ?_, ?_⟩
    · rw [ht', ht, append_assoc]
    · intro action ha
      obtain ha | ha := mem_append.mp ha
      · exact hn' action ha
      · exact hn action ha

theorem Calm.keepsReceive (c : Calm h h') : KeepsReceive h h' where
  config := congrArg Frozen.config c.frozen
  prefaceSent := congrArg Frozen.prefaceSent c.frozen
  maximum := congrArg Frozen.maxSessionReceiveWindowSize c.frozen
  session := congrArg Frozen.sessionReceiveWindowSize c.frozen
  initial := congrArg Frozen.streamInitialReceiveWindowSize c.frozen
  invocations := congrArg Frozen.invocations c.frozen
  streams := by
    intro id stream' hs'
    obtain ⟨stream, hs, hw⟩ := c.streams id stream' hs'
    exact ⟨stream, hs, hw.recv⟩
  socket := c.socket
  trace := by
    obtain ⟨actions, ht, hn⟩ := c.trace
    exact ⟨actions, ht, fun action ha => (hn action ha).receiveNeutral⟩

omit [DecidableEq Url] in
theorem keepsReceive_log {action : Action} (ha : action.ReceiveNeutral)
    (h : H Url Device Encoder Decoder) : KeepsReceive h (h.log action) :=
  ⟨rfl, rfl, rfl, rfl, rfl, rfl, fun _ stream hs => ⟨stream, hs, rfl⟩, le_rfl,
    [action], rfl, by simpa using ha⟩

omit [DecidableEq Url] in
theorem keepsReceive_updateActive {streamID : UInt32} {f : Stream Url Device → Stream Url Device}
    (hf : ∀ stream, (f stream).recvWindow = stream.recvWindow) (h : H Url Device Encoder Decoder) :
    KeepsReceive h (h.updateActive streamID f) := by
  have hfrozen := @updateActive_frozen Url Device Encoder Decoder h streamID f
  constructor
  · exact congrArg Frozen.config hfrozen
  · exact congrArg Frozen.prefaceSent hfrozen
  · exact congrArg Frozen.maxSessionReceiveWindowSize hfrozen
  · exact congrArg Frozen.sessionReceiveWindowSize hfrozen
  · exact congrArg Frozen.streamInitialReceiveWindowSize hfrozen
  · exact congrArg Frozen.invocations hfrozen
  · intro id stream' hs
    rw [lookup_updateActive] at hs
    split at hs
    · obtain ⟨stream, hl, rfl⟩ := Option.map_eq_some_iff.mp hs
      exact ⟨stream, hl, hf stream⟩
    · exact ⟨stream', hs, rfl⟩
  · rw [updateActive]
    split
    · exact le_rfl
    · exact le_rfl
  · rw [updateActive]
    split
    · exact ⟨[], rfl, by simp⟩
    · exact ⟨[], rfl, by simp⟩

omit [DecidableEq Url] in
theorem keepsReceive_writeDATA (streamID : UInt32) (size : ℤ) (h : H Url Device Encoder Decoder) :
    KeepsReceive h (h.writeDATA streamID size).1 := by
  obtain ⟨n, sizes, he, hn, -⟩ := writeDATA_eq streamID size h
  rw [he]
  refine ⟨rfl, rfl, rfl, rfl, rfl, rfl, fun _ stream hs => ⟨stream, hs, rfl⟩, hn, _, rfl, ?_⟩
  intro action ha
  obtain ⟨frame, hf, rfl⟩ := mem_map.mp ha
  obtain ⟨size, -, rfl⟩ := mem_map.mp hf
  trivial

omit [DecidableEq Url] in
theorem keepsReceive_payloadWritten (streamID : UInt32) (bytesWritten : ℤ)
    (h : H Url Device Encoder Decoder) : KeepsReceive h (h.payloadWritten o streamID bytesWritten) := by
  have hu := @keepsReceive_updateActive Url Device Encoder Decoder streamID (fun stream =>
      { stream.updatePair fun pair => { pair with
          data := pair.data.map fun d => o.advanceReadPointer d bytesWritten
          totallyUploadedData := pair.totallyUploadedData + bytesWritten } with
        sendWindow := stream.sendWindow - bytesWritten }) (fun _ => rfl) h
  exact ⟨hu.config, hu.prefaceSent, hu.maximum, hu.session, hu.initial, hu.invocations, hu.streams,
    hu.socket, hu.trace⟩

theorem keepsReceive_finishDATA (streamID : UInt32) (h : H Url Device Encoder Decoder) :
    KeepsReceive h (h.finishDATA o streamID) := by
  rw [finishDATA]
  split
  · exact KeepsReceive.refl h
  · split
    · exact (calm_endUpload streamID h).keepsReceive
    · split
      · exact KeepsReceive.refl h
      · exact ⟨rfl, rfl, rfl, rfl, rfl, rfl, fun _ stream hs => ⟨stream, hs, rfl⟩, le_rfl, [], rfl,
          by simp⟩

theorem keepsReceive_sendDATA (streamID : UInt32) (h : H Url Device Encoder Decoder) :
    KeepsReceive h (h.sendDATA o streamID).1 := by
  have hloop : KeepsReceive h (sendDATALoop o streamID ((h.slot streamID).natAbs + 1)
      (h.slot streamID) h).1 := by
    apply sendDATALoop_induction
    · intro h1 data k
      exact k.trans (calm_updatePair _ h1).keepsReceive
    · intro h1 data pair slot k _ _ _ _ _ _ _
      have hlooked : KeepsReceive h1 (h1.lookedAt streamID (o.readPointer data slot).1) :=
        (calm_updatePair _ h1).keepsReceive
      refine ⟨fun _ => ?_, fun _ => ?_⟩
      · exact ((k.trans hlooked).trans (keepsReceive_log (by trivial) _)).trans
          (keepsReceive_writeDATA _ _ _)
      · exact (((k.trans hlooked).trans (keepsReceive_log (by trivial) _)).trans
          (keepsReceive_writeDATA _ _ _)).trans (keepsReceive_payloadWritten _ _ _)
    · exact KeepsReceive.refl h
  rw [sendDATA]
  generalize sendDATALoop o streamID ((h.slot streamID).natAbs + 1) (h.slot streamID) h = result
    at hloop ⊢
  obtain ⟨h1, returned⟩ := result
  cases returned with
  | none => exact hloop.trans (keepsReceive_finishDATA streamID h1)
  | some b => exact hloop

omit [DecidableEq Url] in
theorem keepsReceive_markAsReset (streamID : UInt32) (h : H Url Device Encoder Decoder) :
    KeepsReceive h (h.markAsReset streamID) :=
  ⟨rfl, rfl, rfl, rfl, rfl, rfl, fun _ stream hs => ⟨stream, hs, rfl⟩, le_rfl, [], rfl, by simp⟩

theorem keepsReceive_resetPromisedStream (frame : Frame) (reason : Http2Error)
    (h : H Url Device Encoder Decoder) : KeepsReceive h (h.resetPromisedStream frame reason) :=
  (calm_sendRST_STREAM _ reason h).keepsReceive.trans (keepsReceive_markAsReset _ _)

theorem tolerant_keepsReceive : Tolerant (@KeepsReceive Url Device Encoder Decoder) where
  trans := KeepsReceive.trans
  calm := Calm.keepsReceive
  fail := by
    intro h errorCode message
    have haway : KeepsReceive (h.log (.connectionError h.goingAway errorCode message))
        { h.log (.connectionError h.goingAway errorCode message) with goingAway := true } :=
      ⟨rfl, rfl, rfl, rfl, rfl, rfl, fun _ stream hs => ⟨stream, hs, rfl⟩, le_rfl, [], rfl, by simp⟩
    exact (keepsReceive_log (by trivial) h).trans haway

/-! ## What the peer allows -/

theorem keepsReceive_handleWINDOW_UPDATE (frame : Frame) (h : H Url Device Encoder Decoder) :
    KeepsReceive h (h.handleWINDOW_UPDATE frame) := by
  rw [handleWINDOW_UPDATE]
  split
  · split
    · exact tolerant_keepsReceive.connectionError _ _ h
    · exact ⟨rfl, rfl, rfl, rfl, rfl, rfl, fun _ stream hs => ⟨stream, hs, rfl⟩, le_rfl, [], rfl,
        by simp⟩
  · split
    · exact KeepsReceive.refl h
    · rename_i hmem
      split
      · exact (calm_abandon _ (not_not.mp hmem)).keepsReceive
      · apply keepsReceive_updateActive
        intro stream
        rfl

omit [DecidableEq Url] in
theorem keepsReceive_adjustWindows (delta : ℤ) (ids : List UInt32)
    (h : H Url Device Encoder Decoder) : KeepsReceive h (adjustWindows delta ids h).1 := by
  induction ids generalizing h with
  | nil => exact KeepsReceive.refl h
  | cons id ids ih =>
    rw [adjustWindows]
    split
    · exact ih h
    · apply KeepsReceive.trans _ (ih _)
      apply keepsReceive_updateActive
      intro stream
      rfl

theorem setsWindows_keepsReceive : SetsWindows (@KeepsReceive Url Device Encoder Decoder) := by
  intro h newValue _ _
  have hset : KeepsReceive (h.log (.initialWindow newValue)) (h.setInitialWindowSize newValue) :=
    ⟨rfl, rfl, rfl, rfl, rfl, rfl, fun _ stream hs => ⟨stream, hs, rfl⟩, le_rfl, [], rfl, by simp⟩
  rw [acceptInitialWindowSize]
  exact (((keepsReceive_log (by trivial) h).trans hset).trans
    (keepsReceive_adjustWindows _ _ _)).trans (calm_abandonBroken _ _).keepsReceive

end Handler

end Http2

end QtBase
