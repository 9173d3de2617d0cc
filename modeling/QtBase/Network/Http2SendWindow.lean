import QtBase.Network.Http2Tolerant

/-! The windows for data that is sent: what the peer has granted, and what was sent. -/
namespace QtBase

open List

namespace Http2

/-! ## What an observer counts -/

/-- The DATA that was sent. -/
def dataSent : List Action → ℤ
  | [] => 0
  | .sent (.data _ size) :: actions => size + dataSent actions
  | _ :: actions => dataSent actions

/-- The DATA that was sent on a stream since it was opened. -/
def dataSentOn (streamID : UInt32) : List Action → ℤ
  | [] => 0
  | .opened id :: actions => if id = streamID then 0 else dataSentOn streamID actions
  | .sent (.data id size) :: actions =>
    (if id = streamID then (size : ℤ) else 0) + dataSentOn streamID actions
  | _ :: actions => dataSentOn streamID actions

/-- The increment in a WINDOW_UPDATE frame. -/
def Frame.windowIncrement (f : Frame) : ℤ := if f.type = .WINDOW_UPDATE then (f.word 0).toNat else 0

/-- What the peer has granted for the connection. -/
def sessionGrant : List Action → ℤ
  | [] => 65535
  | .received frame :: actions =>
    (if frame.streamID = 0 then frame.windowIncrement else 0) + sessionGrant actions
  | _ :: actions => sessionGrant actions

/-- The increments that the peer has sent for a stream since it was opened. -/
def incrementsOn (streamID : UInt32) : List Action → ℤ
  | [] => 0
  | .opened id :: actions => if id = streamID then 0 else incrementsOn streamID actions
  | .received frame :: actions =>
    (if frame.streamID = streamID then frame.windowIncrement else 0) + incrementsOn streamID actions
  | _ :: actions => incrementsOn streamID actions

/-- The initial window that the peer has set. -/
def initialGrant : List Action → ℤ
  | [] => 65535
  | .initialWindow size :: _ => size
  | _ :: actions => initialGrant actions

/-- What the peer has granted for a stream. -/
def streamGrant (streamID : UInt32) (actions : List Action) : ℤ :=
  initialGrant actions + incrementsOn streamID actions

/-- A payload is not empty and fits into both windows, and no frame with data is more than what is
granted at that moment. -/
def WithinGrants : List Action → Prop
  | [] => True
  | .payload _ size sessionWindow streamWindow :: actions =>
    (0 < size ∧ size ≤ min sessionWindow streamWindow) ∧ WithinGrants actions
  | .sent (.data id size) :: actions =>
    (0 < size ∧ dataSentOn id actions + size ≤ streamGrant id actions ∧
      dataSent actions + size ≤ sessionGrant actions) ∧ WithinGrants actions
  | _ :: actions => WithinGrants actions

/-- An action that does not count here. -/
def Action.SendNeutral : Action → Prop
  | .received _ => False
  | .opened _ => False
  | .sent (.data _ _) => False
  | .payload _ _ _ _ => False
  | .initialWindow _ => False
  | _ => True

theorem Action.Neutral.sendNeutral {action : Action} (ha : action.Neutral) :
    action.SendNeutral := by
  cases action with
  | sent frame => cases frame <;> trivial
  | _ => exact ha.elim

/-- What is counted is the same. -/
structure SameCounts (actions actions' : List Action) : Prop where
  sent : dataSent actions' = dataSent actions
  sentOn : ∀ id, dataSentOn id actions' = dataSentOn id actions
  session : sessionGrant actions' = sessionGrant actions
  initial : initialGrant actions' = initialGrant actions
  increments : ∀ id, incrementsOn id actions' = incrementsOn id actions
  within : WithinGrants actions → WithinGrants actions'

theorem SameCounts.grant {actions actions' : List Action} (s : SameCounts actions actions')
    (id : UInt32) : streamGrant id actions' = streamGrant id actions := by
  rw [streamGrant, streamGrant, s.initial, s.increments]

theorem sameCounts_cons {action : Action} (ha : action.SendNeutral) (actions : List Action) :
    SameCounts actions (action :: actions) := by
  cases action with
  | sent frame =>
    cases frame with
    | data id size => exact ha.elim
    | _ => exact ⟨rfl, fun _ => rfl, rfl, rfl, fun _ => rfl, fun hw => hw⟩
  | received frame => exact ha.elim
  | opened id => exact ha.elim
  | payload id size session stream => exact ha.elim
  | initialWindow size => exact ha.elim
  | _ => exact ⟨rfl, fun _ => rfl, rfl, rfl, fun _ => rfl, fun hw => hw⟩

theorem sameCounts_append {actions : List Action} (hn : ∀ action ∈ actions, action.SendNeutral)
    (trace : List Action) : SameCounts trace (actions ++ trace) := by
  induction actions with
  | nil => exact ⟨rfl, fun _ => rfl, rfl, rfl, fun _ => rfl, fun hw => hw⟩
  | cons action actions ih =>
    have s := ih fun a ha => hn a (mem_cons_of_mem action ha)
    have s' := sameCounts_cons (hn action mem_cons_self) (actions ++ trace)
    exact ⟨s'.sent.trans s.sent, fun id => (s'.sentOn id).trans (s.sentOn id),
      s'.session.trans s.session, s'.initial.trans s.initial,
      fun id => (s'.increments id).trans (s.increments id), fun hw => s'.within (s.within hw)⟩

theorem within_sizes {id : UInt32} {sizes : List ℕ} {trace : List Action}
    (hw : WithinGrants trace) (hpos : ∀ size ∈ sizes, 0 < size)
    (hstream : sizes ≠ [] → dataSentOn id trace + (sizes.sum : ℕ) ≤ streamGrant id trace)
    (hsession : sizes ≠ [] → dataSent trace + (sizes.sum : ℕ) ≤ sessionGrant trace) :
    WithinGrants (sizes.map (fun size => Action.sent (.data id size)) ++ trace) ∧
    dataSent (sizes.map (fun size => Action.sent (.data id size)) ++ trace) =
      dataSent trace + (sizes.sum : ℕ) ∧
    (∀ id', dataSentOn id' (sizes.map (fun size => Action.sent (.data id size)) ++ trace) =
      (if id = id' then ((sizes.sum : ℕ) : ℤ) else 0) + dataSentOn id' trace) ∧
    sessionGrant (sizes.map (fun size => Action.sent (.data id size)) ++ trace) =
      sessionGrant trace ∧
    initialGrant (sizes.map (fun size => Action.sent (.data id size)) ++ trace) =
      initialGrant trace ∧
    (∀ id', incrementsOn id' (sizes.map (fun size => Action.sent (.data id size)) ++ trace) =
      incrementsOn id' trace) := by
  induction sizes with
  | nil =>
    refine ⟨hw, ?_, ?_, rfl, rfl, fun _ => rfl⟩
    · simp
    · simp
  | cons size sizes ih =>
    have hstream' := hstream (by simp)
    have hsession' := hsession (by simp)
    rw [sum_cons] at hstream' hsession'
    obtain ⟨hw', hs, hon, hg, hinit, hinc⟩ := ih (fun s hm => hpos s (mem_cons_of_mem _ hm))
      (fun _ => by omega) (fun _ => by omega)
    have hon' := hon id
    rw [if_pos rfl] at hon'
    have hgrant : streamGrant id (sizes.map (fun size => Action.sent (.data id size)) ++ trace) =
        streamGrant id trace := by
      rw [streamGrant, streamGrant, hinit, hinc]
    rw [map_cons, cons_append, sum_cons]
    refine ⟨⟨⟨hpos size mem_cons_self, ?_, ?_⟩, hw'⟩, ?_, ?_, hg, hinit, hinc⟩
    · omega
    · omega
    · rw [dataSent, hs]
      omega
    · intro id'
      rw [dataSentOn, hon id']
      split
      · omega
      · omega

namespace Handler

variable {Url Device Encoder Decoder : Type} [DecidableEq Url]

variable {o : Outside Url Device Encoder Decoder} {h h' h'' : H Url Device Encoder Decoder}

/-! ## Steps without an effect on the accounts -/

/-- No window for data to send is changed, and nothing that counts happens. -/
structure KeepsSend (h h' : H Url Device Encoder Decoder) : Prop where
  nextID : h'.nextID = h.nextID
  session : h'.sessionSendWindowSize = h.sessionSendWindowSize
  initial : h'.streamInitialSendWindowSize = h.streamInitialSendWindowSize
  pending : h'.continuedFrames = h.continuedFrames
  frameSize : 0 < h.sizeLimit → 0 < h'.sizeLimit
  suspended : ∀ priority id, id ∈ h'.suspendedStreams priority → id ∈ h.suspendedStreams priority
  promised : ∀ key promise', h'.promisedData.lookup key = some promise' →
    ∃ key promise, h.promisedData.lookup key = some promise ∧
      promise.reservedID = promise'.reservedID
  streams : ∀ id stream', h'.activeStreams.lookup id = some stream' →
    ∃ stream, h.activeStreams.lookup id = some stream ∧ stream'.sendWindow = stream.sendWindow ∧
      stream'.httpPair.isSome = stream.httpPair.isSome
  socket : h'.socket ≤ h.socket
  trace : ∃ actions, h'.trace = actions ++ h.trace ∧ ∀ action ∈ actions, action.SendNeutral

theorem KeepsSend.sameCounts (k : KeepsSend h h') : SameCounts h.trace h'.trace := by
  obtain ⟨actions, ht, hn⟩ := k.trace
  rw [ht]
  exact sameCounts_append hn h.trace

theorem Calm.keepsSend (c : Calm h h') : KeepsSend h h' where
  nextID := congrArg Frozen.nextID c.frozen
  session := congrArg Frozen.sessionSendWindowSize c.frozen
  initial := congrArg Frozen.streamInitialSendWindowSize c.frozen
  pending := congrArg Frozen.continuedFrames c.frozen
  frameSize := c.frameSize
  suspended := c.suspended
  promised := c.promised
  streams := by
    intro id stream' hs'
    obtain ⟨stream, hs, hw⟩ := c.streams id stream' hs'
    exact ⟨stream, hs, hw.send, hw.pair⟩
  socket := c.socket
  trace := by
    obtain ⟨actions, ht, hn⟩ := c.trace
    exact ⟨actions, ht, fun action ha => (hn action ha).sendNeutral⟩

theorem KeepsSend.refl (h : H Url Device Encoder Decoder) : KeepsSend h h := (Calm.refl h).keepsSend

/-- The state that the accounts are about. -/
def sendState (h : H Url Device Encoder Decoder) :=
  (h.nextID, h.sessionSendWindowSize, h.streamInitialSendWindowSize, h.continuedFrames,
    h.maxFrameSize, h.suspendedStreams, h.promisedData, h.socket)

theorem KeepsSend.of_sendState (hs : h'.sendState = h.sendState)
    (hstreams : ∀ id stream', h'.activeStreams.lookup id = some stream' →
      ∃ stream, h.activeStreams.lookup id = some stream ∧ stream'.sendWindow = stream.sendWindow ∧
        stream'.httpPair.isSome = stream.httpPair.isSome)
    (ht : ∃ actions, h'.trace = actions ++ h.trace ∧ ∀ action ∈ actions, action.SendNeutral) :
    KeepsSend h h' := by
  simp only [sendState, Prod.mk.injEq] at hs
  obtain ⟨hnext, hsession, hinitial, hpending, hsize, hsuspended, hpromised, hsocket⟩ := hs
  refine ⟨hnext, hsession, hinitial, hpending, ?_, ?_, ?_, hstreams, Nat.le_of_eq hsocket, ht⟩
  · rw [sizeLimit, sizeLimit, hsize]
    exact fun hlimit => hlimit
  · rw [hsuspended]
    exact fun _ _ hid => hid
  · rw [hpromised]
    exact fun key promise hp => ⟨key, promise, hp, rfl⟩

/-- Nothing but other fields is changed. -/
theorem KeepsSend.of_same (hs : h'.sendState = h.sendState)
    (ha : h'.activeStreams = h.activeStreams) (ht : h'.trace = h.trace) : KeepsSend h h' := by
  apply KeepsSend.of_sendState hs
  · rw [ha]
    exact fun _ stream hl => ⟨stream, hl, rfl, rfl⟩
  · exact ⟨[], ht, by simp⟩

theorem keepsSend_log {action : Action} (ha : action.SendNeutral)
    (h : H Url Device Encoder Decoder) : KeepsSend h (h.log action) :=
  KeepsSend.of_sendState rfl (fun _ stream hl => ⟨stream, hl, rfl, rfl⟩)
    ⟨[action], rfl, by simpa using ha⟩

end Handler

end Http2

end QtBase
