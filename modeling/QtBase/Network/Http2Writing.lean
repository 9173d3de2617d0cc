import QtBase.Network.Http2Calm

/-! What the writer of frames leaves behind: fewer writes of the socket, and the frames in the trace. -/
namespace QtBase

open List

namespace Http2

namespace Handler

variable {Url Device Encoder Decoder : Type} [DecidableEq Url]

variable {o : Outside Url Device Encoder Decoder} {h : H Url Device Encoder Decoder}

/-- A state that differs in the socket and in frames that were sent. -/
def sentFrames (h : H Url Device Encoder Decoder) (writes : ℕ) (frames : List Outbound) :
    H Url Device Encoder Decoder :=
  { h with socket := writes, trace := frames.map Action.sent ++ h.trace }

omit [DecidableEq Url] in
theorem sentFrames_nil : h.sentFrames h.socket [] = h := rfl

omit [DecidableEq Url] in
theorem sentFrames_sentFrames (n m : ℕ) (frames frames' : List Outbound) :
    (h.sentFrames n frames).sentFrames m frames' = h.sentFrames m (frames' ++ frames) := by
  simp only [sentFrames, map_append, append_assoc]

omit [DecidableEq Url] in
theorem write_eq (frame : Outbound) :
    (h.socket = 0 ∧ h.write frame = (h, false)) ∨
    ∃ n, h.socket = n + 1 ∧ h.write frame = (h.sentFrames n [frame], true) := by
  rw [write, socketWrite]
  cases hs : h.socket with
  | zero => exact .inl ⟨rfl, rfl⟩
  | succ n => exact .inr ⟨n, rfl, rfl⟩

omit [DecidableEq Url] in
theorem writeParts_eq (frame : Outbound) :
    (∃ n, n ≤ h.socket ∧ n = 0 ∧ h.writeParts frame = (h.sentFrames n [], false)) ∨
    ∃ n, n < h.socket ∧ h.writeParts frame = (h.sentFrames n [frame], true) := by
  rw [writeParts, socketWrite]
  cases hs : h.socket with
  | zero =>
    left
    refine ⟨0, le_rfl, rfl, ?_⟩
    have hh : h.sentFrames 0 [] = h := by
      rw [← hs]
      exact sentFrames_nil
    rw [hh]
    rfl
  | succ n =>
    have hw := @write_eq Url Device Encoder Decoder { h with socket := n } frame
    simp only [if_true]
    obtain ⟨h0, hw⟩ | ⟨m, hm, hw⟩ := hw
    · have h0' : n = 0 := h0
      exact .inl ⟨n, by omega, h0', by rw [hw]; rfl⟩
    · have hm' : n = m + 1 := hm
      exact .inr ⟨m, by omega, by rw [hw]; rfl⟩

omit [DecidableEq Url] in
/-- The payload is cut into frames of at most the limit. If not all of it is written, the socket has
failed. -/
theorem writeDATALoop_eq (limit : ℕ) (streamID : UInt32) (rounds rest : ℕ)
    (h : H Url Device Encoder Decoder) : ∃ (n : ℕ) (sizes : List ℕ),
    (writeDATALoop limit streamID rounds rest h).1 =
      h.sentFrames n (sizes.map (Outbound.data streamID)) ∧ n ≤ h.socket ∧ sizes.sum ≤ rest ∧
    ((writeDATALoop limit streamID rounds rest h).2 = false → n = 0) ∧
    ((writeDATALoop limit streamID rounds rest h).2 = true → 0 < limit → rest ≤ rounds →
      sizes.sum = rest) ∧
    (0 < limit → ∀ size ∈ sizes, 0 < size) ∧ (h.socket = 0 → sizes = []) := by
  induction rounds generalizing rest h with
  | zero =>
    refine ⟨h.socket, [], sentFrames_nil.symm, le_rfl, Nat.zero_le _, ?_, ?_, by simp, by simp⟩
    · simp [writeDATALoop]
    · intro _ _ hr
      simp
      omega
  | succ rounds ih =>
    rw [writeDATALoop]
    by_cases h0 : rest = 0
    · rw [if_pos h0]
      refine ⟨h.socket, [], sentFrames_nil.symm, le_rfl, Nat.zero_le _, by simp, ?_, by simp,
        by simp⟩
      intro _ _ _
      rw [h0]
      rfl
    · rw [if_neg h0]
      dsimp only
      obtain ⟨n, hn, hn0, hw⟩ | ⟨n, hn, hw⟩ :=
        @writeParts_eq Url Device Encoder Decoder h (.data streamID (min rest limit))
      · refine ⟨n, [], ?_, hn, Nat.zero_le _, fun _ => hn0, ?_, by simp, by simp⟩
        · simp [hw]
        · simp [hw]
      · rw [hw]
        obtain ⟨m, sizes, he, hm, hsum, hfail, hok, hpos, -⟩ :=
          ih (rest - min rest limit) (h.sentFrames n [.data streamID (min rest limit)])
        refine ⟨m, sizes ++ [min rest limit], ?_, ?_, ?_, ?_, ?_, ?_, ?_⟩
        · simp only [if_true]
          rw [he, sentFrames_sentFrames, map_append]
          rfl
        · exact le_trans hm (Nat.le_of_lt hn)
        · simp
          omega
        · exact hfail
        · intro h1 h2 h3
          have := hok h1 h2 (by omega)
          simp
          omega
        · intro hl size hsize
          obtain hsize | hsize := mem_append.mp hsize
          · exact hpos hl size hsize
          · have : size = min rest limit := by simpa using hsize
            omega
        · omega

omit [DecidableEq Url] in
theorem writeDATA_eq (streamID : UInt32) (size : ℤ) (h : H Url Device Encoder Decoder) :
    ∃ (n : ℕ) (sizes : List ℕ), (h.writeDATA streamID size).1 =
      h.sentFrames n (sizes.map (Outbound.data streamID)) ∧ n ≤ h.socket ∧
    sizes.sum ≤ (size % 2 ^ 32).toNat ∧ ((h.writeDATA streamID size).2 = false → n = 0) ∧
    ((h.writeDATA streamID size).2 = true → 0 < h.sizeLimit →
      sizes.sum = (size % 2 ^ 32).toNat) ∧
    (0 < h.sizeLimit → ∀ size ∈ sizes, 0 < size) ∧ (h.socket = 0 → sizes = []) := by
  obtain ⟨n, sizes, he, hn, hsum, hfail, hok, hpos⟩ := writeDATALoop_eq h.sizeLimit streamID
    (size % 2 ^ 32).toNat (size % 2 ^ 32).toNat h
  exact ⟨n, sizes, he, hn, hsum, hfail, fun h1 h2 => hok h1 h2 le_rfl, hpos⟩

/-! ## The rounds of `sendDATA` -/

/-- The device after a look at its data. -/
def lookedAt (h : H Url Device Encoder Decoder) (streamID : UInt32) (data : Device) :
    H Url Device Encoder Decoder :=
  h.updateActive streamID fun stream =>
    stream.updatePair fun pair => { pair with data := some data }

omit [DecidableEq Url] in
/-- What holds before the loop of `sendDATA` and after a round holds after it. A round writes a
payload in a state `h`, and changes the windows if that succeeds. -/
theorem sendDATALoop_induction {streamID : UInt32}
    {P : H Url Device Encoder Decoder → Prop}
    (hlook : ∀ h data, P h → P (h.lookedAt streamID data))
    (hround : ∀ (h : H Url Device Encoder Decoder) data pair slot,
      P h → (h.stream streamID).httpPair = some pair → pair.data = some data →
      pair.totallyUploadedData < pair.contentLength → slot ≠ 0 → slot = h.slot streamID →
      (o.readPointer data slot).2.2 ≠ -1 → (o.readPointer data slot).2.2 ≠ 0 →
      let looked := h.lookedAt streamID (o.readPointer data slot).1
      let bytesWritten := min slot ((o.readPointer data slot).2.2.bmod (2 ^ 32))
      let logged := looked.log (.payload streamID bytesWritten looked.sessionSendWindowSize
        (looked.stream streamID).sendWindow)
      ((logged.writeDATA streamID bytesWritten).2 = false → P (logged.writeDATA streamID bytesWritten).1) ∧
      ((logged.writeDATA streamID bytesWritten).2 = true →
        P ((logged.writeDATA streamID bytesWritten).1.payloadWritten o streamID bytesWritten)))
    (rounds : ℕ) (h : H Url Device Encoder Decoder) (hP : P h) :
    P (sendDATALoop o streamID rounds (h.slot streamID) h).1 := by
  induction rounds generalizing h with
  | zero => exact hP
  | succ rounds ih =>
    rw [sendDATALoop]
    split
    · exact hP
    · rename_i pair hpair
      split
      · exact hP
      · rename_i data hdata
        split
        · rename_i hguard
          simp only
          split
          · exact hlook h _ hP
          · rename_i hend
            split
            · exact hlook h _ hP
            · rename_i hnone
              have hchunk : (o.readPointer data (h.slot streamID)).2.2 ≠ 0 := by
                intro h0
                apply hnone
                simp [h0]
              have hround := hround h data pair (h.slot streamID) hP hpair hdata hguard.1 hguard.2
                rfl hend hchunk
              split
              · rename_i hok
                exact hround.1 ((Bool.not_eq_true' _).mp hok)
              · rename_i hok
                rw [Bool.not_eq_true', Bool.not_eq_false] at hok
                exact ih _ (hround.2 hok)
        · exact hP

omit [DecidableEq Url] in
theorem mem_sendDATA {streamID id : UInt32} (hid : id ∈ h.activeStreams) :
    id ∈ (h.sendDATA o streamID).1.activeStreams := by
  have hloop : id ∈ (sendDATALoop o streamID ((h.slot streamID).natAbs + 1)
      (h.slot streamID) h).1.activeStreams := by
    have hwritten : ∀ (h1 : H Url Device Encoder Decoder) size, id ∈ h1.activeStreams →
        id ∈ (h1.writeDATA streamID size).1.activeStreams := by
      intro h1 size hmem
      obtain ⟨n, sizes, he, -⟩ := writeDATA_eq streamID size h1
      rw [he]
      exact hmem
    apply sendDATALoop_induction (P := fun h1 => id ∈ h1.activeStreams)
    · intro h1 data hmem
      exact mem_updateActive.2 hmem
    · intro h1 data pair slot hmem _ _ _ _ _ _ _
      refine ⟨fun _ => hwritten _ _ ?_, fun _ => mem_updateActive.2 (hwritten _ _ ?_)⟩
      · exact mem_updateActive.2 hmem
      · exact mem_updateActive.2 hmem
    · exact hid
  rw [sendDATA]
  generalize sendDATALoop o streamID ((h.slot streamID).natAbs + 1) (h.slot streamID) h = result
    at hloop ⊢
  obtain ⟨h1, returned⟩ := result
  cases returned with
  | some b => exact hloop
  | none =>
    change id ∈ (h1.finishDATA o streamID).activeStreams
    rw [finishDATA]
    split
    · exact hloop
    · split
      · apply mem_updateActive.2
        rw [active_write]
        exact hloop
      · split
        · exact hloop
        · exact hloop

end Handler

end Http2

end QtBase
