import QtBase.Network.HttpChunkedCall

/-! A chunked body that arrives in pieces, with a call of `readReplyBodyChunked` after each. -/
namespace QtBase.Http

open List

/-- The reply, the bytes that wait in its socket, and what was appended to `out`. -/
structure Connection where
  d : QHttpNetworkReplyPrivate
  socket : List UInt8
  out : List UInt8
  deriving DecidableEq, Repr

/-- A piece arrives, and `readReplyBodyChunked` is called unless the reply is done. -/
def receive (longMax : ℤ) (x : Connection) (piece : List UInt8) : Exec Connection :=
  if x.d.state = .AllDoneState then .ok { x with socket := x.socket ++ piece }
  else do
    let r ← readReplyBodyChunked longMax x.d (x.socket ++ piece) x.out
    return ⟨r.d, r.socket, r.out⟩

def run (longMax : ℤ) (x : Connection) (pieces : List (List UInt8)) : Exec Connection :=
  pieces.foldlM (receive longMax) x

/-- The header was read. -/
def start (readBufferMaxSize : ℤ) : Connection :=
  ⟨⟨.ReadingDataState, [], false, 0, 0, readBufferMaxSize, false⟩, [], []⟩

/-- Every call of the run may be made. -/
def CalmRun (longMax : ℤ) : Connection → List (List UInt8) → Prop
  | _, [] => True
  | x, piece :: pieces =>
    (x.d.state ≠ .AllDoneState → Calm x.d (x.socket ++ piece)) ∧
      ∀ x', receive longMax x piece = .ok x' → CalmRun longMax x' pieces

variable {last next : List UInt8} {longMax : ℤ}

/-- What holds of the connection between two pieces: `future` has not arrived, `data` is not
appended. -/
structure Waits (last next : List UInt8) (longMax : ℤ) (future data : List UInt8)
    (x : Connection) : Prop where
  limit : 0 ≤ x.d.readBufferMaxSize
  stands : Stands last next longMax x.d (x.socket ++ future) data
  quiet : x.d.lastChunkRead = true → x.d.state ≠ .AllDoneState → x.socket = []
  small : x.d.state ≠ .AllDoneState → (x.socket.length : ℤ) < 2 ^ 31

theorem receive_spec {x : Connection} {piece future data : List UInt8}
    (hlastLine : SizeLine last 0) (hlong : 0 ≤ longMax)
    (h : Waits last next longMax (piece ++ future) data x)
    (hcalm : x.d.state ≠ .AllDoneState → Calm x.d (x.socket ++ piece)) :
    ∃ x' eaten o data', receive longMax x piece = .ok x' ∧
      x.socket ++ piece = eaten ++ x'.socket ∧ x'.out = x.out ++ o ∧ data = o ++ data' ∧
      Waits last next longMax future data' x' ∧
      (x.d.state ≠ .AllDoneState → x.socket ++ piece ≠ [] →
        x'.socket.length < (x.socket ++ piece).length) := by
  have hstands := h.stands
  rw [← append_assoc] at hstands
  by_cases hstate : x.d.state = .AllDoneState
  · refine ⟨_, [], [], data, if_pos hstate, rfl, (append_nil _).symm, rfl, ⟨h.limit, hstands,
      fun _ h => absurd hstate h, fun h => absurd hstate h⟩, fun h => absurd hstate h⟩
  · have hc := hcalm hstate
    have hreceive : receive longMax x piece = do
        let r ← readReplyBodyChunked longMax x.d (x.socket ++ piece) x.out
        return ⟨r.d, r.socket, r.out⟩ := if_neg hstate
    by_cases hempty : x.socket ++ piece = []
    · obtain ⟨hs, rfl⟩ := append_eq_nil_iff.mp hempty
      refine ⟨x, [], [], data, ?_, by simp, by simp, rfl, ⟨h.limit, by simpa using hstands, h.quiet,
        h.small⟩, fun _ h => absurd hempty h⟩
      rw [hreceive, hempty, readReplyBodyChunked, chunkedLoop, if_pos rfl, ← hs]
      rfl
    · obtain ⟨r, hrun, hreads, hless⟩ : ∃ r,
          readReplyBodyChunked longMax x.d (x.socket ++ piece) x.out = .ok r ∧ _ ∧ _ :=
        readReplyBodyChunked_spec hlastLine hlong h.limit hstate hc hempty hstands
      obtain ⟨⟨eaten, heaten⟩, hlimit, ⟨o, data', hout, hdata, hst⟩, hquiet⟩ := hreads
      have hsmall := hc.small
      refine ⟨⟨r.d, r.socket, r.out⟩, eaten, o, data', by rw [hreceive, hrun]; rfl, heaten, hout,
        hdata, ⟨hlimit ▸ h.limit, hst, hquiet, fun _ => ?_⟩, fun _ _ => hless⟩
      dsimp only
      omega

theorem run_spec {x : Connection} {pieces : List (List UInt8)} {future data : List UInt8}
    (hlastLine : SizeLine last 0) (hlong : 0 ≤ longMax)
    (h : Waits last next longMax (pieces.flatten ++ future) data x)
    (hcalm : CalmRun longMax x pieces) :
    ∃ x' eaten o data', run longMax x pieces = .ok x' ∧
      x.socket ++ pieces.flatten = eaten ++ x'.socket ∧ x'.out = x.out ++ o ∧ data = o ++ data' ∧
      Waits last next longMax future data' x' := by
  induction pieces generalizing x data with
  | nil => exact ⟨x, [], [], data, rfl, by simp, by simp, rfl, by simpa using h⟩
  | cons piece pieces ih =>
    rw [flatten_cons, append_assoc] at h
    obtain ⟨x₁, eaten₁, o₁, data₁, hrun₁, heaten₁, hout₁, rfl, hw₁, -⟩ :=
      receive_spec hlastLine hlong h hcalm.1
    obtain ⟨x', eaten, o, data', hrun, heaten, hout, rfl, hw⟩ := ih hw₁ (hcalm.2 x₁ hrun₁)
    refine ⟨x', eaten₁ ++ eaten, o₁ ++ o, data', ?_, ?_, ?_, ?_, hw⟩
    · rw [run, foldlM_cons, hrun₁]
      exact hrun
    · rw [flatten_cons, ← append_assoc, heaten₁, append_assoc, heaten,
        append_assoc]
    · rw [hout, hout₁, append_assoc]
    · rw [append_assoc]

theorem run_ends {x : Connection} {future data : List UInt8} {m : ℕ} (hlastLine : SizeLine last 0)
    (hlong : 0 ≤ longMax) (h : Waits last next longMax future data x)
    (hall : future.length ≤ next.length) (hm : x.socket.length ≤ m) :
    ∃ n x', run longMax x (List.replicate n []) = .ok x' ∧ x'.d.state = .AllDoneState ∧
      x'.out = x.out ++ data := by
  induction m generalizing x data with
  | zero =>
    obtain ⟨-, more, hmore, hdone, hdata⟩ := h.stands.remaining
    have hlen := congrArg List.length hmore
    simp only [length_append] at hlen
    have hnil : more = [] := eq_nil_of_length_eq_zero (by omega)
    exact ⟨0, x, rfl, hdone.mpr hnil, by simp [hdata hnil]⟩
  | succ m ih =>
    obtain ⟨-, more, hmore, hdone, hdata⟩ := h.stands.remaining
    by_cases hstate : x.d.state = .AllDoneState
    · exact ⟨0, x, rfl, hstate, by simp [hdata (hdone.mp hstate)]⟩
    have hsocket : x.socket ≠ [] := by
      intro hnil
      have hlen := congrArg List.length hmore
      simp only [hnil, length_append, length_nil] at hlen
      exact hstate (hdone.mpr (eq_nil_of_length_eq_zero (by omega)))
    have hcalm : Calm x.d (x.socket ++ []) := by
      rw [append_nil]
      exact ⟨h.small hstate, fun hlast => hsocket (h.quiet hlast.1 hstate)⟩
    obtain ⟨x₁, -, o, data', hrun₁, -, hout₁, rfl, hw₁, hless⟩ :=
      receive_spec hlastLine hlong h fun _ => hcalm
    have hshort := hless hstate (by simpa using hsocket)
    rw [append_nil] at hshort
    obtain ⟨n, x', hrun, hend, hout⟩ := ih hw₁ (by omega)
    refine ⟨n + 1, x', ?_, hend, by rw [hout, hout₁, append_assoc]⟩
    rw [run, replicate_succ, foldlM_cons, hrun₁]
    exact hrun

theorem run_append (x : Connection) (pieces more : List (List UInt8)) :
    run longMax x (pieces ++ more) = (run longMax x pieces >>= fun x => run longMax x more) :=
  foldlM_append

theorem waits_start (b : Body) {readBufferMaxSize : ℤ} (hlimit : 0 ≤ readBufferMaxSize)
    (hfits : Fits longMax b.chunks) (next : List UInt8) :
    Waits b.last next longMax (b.bytes ++ next) b.data (start readBufferMaxSize) := by
  refine ⟨hlimit, .line [] (sizeLine b.last b.chunks ++ [cr]) b.chunks
    ⟨by simp [start], rfl⟩ rfl hfits
    le_rfl (.inl rfl) (by simp [start]) ?_ rfl, fun _ _ => rfl, fun _ => by simp [start]⟩
  have hbytes : ∀ cs, chunkBytes (b.last ++ crlf ++ crlf) cs ++ next = restOf b.last next cs := by
    intro cs
    induction cs with
    | nil => simp [chunkBytes, restOf]
    | cons c cs ih =>
      rw [chunkBytes, restOf, chunkBytes, ← restOf, ← ih]
      simp
  simp only [start, Body.bytes, nil_append, hbytes, restOf_eq]
  simp [crlf]

section Examples

theorem sizeLine_digit {d : UInt8} (hd : isHexDigit d = true) : SizeLine [d] (hexValue [d]) :=
  ⟨[d], [], rfl, by simp, by simpa using hd, rfl, by simp, by simp, .inl rfl⟩

/-- `"1\r\na\r\n0\r\n\r\n"` -/
def letter : Body where
  chunks := [⟨[49], [97], by simp, sizeLine_digit (by decide)⟩]
  last := [48]
  wellFormed := sizeLine_digit (by decide)

end Examples

end QtBase.Http
