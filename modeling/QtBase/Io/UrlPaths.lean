import QtBase.Core.Exec
import QtBase.Lib.UriReference
import Mathlib.Data.List.GetD

/-! The paths of URLs: `mergePaths` and `removeDotsFromPath`, which works in place. -/
namespace QtBase.Url

open UriReference List Nat

abbrev dot : UInt16 := 0x2e

abbrev slash : UInt16 := 0x2f

theorem dot_ne_slash : dot ≠ slash := by decide

/-- `QUrlPrivate::mergePaths`, on a URL with this host and path. -/
def mergePaths (host path relativePath : List UInt16) : List UInt16 :=
  if host ≠ [] ∧ path = [] then slash :: relativePath
  else if slash ∉ path then relativePath
  else directory slash path ++ relativePath

/-! ## `removeDotsFromPath` -/

/-- The characters of the path, and the positions `out` and `in` in them. -/
structure DotScan where
  chars : List UInt16
  out : ℕ
  inp : ℕ

namespace DotScan

/-- What stands between `in` and `end`. -/
def text (s : DotScan) : List UInt16 := s.chars.drop s.inp

/-- The character at `i`; at the end that is the terminator. -/
def charAt (s : DotScan) (i : ℕ) : UInt16 := s.chars.getD i 0

/-- `*out++ = *in++;` -/
def move (s : DotScan) : DotScan := ⟨s.chars.set s.out (s.charAt s.inp), s.out + 1, s.inp + 1⟩

/-- `while (in < end && in->unicode() != '/') *out++ = *in++;` -/
def moveSegment : ℕ → DotScan → DotScan
  | 0, s => s
  | rounds + 1, s =>
    if s.inp < s.chars.length ∧ s.charAt s.inp ≠ slash then moveSegment rounds s.move else s

/-- `while (out > path->constData() && (--out)->unicode() != '/') ;` -/
def backOut (s : DotScan) : ℕ → ℕ
  | 0 => 0
  | out + 1 => if s.charAt out = slash then out else s.backOut out

/-- A prefix of "../" or "./" is removed. -/
def skipPrefix (s : DotScan) : DotScan :=
  if s.text.take 2 = [dot, slash] then { s with inp := s.inp + 2 }
  else if s.text.take 3 = [dot, dot, slash] then { s with inp := s.inp + 3 }
  else s

/-- A round of the loop from there on, and whether there may be another. -/
def afterPrefix (s : DotScan) : Bool × DotScan :=
  if s.text.take 3 = [slash, dot, slash] then (true, { s with inp := s.inp + 2 })
  else if s.text = [slash, dot] then (false, ⟨s.chars.set s.out slash, s.out + 1, s.inp + 2⟩)
  else if s.text.take 4 = [slash, dot, dot, slash] then
    let out := s.backOut s.out
    let inp := if out = 0 ∧ s.charAt out ≠ slash then s.inp + 1 else s.inp
    (true, { s with out := out, inp := inp + 3 })
  else if s.text = [slash, dot, dot] then
    let out := s.backOut s.out
    let out := if s.charAt out = slash then out + 1 else out
    (false, { s with out := out, inp := s.inp + 3 })
  else (true, moveSegment s.chars.length s.move)

def loop : ℕ → DotScan → Exec DotScan
  | 0, _ => .error .diverge
  | rounds + 1, s =>
    if s.inp < s.chars.length then
      match s.skipPrefix.afterPrefix with
      | (true, s) => loop rounds s
      | (false, s) => .ok s
    else .ok s

end DotScan

def removeDotsFromPath (path : List UInt16) : Exec (List UInt16) := do
  let inp := if path = [dot] then 1 else if path = [dot, dot] then 2 else 0
  let s ← DotScan.loop (path.length + 1) ⟨path, 0, inp⟩
  return s.chars.take s.out

/-! ## The output and the input -/

namespace DotScan

/-- `O` has been written, and `I` is to be read. -/
structure Reads (s : DotScan) (O I : List UInt16) : Prop where
  out_eq : s.chars.take s.out = O
  text_eq : s.text = I
  le : s.out ≤ s.inp
  inp_le : s.inp ≤ s.chars.length

/-- The first character, to which `out` may come back, is a slash. -/
def Rooted (s : DotScan) : Prop := s.chars.head? = some slash

variable {s : DotScan} {O I : List UInt16} {c : UInt16}

theorem Reads.charAt (h : s.Reads O (c :: I)) : s.charAt s.inp = c := by
  have htext := h.text_eq
  unfold text at htext
  unfold DotScan.charAt
  rw [getD_eq_getElem?_getD, ← head?_drop, htext]
  rfl

theorem Reads.inp_lt (h : s.Reads O (c :: I)) : s.inp < s.chars.length := by
  have hlen := congrArg List.length h.text_eq
  unfold text at hlen
  rw [length_drop, length_cons] at hlen
  omega

theorem Reads.skip (h : s.Reads O I) {n : ℕ} (hn : n ≤ I.length) :
    Reads { s with inp := s.inp + n } O (I.drop n) := by
  have hlen := congrArg List.length h.text_eq
  have hle := h.le
  unfold text at hlen
  rw [length_drop] at hlen
  have hinp := h.inp_le
  refine ⟨h.out_eq, ?_, by dsimp only; omega, by dsimp only; omega⟩
  rw [← h.text_eq]
  exact drop_drop.symm

theorem Reads.move (h : s.Reads O (c :: I)) : s.move.Reads (O ++ [c]) I := by
  have hlt := h.inp_lt
  have hle := h.le
  have hout : s.out < s.chars.length := by omega
  refine ⟨?_, ?_, succ_le_succ hle, ?_⟩
  · unfold DotScan.move
    dsimp only
    rw [h.charAt, take_add_one, take_set_of_le (le_refl _), h.out_eq,
      getElem?_set_self hout]
    rfl
  · unfold text DotScan.move
    dsimp only
    rw [drop_set_of_lt (lt_succ_of_le hle), succ_eq_add_one, ← drop_drop]
    have htext := h.text_eq
    unfold text at htext
    rw [htext]
    rfl
  · unfold DotScan.move
    simp
    omega

theorem Rooted.move (h : s.Rooted) (hout : s.out = 0 → s.charAt s.inp = slash) :
    s.move.Rooted := by
  unfold Rooted DotScan.move at *
  dsimp only
  obtain ⟨t, ht⟩ : ∃ t, s.chars = slash :: t := ⟨s.chars.tail, (cons_head?_tail h).symm⟩
  rw [ht]
  cases hn : s.out with
  | zero => rw [hout hn]; rfl
  | succ n => rfl

theorem length_move (s : DotScan) : s.move.chars.length = s.chars.length := length_set

theorem moveSegment_stop {segs : List (List UInt16)} (h : s.Reads O (join slash segs))
    (rounds : ℕ) : moveSegment rounds s = s := by
  cases rounds with
  | zero => rfl
  | succ rounds =>
    refine if_neg fun hgo => ?_
    cases segs with
    | nil =>
      have hnil := h.text_eq
      rw [join_nil] at hnil
      exact absurd hgo.1 (not_lt.2 (drop_eq_nil_iff.1 hnil))
    | cons w segs => exact hgo.2 h.charAt

theorem Reads.moveSegment {rounds : ℕ} {w : List UInt16} {segs : List (List UInt16)}
    (h : s.Reads O (w ++ join slash segs)) (hw : slash ∉ w) (hrounds : w.length ≤ rounds) :
    (moveSegment rounds s).Reads (O ++ w) (join slash segs) ∧
      (DotScan.moveSegment rounds s).chars.length = s.chars.length ∧
      (0 < s.out → s.Rooted → (DotScan.moveSegment rounds s).Rooted) := by
  induction rounds generalizing s O w with
  | zero =>
    rw [length_eq_zero_iff.1 (le_zero.1 hrounds)] at h ⊢
    rw [append_nil]
    exact ⟨h, rfl, fun _ hroot => hroot⟩
  | succ rounds ih =>
    cases w with
    | nil =>
      rw [nil_append] at h
      rw [moveSegment_stop h, append_nil]
      exact ⟨h, rfl, fun _ hroot => hroot⟩
    | cons c w =>
      have hc : s.charAt s.inp ≠ slash := by
        rw [h.charAt]
        exact fun heq => hw (heq ▸ mem_cons_self)
      have hgo : DotScan.moveSegment (rounds + 1) s = DotScan.moveSegment rounds s.move :=
        if_pos ⟨h.inp_lt, hc⟩
      obtain ⟨hreads, hlen, hroot⟩ := ih h.move (fun hmem => hw (mem_cons_of_mem _ hmem))
        (le_of_succ_le_succ hrounds)
      rw [hgo]
      rw [append_assoc] at hreads
      refine ⟨hreads, hlen.trans (length_move s), fun hpos hrooted => ?_⟩
      exact hroot (succ_pos _) (hrooted.move fun h0 => absurd h0 hpos.ne')

/-- A whole segment, with the first of its characters, whatever that is. -/
theorem Reads.segment {w : List UInt16} {segs : List (List UInt16)}
    (h : s.Reads O (c :: (w ++ join slash segs))) (hw : slash ∉ w) :
    ∃ s', DotScan.moveSegment s.chars.length s.move = s' ∧
      s'.Reads (O ++ c :: w) (join slash segs) ∧ s'.chars.length = s.chars.length ∧
      (c = slash → s.Rooted → s'.Rooted) := by
  have hlen := congrArg List.length h.text_eq
  unfold text at hlen
  rw [length_drop, length_cons, length_append] at hlen
  have hrounds : w.length ≤ s.chars.length := by omega
  obtain ⟨hreads, hlength, hroot⟩ := h.move.moveSegment hw hrounds
  rw [append_assoc] at hreads
  refine ⟨_, rfl, hreads, hlength.trans (length_move s), fun hc hrooted => ?_⟩
  exact hroot (succ_pos _) (hrooted.move fun _ => h.charAt.trans hc)

theorem skipPrefix_rooted {t : List UInt16} (h : s.text = slash :: t) : s.skipPrefix = s := by
  unfold skipPrefix
  rw [h, if_neg, if_neg]
  · exact fun heq => dot_ne_slash (List.cons.inj heq).1.symm
  · exact fun heq => dot_ne_slash (List.cons.inj heq).1.symm

theorem afterPrefix_first {t : List UInt16} (h : s.text = c :: t) (hc : c ≠ slash) :
    s.afterPrefix = (true, DotScan.moveSegment s.chars.length s.move) := by
  have hne : ∀ u v : List UInt16, ¬ c :: u = slash :: v := fun _ _ h => hc (List.cons.inj h).1
  unfold afterPrefix
  simp [h, hne]

variable {w : List UInt16} {segs : List (List UInt16)}

theorem afterPrefix_dot (h : s.text = join slash ([dot] :: w :: segs)) :
    s.afterPrefix = (true, { s with inp := s.inp + 2 }) := by
  unfold afterPrefix
  rw [h]
  exact if_pos rfl

theorem afterPrefix_dot_end (h : s.text = join slash [[dot]]) :
    s.afterPrefix = (false, ⟨s.chars.set s.out slash, s.out + 1, s.inp + 2⟩) := by
  unfold afterPrefix
  rw [h]
  rfl

theorem afterPrefix_dots (h : s.text = join slash ([dot, dot] :: w :: segs)) :
    s.afterPrefix = (true, { s with
      out := s.backOut s.out
      inp := (if s.backOut s.out = 0 ∧ s.charAt (s.backOut s.out) ≠ slash then s.inp + 1
        else s.inp) + 3 }) := by
  have htake : (join slash ([dot, dot] :: w :: segs)).take 3 = [slash, dot, dot] := rfl
  have htake' : (join slash ([dot, dot] :: w :: segs)).take 4 = [slash, dot, dot, slash] := rfl
  have hlong : join slash ([dot, dot] :: w :: segs) ≠ [slash, dot] := fun heq => by
    cases (List.cons.inj (List.cons.inj heq).2).2
  unfold afterPrefix
  rw [h, htake, if_neg (by decide), if_neg hlong, if_pos htake']

theorem afterPrefix_dots_end (h : s.text = join slash [[dot, dot]]) :
    s.afterPrefix = (false, { s with
      out := if s.charAt (s.backOut s.out) = slash then s.backOut s.out + 1 else s.backOut s.out
      inp := s.inp + 3 }) := by
  have hjoin : join slash [[dot, dot]] = [slash, dot, dot] := rfl
  unfold afterPrefix
  rw [h, hjoin, if_neg (by decide), if_neg (by decide), if_neg (by decide), if_pos rfl]

theorem afterPrefix_segment (h : s.text = join slash (w :: segs)) (hw : slash ∉ w)
    (hd : ¬ IsDots dot w) : s.afterPrefix = (true, DotScan.moveSegment s.chars.length s.move) := by
  obtain ⟨htake, htake', hend, hend'⟩ := not_dots_of_take segs dot_ne_slash hw hd
  rw [join_cons] at h
  unfold afterPrefix
  rw [h]
  simp only [take_succ_cons]
  generalize w ++ join slash segs = t at *
  rw [if_neg (fun h => htake (List.cons.inj h).2), if_neg (fun h => hend (List.cons.inj h).2),
    if_neg (fun h => htake' (List.cons.inj h).2), if_neg (fun h => hend' (List.cons.inj h).2)]

/-- A round at a segment that is neither "." nor "..". -/
theorem Reads.round_segment (h : s.Reads O (join slash (w :: segs))) (hw : slash ∉ w)
    (hd : ¬ IsDots dot w) :
    ∃ s', s.skipPrefix.afterPrefix = (true, s') ∧ s'.Reads (O ++ slash :: w) (join slash segs) ∧
      s'.chars.length = s.chars.length ∧ (s.Rooted → s'.Rooted) := by
  obtain ⟨s', hs', hreads, hlen, hroot⟩ := Reads.segment h hw
  refine ⟨s', ?_, hreads, hlen, hroot rfl⟩
  rw [skipPrefix_rooted h.text_eq, afterPrefix_segment h.text_eq hw hd, hs']

theorem take_backOut (s : DotScan) {out : ℕ} (h : out ≤ s.chars.length) :
    s.chars.take (s.backOut out) = removeLast slash (s.chars.take out) := by
  induction out with
  | zero => rfl
  | succ out ih =>
    have hlt : out < s.chars.length := h
    have hchar : s.charAt out = s.chars[out] := getD_eq_getElem _ _ hlt
    have htake : s.chars.take (out + 1) = s.chars.take out ++ [s.chars[out]] := by
      rw [take_add_one, getElem?_eq_getElem hlt]
      rfl
    unfold backOut
    rw [hchar, htake]
    by_cases hslash : s.chars[out] = slash
    · rw [if_pos hslash, hslash]
      unfold removeLast directory
      rw [rdropWhile_concat_neg _ _ _ (by decide), dropLast_concat]
    · rw [if_neg hslash, ih (le_of_lt hlt)]
      unfold removeLast directory
      rw [rdropWhile_concat_pos _ _ _ (by simpa using hslash)]

theorem backOut_le (s : DotScan) (out : ℕ) : s.backOut out ≤ out := by
  induction out with
  | zero => exact le_refl 0
  | succ out ih =>
    unfold backOut
    split
    · exact le_succ out
    · exact ih.trans (le_succ out)

theorem Rooted.charAt_backOut (h : s.Rooted) (out : ℕ) : s.charAt (s.backOut out) = slash := by
  induction out with
  | zero =>
    unfold Rooted at h
    unfold backOut DotScan.charAt
    rw [getD_eq_getElem?_getD, ← head?_eq_getElem?, h]
    rfl
  | succ out ih =>
    unfold backOut
    split
    · assumption
    · exact ih

/-- The output after a "..". -/
theorem Reads.back (h : s.Reads O I) (inp : ℕ) (hle : s.inp ≤ inp) (hinp : inp ≤ s.chars.length) :
    Reads { s with out := s.backOut s.out, inp := inp } (removeLast slash O)
      (s.chars.drop inp) := by
  have hout := h.le
  have hinp' := h.inp_le
  refine ⟨?_, rfl, (s.backOut_le s.out).trans (hout.trans hle), hinp⟩
  rw [← h.out_eq]
  exact s.take_backOut (hout.trans hinp')

theorem take_set_succ (s : DotScan) (h : s.out < s.chars.length) (c : UInt16) :
    (s.chars.set s.out c).take (s.out + 1) = s.chars.take s.out ++ [c] := by
  rw [take_add_one, take_set_of_le (le_refl _), getElem?_set_self h]
  rfl

/-- What a round does to a path that begins with a slash. -/
def Removes (s : DotScan) (O : List UInt16) (w : List UInt16) (segs : List (List UInt16)) :
    Bool × DotScan → Prop
  | (true, s') => ∃ O', s'.Reads O' (join slash segs) ∧ s'.Rooted ∧
      s'.chars.length = s.chars.length ∧
      removeDotSegments dot slash O (join slash (w :: segs)) =
        removeDotSegments dot slash O' (join slash segs)
  | (false, s') => s'.chars.take s'.out = removeDotSegments dot slash O (join slash (w :: segs))

theorem Reads.round_dot (h : s.Reads O (join slash ([dot] :: segs))) (hroot : s.Rooted) :
    Removes s O [dot] segs s.skipPrefix.afterPrefix := by
  rw [skipPrefix_rooted h.text_eq]
  cases segs with
  | nil =>
    have hlt := lt_of_le_of_lt h.le h.inp_lt
    rw [afterPrefix_dot_end h.text_eq]
    change (s.chars.set s.out slash).take (s.out + 1) = _
    rw [take_set_succ s hlt, h.out_eq, removeDotSegments_dot_end dot_ne_slash]
  | cons w segs =>
    rw [afterPrefix_dot h.text_eq]
    exact ⟨O, h.skip (n := 2) (by simp), hroot, rfl, removeDotSegments_dot dot_ne_slash⟩

theorem Reads.take_back_succ (h : s.Reads O I) (hlt : s.backOut s.out < s.chars.length)
    (hchar : s.charAt (s.backOut s.out) = slash) :
    s.chars.take (s.backOut s.out + 1) = removeLast slash O ++ [slash] := by
  have hget : s.chars[s.backOut s.out] = slash := by
    rw [← hchar]
    exact (getD_eq_getElem _ _ hlt).symm
  have hback := (h.back s.inp (le_refl _) h.inp_le).out_eq
  dsimp only at hback
  rw [take_add_one, hback, getElem?_eq_getElem hlt, hget]
  rfl

/-- What is read behind "/..". -/
theorem Reads.back_dots (h : s.Reads O (join slash ([dot, dot] :: w :: segs))) :
    Reads { s with out := s.backOut s.out, inp := s.inp + 3 } (removeLast slash O)
      (join slash (w :: segs)) := by
  have hlen := congrArg List.length h.text_eq
  have htext := h.text_eq
  unfold text at hlen htext
  simp only [length_drop, join_cons, length_cons, length_append] at hlen
  have hback := h.back (s.inp + 3) (le_add_right _ _) (by simp at hlen; omega)
  have hdrop : s.chars.drop (s.inp + 3) = join slash (w :: segs) := by
    rw [← drop_drop, htext]
    rfl
  rwa [hdrop] at hback

theorem Reads.backOut_lt (h : s.Reads O (c :: I)) : s.backOut s.out < s.chars.length :=
  lt_of_le_of_lt ((s.backOut_le s.out).trans h.le) h.inp_lt

theorem Reads.round_dots (h : s.Reads O (join slash ([dot, dot] :: segs))) (hroot : s.Rooted) :
    Removes s O [dot, dot] segs s.skipPrefix.afterPrefix := by
  have hchar := hroot.charAt_backOut s.out
  rw [skipPrefix_rooted h.text_eq]
  cases segs with
  | nil =>
    rw [afterPrefix_dots_end h.text_eq, if_pos hchar]
    change s.chars.take (s.backOut s.out + 1) = _
    rw [h.take_back_succ h.backOut_lt hchar, removeDotSegments_dots_end dot_ne_slash]
  | cons w segs =>
    rw [afterPrefix_dots h.text_eq, if_neg fun hout => hout.2 hchar]
    exact ⟨removeLast slash O, h.back_dots, hroot, rfl, removeDotSegments_dots dot_ne_slash⟩

theorem Reads.round (h : s.Reads O (join slash (w :: segs))) (hw : slash ∉ w) (hroot : s.Rooted) :
    Removes s O w segs s.skipPrefix.afterPrefix := by
  by_cases hd : IsDots dot w
  · rcases hd with rfl | rfl
    · exact h.round_dot hroot
    · exact h.round_dots hroot
  · obtain ⟨s', hs', hreads, hlen, hrooted⟩ := h.round_segment hw hd
    rw [hs']
    exact ⟨_, hreads, hrooted hroot, hlen, removeDotSegments_segment dot_ne_slash hw hd⟩

theorem Reads.loop_nil (h : s.Reads O []) (rounds : ℕ) : loop (rounds + 1) s = .ok s := by
  have hnil := h.text_eq
  exact if_neg (not_lt.2 (drop_eq_nil_iff.1 hnil))

theorem Reads.loop_rooted {rounds : ℕ} (h : s.Reads O (join slash segs)) (hroot : s.Rooted)
    (hsegs : ∀ w ∈ segs, slash ∉ w) (hrounds : segs.length < rounds) :
    ∃ s', loop rounds s = .ok s' ∧
      s'.chars.take s'.out = removeDotSegments dot slash O (join slash segs) := by
  induction segs generalizing s O rounds with
  | nil =>
    obtain ⟨n, rfl⟩ := exists_eq_succ_of_ne_zero hrounds.ne'
    exact ⟨s, h.loop_nil n, by rw [h.out_eq, join_nil, removeDotSegments_nil]⟩
  | cons w segs ih =>
    cases rounds with
    | zero => exact absurd hrounds (not_lt_zero _)
    | succ rounds =>
      have hround := h.round (hsegs w mem_cons_self) hroot
      unfold loop
      rw [if_pos h.inp_lt]
      cases hr : s.skipPrefix.afterPrefix with
      | mk again s' =>
        rw [hr] at hround
        cases again with
        | false => exact ⟨s', rfl, hround⟩
        | true =>
          obtain ⟨O', hreads, hrooted, -, heq⟩ := hround
          rw [heq]
          exact ih hreads hrooted (fun w' hw' => hsegs w' (mem_cons_of_mem _ hw'))
            (lt_of_succ_lt_succ hrounds)

theorem Reads.loop_dotless {rounds : ℕ} (h : s.Reads O (join slash segs))
    (hsegs : ∀ w ∈ segs, slash ∉ w ∧ ¬ IsDots dot w) (hrounds : segs.length < rounds) :
    ∃ s', loop rounds s = .ok s' ∧ s'.chars.take s'.out = O ++ join slash segs := by
  induction segs generalizing s O rounds with
  | nil =>
    obtain ⟨n, rfl⟩ := exists_eq_succ_of_ne_zero hrounds.ne'
    exact ⟨s, h.loop_nil n, by rw [h.out_eq, join_nil, append_nil]⟩
  | cons w segs ih =>
    cases rounds with
    | zero => exact absurd hrounds (not_lt_zero _)
    | succ rounds =>
      obtain ⟨hw, hd⟩ := hsegs w mem_cons_self
      obtain ⟨s', hs', hreads, -, -⟩ := h.round_segment hw hd
      obtain ⟨s₁, hs₁, hout⟩ := ih hreads (fun w' hw' => hsegs w' (mem_cons_of_mem _ hw'))
        (lt_of_succ_lt_succ hrounds)
      refine ⟨s₁, ?_, by rw [hout, append_assoc]; rfl⟩
      unfold loop
      rw [if_pos h.inp_lt, hs']
      exact hs₁

end DotScan

/-! ## Whole paths -/

theorem removeDotsFromPath_eq {path out : List UInt16} (hdot : path ≠ [dot])
    (hdots : path ≠ [dot, dot])
    (h : ∃ s, DotScan.loop (path.length + 1) ⟨path, 0, 0⟩ = .ok s ∧ s.chars.take s.out = out) :
    removeDotsFromPath path = .ok out := by
  obtain ⟨s, hs, hout⟩ := h
  unfold removeDotsFromPath
  rw [if_neg hdot, if_neg hdots]
  dsimp only
  rw [hs, ok_bind, hout]
  rfl

theorem removeDotsFromPath_rooted (t : List UInt16) :
    removeDotsFromPath (slash :: t) = .ok (removeDotSegments dot slash [] (slash :: t)) := by
  have hlen := length_le_join slash (t.splitOn slash)
  rw [join_splitOn] at hlen
  have hreads : DotScan.Reads ⟨slash :: t, 0, 0⟩ [] (join slash (t.splitOn slash)) :=
    ⟨rfl, (join_splitOn t).symm, le_refl 0, zero_le _⟩
  have hloop := hreads.loop_rooted rfl (fun _ => notMem_of_mem_splitOn) (lt_succ_of_le hlen)
  rw [join_splitOn] at hloop
  exact removeDotsFromPath_eq (fun h => dot_ne_slash (List.cons.inj h).1.symm)
    (fun h => dot_ne_slash (List.cons.inj h).1.symm) hloop

theorem removeDotsFromPath_dotless {path : List UInt16} (h : ¬ HasDots dot slash path) :
    removeDotsFromPath path = .ok path := by
  obtain ⟨w, segs, hsegs, hpath⟩ := exists_segments path
  have hplain : ∀ w' ∈ w :: segs, slash ∉ w' ∧ ¬ IsDots dot w' := fun w' hw' => by
    rw [← hsegs] at hw'
    exact ⟨notMem_of_mem_splitOn hw', fun hd => h ⟨w', hw', hd⟩⟩
  obtain ⟨hw, hd⟩ := hplain w mem_cons_self
  cases w with
  | nil =>
    cases segs with
    | nil => rw [hpath]; rfl
    | cons w' segs =>
      rw [hpath, nil_append, join_cons] at h ⊢
      rw [removeDotsFromPath_rooted, removeDotSegments_eq_self dot_ne_slash h]
  | cons c w =>
    obtain ⟨htake, htake', hend, hend'⟩ := not_dots_of_take segs dot_ne_slash hw hd
    rw [← hpath] at htake htake' hend hend'
    have hc : c ≠ slash := fun heq => hw (heq ▸ mem_cons_self)
    have hreads : DotScan.Reads ⟨path, 0, 0⟩ [] (c :: (w ++ join slash segs)) :=
      ⟨rfl, hpath, le_refl 0, zero_le _⟩
    obtain ⟨s', hs', hreads', -, -⟩ :=
      hreads.segment fun hmem => hw (mem_cons_of_mem _ hmem)
    refine removeDotsFromPath_eq hend hend' ?_
    have hlen := length_le_join slash segs
    have hpathlen := congrArg List.length hpath
    rw [length_append, length_cons] at hpathlen
    have hrounds : segs.length < path.length := by omega
    obtain ⟨s₁, hs₁, hout⟩ := hreads'.loop_dotless
      (fun w' hw' => hplain w' (mem_cons_of_mem _ hw')) hrounds
    refine ⟨s₁, ?_, by rw [hout, hpath]; rfl⟩
    unfold DotScan.loop
    have hfirst : DotScan.afterPrefix (DotScan.skipPrefix ⟨path, 0, 0⟩) = (true, s') := by
      unfold DotScan.skipPrefix DotScan.text
      dsimp only
      rw [drop_zero, if_neg htake, if_neg htake']
      have htext : DotScan.text ⟨path, 0, 0⟩ = c :: (w ++ join slash segs) := hpath
      rw [DotScan.afterPrefix_first htext hc, hs']
    rw [if_pos hreads.inp_lt, hfirst]
    exact hs₁

end QtBase.Url
