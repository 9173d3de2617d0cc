import QtBase.Lib.Unicode

/-! The ASCII fast paths of the UTF-8 converters, and the loop they share. -/
namespace QtBase

open List

variable {α σ : Type}

/-- What a fast path may pass over. -/
def PassesAscii (ascii : α → Prop) (run : List α → ℕ × Option ℕ) : Prop :=
  ∀ src, (run src).1 ≤ src.length ∧ ∀ a ∈ src.take (run src).1, ascii a

/-- `simdDecodeAscii`, `simdEncodeAscii` or `simdFindNonAscii` of a processor: how many elements it
passes over, and how many there are from the `nextAscii` it sets to the end of the input. -/
structure Simd (ascii : α → Prop) where
  run : List α → ℕ × Option ℕ
  passes : PassesAscii ascii run

section Blocks

variable (nonAscii : α → Bool)

/-- A block with something that is not ASCII: its front part, and where the next ASCII may be. -/
def stopInBlock (w : ℕ) (src : List α) : ℕ × Option ℕ :=
  (((src.take w).takeWhile (!nonAscii ·)).length,
    some (src.length - w + ((src.take w).reverse.takeWhile (!nonAscii ·)).length))

/-- Blocks of `w` elements: `stop` for one that is not ASCII, and `tail` for what is left. -/
def simdBlocks (w : ℕ) (stop tail : List α → ℕ × Option ℕ) : ℕ → List α → ℕ × Option ℕ
  | 0, _ => (0, none)
  | fuel + 1, src =>
    if src.length < w then tail src
    else if (src.take w).any nonAscii then stop src
    else
      let (n, nextAscii) := simdBlocks w stop tail fuel (src.drop w)
      (w + n, nextAscii)

/-- The last eight elements at once: they are not passed over, even when all of them are ASCII. -/
def eightAtOnce (src : List α) : ℕ × Option ℕ :=
  if 8 ≤ src.length ∧ (src.take 8).any nonAscii then stopInBlock nonAscii 8 src else (0, none)

variable {nonAscii} {ascii : α → Prop}

theorem passesAscii_stopInBlock (h : ∀ a, nonAscii a = false → ascii a) (w : ℕ) :
    PassesAscii ascii (stopInBlock nonAscii w) := by
  intro src
  unfold stopInBlock
  have hpre : (src.take w).takeWhile (!nonAscii ·) <+: src :=
    (List.takeWhile_prefix _).trans (List.take_prefix _ _)
  constructor
  · exact hpre.length_le
  · intro a ha
    rw [← prefix_iff_eq_take.mp hpre] at ha
    have hna := all_eq_true.mp all_takeWhile a ha
    rw [Bool.not_eq_true'] at hna
    exact h a hna

theorem passesAscii_zero (next : List α → Option ℕ) :
    PassesAscii ascii fun src => (0, next src) := by
  intro src
  constructor
  · exact Nat.zero_le _
  · simp

theorem passesAscii_eightAtOnce (h : ∀ a, nonAscii a = false → ascii a) :
    PassesAscii ascii (eightAtOnce nonAscii) := by
  intro src
  unfold eightAtOnce
  split
  · exact passesAscii_stopInBlock h 8 src
  · exact passesAscii_zero (fun _ => none) src

theorem passesAscii_simdBlocks (h : ∀ a, nonAscii a = false → ascii a) {w : ℕ}
    {stop tail : List α → ℕ × Option ℕ} (hs : PassesAscii ascii stop) (ht : PassesAscii ascii tail)
    (fuel : ℕ) : PassesAscii ascii (simdBlocks nonAscii w stop tail fuel) := by
  induction fuel with
  | zero => exact passesAscii_zero fun _ => none
  | succ fuel ih =>
    intro src
    unfold simdBlocks
    split
    · exact ht src
    · rename_i hlen
      split
      · exact hs src
      · rename_i hany
        obtain ⟨hle, hascii⟩ := ih (src.drop w)
        rw [length_drop] at hle
        constructor
        · show w + _ ≤ _
          omega
        · intro a ha
          change a ∈ src.take (w + (simdBlocks nonAscii w stop tail fuel (src.drop w)).1) at ha
          rw [take_add, mem_append] at ha
          rcases ha with ha | ha
          · apply h a
            rw [any_eq_true] at hany
            by_contra hna
            exact hany ⟨a, ha, Bool.not_eq_false _ ▸ hna⟩
          · exact hascii a ha

end Blocks

namespace Simd

/-- Without vector instructions nothing is passed over. -/
def portable (ascii : α → Prop) : Simd ascii := ⟨fun _ => (0, none), passesAscii_zero fun _ => none⟩

end Simd

/-! ## The loop -/

section Loop

variable {ascii : α → Prop}

/-- How many elements are passed over, and the next `nextAscii`. `reset` says whether that is set to
the end of the input before the fast path is tried. -/
def fastPath (simd : Simd ascii) (reset : Bool) (nextAscii : ℕ) (src : List α) : ℕ × ℕ :=
  if src.length ≤ nextAscii then
    ((simd.run src).1, (simd.run src).2.getD (if reset then 0 else nextAscii))
  else (0, nextAscii)

/-- The loop of a converter. `skip` writes what a fast path has passed over; `step` converts what is
at the front and returns the rest of the input, or nothing when the loop ends there. -/
def asciiLoop (simd : Simd ascii) (reset : Bool) (skip : σ → List α → σ)
    (step : σ → α → List α → σ × Option (List α)) : ℕ → ℕ → σ → List α → σ
  | 0, _, s, _ => s
  | fuel + 1, nextAscii, s, src =>
    let (n, next) := fastPath simd reset nextAscii src
    let s := skip s (src.take n)
    match src.drop n with
    | [] => s
    | a :: rest =>
      match step s a rest with
      | (s, none) => s
      | (s, some rest) => asciiLoop simd reset skip step fuel next s rest

/-- What the loop does when no fast path is there. -/
inductive Steps (step : σ → α → List α → σ × Option (List α)) : σ → List α → σ → Prop
  | done {s} : Steps step s [] s
  | stop {s a rest s'} : step s a rest = (s', none) → Steps step s (a :: rest) s'
  | next {s a rest s' rest' s''} : step s a rest = (s', some rest') → Steps step s' rest' s'' →
      Steps step s (a :: rest) s''

/-- The fast paths do what the steps do. -/
structure SkipsAscii (ascii : α → Prop) (skip : σ → List α → σ)
    (step : σ → α → List α → σ × Option (List α)) : Prop where
  skip_nil : ∀ s, skip s [] = s
  skip_cons : ∀ s a l, skip s (a :: l) = skip (skip s [a]) l
  step_ascii : ∀ s a rest, ascii a → step s a rest = (skip s [a], some rest)
  step_le : ∀ {s a rest s' rest'}, step s a rest = (s', some rest') → rest'.length ≤ rest.length

variable {skip : σ → List α → σ} {step : σ → α → List α → σ × Option (List α)}

theorem SkipsAscii.steps_append (h : SkipsAscii ascii skip step) {rest : List α} {s' : σ} :
    ∀ {pre : List α} {s : σ}, (∀ a ∈ pre, ascii a) → Steps step (skip s pre) rest s' →
      Steps step s (pre ++ rest) s'
  | [], s, _, hs => by rwa [h.skip_nil] at hs
  | a :: pre, s, hpre, hs => by
    rw [h.skip_cons] at hs
    have hstep := h.step_ascii s a (pre ++ rest) (hpre a mem_cons_self)
    exact Steps.next hstep (steps_append h (fun b hb => hpre b (mem_cons_of_mem a hb)) hs)

theorem passesAscii_fastPath (simd : Simd ascii) (reset : Bool) (nextAscii : ℕ) (src : List α) :
    (fastPath simd reset nextAscii src).1 ≤ src.length ∧
      ∀ a ∈ src.take (fastPath simd reset nextAscii src).1, ascii a := by
  unfold fastPath
  split
  · exact simd.passes src
  · exact passesAscii_zero (fun _ => none) src

theorem steps_asciiLoop (h : SkipsAscii ascii skip step) (simd : Simd ascii) (reset : Bool)
    (fuel : ℕ) (nextAscii : ℕ) (s : σ) (src : List α) (hfuel : src.length < fuel) :
    Steps step s src (asciiLoop simd reset skip step fuel nextAscii s src) := by
  induction fuel generalizing nextAscii s src with
  | zero => omega
  | succ fuel ih =>
    unfold asciiLoop
    have hascii := passesAscii_fastPath simd reset nextAscii src
    cases hpath : fastPath simd reset nextAscii src with | mk n next =>
    rw [hpath] at hascii
    have hsteps : ∀ s', Steps step (skip s (src.take n)) (src.drop n) s' → Steps step s src s' := by
      intro s' hs
      have hs := h.steps_append hascii.2 hs
      rwa [take_append_drop] at hs
    apply hsteps
    simp only
    cases hdrop : src.drop n with
    | nil => exact Steps.done
    | cons a rest =>
      simp only
      have hlen : rest.length < src.length := by
        have heq := congrArg List.length hdrop
        rw [length_drop, length_cons] at heq
        omega
      cases hstep : step (skip s (src.take n)) a rest with
      | mk s' r =>
        cases r with
        | none => exact Steps.stop hstep
        | some rest' =>
          have hle' := h.step_le hstep
          exact Steps.next hstep (ih next s' rest' (by omega))

end Loop

end QtBase
