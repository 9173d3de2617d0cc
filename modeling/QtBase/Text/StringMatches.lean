import QtBase.Text.BoyerMoore
import QtBase.Text.Utf8Char

/-! Where a needle matches, in terms of the keys that the searches compare. -/
namespace QtBase.StringMatcher

open PatternSearch Unicode

/-- What the searches rely on in the table of case folds: a fold stays in the plane, and surrogates
are the folds of themselves alone. -/
structure CaseFolding (fold : ℕ → ℕ) : Prop where
  plane : ∀ u, u < 0x10000 → fold u < 0x10000
  beyond : ∀ u, 0x10000 ≤ u → u < 0x110000 → 0x10000 ≤ fold u
  surrogate : ∀ u, 0xd800 ≤ u → u < 0xe000 → fold u = u
  other : ∀ u, u < 0x10000 → ¬ (0xd800 ≤ u ∧ u < 0xe000) →
    ¬ (0xd800 ≤ fold u ∧ fold u < 0xe000)

/-- Well-formed UTF-16: no surrogate without its other half. -/
structure WellFormed (v : QStringView) : Prop where
  low : ∀ t : ℕ, t < v.size → Low (v.utf16 t) → 0 < t ∧ High (v.utf16 (t - 1))
  high : ∀ t : ℕ, t < v.size → High (v.utf16 t) → t + 1 < v.size ∧ Low (v.utf16 (t + 1))

/-- The needle compares equal to what stands at `i` in the haystack. -/
def Matches (fold : ℕ → ℕ) (haystack needle : QStringView) (cs : CaseSensitivity) (i : ℤ) : Prop :=
  i + needle.size ≤ haystack.size ∧
    compareStrings fold (haystack.sliced i needle.size) needle cs = 0

theorem firstDifference_eq_zero {a b : ℤ → ℕ} (n : ℕ) (i : ℤ) :
    firstDifference a b n i = 0 ↔ ∀ t : ℕ, t < n → a (i + t) = b (i + t) := by
  induction n generalizing i with
  | zero => exact ⟨fun _ t ht => by omega, fun _ => rfl⟩
  | succ n ih =>
    unfold firstDifference
    by_cases hne : (a i : ℤ) - b i ≠ 0
    · rw [if_pos hne]
      refine ⟨fun h => absurd h hne, fun h => ?_⟩
      have := h 0 (by omega)
      rw [show i + ((0 : ℕ) : ℤ) = i by omega] at this
      omega
    · rw [if_neg hne, ih]
      constructor
      · intro h t ht
        cases t with
        | zero =>
          rw [show i + ((0 : ℕ) : ℤ) = i by omega]
          omega
        | succ t =>
          have := h t (by omega)
          rwa [show i + 1 + (t : ℤ) = i + ((t + 1 : ℕ) : ℤ) by omega] at this
      · intro h t ht
        have := h (t + 1) (by omega)
        rwa [show i + ((t + 1 : ℕ) : ℤ) = i + 1 + (t : ℤ) by omega] at this

theorem compareStrings_eq_zero {fold : ℕ → ℕ} {lhs rhs : QStringView} {cs : CaseSensitivity} :
    compareStrings fold lhs rhs cs = 0 ↔ lhs.size = rhs.size ∧
      ∀ t : ℕ, t < rhs.size → keyOf fold cs lhs.utf16 0 t = keyOf fold cs rhs.utf16 0 t := by
  have hcmp := firstDifference_eq_zero (a := keyOf fold cs lhs.utf16 0)
    (b := keyOf fold cs rhs.utf16 0) (min lhs.size rhs.size) 0
  unfold compareStrings
  dsimp only
  by_cases hdiff : firstDifference (keyOf fold cs lhs.utf16 0) (keyOf fold cs rhs.utf16 0)
      (min lhs.size rhs.size) 0 ≠ 0
  · rw [if_pos hdiff]
    refine ⟨fun h => absurd h hdiff, fun ⟨hsize, h⟩ => hcmp.mpr fun t ht => ?_⟩
    simpa using h t (by omega)
  · rw [if_neg hdiff]
    by_cases hsize : lhs.size = rhs.size
    · rw [if_pos hsize]
      refine ⟨fun _ => ⟨hsize, fun t ht => ?_⟩, fun _ => rfl⟩
      simpa using hcmp.mp (not_not.mp hdiff) t (by omega)
    · rw [if_neg hsize]
      refine ⟨fun h => ?_, fun h => absurd h.1 hsize⟩
      by_cases hlt : lhs.size < rhs.size
      · rw [if_pos hlt] at h
        exact absurd h (by decide)
      · rw [if_neg hlt] at h
        exact absurd h (by decide)

section Fold

variable {fold : ℕ → ℕ} {units : ℤ → UInt16} {i : ℤ}

theorem toNat_lt (u : UInt16) : u.toNat < 0x10000 := u.toNat_lt

theorem foldCase_single {start : ℤ} (h : ¬ (Low (units i) ∧ i > start ∧ High (units (i - 1)))) :
    foldCase fold units start i = fold (units i).toNat := if_neg h

theorem foldCase_pair {start : ℤ} (h : Low (units i) ∧ i > start ∧ High (units (i - 1))) :
    foldCase fold units start i =
      fold (QChar.surrogateToUcs4 (units (i - 1)) (units i)).toNat := if_pos h

theorem CaseFolding.pair_beyond (hf : CaseFolding fold) {u v : UInt16} (hu : High u) (hv : Low v) :
    0x10000 ≤ fold (QChar.surrogateToUcs4 u v).toNat := by
  have hval := toNat_surrogateToUcs4 hu hv
  have hu' := hu
  have hv' := hv
  unfold High at hu'
  unfold Low at hv'
  exact hf.beyond _ (by omega) (by omega)

/-- Where no low surrogate stands in the needle, the fold does not depend on the unit before. -/
theorem CaseFolding.boundary (hf : CaseFolding fold) {start : ℤ} {u : UInt16} (hu : ¬ Low u) :
    foldCase fold units start i = fold u.toNat ↔ fold (units i).toNat = fold u.toNat := by
  by_cases h : Low (units i) ∧ i > start ∧ High (units (i - 1))
  · rw [foldCase_pair h]
    have hpair := hf.pair_beyond h.2.2 h.1
    have hplane := hf.plane u.toNat (toNat_lt u)
    have hlow := h.1
    have hself := hf.surrogate (units i).toNat (by unfold Low at hlow; omega)
      (by unfold Low at hlow; omega)
    refine ⟨fun heq => by omega, fun heq => ?_⟩
    rw [hself] at heq
    by_cases hsur : 0xd800 ≤ u.toNat ∧ u.toNat < 0xe000
    · rw [hf.surrogate u.toNat hsur.1 hsur.2] at heq
      unfold Low at hu hlow
      omega
    · have := hf.other u.toNat (toNat_lt u) hsur
      unfold Low at hlow
      omega
  · rw [foldCase_single h]

theorem foldCase_window {pos : ℤ} {t : ℕ} (hpos : 0 ≤ pos) (ht : 0 < t) :
    foldCase fold (fun j => units (pos + j)) 0 t = foldCase fold units 0 (pos + t) := by
  have hbefore : pos + ((t : ℤ) - 1) = pos + t - 1 := by omega
  by_cases h : Low (units (pos + t)) ∧ High (units (pos + t - 1))
  · have hafter : (t : ℤ) > 0 := by omega
    have hplace : pos + (t : ℤ) > 0 := by omega
    rw [foldCase_pair ⟨h.1, hplace, h.2⟩]
    have hbeforeHigh : High (units (pos + ((t : ℤ) - 1))) := by
      rw [hbefore]
      exact h.2
    rw [@foldCase_pair fold (fun j => units (pos + j)) t 0 ⟨h.1, hafter, hbeforeHigh⟩]
    rw [hbefore]
  · rw [foldCase_single fun hpair => h ⟨hpair.1, hpair.2.2⟩]
    refine foldCase_single fun hpair => h ⟨hpair.1, ?_⟩
    rw [← hbefore]
    exact hpair.2.2

end Fold

/-- Whether a window has the keys of a needle does not depend on the unit before the window. -/
theorem keyOf_window {fold : ℕ → ℕ} (hf : CaseFolding fold) {units pattern : ℤ → UInt16}
    {cs : CaseSensitivity} {pos : ℤ} (hpos : 0 ≤ pos) (hfirst : ¬ Low (pattern 0)) (t : ℕ) :
    keyOf fold cs (fun j => units (pos + j)) 0 t = keyOf fold cs pattern 0 t ↔
      keyOf fold cs units 0 (pos + t) = keyOf fold cs pattern 0 t := by
  cases cs with
  | CaseSensitive => rfl
  | CaseInsensitive =>
    unfold keyOf
    dsimp only
    cases t with
    | zero =>
      have hneedle : foldCase fold pattern 0 ((0 : ℕ) : ℤ) = fold (pattern 0).toNat :=
        foldCase_single fun h => absurd h.2.1 (by omega)
      have hwindow : foldCase fold (fun j => units (pos + j)) 0 ((0 : ℕ) : ℤ) =
          fold (units (pos + (0 : ℕ))).toNat :=
        foldCase_single fun h => absurd h.2.1 (by omega)
      rw [hneedle, hwindow, hf.boundary hfirst]
    | succ t => rw [foldCase_window hpos (Nat.succ_pos t)]

theorem compareStrings_sliced {fold : ℕ → ℕ} (hf : CaseFolding fold)
    {haystack needle : QStringView} (hwf : WellFormed needle) (hsize : 1 ≤ needle.size)
    {cs : CaseSensitivity} {i : ℤ} (hi : 0 ≤ i) :
    compareStrings fold (haystack.sliced i needle.size) needle cs = 0 ↔
      Occurs (keyOf fold cs haystack.utf16 0) (fun t => keyOf fold cs needle.utf16 0 t)
        needle.size i := by
  have hfirst : ¬ Low (needle.utf16 0) := fun h => absurd (hwf.low 0 hsize h).1 (by omega)
  have hwindow := @keyOf_window fold hf haystack.utf16 needle.utf16 cs i hi hfirst
  rw [compareStrings_eq_zero]
  refine ⟨fun h t ht => ?_, fun h => ⟨rfl, fun t ht => ?_⟩⟩
  · exact (hwindow t).mp (h.2 t ht)
  · exact (hwindow t).mpr (h t ht)

theorem matches_iff {fold : ℕ → ℕ} (hf : CaseFolding fold) {haystack needle : QStringView}
    (hwf : WellFormed needle) (hsize : 1 ≤ needle.size) {cs : CaseSensitivity} {i : ℤ}
    (hi : 0 ≤ i) :
    Matches fold haystack needle cs i ↔ i + needle.size ≤ haystack.size ∧
      Occurs (keyOf fold cs haystack.utf16 0) (fun t => keyOf fold cs needle.utf16 0 t)
        needle.size i :=
  and_congr_right fun _ => compareStrings_sliced hf hwf hsize hi

end QtBase.StringMatcher
