import QtBase.Lib.RollingHash
import QtBase.Text.StringMatches
import Mathlib.Tactic.LinearCombination

/-! `findString` for one character and with the rolling hash is naive search. -/
namespace QtBase.StringMatcher

open PatternSearch RollingHash Unicode

variable {fold : ℕ → ℕ} {key : ℤ → ℕ}

/-! ## Rolling hash -/

theorem sizeT_congr {a b : ℤ} (h : (2 ^ 64 : ℤ) ∣ a - b) : sizeT a = sizeT b :=
  Int.emod_eq_emod_iff_emod_sub_eq_zero.mpr (Int.emod_eq_zero_of_dvd h)

theorem sizeT_sizeT (a c d : ℤ) : sizeT (c * sizeT a + d) = sizeT (c * a + d) := by
  refine sizeT_congr ?_
  have h : c * sizeT a + d - (c * a + d) = 2 ^ 64 * (-(c * (a / 2 ^ 64))) := by
    have hdiv := Int.mul_ediv_add_emod a (2 ^ 64)
    unfold sizeT
    linear_combination c * hdiv
  exact Dvd.intro _ h.symm

theorem hashKeys_spec (k : ℕ) (i h : ℤ) :
    hashKeys key k i (sizeT h) = sizeT (h * 2 ^ k + window key k i) := by
  induction k generalizing i h with
  | zero => simp [hashKeys, window]
  | succ k ih =>
    rw [hashKeys, sizeT_sizeT, ih, window_cons]
    congr 1
    ring

theorem hashKeys_zero (k : ℕ) (i : ℤ) : hashKeys key k i 0 = sizeT (window key k i) := by
  have h := @hashKeys_spec key k i 0
  simpa [sizeT] using h

theorem rehash_spec (n : ℕ) (i : ℤ) :
    rehash n (sizeT (window key (n + 1) i)) (key i) = sizeT (2 * window key n (i + 1)) := by
  rw [window_roll]
  unfold rehash
  by_cases hn : n < 64
  · simp only [if_pos hn]
    have hless := sizeT_sizeT (window key (n + 1) i) 1 (-(key i * 2 ^ n))
    have htwice := sizeT_sizeT (window key (n + 1) i - key i * 2 ^ n) 2 0
    simp only [one_mul, add_zero, ← sub_eq_add_neg] at hless htwice
    rw [hless, htwice]
  · simp only [if_neg hn]
    have htwice := sizeT_sizeT (window key (n + 1) i) 2 0
    simp only [add_zero] at htwice
    rw [htwice]
    refine sizeT_congr ?_
    obtain ⟨d, rfl⟩ : ∃ d, n = 64 + d := ⟨n - 64, by omega⟩
    refine Dvd.intro (2 * key i * 2 ^ d) ?_
    ring

/-- With the hash of the window but its last key, `hashLoop` finds the first of the next `k` places
where `same` holds. -/
theorem hashLoop_spec {n : ℕ} {hashNeedle : ℤ} {same : ℤ → Bool} {k : ℕ} {i : ℤ}
    (hsame : ∀ j, i ≤ j → same j = true → sizeT (window key (n + 1) j) = hashNeedle) :
    FirstAt (fun j => j < i + k ∧ same j = true) i
      (hashLoop key n hashNeedle same k i (sizeT (2 * window key n i))) := by
  induction k generalizing i with
  | zero => exact .none fun j hj h => by omega
  | succ k ih =>
    have hash : sizeT (sizeT (2 * window key n i) + key (i + n)) =
        sizeT (window key (n + 1) i) := by
      have := sizeT_sizeT (2 * window key n i) 1 (key (i + n))
      simp only [one_mul] at this
      rw [this, window_succ]
    unfold hashLoop
    dsimp only
    rw [hash]
    by_cases hhere : sizeT (window key (n + 1) i) = hashNeedle ∧ same i = true
    · rw [if_pos hhere]
      exact .here ⟨by omega, hhere.2⟩
    · rw [if_neg hhere, rehash_spec]
      refine .skip (k := 1) (by omega) ?_ fun j hj hlt h => ?_
      · refine (FirstAt.congr fun j _ => ?_).mp (ih fun j hj => hsame j (by omega))
        rw [show i + ((k + 1 : ℕ) : ℤ) = i + 1 + k by omega]
      · obtain rfl : j = i := by omega
        exact hhere ⟨hsame j hj h.2, h.2⟩

/-- The search with the hashes of the needle, whose keys are `pat`, and of the first window. -/
theorem hashSearch_spec {pat : ℤ → ℕ} {n k : ℕ} {start : ℤ} {same : ℤ → Bool} (hn : 1 ≤ n)
    (hsame : ∀ j, start ≤ j → same j = true → Occurs key (fun t => pat t) n j) :
    FirstAt (fun j => j < start + k ∧ same j = true) start
      (hashLoop key (n - 1) (hashKeys pat n 0 0) same k start
        (sizeT (hashKeys key n start 0 - key (start + (n - 1 : ℕ))))) := by
  obtain ⟨n, rfl⟩ : ∃ m, n = m + 1 := ⟨n - 1, by omega⟩
  have hless : sizeT (sizeT (window key (n + 1) start) - key (start + n)) =
      sizeT (2 * window key n start) := by
    have hlast := sizeT_sizeT (window key (n + 1) start) 1 (-(key (start + n)))
    simp only [one_mul, ← sub_eq_add_neg] at hlast
    rw [hlast, window_succ]
    congr 1
    ring
  rw [Nat.add_sub_cancel, hashKeys_zero, hashKeys_zero, hless]
  refine hashLoop_spec fun j hj h => ?_
  congr 1
  refine window_congr fun t ht => ?_
  rw [zero_add]
  exact hsame j hj h t ht

/-! ## The first character -/

theorem findIf_spec {p : ℤ → Bool} {k : ℕ} {n e : ℤ} (he : e = n + k) :
    FirstAt (fun j => j < e ∧ p j = true) n (if findIf p k n ≠ e then findIf p k n else -1) := by
  induction k generalizing n with
  | zero =>
    have hdone : ¬ findIf p 0 n ≠ e := by simp [findIf, he]
    rw [if_neg hdone]
    exact .none fun j hj h => by omega
  | succ k ih =>
    unfold findIf
    by_cases hhere : p n = true
    · rw [if_pos hhere, if_pos (by omega)]
      exact .here ⟨by omega, hhere⟩
    · rw [if_neg hhere]
      refine .skip (k := 1) (by omega) (ih (by omega)) fun j hj hlt h => ?_
      obtain rfl : j = n := by omega
      exact hhere h.2

variable {haystack needle : QStringView} {cs : CaseSensitivity}

theorem matches_char (hf : CaseFolding fold) (hwf : WellFormed needle) (hsize : needle.size = 1)
    {i : ℤ} (hi : 0 ≤ i) :
    Matches fold haystack needle cs i ↔ i + 1 ≤ haystack.size ∧
      (match cs with
        | .CaseSensitive => (haystack.utf16 i).toNat = (needle.utf16 0).toNat
        | .CaseInsensitive =>
          fold (haystack.utf16 i).toNat % 2 ^ 16 = fold (needle.utf16 0).toNat % 2 ^ 16) := by
  have hfirst : ¬ Low (needle.utf16 0) := fun h => absurd (hwf.low 0 (by omega) h).1 (by omega)
  rw [matches_iff hf hwf (by omega) hi, hsize]
  refine and_congr_right fun _ => ?_
  have honce : Occurs (keyOf fold cs haystack.utf16 0)
      (fun t => keyOf fold cs needle.utf16 0 t) 1 i ↔
      keyOf fold cs haystack.utf16 0 i = keyOf fold cs needle.utf16 0 0 := by
    constructor
    · intro h
      simpa using h 0 (by omega)
    · intro h t ht
      obtain rfl : t = 0 := by omega
      simpa using h
  rw [honce]
  cases cs with
  | CaseSensitive => rfl
  | CaseInsensitive =>
    have hfits (u : UInt16) : fold u.toNat % 2 ^ 16 = fold u.toNat :=
      Nat.mod_eq_of_lt (hf.plane _ (toNat_lt u))
    unfold keyOf
    dsimp only
    rw [@foldCase_single fold needle.utf16 0 0 (fun h => absurd h.2.1 (by omega)),
      hf.boundary hfirst, hfits, hfits]

theorem qFindChar_spec (hf : CaseFolding fold) (hwf : WellFormed needle) (hsize : needle.size = 1)
    {start : ℤ} (hstart : 0 ≤ start) :
    FirstAt (Matches fold haystack needle cs) start
      (qFindChar fold haystack (needle.utf16 0) start cs) := by
  have hfar : ¬ start < -haystack.size := by omega
  have hfrom : (if start < 0 then max (start + haystack.size) 0 else start) = start :=
    if_neg (by omega)
  unfold qFindChar
  rw [if_neg hfar]
  dsimp only
  rw [hfrom]
  by_cases hin : start < haystack.size
  · rw [if_pos hin]
    have hend : (haystack.size : ℤ) = start + ((haystack.size - start.toNat : ℕ) : ℤ) := by omega
    refine (FirstAt.congr fun i hi => ?_).mp (findIf_spec hend)
    rw [matches_char hf hwf hsize (by omega)]
    refine and_congr Int.lt_iff_add_one_le ?_
    rw [decide_eq_true_eq]
    cases cs with
    | CaseSensitive => rfl
    | CaseInsensitive => rfl
  · rw [if_neg hin]
    refine .none fun i hi h => ?_
    have := h.1
    omega

/-! ## `findString` -/

theorem same_iff (i : ℤ) :
    compareStrings fold needle (haystack.sliced i needle.size) cs = 0 ↔
      compareStrings fold (haystack.sliced i needle.size) needle cs = 0 := by
  rw [compareStrings_eq_zero, compareStrings_eq_zero]
  exact ⟨fun h => ⟨rfl, fun t ht => (h.2 t ht).symm⟩, fun h => ⟨rfl, fun t ht => (h.2 t ht).symm⟩⟩

/-- Where the search starts: a negative `start` counts from the end. -/
def startOf (l : ℕ) (start : ℤ) : ℤ := if start < 0 then start + l else start

theorem findString_short (hf : CaseFolding fold) (hwf : WellFormed needle)
    (hsize : 1 ≤ needle.size) {start : ℤ} (hstart : -haystack.size ≤ start)
    (hshort : ¬ (haystack.size > 500 ∧ needle.size > 5)) :
    ∃ r, findString fold haystack start needle cs = .ok r ∧
      FirstAt (Matches fold haystack needle cs) (startOf haystack.size start) r := by
  have hpos : 0 ≤ startOf haystack.size start := by
    unfold startOf
    split_ifs <;> omega
  unfold findString
  dsimp only
  rw [← startOf]
  generalize startOf haystack.size start = start at hpos
  by_cases hout : (needle.size : ℤ) + start < 0 ∨ (needle.size : ℤ) + start > haystack.size
  · rw [if_pos hout]
    refine ⟨-1, rfl, .none fun i hi h => ?_⟩
    have := h.1
    omega
  · rw [if_neg hout, if_neg (by omega), if_neg (by omega)]
    by_cases hone : needle.size = 1
    · rw [if_pos hone]
      exact ⟨_, rfl, qFindChar_spec hf hwf hone hpos⟩
    · rw [if_neg hone, if_neg hshort]
      refine ⟨_, rfl, ?_⟩
      refine (FirstAt.congr fun i hi => ?_).mp (hashSearch_spec hsize fun j hj hsame => ?_)
      · rw [decide_eq_true_eq, same_iff]
        unfold Matches
        exact and_congr_left fun _ => ⟨fun h => by omega, fun h => by omega⟩
      · rw [decide_eq_true_eq, same_iff] at hsame
        exact (compareStrings_sliced hf hwf hsize (by omega)).mp hsame

end QtBase.StringMatcher
