import Mathlib.Data.Nat.Notation
import Mathlib.Data.Nat.Init

/-! Binary search for the first position that is not less. -/

/-- `std::lower_bound` on positions: halve the range as long as it is not empty. -/
def lowerBound (less : ℕ → Bool) : ℕ → ℕ → ℕ → ℕ
  | 0, first, _ => first
  | fuel + 1, first, len =>
    if len = 0 then first
    else
      let half := len / 2
      if less (first + half) then lowerBound less fuel (first + half + 1) (len - half - 1)
      else lowerBound less fuel first half

theorem lowerBound_eq {less : ℕ → Bool} {fuel first len n : ℕ} (hfuel : len ≤ fuel)
    (hfirst : first ≤ n) (hlast : n ≤ first + len) (hless : ∀ i < n, less i = true)
    (hnot : ∀ i, n ≤ i → i < first + len → less i = false) :
    lowerBound less fuel first len = n := by
  induction fuel generalizing first len with
  | zero =>
    show first = n
    omega
  | succ fuel ih =>
    unfold lowerBound
    by_cases hlen : len = 0
    · rw [if_pos hlen]
      omega
    rw [if_neg hlen]
    by_cases hmid : first + len / 2 < n
    · have hl := hless _ hmid
      simp only [hl, if_true]
      apply ih (by omega) (by omega) (by omega)
      intro i hi hi'
      exact hnot i hi (by omega)
    · have hl := hnot (first + len / 2) (by omega) (by omega)
      simp only [hl, Bool.false_eq_true, if_false]
      apply ih (by omega) hfirst (by omega)
      intro i hi hi'
      exact hnot i hi (by omega)

theorem lowerBound_spec {less : ℕ → Bool} {fuel first len : ℕ} (hfuel : len ≤ fuel)
    (hless : ∀ i j, first ≤ i → i ≤ j → j < first + len → less j = true → less i = true) :
    first ≤ lowerBound less fuel first len ∧ lowerBound less fuel first len ≤ first + len ∧
      (∀ i, first ≤ i → i < lowerBound less fuel first len → less i = true) ∧
      ∀ i, lowerBound less fuel first len ≤ i → i < first + len → less i = false := by
  induction fuel generalizing first len with
  | zero =>
    unfold lowerBound
    refine ⟨Nat.le_refl _, by omega, fun i hi hi' => by omega, fun i hi hi' => by omega⟩
  | succ fuel ih =>
    unfold lowerBound
    by_cases hlen : len = 0
    · rw [if_pos hlen]
      refine ⟨Nat.le_refl _, by omega, fun i hi hi' => by omega, fun i hi hi' => by omega⟩
    rw [if_neg hlen]
    dsimp only
    cases hmid : less (first + len / 2) with
    | true =>
      rw [if_pos rfl]
      obtain ⟨hge, hle, hlow, hhigh⟩ := @ih (first + len / 2 + 1) (len - len / 2 - 1) (by omega)
        fun i j hi hij hj => hless i j (by omega) hij (by omega)
      refine ⟨by omega, by omega, fun i hi hi' => ?_, fun i hi hi' => hhigh i hi (by omega)⟩
      by_cases hfar : first + len / 2 + 1 ≤ i
      · exact hlow i hfar hi'
      · exact hless i _ hi (by omega) (by omega) hmid
    | false =>
      rw [if_neg Bool.false_ne_true]
      obtain ⟨hge, hle, hlow, hhigh⟩ := @ih first (len / 2) (by omega)
        fun i j hi hij hj => hless i j hi hij (by omega)
      refine ⟨hge, by omega, hlow, fun i hi hi' => ?_⟩
      by_cases hfar : i < first + len / 2
      · exact hhigh i hi hfar
      · cases hi'' : less i with
        | false => rfl
        | true =>
          have := hless (first + len / 2) i (by omega) (by omega) hi' hi''
          rw [hmid] at this
          exact this.symm
