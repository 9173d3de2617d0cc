import Mathlib.Algebra.BigOperators.Group.Finset.Piecewise
import Mathlib.Data.List.Perm.Basic

/-! A multimap as the list of its (key, value) pairs, the latest first. The order matters only
between the values of one key. -/
namespace PairLog

open List

variable {K V : Type*} [DecidableEq K]

/-- The values of a key, the latest first. -/
def valuesOf (log : List (K × V)) (key : K) : List V :=
  log.filterMap fun p => if p.1 = key then some p.2 else none

@[simp] theorem valuesOf_nil (key : K) : valuesOf ([] : List (K × V)) key = [] := rfl

theorem valuesOf_cons (p : K × V) (log : List (K × V)) (key : K) :
    valuesOf (p :: log) key = if p.1 = key then p.2 :: valuesOf log key else valuesOf log key := by
  rw [valuesOf, filterMap_cons]
  split_ifs <;> rfl

@[simp] theorem valuesOf_cons_self (key : K) (v : V) (log : List (K × V)) :
    valuesOf ((key, v) :: log) key = v :: valuesOf log key := by
  rw [valuesOf_cons, if_pos rfl]

variable {key : K}

theorem valuesOf_cons_of_ne {p : K × V} (h : p.1 ≠ key) (log : List (K × V)) :
    valuesOf (p :: log) key = valuesOf log key := by
  rw [valuesOf_cons, if_neg h]

theorem valuesOf_append (l log : List (K × V)) (key : K) :
    valuesOf (l ++ log) key = valuesOf l key ++ valuesOf log key := filterMap_append

variable {log : List (K × V)}

theorem mem_valuesOf {v : V} : v ∈ valuesOf log key ↔ (key, v) ∈ log := by
  simp only [valuesOf, mem_filterMap, Option.ite_none_right_eq_some, Option.some.injEq]
  constructor
  · rintro ⟨⟨k, v'⟩, hp, rfl, rfl⟩
    exact hp
  · exact fun h => ⟨_, h, rfl, rfl⟩

theorem count_valuesOf [DecidableEq V] (log : List (K × V)) (key : K) (v : V) :
    (valuesOf log key).count v = log.count (key, v) := by
  induction log with
  | nil => rfl
  | cons p log ih =>
    obtain ⟨k, v'⟩ := p
    rw [valuesOf_cons]
    by_cases hk : k = key
    · subst hk
      by_cases hv : v' = v
      · subst hv
        simp [ih]
      · simp [ih, hv]
    · simp [ih, hk]

theorem sum_length_valuesOf (log : List (K × V)) (s : Finset K) (h : ∀ p ∈ log, p.1 ∈ s) :
    ∑ key ∈ s, (valuesOf log key).length = log.length := by
  induction log with
  | nil => simp
  | cons p log ih =>
    have hlen : ∀ key, (valuesOf (p :: log) key).length =
        (valuesOf log key).length + if p.1 = key then 1 else 0 := by
      intro key
      rw [valuesOf_cons]
      split_ifs <;> rfl
    rw [Finset.sum_congr rfl fun key _ => hlen key, Finset.sum_add_distrib,
      ih fun q hq => h q (mem_cons_of_mem _ hq), Finset.sum_ite_eq,
      if_pos (h p (mem_cons_self ..)), length_cons]

/-- With as many pairs on both sides, only a pair that occurs more often on one side can make a
difference. -/
theorem perm_iff_count_le [DecidableEq V] {olog : List (K × V)} (hlen : log.length = olog.length) :
    log.Perm olog ↔ ∀ p, olog.count p ≤ log.count p := by
  constructor
  · exact fun h p => (h.count_eq p).ge
  · intro h
    have hsub : olog.Subperm log := subperm_ext_iff.mpr fun p _ => h p
    exact (hsub.perm_of_length_le hlen.le).symm

/-! ## Changing the values of one key -/

/-- Without the `i`-th of the values of a key. -/
def eraseAt (key : K) : List (K × V) → ℕ → List (K × V)
  | [], _ => []
  | p :: log, 0 => if p.1 = key then log else p :: eraseAt key log 0
  | p :: log, i + 1 => p :: eraseAt key log (if p.1 = key then i else i + 1)

theorem valuesOf_eraseAt (key : K) (log : List (K × V)) (i : ℕ) :
    valuesOf (eraseAt key log i) key = (valuesOf log key).eraseIdx i := by
  induction log generalizing i with
  | nil => rfl
  | cons p log ih =>
    cases i with
    | zero =>
      rw [eraseAt, valuesOf_cons]
      by_cases hk : p.1 = key
      · simp [hk]
      · rw [if_neg hk, if_neg hk, valuesOf_cons_of_ne hk, ih]
    | succ i =>
      rw [eraseAt, valuesOf_cons, valuesOf_cons]
      by_cases hk : p.1 = key
      · rw [if_pos hk, if_pos hk, if_pos hk, ih]
        rfl
      · rw [if_neg hk, if_neg hk, if_neg hk, ih]

theorem valuesOf_eraseAt_of_ne {k : K} (hk : k ≠ key) (log : List (K × V)) (i : ℕ) :
    valuesOf (eraseAt key log i) k = valuesOf log k := by
  induction log generalizing i with
  | nil => rfl
  | cons p log ih =>
    cases i with
    | zero =>
      rw [eraseAt]
      by_cases hp : p.1 = key
      · rw [if_pos hp, valuesOf_cons_of_ne (by rw [hp]; exact hk.symm)]
      · rw [if_neg hp, valuesOf_cons, valuesOf_cons, ih]
    | succ i => rw [eraseAt, valuesOf_cons, valuesOf_cons, ih]

theorem length_eraseAt {i : ℕ} (hi : i < (valuesOf log key).length) :
    (eraseAt key log i).length + 1 = log.length := by
  induction log generalizing i with
  | nil => simp at hi
  | cons p log ih =>
    rw [valuesOf_cons] at hi
    cases i with
    | zero =>
      rw [eraseAt]
      by_cases hp : p.1 = key
      · rw [if_pos hp, length_cons]
      · rw [if_neg hp] at hi ⊢
        rw [length_cons, ih hi, length_cons]
    | succ i =>
      rw [eraseAt, length_cons, length_cons]
      by_cases hp : p.1 = key
      · rw [if_pos hp] at hi ⊢
        rw [ih (by simpa using hi)]
      · rw [if_neg hp] at hi ⊢
        rw [ih hi]

theorem eraseAt_of_nil (h : valuesOf log key = []) (i : ℕ) :
    eraseAt key log i = log := by
  induction log generalizing i with
  | nil => rfl
  | cons p log ih =>
    rw [valuesOf_cons] at h
    by_cases hp : p.1 = key
    · simp [hp] at h
    · rw [if_neg hp] at h
      cases i with
      | zero => rw [eraseAt, if_neg hp, ih h]
      | succ i => rw [eraseAt, if_neg hp, ih h]

/-- The latest value of a key is replaced. -/
def setFirst (key : K) (v : V) : List (K × V) → List (K × V)
  | [] => []
  | p :: log => if p.1 = key then (key, v) :: log else p :: setFirst key v log

theorem valuesOf_setFirst (key : K) (v : V) (log : List (K × V)) :
    valuesOf (setFirst key v log) key = (valuesOf log key).set 0 v := by
  induction log with
  | nil => rfl
  | cons p log ih =>
    rw [setFirst]
    by_cases hp : p.1 = key
    · rw [if_pos hp, valuesOf_cons, valuesOf_cons, if_pos rfl, if_pos hp]
      rfl
    · rw [if_neg hp, valuesOf_cons, valuesOf_cons, if_neg hp, if_neg hp, ih]

theorem valuesOf_setFirst_of_ne {k : K} (hk : k ≠ key) (v : V) (log : List (K × V)) :
    valuesOf (setFirst key v log) k = valuesOf log k := by
  induction log with
  | nil => rfl
  | cons p log ih =>
    rw [setFirst]
    by_cases hp : p.1 = key
    · rw [if_pos hp, valuesOf_cons, valuesOf_cons, if_neg hk.symm, if_neg (by rw [hp]; exact hk.symm)]
    · rw [if_neg hp, valuesOf_cons, valuesOf_cons, ih]

@[simp] theorem length_setFirst (key : K) (v : V) (log : List (K × V)) :
    (setFirst key v log).length = log.length := by
  induction log with
  | nil => rfl
  | cons p log ih =>
    rw [setFirst]
    split_ifs
    · rfl
    · rw [length_cons, ih, length_cons]

/-- Replace the latest value of a key, or add one if the key has none. -/
def replace (key : K) (v : V) (log : List (K × V)) : List (K × V) :=
  if valuesOf log key = [] then (key, v) :: log else setFirst key v log

theorem valuesOf_replace (key : K) (v : V) (log : List (K × V)) :
    valuesOf (replace key v log) key = v :: (valuesOf log key).tail := by
  rw [replace]
  split_ifs with h
  · rw [valuesOf_cons_self, h]
    rfl
  · rw [valuesOf_setFirst]
    cases hv : valuesOf log key with
    | nil => exact absurd hv h
    | cons a l => rfl

theorem valuesOf_replace_of_ne {k : K} (hk : k ≠ key) (v : V) (log : List (K × V)) :
    valuesOf (replace key v log) k = valuesOf log k := by
  rw [replace]
  split_ifs
  · exact valuesOf_cons_of_ne hk.symm _
  · exact valuesOf_setFirst_of_ne hk v log

theorem length_replace (key : K) (v : V) (log : List (K × V)) :
    (replace key v log).length = log.length + if valuesOf log key = [] then 1 else 0 := by
  rw [replace]
  split_ifs
  · rfl
  · exact length_setFirst key v log

/-- Without the values of a key. -/
def removeKey (key : K) (log : List (K × V)) : List (K × V) := log.filter fun p => p.1 ≠ key

theorem valuesOf_removeKey (key : K) (log : List (K × V)) : valuesOf (removeKey key log) key = [] := by
  rw [valuesOf, filterMap_eq_nil_iff]
  intro p hp
  simp only [removeKey, mem_filter, decide_eq_true_eq] at hp
  exact if_neg hp.2

theorem valuesOf_removeKey_of_ne {k : K} (hk : k ≠ key) (log : List (K × V)) :
    valuesOf (removeKey key log) k = valuesOf log k := by
  induction log with
  | nil => rfl
  | cons p log ih =>
    rw [removeKey, filter_cons]
    by_cases hp : p.1 = key
    · rw [if_neg (by simpa using hp), valuesOf_cons, if_neg (by rw [hp]; exact hk.symm)]
      exact ih
    · rw [if_pos (by simpa using hp), valuesOf_cons, valuesOf_cons]
      exact congrArg (fun l => if p.1 = k then p.2 :: l else l) ih

theorem length_removeKey (key : K) (log : List (K × V)) :
    (removeKey key log).length + (valuesOf log key).length = log.length := by
  induction log with
  | nil => rfl
  | cons p log ih =>
    rw [removeKey, filter_cons, valuesOf_cons]
    rw [removeKey] at ih
    by_cases hp : p.1 = key
    · rw [if_neg (by simpa using hp), if_pos hp, length_cons, length_cons]
      omega
    · rw [if_pos (by simpa using hp), if_neg hp, length_cons, length_cons]
      omega

/-- Without the pairs equal to one. -/
def removePair [DecidableEq V] (key : K) (v : V) (log : List (K × V)) : List (K × V) :=
  log.filter fun p => p ≠ (key, v)

theorem valuesOf_removePair [DecidableEq V] (key : K) (v : V) (log : List (K × V)) :
    valuesOf (removePair key v log) key = (valuesOf log key).filter fun x => x ≠ v := by
  induction log with
  | nil => rfl
  | cons p log ih =>
    obtain ⟨k, x⟩ := p
    rw [removePair] at ih ⊢
    by_cases hk : k = key
    · subst hk
      by_cases hx : x = v
      · subst hx
        simp [valuesOf_cons] at ih ⊢
        exact ih
      · simp [valuesOf_cons, hx] at ih ⊢
        exact ih
    · simp [valuesOf_cons, hk] at ih ⊢
      exact ih

theorem valuesOf_removePair_of_ne [DecidableEq V] {k : K} (hk : k ≠ key) (v : V)
    (log : List (K × V)) : valuesOf (removePair key v log) k = valuesOf log k := by
  induction log with
  | nil => rfl
  | cons p log ih =>
    rw [removePair] at ih ⊢
    rw [filter_cons]
    by_cases hp : p = (key, v)
    · rw [if_neg (by simpa using hp), hp, valuesOf_cons_of_ne (Ne.symm hk), ih]
    · rw [if_pos (by simpa using hp), valuesOf_cons, valuesOf_cons, ih]

theorem length_removePair [DecidableEq V] (key : K) (v : V) (log : List (K × V)) :
    (removePair key v log).length + (valuesOf log key).count v = log.length := by
  rw [count_valuesOf]
  induction log with
  | nil => rfl
  | cons p log ih =>
    rw [removePair] at ih ⊢
    rw [filter_cons]
    by_cases hp : p = (key, v)
    · rw [if_neg (by simpa using hp), hp, count_cons_self, length_cons]
      omega
    · rw [if_pos (by simpa using hp), count_cons_of_ne hp, length_cons, length_cons]
      omega

end PairLog
