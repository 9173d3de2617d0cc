import QtBase.Core.Exec
import Mathlib.Data.List.Infix

/-! Views: reads at checked positions, and parts cut at checked positions. -/
namespace QtBase.View

open List

variable {α : Type} (data : List α)

/-- `at(i)` -/
def elem (i : ℕ) : Exec α :=
  match data[i]? with
  | some c => .ok c
  | none => .error .undefined

/-- `first(n)` -/
def first (n : ℤ) : Exec (List α) := do
  qAssert (0 ≤ n)
  qAssert (n ≤ data.length)
  return data.take n.toNat

/-- `sliced(pos)` -/
def slicedFrom (pos : ℤ) : Exec (List α) := do
  qAssert (0 ≤ pos)
  qAssert (pos ≤ data.length)
  return data.drop pos.toNat

/-- `sliced(pos, n)` -/
def sliced (pos n : ℤ) : Exec (List α) := do
  qAssert (0 ≤ pos)
  qAssert (0 ≤ n)
  qAssert (pos + n ≤ data.length)
  return (data.drop pos.toNat).take n.toNat

/-- `while (i < size && p(at(i))) ++i;`, with as many rounds as there are elements. -/
def scan (p : α → Bool) : ℕ → ℕ → Exec ℕ
  | 0, i => .ok i
  | rounds + 1, i =>
    if i < data.length then do
      let c ← elem data i
      if p c then scan p rounds (i + 1) else .ok i
    else .ok i

variable {data}

theorem of_head?_dropWhile {p : α → Bool} {c : α} (h : (data.dropWhile p).head? = some c) :
    p c = false := by
  have hnot := head?_dropWhile_not p data
  rw [h] at hnot
  simpa using hnot

theorem elem_of_lt {i : ℕ} (h : i < data.length) : elem data i = .ok data[i] := by
  unfold elem
  rw [getElem?_eq_getElem h]

theorem elem_drop {i : ℕ} {c : α} {t : List α} (h : data.drop i = c :: t) :
    elem data i = .ok c := by
  unfold elem
  rw [← head?_drop, h]
  rfl

theorem first_eq {n : ℕ} (h : n ≤ data.length) : first data n = .ok (data.take n) := by
  unfold first
  rw [qAssert_pos (Int.natCast_nonneg n), ok_bind, qAssert_pos (Int.ofNat_le.2 h), ok_bind]
  rfl

theorem slicedFrom_eq {pos : ℕ} (h : pos ≤ data.length) :
    slicedFrom data pos = .ok (data.drop pos) := by
  unfold slicedFrom
  rw [qAssert_pos (Int.natCast_nonneg pos), ok_bind, qAssert_pos (Int.ofNat_le.2 h), ok_bind]
  rfl

theorem sliced_eq {pos n : ℕ} (h : pos + n ≤ data.length) :
    sliced data pos n = .ok ((data.drop pos).take n) := by
  unfold sliced
  have hle : (pos : ℤ) + n ≤ data.length := by exact_mod_cast h
  rw [qAssert_pos (Int.natCast_nonneg pos), ok_bind, qAssert_pos (Int.natCast_nonneg n), ok_bind,
    qAssert_pos hle, ok_bind]
  rfl

theorem scan_eq {p : α → Bool} {rounds i : ℕ} (h : data.length ≤ i + rounds) :
    scan data p rounds i = .ok (i + ((data.drop i).takeWhile p).length) := by
  induction rounds generalizing i with
  | zero =>
    rw [Nat.add_zero] at h
    rw [drop_eq_nil_of_le h]
    rfl
  | succ rounds ih =>
    unfold scan
    by_cases hi : i < data.length
    · rw [if_pos hi, elem_of_lt hi, ok_bind, drop_eq_getElem_cons hi]
      by_cases hp : p data[i] = true
      · rw [if_pos hp, takeWhile_cons_of_pos hp, ih (by omega), length_cons]
        congr 1
        omega
      · rw [if_neg hp, takeWhile_cons_of_neg hp]
        rfl
    · rw [if_neg hi, drop_eq_nil_of_le (by omega)]
      rfl

theorem scan_spec (p : α → Bool) {i : ℕ} (h : i ≤ data.length) :
    ∃ j, scan data p data.length i = .ok j ∧ i ≤ j ∧ j ≤ data.length ∧
      data.drop j = (data.drop i).dropWhile p ∧ j - i = ((data.drop i).takeWhile p).length := by
  have hle := (List.takeWhile_prefix p (l := data.drop i)).length_le
  rw [length_drop] at hle
  refine ⟨_, scan_eq (by omega), by omega, by omega, ?_, by omega⟩
  rw [← drop_drop]
  nth_rewrite 2 [← takeWhile_append_dropWhile (p := p) (l := data.drop i)]
  exact drop_left

end QtBase.View
