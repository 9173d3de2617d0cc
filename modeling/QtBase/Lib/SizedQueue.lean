import Mathlib.Data.Nat.Notation
import Mathlib.Tactic.Common
import Mathlib.Data.List.Induction
import Mathlib.Algebra.Order.Ring.Int

/-! A queue whose elements have sizes, with the newest one first: the last elements are dropped as
long as all sizes together exceed a capacity. -/
namespace SizedQueue

open List

variable {α : Type} (size : α → ℕ)

def total (l : List α) : ℕ := (l.map size).sum

@[simp] theorem total_nil : total size [] = 0 := rfl

@[simp] theorem total_cons (a : α) (l : List α) : total size (a :: l) = size a + total size l := rfl

@[simp] theorem total_append (l l' : List α) :
    total size (l ++ l') = total size l + total size l' := by
  unfold total
  rw [map_append, sum_append]

theorem total_prefix_le {l l' : List α} (h : l <+: l') : total size l ≤ total size l' := by
  obtain ⟨r, hr⟩ := h
  rw [← hr, total_append]
  exact Nat.le_add_right _ _

/-- Drop the last element as long as the sizes exceed the capacity. -/
def evict (capacity : ℕ) (l : List α) : List α :=
  if total size l ≤ capacity then l else evict capacity l.dropLast
termination_by l.length
decreasing_by
  cases l with
  | nil => exact absurd (Nat.zero_le capacity) ‹_›
  | cons a l =>
    simp

variable {size} {capacity : ℕ}

theorem evict_of_le {l : List α} (h : total size l ≤ capacity) : evict size capacity l = l := by
  rw [evict, if_pos h]

theorem evict_concat {l : List α} {a : α} (h : capacity < total size (l ++ [a])) :
    evict size capacity (l ++ [a]) = evict size capacity l := by
  rw [evict, if_neg (Nat.not_le.mpr h), dropLast_concat]

theorem total_evict_le (capacity : ℕ) (l : List α) : total size (evict size capacity l) ≤ capacity := by
  induction l using List.reverseRecOn with
  | nil =>
    rw [evict_of_le (Nat.zero_le _)]
    exact Nat.zero_le _
  | append_singleton l a ih =>
    by_cases h : total size (l ++ [a]) ≤ capacity
    · rw [evict_of_le h]
      exact h
    · rw [evict_concat (Nat.not_le.mp h)]
      exact ih

theorem evict_isPrefix (capacity : ℕ) (l : List α) : evict size capacity l <+: l := by
  induction l using List.reverseRecOn with
  | nil =>
    have hnil : evict size capacity ([] : List α) = [] := evict_of_le (Nat.zero_le _)
    exact hnil.symm ▸ prefix_rfl
  | append_singleton l a ih =>
    by_cases h : total size (l ++ [a]) ≤ capacity
    · exact (evict_of_le h).symm ▸ prefix_rfl
    · rw [evict_concat (Nat.not_le.mp h)]
      exact ih.trans (prefix_append l [a])

theorem evict_cons {a : α} (h : size a ≤ capacity) (l : List α) :
    evict size capacity (a :: l) = a :: evict size (capacity - size a) l := by
  induction l using List.reverseRecOn with
  | nil =>
    rw [evict_of_le (by rw [total_cons, total_nil]; omega), evict_of_le (Nat.zero_le _)]
  | append_singleton l b ih =>
    by_cases hfit : total size (l ++ [b]) ≤ capacity - size a
    · rw [evict_of_le hfit, evict_of_le]
      rw [total_cons]
      omega
    · rw [evict_concat (Nat.not_le.mp hfit), ← ih, ← cons_append, evict_concat]
      rw [cons_append, total_cons]
      omega

theorem evict_cons_of_lt {a : α} (h : capacity < size a) (l : List α) :
    evict size capacity (a :: l) = [] := by
  have hstart := @evict_isPrefix α size capacity (a :: l)
  have hle := @total_evict_le α size capacity (a :: l)
  cases hevict : evict size capacity (a :: l) with
  | nil => rfl
  | cons b l' =>
    rw [hevict] at hstart hle
    have hb : b = a := (cons_prefix_cons.mp hstart).1
    rw [total_cons, hb] at hle
    omega

end SizedQueue
