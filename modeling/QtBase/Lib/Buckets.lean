import Mathlib.Data.List.Pairwise
import Mathlib.Data.List.Range
import Mathlib.Data.List.Sort

/-! Sorting by buckets: the largest keys first, and of equal keys the last one. -/
namespace QtBase.Lib

open List

variable {α : Type} {r : α → α → Prop} [DecidableRel r]

theorem orderedInsert_append {a : α} {l l' : List α} (hbehind : ∀ b ∈ l, ¬r a b)
    (hfront : ∀ b ∈ l', r a b) : (l ++ l').orderedInsert r a = l ++ a :: l' := by
  induction l with
  | nil =>
    cases l' with
    | nil => rfl
    | cons b l' => exact orderedInsert_cons_of_le _ _ (hfront b mem_cons_self)
  | cons b l ih =>
    rw [cons_append, orderedInsert_of_not_le _ _ (hbehind b mem_cons_self),
      ih fun c hc => hbehind c (mem_cons_of_mem b hc), cons_append]

theorem insertionSort_eq_of_perm (hasymm : ∀ a b, r a b → ¬r b a) {l sorted : List α}
    (hsorted : sorted.Pairwise r) (hperm : sorted.Perm l) : l.insertionSort r = sorted := by
  induction l generalizing sorted with
  | nil => exact hperm.eq_nil.symm
  | cons a l ih =>
    obtain ⟨front, behind, rfl⟩ := append_of_mem (hperm.symm.subset mem_cons_self)
    rw [pairwise_append, pairwise_cons] at hsorted
    obtain ⟨hfront, ⟨ha, hbehind⟩, hacross⟩ := hsorted
    have hrest := ih (pairwise_append.mpr ⟨hfront, hbehind,
      fun b hb c hc => hacross b hb c (mem_cons_of_mem a hc)⟩)
      (perm_middle.symm.trans hperm).cons_inv
    rw [insertionSort_cons, hrest]
    exact orderedInsert_append
      (fun b hb => hasymm b a (hacross b hb a mem_cons_self)) ha

/-- The elements by their keys below a bound. -/
def buckets (key : α → ℕ) (bound : ℕ) (l : List α) : List α :=
  (List.range bound).reverse.flatMap fun n => l.reverse.filter fun a => Nat.beq (key a) n

theorem mem_buckets {key : α → ℕ} {bound : ℕ} {l : List α} (hkey : ∀ a ∈ l, key a < bound) {a : α} :
    a ∈ buckets key bound l ↔ a ∈ l := by
  unfold buckets
  rw [mem_flatMap]
  constructor
  · rintro ⟨n, -, ha⟩
    exact mem_reverse.mp (mem_of_mem_filter ha)
  · intro ha
    exact ⟨key a, mem_reverse.mpr (mem_range.mpr (hkey a ha)),
      mem_filter.mpr ⟨mem_reverse.mpr ha, Nat.beq_refl _⟩⟩

theorem insertionSort_eq_buckets (hasymm : ∀ a b, r a b → ¬r b a) {key : α → ℕ} {bound : ℕ}
    {l : List α} (hl : l.Nodup) (hkey : ∀ a ∈ l, key a < bound)
    (hsorted : (buckets key bound l).Pairwise r) : l.insertionSort r = buckets key bound l := by
  have hnodup : (buckets key bound l).Nodup := hsorted.imp fun {a b} hab heq => by
    rw [heq] at hab
    exact hasymm b b hab hab
  exact insertionSort_eq_of_perm hasymm hsorted
    ((perm_ext_iff_of_nodup hnodup hl).mpr fun a => mem_buckets hkey)

end QtBase.Lib
