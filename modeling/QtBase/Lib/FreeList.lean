import Mathlib.Data.Finset.Card
import Mathlib.Data.List.Nodup
import Mathlib.Order.Interval.Finset.Nat
import Mathlib.Logic.Function.Basic
import Mathlib.Tactic.Common

/-! Slots numbered in a row, the free ones linked in a chain that ends at the first slot never
used. -/
namespace QtBase.Lib

open List Function

/-- The links lead from `a` through `L` to `z`. -/
def Chain (next : ℕ → ℕ) : ℕ → List ℕ → ℕ → Prop
  | a, [], z => a = z
  | a, p :: L, z => a = p ∧ Chain next (next p) L z

/-- The slots from `low` on that lie before `stop` are either live or in the chain. -/
structure FreeList (next : ℕ → ℕ) (low first stop : ℕ) (live : Finset ℕ) (chain : List ℕ) :
    Prop where
  linked : Chain next first chain stop
  nodup : chain.Nodup
  used_iff : ∀ i, i ∈ live ∨ i ∈ chain ↔ low ≤ i ∧ i < stop
  dead : ∀ i ∈ chain, i ∉ live
  low_le : low ≤ stop

section Chain

variable {next next' : ℕ → ℕ} {a z : ℕ} {L : List ℕ}

theorem Chain.congr (h : Chain next a L z) (heq : ∀ p ∈ L, next' p = next p) :
    Chain next' a L z := by
  induction L generalizing a with
  | nil => exact h
  | cons p L ih =>
    obtain ⟨hp, hrest⟩ := h
    refine ⟨hp, ?_⟩
    rw [heq p mem_cons_self]
    exact ih hrest fun q hq => heq q (mem_cons_of_mem _ hq)

theorem Chain.first_mem (h : Chain next a L z) : a ∈ L ∨ a = z ∧ L = [] := by
  cases L with
  | nil => exact .inr ⟨h, rfl⟩
  | cons p L => exact .inl (h.1 ▸ mem_cons_self)

end Chain

namespace FreeList

variable {next next' : ℕ → ℕ} {low first stop : ℕ} {live : Finset ℕ} {chain : List ℕ}

theorem start (next : ℕ → ℕ) (low : ℕ) : FreeList next low low low ∅ [] where
  linked := rfl
  nodup := nodup_nil
  used_iff i := by
    constructor
    · rintro (h | h)
      · exact absurd h (Finset.notMem_empty i)
      · exact absurd h not_mem_nil
    · omega
  dead i h := absurd h not_mem_nil
  low_le := Nat.le_refl low

theorem lt_of_mem (h : FreeList next low first stop live chain) {i : ℕ} (hi : i ∈ chain) :
    low ≤ i ∧ i < stop := (h.used_iff i).1 (.inr hi)

theorem lt_of_live (h : FreeList next low first stop live chain) {i : ℕ} (hi : i ∈ live) :
    low ≤ i ∧ i < stop := (h.used_iff i).1 (.inl hi)

theorem first_le (h : FreeList next low first stop live chain) : low ≤ first ∧ first ≤ stop := by
  have hlow := h.low_le
  rcases h.linked.first_mem with hmem | ⟨heq, -⟩
  · have hlt := h.lt_of_mem hmem
    omega
  · omega

/-- What the live slots link to does not matter. -/
theorem congr (h : FreeList next low first stop live chain)
    (heq : ∀ p ∈ chain, next' p = next p) : FreeList next' low first stop live chain where
  linked := h.linked.congr heq
  nodup := h.nodup
  used_iff := h.used_iff
  dead := h.dead
  low_le := h.low_le

/-- The first slot of the chain comes into use. -/
theorem take {p : ℕ} (h : FreeList next low first stop live (p :: chain)) :
    FreeList next low (next p) stop (insert p live) chain where
  linked := h.linked.2
  nodup := (nodup_cons.1 h.nodup).2
  used_iff i := by
    rw [Finset.mem_insert, ← h.used_iff i, mem_cons]
    tauto
  dead i hi := by
    rw [Finset.mem_insert]
    rintro (rfl | hlive)
    · exact (nodup_cons.1 h.nodup).1 hi
    · exact h.dead i (mem_cons_of_mem _ hi) hlive
  low_le := h.low_le

/-- With no slot free, the first one never used comes into use. -/
theorem extend (h : FreeList next low first stop live []) :
    FreeList next' low (stop + 1) (stop + 1) (insert stop live) [] where
  linked := rfl
  nodup := nodup_nil
  used_iff i := by
    have hi := h.used_iff i
    have hlow := h.low_le
    rw [or_iff_left not_mem_nil] at hi
    rw [Finset.mem_insert, or_iff_left not_mem_nil, hi]
    omega
  dead i hi := absurd hi not_mem_nil
  low_le := Nat.le_succ_of_le h.low_le

/-- A live slot is put in front of the chain. -/
theorem release (h : FreeList next low first stop live chain) {i : ℕ} (hi : i ∈ live) :
    FreeList (update next i first) low i stop (live.erase i) (i :: chain) where
  linked := by
    refine ⟨rfl, ?_⟩
    rw [update_self]
    refine h.linked.congr fun p hp => update_of_ne ?_ _ _
    rintro rfl
    exact h.dead p hp hi
  nodup := nodup_cons.2 ⟨fun hmem => h.dead i hmem hi, h.nodup⟩
  used_iff j := by
    rw [Finset.mem_erase, mem_cons, ← h.used_iff j]
    by_cases heq : j = i
    · subst heq
      tauto
    · tauto
  dead j hj := by
    rw [Finset.mem_erase]
    rintro ⟨hne, hlive⟩
    exact h.dead j ((mem_cons.1 hj).resolve_left hne) hlive
  low_le := h.low_le

theorem first_notMem (h : FreeList next low first stop live chain) : first ∉ live := by
  intro hlive
  rcases h.linked.first_mem with hmem | ⟨heq, -⟩
  · exact h.dead first hmem hlive
  · have hlt := h.lt_of_live hlive
    omega

theorem card_add_length (h : FreeList next low first stop live chain) :
    live.card + chain.length + low = stop := by
  have hdisjoint : Disjoint live chain.toFinset := by
    rw [Finset.disjoint_right]
    intro i hi
    exact h.dead i (mem_toFinset.1 hi)
  have hunion : live ∪ chain.toFinset = Finset.Ico low stop := by
    ext i
    rw [Finset.mem_union, mem_toFinset, Finset.mem_Ico]
    exact h.used_iff i
  have hcard := Finset.card_union_of_disjoint hdisjoint
  rw [hunion, Nat.card_Ico, toFinset_card_of_nodup h.nodup] at hcard
  have hlow := h.low_le
  omega

end FreeList

end QtBase.Lib
