import Mathlib.Data.List.Nodup
import Mathlib.Data.List.Pairwise
import Mathlib.Data.List.TakeWhile
import Mathlib.Order.Defs.LinearOrder
import Mathlib.Order.Lattice

/-! An ordered set as the sequence of its elements, compared by a less-than that has a rank. -/
namespace QtBase.Lib.OrderedSet

open List Bool

variable {α β : Type} [LinearOrder β] {less : α → α → Bool} {rank : α → β} {l : List α} {e : α}

/-- The less-than compares the ranks of these elements. -/
def Ranks (less : α → α → Bool) (rank : α → β) (s : α → Prop) : Prop :=
  ∀ a b, s a → s b → (less a b = true ↔ rank a < rank b)

def Sorted (rank : α → β) (l : List α) : Prop := l.Pairwise fun a b => rank a < rank b

def equivalent (less : α → α → Bool) (a b : α) : Bool := !less a b && !less b a

def insert (less : α → α → Bool) (e : α) (l : List α) : List α :=
  if l.any (equivalent less e) then l
  else (l.takeWhile fun x => less x e) ++ e :: l.dropWhile fun x => less x e

def erase (less : α → α → Bool) (e : α) (l : List α) : List α :=
  l.filter fun x => !equivalent less x e

def lower_bound (less : α → α → Bool) (e : α) (l : List α) : Option α :=
  (l.dropWhile fun x => less x e).head?

theorem equivalent_iff {s : α → Prop} (h : Ranks less rank s) {a b : α} (ha : s a) (hb : s b) :
    equivalent less a b = true ↔ rank a = rank b := by
  unfold equivalent
  rw [and_eq_true, not_eq_true', not_eq_true', ← not_eq_true,
    ← not_eq_true, h a b ha hb, h b a hb ha, not_lt, not_lt]
  exact ⟨fun ⟨hba, hab⟩ => le_antisymm hab hba, fun heq => ⟨heq.ge, heq.le⟩⟩

theorem not_less_of_mem_dropWhile (hs : Sorted rank l)
    (h : Ranks less rank fun x => x = e ∨ x ∈ l) {x : α}
    (hx : x ∈ l.dropWhile fun x => less x e) : ¬rank x < rank e := by
  induction l with
  | nil => cases hx
  | cons a l ih =>
    rw [dropWhile_cons] at hx
    have hsub : Ranks less rank fun x => x = e ∨ x ∈ l := fun a b ha hb =>
      h a b (ha.imp_right (mem_cons_of_mem _)) (hb.imp_right (mem_cons_of_mem _))
    split_ifs at hx with hless
    · exact ih (List.Pairwise.of_cons hs) hsub hx
    · rw [h a e (.inr mem_cons_self) (.inl rfl), not_lt] at hless
      rcases mem_cons.mp hx with rfl | hx
      · exact not_lt.mpr hless
      · exact not_lt.mpr (hless.trans (rel_of_pairwise_cons hs hx).le)

theorem less_of_mem_takeWhile (h : Ranks less rank fun x => x = e ∨ x ∈ l) {x : α}
    (hx : x ∈ l.takeWhile fun x => less x e) : rank x < rank e :=
  (h x e (.inr (takeWhile_subset _ hx)) (.inl rfl)).mp
    (mem_takeWhile_imp (p := fun x => less x e) hx)

theorem any_equivalent_eq_false (h : Ranks less rank fun x => x = e ∨ x ∈ l)
    (hne : ∀ x ∈ l, rank x ≠ rank e) : l.any (equivalent less e) = false := by
  rw [← not_eq_true, any_eq_true]
  intro ⟨x, hx, hequiv⟩
  rw [equivalent_iff h (.inl rfl) (.inr hx)] at hequiv
  exact hne x hx hequiv.symm

theorem insert_perm (h : Ranks less rank fun x => x = e ∨ x ∈ l)
    (hne : ∀ x ∈ l, rank x ≠ rank e) : (insert less e l).Perm (e :: l) := by
  unfold insert
  rw [any_equivalent_eq_false h hne, if_neg Bool.false_ne_true]
  have hsplit := takeWhile_append_dropWhile (p := fun x => less x e) (l := l)
  have hmiddle := @perm_middle _ e (l.takeWhile fun x => less x e)
    (l.dropWhile fun x => less x e)
  rwa [hsplit] at hmiddle

theorem sorted_insert (hs : Sorted rank l) (h : Ranks less rank fun x => x = e ∨ x ∈ l)
    (hne : ∀ x ∈ l, rank x ≠ rank e) : Sorted rank (insert less e l) := by
  unfold insert
  rw [any_equivalent_eq_false h hne, if_neg Bool.false_ne_true]
  refine pairwise_append.mpr ⟨hs.sublist (takeWhile_sublist _), ?_, ?_⟩
  · refine pairwise_cons.mpr ⟨fun x hx => ?_, hs.sublist (dropWhile_sublist _)⟩
    have hge := not_lt.mp (not_less_of_mem_dropWhile hs h hx)
    exact lt_of_le_of_ne hge (hne x (dropWhile_subset _ hx)).symm
  · intro x hx y hy
    have hlt := less_of_mem_takeWhile h hx
    rcases mem_cons.mp hy with rfl | hy
    · exact hlt
    · exact lt_of_lt_of_le hlt (not_lt.mp (not_less_of_mem_dropWhile hs h hy))

theorem Sorted.rank_inj (hs : Sorted rank l) {a b : α} (ha : a ∈ l) (hb : b ∈ l)
    (heq : rank a = rank b) : a = b := by
  by_contra hne
  have hsymm : Std.Symm fun a b : α => rank a ≠ rank b := ⟨fun _ _ h => h.symm⟩
  have hdistinct := hs.imp (S := fun a b : α => rank a ≠ rank b) fun h => h.ne
  exact hdistinct.forall ha hb hne heq

theorem sorted_erase (hs : Sorted rank l) : Sorted rank (erase less e l) :=
  hs.sublist filter_sublist

theorem erase_perm (hs : Sorted rank l) (h : Ranks less rank fun x => x ∈ l) (he : e ∈ l) :
    l.Perm (e :: erase less e l) ∧ (l.filter fun x => equivalent less x e).length = 1 := by
  have hfilter : (l.filter fun x => equivalent less x e) = [e] := by
    have hmem : ∀ x ∈ l, (equivalent less x e = true ↔ x = e) := fun x hx => by
      rw [equivalent_iff h hx he]
      exact ⟨hs.rank_inj hx he, fun heq => by rw [heq]⟩
    have hnodup : l.Nodup := hs.imp fun hlt heq => by
      rw [heq] at hlt
      exact lt_irrefl _ hlt
    refine perm_singleton.mp ((perm_ext_iff_of_nodup (hnodup.filter _)
      (nodup_singleton e)).mpr fun x => ?_)
    rw [mem_filter, mem_singleton]
    exact ⟨fun ⟨hx, hequiv⟩ => (hmem x hx).mp hequiv, fun heq => by
      rw [heq]
      exact ⟨he, (hmem e he).mpr rfl⟩⟩
  refine ⟨?_, by rw [hfilter, length_singleton]⟩
  have hsplit := filter_append_perm (fun x => equivalent less x e) l
  rw [hfilter] at hsplit
  exact hsplit.symm

theorem lower_bound_spec (hs : Sorted rank l) (h : Ranks less rank fun x => x = e ∨ x ∈ l) :
    match lower_bound less e l with
    | some x => x ∈ l ∧ rank e ≤ rank x ∧ ∀ y ∈ l, rank e ≤ rank y → rank x ≤ rank y
    | none => ∀ y ∈ l, rank y < rank e := by
  have hsplit := takeWhile_append_dropWhile (p := fun x => less x e) (l := l)
  unfold lower_bound
  cases hdrop : l.dropWhile fun x => less x e with
  | nil =>
    rw [hdrop, append_nil] at hsplit
    intro y hy
    rw [← hsplit] at hy
    exact less_of_mem_takeWhile h hy
  | cons x rest =>
    have hx : x ∈ l.dropWhile fun x => less x e := by
      simp [hdrop]
    refine ⟨dropWhile_subset _ hx, not_lt.mp (not_less_of_mem_dropWhile hs h hx), ?_⟩
    intro y hy hey
    rw [← hsplit, hdrop, mem_append] at hy
    rcases hy with hy | hy
    · exact absurd (less_of_mem_takeWhile h hy) (not_lt.mpr hey)
    · have hsorted := hs.sublist (dropWhile_sublist fun x => less x e)
      rw [hdrop] at hsorted
      rcases mem_cons.mp hy with rfl | hy
      · exact le_refl _
      · exact (rel_of_pairwise_cons hsorted hy).le

end QtBase.Lib.OrderedSet
