import Mathlib.Data.List.Sort

/-! Stable sorting by a less-than that is an order on the list to be sorted, and the last of each run
of equal elements. -/
namespace StableSort

open List

variable {α : Type}

/-- A strict weak order on the elements of a list. -/
structure StrictWeakOn (lt : α → α → Bool) (l : List α) : Prop where
  asymm : ∀ a ∈ l, ∀ b ∈ l, lt a b = true → lt b a = false
  trans : ∀ a ∈ l, ∀ b ∈ l, ∀ c ∈ l, lt b a = false → lt c b = false → lt c a = false

/-- Neither is less than the other. -/
def equiv (lt : α → α → Bool) (a b : α) : Bool := !lt a b && !lt b a

/-- What a stable sorting function promises. -/
structure Sorts (sort : (α → α → Bool) → List α → List α) : Prop where
  perm : ∀ lt l, StrictWeakOn lt l → (sort lt l).Perm l
  sorted : ∀ lt l, StrictWeakOn lt l → (sort lt l).Pairwise fun a b => lt b a = false
  stable : ∀ lt l, StrictWeakOn lt l → ∀ a ∈ l,
    (sort lt l).filter (equiv lt a) = l.filter (equiv lt a)

namespace StrictWeakOn

variable {lt : α → α → Bool} {l : List α}

theorem subset (h : StrictWeakOn lt l) {l' : List α} (hsub : l' ⊆ l) : StrictWeakOn lt l' where
  asymm a ha b hb := h.asymm a (hsub ha) b (hsub hb)
  trans a ha b hb c hc := h.trans a (hsub ha) b (hsub hb) c (hsub hc)

theorem irrefl (h : StrictWeakOn lt l) {a : α} (ha : a ∈ l) : lt a a = false := by
  by_contra hlt
  rw [Bool.not_eq_false] at hlt
  have hne := h.asymm a ha a ha hlt
  rw [hlt] at hne
  cases hne

theorem equiv_refl (h : StrictWeakOn lt l) {a : α} (ha : a ∈ l) : equiv lt a a = true := by
  unfold equiv
  rw [h.irrefl ha]
  rfl

end StrictWeakOn

theorem equiv_iff {lt : α → α → Bool} {a b : α} :
    equiv lt a b = true ↔ lt a b = false ∧ lt b a = false := by
  unfold equiv
  simp

theorem equiv_symm {lt : α → α → Bool} {a b : α} (h : equiv lt a b = true) :
    equiv lt b a = true := by
  rw [equiv_iff] at h ⊢
  exact And.symm h

theorem StrictWeakOn.equiv_trans {lt : α → α → Bool} {l : List α} (h : StrictWeakOn lt l)
    {a b c : α} (ha : a ∈ l) (hb : b ∈ l) (hc : c ∈ l) (hab : equiv lt a b = true)
    (hbc : equiv lt b c = true) : equiv lt a c = true := by
  rw [equiv_iff] at hab hbc ⊢
  constructor
  · exact h.trans c hc b hb a ha hbc.1 hab.1
  · exact h.trans a ha b hb c hc hab.2 hbc.2

/-! ## Insertion sort -/

/-- Sorting by insertion behind all that is not greater. -/
def insertionSort (lt : α → α → Bool) (l : List α) : List α :=
  l.insertionSort fun a b => lt b a = false

variable {lt : α → α → Bool}

theorem sorted_orderedInsert {a : α} {l : List α} (h : StrictWeakOn lt (a :: l))
    (hl : l.Pairwise fun a b => lt b a = false) :
    (l.orderedInsert (fun a b => lt b a = false) a).Pairwise fun a b => lt b a = false := by
  induction l with
  | nil => exact pairwise_singleton _ _
  | cons b l ih =>
    have ha : a ∈ a :: b :: l := mem_cons_self
    have hb : b ∈ a :: b :: l := mem_cons_of_mem _ mem_cons_self
    have hmem : ∀ x ∈ l, x ∈ a :: b :: l := fun x hx =>
      mem_cons_of_mem _ (mem_cons_of_mem _ hx)
    rw [pairwise_cons] at hl
    rw [List.orderedInsert]
    by_cases hle : lt b a = false
    · rw [if_pos hle, pairwise_cons, pairwise_cons]
      refine ⟨?_, hl⟩
      intro x hx
      rw [mem_cons] at hx
      rcases hx with hx | hx
      · simp [hx, hle]
      · exact h.trans a ha b hb x (hmem x hx) hle (hl.1 x hx)
    · rw [if_neg hle, pairwise_cons]
      rw [Bool.not_eq_false] at hle
      constructor
      · intro x hx
        rw [mem_orderedInsert] at hx
        rcases hx with hx | hx
        · rw [hx]
          exact h.asymm b hb a ha hle
        · exact hl.1 x hx
      · apply ih (h.subset _) hl.2
        exact cons_subset_cons a (subset_cons_self b l)

theorem filter_orderedInsert {a x : α} {l : List α} (h : StrictWeakOn lt (x :: a :: l)) :
    (l.orderedInsert (fun a b => lt b a = false) a).filter (equiv lt x) =
      (a :: l).filter (equiv lt x) := by
  induction l with
  | nil => rfl
  | cons b l ih =>
    have hx : x ∈ x :: a :: b :: l := mem_cons_self
    have ha : a ∈ x :: a :: b :: l := mem_cons_of_mem _ mem_cons_self
    have hb : b ∈ x :: a :: b :: l :=
      mem_cons_of_mem _ (mem_cons_of_mem _ mem_cons_self)
    rw [List.orderedInsert]
    by_cases hle : lt b a = false
    · rw [if_pos hle]
    · rw [if_neg hle, filter_cons, ih (h.subset (cons_subset_cons x
        (cons_subset_cons a (subset_cons_self b l)))), filter_cons,
        filter_cons, filter_cons]
      by_cases hax : equiv lt x a = true
      · -- `b` is less than `a`, so that they cannot both be equal to `x`
        have hbx : ¬ equiv lt x b = true := by
          intro hbx
          have hab := h.equiv_trans ha hx hb (equiv_symm hax) hbx
          exact hle (equiv_iff.1 hab).2
        rw [if_neg hbx, if_neg hbx]
      · rw [if_neg hax, if_neg hax]

theorem insertionSort_sorts : Sorts (insertionSort (α := α)) where
  perm lt l h := perm_insertionSort _ l
  sorted lt l h := by
    unfold insertionSort
    induction l with
    | nil => exact List.Pairwise.nil
    | cons a l ih =>
      rw [insertionSort_cons]
      apply sorted_orderedInsert
      · apply h.subset
        apply cons_subset_cons
        exact (perm_insertionSort _ l).subset
      · exact ih (h.subset (subset_cons_self a l))
  stable lt l h := by
    intro x hx
    unfold insertionSort
    have hxs : StrictWeakOn lt (x :: l) := h.subset (cons_subset.mpr ⟨hx, List.Subset.refl l⟩)
    clear h hx
    induction l with
    | nil => rfl
    | cons a l ih =>
      rw [insertionSort_cons, filter_orderedInsert, filter_cons, filter_cons, ih]
      · exact hxs.subset (cons_subset_cons x (subset_cons_self a l))
      · apply hxs.subset
        apply cons_subset_cons
        apply cons_subset_cons
        exact (perm_insertionSort _ l).subset

/-! ## The last of equal elements -/

/-- The elements with no equal one behind them. -/
def lasts (eq : α → α → Bool) : List α → List α
  | [] => []
  | a :: l => if l.any (eq a) then lasts eq l else a :: lasts eq l

theorem lasts_subset (eq : α → α → Bool) (l : List α) : lasts eq l ⊆ l := by
  induction l with
  | nil => exact List.Subset.refl _
  | cons a l ih =>
    unfold lasts
    by_cases h : l.any (eq a) = true
    · rw [if_pos h]
      exact subset_cons_of_subset a ih
    · rw [if_neg h]
      exact cons_subset_cons a ih

theorem lasts_eq_nil {eq : α → α → Bool} {l : List α} (h : lasts eq l = []) : l = [] := by
  induction l with
  | nil => rfl
  | cons a l ih =>
    unfold lasts at h
    by_cases hany : l.any (eq a) = true
    · rw [if_pos hany] at h
      rw [ih h] at hany
      cases hany
    · rw [if_neg hany] at h
      cases h

theorem lasts_pairwise (eq : α → α → Bool) (l : List α) :
    (lasts eq l).Pairwise fun a b => eq a b = false := by
  induction l with
  | nil => exact List.Pairwise.nil
  | cons a l ih =>
    unfold lasts
    by_cases h : l.any (eq a) = true
    · rw [if_pos h]
      exact ih
    · rw [if_neg h, pairwise_cons]
      refine ⟨?_, ih⟩
      intro b hb
      rw [Bool.not_eq_true, any_eq_false] at h
      exact Bool.eq_false_iff.mpr (h b (lasts_subset eq l hb))

/-- The last of each run of equal neighbours. -/
def lastOfRuns (eq : α → α → Bool) : List α → List α
  | [] => []
  | [a] => [a]
  | a :: b :: l => if eq a b then lastOfRuns eq (b :: l) else a :: lastOfRuns eq (b :: l)

theorem lastOfRuns_eq_lasts {l : List α} (h : StrictWeakOn lt l)
    (hl : l.Pairwise fun a b => lt b a = false) :
    lastOfRuns (equiv lt) l = lasts (equiv lt) l := by
  induction l with
  | nil => rfl
  | cons a l ih =>
    cases l with
    | nil => rfl
    | cons b l =>
      have ih' := ih (h.subset (subset_cons_self a (b :: l))) (pairwise_cons.mp hl).2
      unfold lastOfRuns lasts
      by_cases hab : equiv lt a b = true
      · have hany : (b :: l).any (equiv lt a) = true := by
          simp [hab]
        rw [if_pos hab, if_pos hany, ih']
      · have hany : ¬ (b :: l).any (equiv lt a) = true := by
          intro hany
          rw [any_eq_true] at hany
          have ⟨x, hx, hax⟩ := hany
          have ha : a ∈ a :: b :: l := mem_cons_self
          have hb : b ∈ a :: b :: l := mem_cons_of_mem _ mem_cons_self
          have hbx : lt x b = false := by
            rw [mem_cons] at hx
            rcases hx with hx | hx
            · rw [hx]
              exact h.irrefl hb
            · exact (pairwise_cons.mp (pairwise_cons.mp hl).2).1 x hx
          have hle := h.trans b hb x (mem_cons_of_mem _ hx) a ha hbx (equiv_iff.1 hax).1
          have hge := (pairwise_cons.mp hl).1 b mem_cons_self
          exact hab (equiv_iff.2 ⟨hle, hge⟩)
        rw [if_neg hab, if_neg hany, ih']

theorem filter_lasts {l : List α} (h : StrictWeakOn lt l) {x : α} (hx : StrictWeakOn lt (x :: l)) :
    (lasts (equiv lt) l).filter (equiv lt x) = (l.filter (equiv lt x)).getLast?.toList := by
  induction l with
  | nil => rfl
  | cons a l ih =>
    have hxm : x ∈ x :: a :: l := mem_cons_self
    have ham : a ∈ x :: a :: l := mem_cons_of_mem _ mem_cons_self
    have hmem : ∀ y ∈ l, y ∈ x :: a :: l := fun y hy =>
      mem_cons_of_mem _ (mem_cons_of_mem _ hy)
    have ih' := ih (h.subset (subset_cons_self a l))
      (hx.subset (cons_subset_cons x (subset_cons_self a l)))
    unfold lasts
    by_cases hany : l.any (equiv lt a) = true
    · rw [if_pos hany, ih', filter_cons]
      by_cases hxa : equiv lt x a = true
      · rw [if_pos hxa]
        rw [any_eq_true] at hany
        have ⟨y, hy, hay⟩ := hany
        have hxy := hx.equiv_trans hxm ham (hmem y hy) hxa hay
        have hne : l.filter (equiv lt x) ≠ [] := ne_nil_of_mem (mem_filter.mpr ⟨hy, hxy⟩)
        rw [List.getLast?_cons_of_ne_nil hne]
      · rw [if_neg hxa]
    · rw [if_neg hany, filter_cons, filter_cons, ih']
      by_cases hxa : equiv lt x a = true
      · have hnil : l.filter (equiv lt x) = [] := by
          rw [filter_eq_nil_iff]
          intro y hy hxy
          apply hany
          rw [any_eq_true]
          exact ⟨y, hy, hx.equiv_trans ham hxm (hmem y hy) (equiv_symm hxa) hxy⟩
        simp [hxa, hnil]
      · rw [if_neg hxa, if_neg hxa]

theorem Sorts.lastOfRuns_perm {sort : (α → α → Bool) → List α → List α} (hsort : Sorts sort)
    {l : List α} (h : StrictWeakOn lt l) :
    (lastOfRuns (equiv lt) (sort lt l)).Perm (lasts (equiv lt) l) := by
  have hperm := hsort.perm lt l h
  have hs : StrictWeakOn lt (sort lt l) := h.subset hperm.subset
  rw [lastOfRuns_eq_lasts hs (hsort.sorted lt l h)]
  classical
  apply perm_iff_count.mpr
  intro x
  by_cases hx : x ∈ l
  · have hxx : equiv lt x x = true := h.equiv_refl hx
    have hcons : ∀ l' : List α, l' ⊆ l → StrictWeakOn lt (x :: l') := fun l' hl' =>
      h.subset (cons_subset.mpr ⟨hx, hl'⟩)
    rw [← count_filter hxx, filter_lasts hs (hcons _ hperm.subset), hsort.stable lt l h x hx,
      ← filter_lasts h (hcons l (List.Subset.refl l)), count_filter hxx]
  · have hx' : x ∉ sort lt l := fun hmem => hx (hperm.subset hmem)
    rw [count_eq_zero_of_not_mem fun hmem => hx (lasts_subset _ _ hmem),
      count_eq_zero_of_not_mem fun hmem => hx' (lasts_subset _ _ hmem)]

end StableSort
