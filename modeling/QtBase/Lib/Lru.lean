import Mathlib.Algebra.BigOperators.Group.List.Basic
import Mathlib.Algebra.Order.Ring.Int
import Mathlib.Data.List.Nodup
import Mathlib.Tactic.Common

/-! Lists of entries with keys and costs, the most recently used one first. -/
namespace QtBase.Lib.Lru

open List

variable {E K : Type} [DecidableEq K] (key : E → K) (cost : E → ℤ)

def total (l : List E) : ℤ := (l.map cost).sum

/-- The entry of a key. -/
def lookup (k : K) (l : List E) : Option E := l.find? fun e => decide (key e = k)

/-- The entry of a key is taken out. -/
def without (k : K) (l : List E) : List E := l.filter fun e => decide (key e ≠ k)

/-- The entry of a key is used. -/
def touch (k : K) (l : List E) : List E :=
  match lookup key k l with
  | some e => e :: without key k l
  | none => l

/-- The first entries are dropped until the others cost at most `m`. -/
def dropUntil (m : ℤ) : List E → List E
  | [] => []
  | e :: l => if total cost (e :: l) > m then dropUntil m l else e :: l

/-- The least recently used entries are dropped until the others cost at most `m`. -/
def evict (m : ℤ) (l : List E) : List E := (dropUntil cost m l.reverse).reverse

/-- The entry of a key is replaced where it is. -/
def replace (k : K) (new : E) (l : List E) : List E := l.map fun e => if key e = k then new else e

variable {key cost} {k : K} {e : E} {l : List E} {m : ℤ}

section Cost

omit [DecidableEq K]

theorem total_cons : total cost (e :: l) = cost e + total cost l := by
  unfold total
  rw [map_cons, sum_cons]

theorem total_reverse : total cost l.reverse = total cost l := by
  unfold total
  rw [map_reverse]
  exact (reverse_perm _).sum_eq

theorem evict_append : evict cost m (l ++ [e]) =
    if total cost (l ++ [e]) > m then evict cost m l else l ++ [e] := by
  unfold evict
  rw [← total_reverse, reverse_append]
  show (dropUntil cost m (e :: l.reverse)).reverse = if total cost (e :: l.reverse) > m then _ else _
  rw [dropUntil]
  split
  · rfl
  · rw [reverse_cons, reverse_reverse]

theorem total_evict_le (h : 0 ≤ m) : total cost (evict cost m l) ≤ m := by
  unfold evict
  rw [total_reverse]
  induction l.reverse with
  | nil => exact h
  | cons e l ih =>
    unfold dropUntil
    split
    · exact ih
    · next hle => exact Int.not_lt.mp hle

theorem evict_isPrefix : evict cost m l <+: l := by
  have hsuffix : dropUntil cost m l.reverse <:+ l.reverse := by
    induction l.reverse with
    | nil => exact suffix_rfl
    | cons e l ih =>
      unfold dropUntil
      split
      · exact ih.trans (suffix_cons e l)
      · exact suffix_rfl
  have hleading := reverse_prefix.mpr hsuffix
  rw [reverse_reverse] at hleading
  exact hleading

end Cost

theorem mem_without {a : E} : a ∈ without key k l ↔ a ∈ l ∧ key a ≠ k := by
  unfold without
  rw [mem_filter, decide_eq_true_iff]

theorem without_cons_of_eq (h : key e = k) : without key k (e :: l) = without key k l := by
  unfold without
  exact filter_cons_of_neg (by simp [h])

theorem without_cons_of_ne (h : key e ≠ k) :
    without key k (e :: l) = e :: without key k l := by
  unfold without
  exact filter_cons_of_pos (decide_eq_true h)

theorem without_of_notMem (h : k ∉ l.map key) : without key k l = l := by
  apply filter_eq_self.mpr
  intro a ha
  apply decide_eq_true
  rintro rfl
  exact h (mem_map_of_mem ha)

theorem map_without (h : (l.map key).Nodup) :
    (without key k l).map key = (l.map key).erase k := by
  rw [List.Nodup.erase_eq_filter h, filter_map]
  congr 1
  apply filter_congr
  intro a _
  by_cases hk : key a = k
  · simp [hk]
  · simp [hk]

theorem total_without (h : (l.map key).Nodup) (he : e ∈ l) :
    total cost (without key (key e) l) = total cost l - cost e := by
  induction l with
  | nil => cases he
  | cons a l ih =>
    rw [map_cons] at h
    obtain ⟨ha, hl⟩ := nodup_cons.mp h
    obtain rfl | hmem := mem_cons.mp he
    · rw [without_cons_of_eq rfl, without_of_notMem ha, total_cons]
      omega
    · have hne : key a ≠ key e := by
        intro heq
        rw [heq] at ha
        exact ha (mem_map_of_mem hmem)
      rw [without_cons_of_ne hne, total_cons, total_cons, ih hl hmem]
      omega

theorem total_without_le (h : ∀ e ∈ l, 0 ≤ cost e) :
    total cost (without key k l) ≤ total cost l := by
  induction l with
  | nil => exact Int.le_refl 0
  | cons a l ih =>
    have hl := ih fun e he => h e (mem_cons_of_mem _ he)
    have ha := h a mem_cons_self
    by_cases hk : key a = k
    · rw [without_cons_of_eq hk, total_cons]
      omega
    · rw [without_cons_of_ne hk, total_cons, total_cons]
      omega

theorem without_append_self (h : ((l ++ [e]).map key).Nodup) :
    without key (key e) (l ++ [e]) = l := by
  rw [map_append, map_singleton] at h
  have hnot : key e ∉ l.map key := by
    intro hmem
    exact (nodup_append.mp h).2.2 _ hmem _ (mem_singleton_self _) rfl
  have hl := without_of_notMem hnot
  unfold without at hl ⊢
  rw [filter_append, hl, filter_cons_of_neg (by simp), filter_nil, append_nil]

theorem lookup_eq_none : lookup key k l = none ↔ k ∉ l.map key := by
  unfold lookup
  rw [List.find?_eq_none]
  constructor
  · intro h hmem
    obtain ⟨a, ha, rfl⟩ := mem_map.mp hmem
    exact h a ha (decide_eq_true rfl)
  · intro h a ha hk
    exact h ((of_decide_eq_true hk) ▸ mem_map_of_mem ha)

theorem mem_of_lookup (h : lookup key k l = some e) : e ∈ l ∧ key e = k := by
  have hk := @List.find?_some _ (fun e => decide (key e = k)) e l h
  exact ⟨mem_of_find?_eq_some h, of_decide_eq_true hk⟩

theorem lookup_eq_some (h : (l.map key).Nodup) (he : e ∈ l) : lookup key (key e) l = some e := by
  cases hfind : lookup key (key e) l with
  | none => exact absurd (mem_map_of_mem he) (lookup_eq_none.1 hfind)
  | some a =>
    obtain ⟨ha, hk⟩ := mem_of_lookup hfind
    rw [inj_on_of_nodup_map h ha he hk]

theorem map_replace {new : E} (hnew : key new = k) :
    (replace key k new l).map key = l.map key := by
  unfold replace
  rw [map_map]
  apply map_congr_left
  intro a _
  show key (if key a = k then new else a) = key a
  split
  · next hk => exact hnew.trans hk.symm
  · rfl

theorem without_replace {new : E} (hnew : key new = k) :
    without key k (replace key k new l) = without key k l := by
  induction l with
  | nil => rfl
  | cons a l ih =>
    change without key k ((if key a = k then new else a) :: replace key k new l) = _
    by_cases hk : key a = k
    · rw [if_pos hk, without_cons_of_eq hnew, ih, without_cons_of_eq hk]
    · rw [if_neg hk, without_cons_of_ne hk, ih, without_cons_of_ne hk]

theorem lookup_replace {new : E} (hnew : key new = k) (h : (l.map key).Nodup) (hk : k ∈ l.map key) :
    lookup key k (replace key k new l) = some new := by
  obtain ⟨a, ha, rfl⟩ := mem_map.mp hk
  have hmem : new ∈ replace key (key a) new l := mem_map.mpr ⟨a, ha, if_pos rfl⟩
  have hnodup : ((replace key (key a) new l).map key).Nodup := by
    rw [map_replace hnew]
    exact h
  have hfind := lookup_eq_some hnodup hmem
  rw [hnew] at hfind
  exact hfind

section Touch

variable (h : (l.map key).Nodup)
include h

theorem mem_touch {a : E} : a ∈ touch key k l ↔ a ∈ l := by
  unfold touch
  cases hfind : lookup key k l with
  | none => exact Iff.rfl
  | some e =>
    obtain ⟨he, rfl⟩ := mem_of_lookup hfind
    show a ∈ e :: without key (key e) l ↔ a ∈ l
    rw [mem_cons, mem_without]
    constructor
    · rintro (rfl | ⟨ha, _⟩)
      · exact he
      · exact ha
    · intro ha
      by_cases hak : key a = key e
      · exact .inl (inj_on_of_nodup_map h ha he hak)
      · exact .inr ⟨ha, hak⟩

theorem total_touch : total cost (touch key k l) = total cost l := by
  unfold touch
  cases hfind : lookup key k l with
  | none => rfl
  | some e =>
    obtain ⟨he, rfl⟩ := mem_of_lookup hfind
    show total cost (e :: without key (key e) l) = _
    rw [total_cons, total_without h he]
    omega

end Touch

end QtBase.Lib.Lru
