import Mathlib.Data.List.Sort
import Mathlib.Order.Defs.LinearOrder

/-! Maps kept as lists in the order of their keys. -/
namespace QtBase.Lib

open List

variable {K V : Type} [LinearOrder K]

/-- In the order of the keys, none of them twice. -/
def SortedKeys (l : List (K × V)) : Prop := l.Pairwise fun a b => a.1 < b.1

/-- The value of `key` is `v` from now on. -/
def insertKey (key : K) (v : V) : List (K × V) → List (K × V)
  | [] => [(key, v)]
  | e :: l =>
    if key < e.1 then (key, v) :: e :: l
    else if key = e.1 then (key, v) :: l
    else e :: insertKey key v l

/-- Where the first key stands that is not below `key`; at the end if there is none. -/
def lowerBoundKey (l : List (K × V)) (key : K) : ℕ := l.findIdx fun e => decide (key ≤ e.1)

theorem mem_insertKey {key : K} {v : V} {l : List (K × V)} (h : SortedKeys l) (e : K × V) :
    e ∈ insertKey key v l ↔ e = (key, v) ∨ (e ∈ l ∧ e.1 ≠ key) := by
  induction l with
  | nil => simp [insertKey]
  | cons a l ih =>
    obtain ⟨ha, hl⟩ := pairwise_cons.mp h
    unfold insertKey
    by_cases hlt : key < a.1
    · have hne : ∀ b ∈ a :: l, b.1 ≠ key := by
        intro b hb
        obtain rfl | hb := mem_cons.mp hb
        · exact ne_of_gt hlt
        · exact ne_of_gt (lt_trans hlt (ha b hb))
      rw [if_pos hlt, mem_cons]
      constructor
      · rintro (rfl | he)
        · exact .inl rfl
        · exact .inr ⟨he, hne e he⟩
      · rintro (rfl | ⟨he, _⟩)
        · exact .inl rfl
        · exact .inr he
    · rw [if_neg hlt]
      by_cases heq : key = a.1
      · rw [if_pos heq, mem_cons, mem_cons]
        have hne : ∀ b ∈ l, b.1 ≠ key := fun b hb => heq ▸ ne_of_gt (ha b hb)
        constructor
        · rintro (rfl | he)
          · exact .inl rfl
          · exact .inr ⟨.inr he, hne e he⟩
        · rintro (rfl | ⟨rfl | he, hk⟩)
          · exact .inl rfl
          · exact absurd heq.symm hk
          · exact .inr he
      · rw [if_neg heq, mem_cons, mem_cons, ih hl]
        constructor
        · rintro (rfl | rfl | ⟨he, hk⟩)
          · exact .inr ⟨.inl rfl, Ne.symm heq⟩
          · exact .inl rfl
          · exact .inr ⟨.inr he, hk⟩
        · rintro (rfl | ⟨rfl | he, hk⟩)
          · exact .inr (.inl rfl)
          · exact .inl rfl
          · exact .inr (.inr ⟨he, hk⟩)

theorem sortedKeys_insertKey {key : K} {v : V} {l : List (K × V)} (h : SortedKeys l) :
    SortedKeys (insertKey key v l) := by
  induction l with
  | nil => exact pairwise_singleton _ _
  | cons a l ih =>
    obtain ⟨ha, hl⟩ := pairwise_cons.mp h
    unfold insertKey
    by_cases hlt : key < a.1
    · rw [if_pos hlt]
      apply pairwise_cons.mpr
      constructor
      · intro b hb
        obtain rfl | hb := mem_cons.mp hb
        · exact hlt
        · exact lt_trans hlt (ha b hb)
      · exact h
    · rw [if_neg hlt]
      by_cases heq : key = a.1
      · rw [if_pos heq]
        apply pairwise_cons.mpr
        constructor
        · intro b hb
          exact lt_of_eq_of_lt heq (ha b hb)
        · exact hl
      · rw [if_neg heq]
        apply pairwise_cons.mpr
        constructor
        · intro b hb
          obtain rfl | ⟨hb, _⟩ := (mem_insertKey hl b).mp hb
          · exact lt_of_le_of_ne (not_lt.mp hlt) (Ne.symm heq)
          · exact ha b hb
        · exact ih hl

section LowerBound

variable {l : List (K × V)} {key : K}

theorem lowerBoundKey_le_length : lowerBoundKey l key ≤ l.length := findIdx_le_length

theorem lt_of_lt_lowerBoundKey {p : ℕ} {e : K × V} (hp : p < lowerBoundKey l key)
    (he : l[p]? = some e) : e.1 < key := by
  obtain ⟨hlen, rfl⟩ := List.getElem?_eq_some_iff.mp he
  have hnot := not_of_lt_findIdx hp
  simpa using hnot

theorem le_of_lowerBoundKey_le (h : SortedKeys l) {p : ℕ} {e : K × V} (hp : lowerBoundKey l key ≤ p)
    (he : l[p]? = some e) : key ≤ e.1 := by
  obtain ⟨hlen, rfl⟩ := List.getElem?_eq_some_iff.mp he
  have hfirst : key ≤ l[lowerBoundKey l key].1 := by
    have hfound := @findIdx_getElem _ (fun e : K × V => decide (key ≤ e.1)) l
      (lt_of_le_of_lt hp hlen)
    exact of_decide_eq_true hfound
  obtain hlt | heq := Nat.lt_or_eq_of_le hp
  · have hsorted := pairwise_iff_getElem.mp h _ _ (lt_of_le_of_lt hp hlen) hlen hlt
    exact le_of_lt (lt_of_le_of_lt hfirst hsorted)
  · simp only [heq] at hfirst
    exact hfirst

theorem lowerBoundKey_eq (h : SortedKeys l) {p : ℕ} (hp : p ≤ l.length)
    (hbefore : ∀ q e, q < p → l[q]? = some e → e.1 < key)
    (hat : ∀ e, l[p]? = some e → key ≤ e.1) : lowerBoundKey l key = p := by
  apply le_antisymm
  · by_contra hlt
    have hlt' := not_le.mp hlt
    have hlen : p < l.length := lt_of_lt_of_le hlt' lowerBoundKey_le_length
    have he := List.getElem?_eq_getElem hlen
    exact absurd (hat _ he) (not_le.mpr (lt_of_lt_lowerBoundKey hlt' he))
  · by_contra hlt
    have hlt' := not_le.mp hlt
    have he := List.getElem?_eq_getElem (lt_of_lt_of_le hlt' hp)
    exact absurd (le_of_lowerBoundKey_le h le_rfl he) (not_le.mpr (hbefore _ _ hlt' he))

end LowerBound

theorem SortedKeys.eq_of_mem_iff {l l' : List (K × V)} (h : SortedKeys l) (h' : SortedKeys l')
    (hmem : ∀ e, e ∈ l ↔ e ∈ l') : l = l' := by
  have hnodup : ∀ {l : List (K × V)}, SortedKeys l → l.Nodup := by
    intro l hl
    exact hl.imp fun hlt heq => absurd (congrArg Prod.fst heq) (ne_of_lt hlt)
  have hperm := (perm_ext_iff_of_nodup (hnodup h) (hnodup h')).mpr hmem
  exact hperm.eq_of_pairwise (fun a b _ _ hab hba => absurd hab (lt_asymm hba)) h h'

end QtBase.Lib
