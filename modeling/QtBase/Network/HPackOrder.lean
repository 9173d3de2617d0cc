import QtBase.Lib.OrderedSet
import QtBase.Network.HPackTableRun
import QtBase.Text.CompareOrder
import Mathlib.Data.List.Chain
import Mathlib.Data.List.GetD
import Mathlib.Data.Prod.Lex
import Mathlib.Order.WithBot
import Mathlib.Data.Int.ConditionallyCompleteOrder
import Mathlib.Order.ConditionallyCompleteLattice.Basic

/-! The order of header fields, and the search in the static part. -/
namespace QtBase

open List Nat

namespace HPack

/-! ## Comparing -/

/-- The difference of the lengths is an `int` where it decides. -/
def Comparable (a b : List UInt8) : Prop :=
  a <+: b ∨ b <+: a → a.length < b.length + 2 ^ 31 ∧ b.length < a.length + 2 ^ 31

namespace Comparable

variable {a b : List UInt8}

theorem refl (a : List UInt8) : Comparable a a := fun _ => by omega

theorem symm (h : Comparable a b) : Comparable b a := fun hor => (h hor.symm).symm

theorem of_short (ha : a.length < 2 ^ 31) (hb : b.length < 2 ^ 31) : Comparable a b :=
  fun _ => by omega

theorem tail {x : UInt8} (h : Comparable (x :: a) (x :: b)) : Comparable a b := by
  intro hor
  have hlength := h (hor.imp (prefix_cons_inj x).mpr (prefix_cons_inj x).mpr)
  rw [length_cons, length_cons] at hlength
  omega

end Comparable

/-- The bytes of a string as numbers. -/
def bytes (s : List UInt8) : List ℕ := s.map UInt8.toNat

theorem bytes_injective {a b : List UInt8} (h : bytes a = bytes b) : a = b :=
  map_injective_iff.mpr (fun _ _ h => UInt8.toNat_inj.mp h) h

theorem compare_nil (b : List UInt8) : compare [] b = (-(b.length : ℤ)).bmod (2 ^ 32) := by
  have hdiff : ((([] : List UInt8).length : ℕ) : ℤ) - b.length = -(b.length : ℤ) := by
    simp
  unfold compare
  dsimp only
  rw [hdiff, length_nil, Nat.zero_min, take_zero, take_zero]
  exact if_neg (not_not.mpr rfl)

theorem compare_to_nil (a : List UInt8) : compare a [] = (a.length : ℤ).bmod (2 ^ 32) := by
  have hdiff : (a.length : ℤ) - ((([] : List UInt8).length : ℕ) : ℤ) = a.length := by
    simp
  unfold compare
  dsimp only
  rw [hdiff, length_nil, Nat.min_zero, take_zero, take_zero]
  exact if_neg (not_not.mpr rfl)

theorem compare_cons_self (x : UInt8) (a b : List UInt8) :
    compare (x :: a) (x :: b) = compare a b := by
  have hdiff : ((a.length + 1 : ℕ) : ℤ) - ((b.length + 1 : ℕ) : ℤ) =
      (a.length : ℤ) - b.length := by omega
  unfold compare
  dsimp only
  rw [length_cons, length_cons, succ_min_succ, take_succ_cons,
    take_succ_cons, hdiff]
  conv_lhs => unfold lexCompare
  rw [if_neg (not_not.mpr rfl)]

theorem compare_cons_of_ne {x y : UInt8} (h : x.toNat ≠ y.toNat) (a b : List UInt8) :
    compare (x :: a) (y :: b) = (x.toNat : ℤ) - y.toNat := by
  unfold compare
  dsimp only
  rw [length_cons, length_cons, succ_min_succ, take_succ_cons,
    take_succ_cons]
  unfold lexCompare
  rw [if_pos h, if_pos (by omega)]

theorem compare_tells {a b : List UInt8} (h : Comparable a b) :
    Tells (compare a b) (bytes a) (bytes b) := by
  induction a generalizing b with
  | nil =>
    have hlength := h (.inl nil_prefix)
    rw [length_nil] at hlength
    rw [compare_nil, Int.bmod_eq_of_le (by omega) (by omega)]
    cases b with
    | nil => exact ⟨iff_of_false (by simp) (lt_irrefl _), iff_of_true (by simp) rfl⟩
    | cons y b =>
      have hpos := @length_cons _ y b
      exact ⟨iff_of_true (by omega) (nil_lt_cons _ _),
        iff_of_false (by omega) (cons_ne_nil _ _).symm⟩
  | cons x a ih =>
    cases b with
    | nil =>
      have hlength := h (.inr nil_prefix)
      rw [length_nil] at hlength
      rw [compare_to_nil, Int.bmod_eq_of_le (by omega) (by omega)]
      have hpos := @length_cons _ x a
      exact ⟨iff_of_false (by omega) (not_lt_nil _),
        iff_of_false (by omega) (cons_ne_nil _ _)⟩
    | cons y b =>
      by_cases hxy : x.toNat = y.toNat
      · obtain rfl := UInt8.toNat_inj.mp hxy
        rw [compare_cons_self]
        exact (ih h.tail).cons _
      · rw [compare_cons_of_ne hxy]
        exact Tells.of_ne hxy (by omega) (by omega)

theorem tells_then_iff {cmp : ℤ} {a b : List ℕ} (h : Tells cmp a b) (p : Bool) :
    (if cmp ≠ 0 then decide (cmp < 0) else p) = true ↔ a < b ∨ a = b ∧ p = true := by
  split_ifs with hcmp
  · rw [decide_eq_true_iff, h.lt]
    exact ⟨.inl, fun hor => hor.resolve_right fun hand => hcmp (h.eq.mpr hand.1)⟩
  · have heq := h.eq.mp (not_not.mp hcmp)
    rw [heq]
    exact ⟨fun hp => .inr ⟨rfl, hp⟩, fun hor => (hor.resolve_left (lt_irrefl b)).2⟩

namespace HeaderField

/-- Fields are ordered by name and value. -/
def key (f : HeaderField) : List ℕ ×ₗ List ℕ := toLex (bytes f.name, bytes f.value)

theorem key_injective {f g : HeaderField} (h : f.key = g.key) : f = g := by
  obtain ⟨hname, hvalue⟩ := Prod.mk.inj (toLex.injective h)
  cases f
  cases g
  congr 1
  · exact bytes_injective hname
  · exact bytes_injective hvalue

theorem key_lt_iff {f g : HeaderField} :
    f.key < g.key ↔ bytes f.name < bytes g.name ∨
      bytes f.name = bytes g.name ∧ bytes f.value < bytes g.value :=
  Prod.Lex.toLex_lt_toLex

/-- The values are compared if the names are the same. -/
def ComparableTo (f g : HeaderField) : Prop :=
  Comparable f.name g.name ∧ (f.name = g.name → Comparable f.value g.value)

theorem ComparableTo.refl (f : HeaderField) : f.ComparableTo f :=
  ⟨Comparable.refl _, fun _ => Comparable.refl _⟩

theorem ComparableTo.symm {f g : HeaderField} (h : f.ComparableTo g) : g.ComparableTo f :=
  ⟨h.1.symm, fun heq => (h.2 heq.symm).symm⟩

end HeaderField

namespace FieldLookupTable

/-! ## The static part -/

theorem staticLess_name {f g : HeaderField} (h : f.ComparableTo g) :
    staticLess false f g = true ↔ bytes f.name < bytes g.name := by
  unfold staticLess
  dsimp only
  rw [tells_then_iff (compare_tells h.1), Bool.false_and]
  exact or_iff_left fun hand => Bool.false_ne_true hand.2

theorem staticLess_key {f g : HeaderField} (h : f.ComparableTo g) :
    staticLess true f g = true ↔ f.key < g.key := by
  unfold staticLess
  dsimp only
  rw [tells_then_iff (compare_tells h.1), HeaderField.key_lt_iff, Bool.true_and, decide_eq_true_iff]
  refine or_congr_right (and_congr_right fun heq => ?_)
  exact (compare_tells (h.2 (bytes_injective heq))).lt

/-- The static part without 'accept'. -/
def orderedPart : List HeaderField :=
  staticPart.take acceptPos ++ staticPart.drop (acceptPos + 1)

/-- What is known about the static part: 'accept' stands behind the fields it is the beginning of,
the others are in order, and all of them are short. -/
theorem staticPart_facts :
    staticPart[acceptPos]? = some ⟨ascii "accept", []⟩ ∧
      orderedPart.IsChain (fun f g => staticLess true f g = true) ∧
      ∀ f ∈ orderedPart, f.name ≠ ascii "accept" ∧ f.name.length < 100 ∧ f.value.length < 100 := by
  decide +kernel

/-- A search that leaves a position out finds an equal element if there is one elsewhere. -/
theorem search_around {γ : Type} [LinearOrder γ] {less : ℕ → Bool} {rank : ℕ → γ} {x : γ}
    {hole n k : ℕ} (hless : ∀ i, i < n → i ≠ hole → (less i = true ↔ rank i < x))
    (hmono : ∀ i j, i ≤ j → j < n → i ≠ hole → j ≠ hole → rank i ≤ rank j) (hhole : hole < n)
    (hk : k < n) (hne : k ≠ hole) (hx : rank k = x) :
    ∃ r, (if lowerBound less hole 0 hole ≠ hole then lowerBound less hole 0 hole
        else lowerBound less n (hole + 1) (n - (hole + 1))) = r ∧
      r < n ∧ r ≠ hole ∧ rank r = x := by
  have hclosed : ∀ i j, i ≤ j → j < n → i ≠ hole → j ≠ hole → less j = true → less i = true := by
    intro i j hij hj hi hj' hlt
    rw [hless i (by omega) hi]
    exact lt_of_le_of_lt (hmono i j hij hj hi hj') ((hless j hj hj').mp hlt)
  have hnot : less k = false := by
    rw [← Bool.not_eq_true, hless k hk hne, hx]
    exact lt_irrefl x
  have hfound : ∀ r, r < n → r ≠ hole → r ≤ k → less r = false → rank r = x := by
    intro r hr hr' hrk hge
    rw [← Bool.not_eq_true, hless r hr hr', not_lt] at hge
    exact le_antisymm (hx ▸ hmono r k hrk hk hr' hne) hge
  obtain ⟨-, hle, hlow, hhigh⟩ := @lowerBound_spec less hole 0 hole (le_refl _)
    fun i j _ hij hj => hclosed i j hij (by omega) (by omega) (by omega)
  split_ifs with hfirst
  · refine ⟨_, rfl, by omega, hfirst,
      hfound _ (by omega) hfirst ?_ (hhigh _ (le_refl _) (by omega))⟩
    by_contra hgt
    have := hlow k (zero_le _) (by omega)
    rw [hnot] at this
    cases this
  · have hbehind : hole < k := by
      by_contra hgt
      have := hlow k (zero_le _) (by omega)
      rw [hnot] at this
      cases this
    obtain ⟨hge, hle, hlow, hhigh⟩ := @lowerBound_spec less n (hole + 1) (n - (hole + 1))
      (by omega) fun i j hi hij hj => hclosed i j hij (by omega) (by omega) (by omega)
    have hrk : lowerBound less n (hole + 1) (n - (hole + 1)) ≤ k := by
      by_contra hgt
      have := hlow k (by omega) (by omega)
      rw [hnot] at this
      cases this
    exact ⟨_, rfl, by omega, by omega,
      hfound _ (by omega) (by omega) hrk (hhigh _ (le_refl _) (by omega))⟩

/-- The field at a position of the static part. -/
def staticField (i : ℕ) : HeaderField := staticPart.getD i ⟨[], []⟩

theorem staticPart_getElem? {i : ℕ} (hi : i < 61) : staticPart[i]? = some (staticField i) := by
  have hlt : i < staticPart.length := by rwa [staticPart_length]
  unfold staticField
  rw [getD_eq_getElem _ _ hlt, getElem?_eq_getElem hlt]

theorem orderedPart_getElem? {i : ℕ} (hi : i < 61) (hne : i ≠ acceptPos) :
    orderedPart[if i < acceptPos then i else i - 1]? = some (staticField i) := by
  have hlength : (staticPart.take acceptPos).length = 18 :=
    length_take_of_le (by rw [staticPart_length]; decide)
  unfold orderedPart
  rw [← staticPart_getElem? hi, getElem?_append, hlength]
  unfold acceptPos at hne ⊢
  split_ifs with hlt hin
  · rw [getElem?_take_of_lt hlt]
  · omega
  · rw [getElem?_drop]
    congr 1
    omega

theorem staticField_mem {i : ℕ} (hi : i < 61) (hne : i ≠ acceptPos) :
    staticField i ∈ orderedPart :=
  mem_of_getElem? (orderedPart_getElem? hi hne)

theorem orderedPart_pairwise : orderedPart.Pairwise fun f g => f.key < g.key := by
  obtain ⟨-, hchain, hshort⟩ := staticPart_facts
  refine isChain_iff_pairwise.mp (hchain.imp_of_mem_imp fun f g hf hg hless => ?_)
  obtain ⟨-, hf, hf'⟩ := hshort f hf
  obtain ⟨-, hg, hg'⟩ := hshort g hg
  exact (staticLess_key ⟨Comparable.of_short (by omega) (by omega),
    fun _ => Comparable.of_short (by omega) (by omega)⟩).mp hless

theorem staticField_key_le {i j : ℕ} (hij : i ≤ j) (hj : j < 61) (hi : i ≠ acceptPos)
    (hj' : j ≠ acceptPos) : (staticField i).key ≤ (staticField j).key := by
  rcases eq_or_lt_of_le hij with rfl | hlt
  · exact le_refl _
  · obtain ⟨hi', hfi⟩ := List.getElem?_eq_some_iff.mp (orderedPart_getElem? (by omega) hi)
    obtain ⟨hj'', hfj⟩ := List.getElem?_eq_some_iff.mp (orderedPart_getElem? hj hj')
    have hlt' := pairwise_iff_getElem.mp orderedPart_pairwise _ _ hi' hj'' (by
      unfold acceptPos at hi hj' ⊢
      split_ifs <;> omega)
    rw [hfi, hfj] at hlt'
    exact hlt'.le

theorem name_le_of_key_le {f g : HeaderField} (h : f.key ≤ g.key) :
    bytes f.name ≤ bytes g.name := by
  rcases h.lt_or_eq with hlt | heq
  · rcases HeaderField.key_lt_iff.1 hlt with hname | hname
    · exact hname.le
    · exact hname.1.le
  · rw [HeaderField.key_injective heq]

theorem staticField_accept : staticField acceptPos = ⟨ascii "accept", []⟩ := by
  have haccept := staticPart_facts.1
  rw [staticPart_getElem? (by decide)] at haccept
  exact Option.some.inj haccept

theorem eq_acceptPos_of_name {i : ℕ} (hi : i < 61) (hname : (staticField i).name = ascii "accept") :
    i = acceptPos := by
  by_contra hne
  exact (staticPart_facts.2.2 _ (staticField_mem hi hne)).1 hname

theorem findInStaticPart_value {k : ℕ} (hk : k < 61)
    (h : ∀ g ∈ staticPart, g.ComparableTo (staticField k)) :
    staticPart[findInStaticPart (staticField k) true]? = some (staticField k) := by
  unfold findInStaticPart
  dsimp only
  by_cases hname : (staticField k).name = ascii "accept"
  · obtain rfl := eq_acceptPos_of_name hk hname
    rw [if_pos hname, staticField_accept]
    exact staticPart_facts.1
  · have hne : k ≠ acceptPos := fun heq => by
      rw [heq, staticField_accept] at hname
      exact hname rfl
    have hless : ∀ i, i < 61 → i ≠ acceptPos →
        (staticLess true (staticField i) (staticField k) = true ↔
          (staticField i).key < (staticField k).key) := fun i hi _ =>
      staticLess_key (h _ (mem_of_getElem? (staticPart_getElem? hi)))
    obtain ⟨r, hr, hlt, -, heq⟩ := search_around hless
      (fun i j hij hj hi hj' => staticField_key_le hij hj hi hj') (by decide) hk hne rfl
    rw [if_neg hname, staticPart_length]
    unfold staticField at hr ⊢
    rw [hr, staticPart_getElem? hlt, HeaderField.key_injective heq]
    rfl

theorem findInStaticPart_name {k : ℕ} (hk : k < 61) {f : HeaderField}
    (hf : (staticField k).name = f.name) (h : ∀ g ∈ staticPart, g.ComparableTo f) :
    ∃ g, staticPart[findInStaticPart f false]? = some g ∧ g.name = f.name := by
  unfold findInStaticPart
  dsimp only
  by_cases hname : f.name = ascii "accept"
  · rw [if_pos hname, Bool.false_and, if_neg Bool.false_ne_true]
    exact ⟨_, staticPart_facts.1, hname.symm⟩
  · have hne : k ≠ acceptPos := fun heq => by
      rw [heq, staticField_accept] at hf
      exact hname hf.symm
    have hless : ∀ i, i < 61 → i ≠ acceptPos → (staticLess false (staticField i) f = true ↔
        bytes (staticField i).name < bytes f.name) := fun i hi _ =>
      staticLess_name (h _ (mem_of_getElem? (staticPart_getElem? hi)))
    obtain ⟨r, hr, hlt, -, heq⟩ := search_around hless
      (fun i j hij hj hi hj' => name_le_of_key_le (staticField_key_le hij hj hi hj')) (by decide)
      hk hne (by rw [hf])
    rw [if_neg hname, staticPart_length]
    unfold staticField at hr
    rw [hr]
    exact ⟨_, staticPart_getElem? hlt, bytes_injective heq⟩

end FieldLookupTable

end HPack

end QtBase
