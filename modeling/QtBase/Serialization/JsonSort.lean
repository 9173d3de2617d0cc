import QtBase.Serialization.JsonStrings
import Mathlib.Data.List.Perm.Basic

/-! The order of the keys of an object, and what sorting the members by it and keeping the last of
equal ones leaves. -/
namespace QtBase

open JsonParser Unicode QCborContainerPrivate QtCbor List Parser

/-! ## The order of the keys -/

theorem asStringView_utf16Bytes (units : List UInt16) : asStringView (utf16Bytes units) = units := by
  induction units with
  | nil => rfl
  | cons u units ih =>
    have hor : 2 ^ 8 * (u.toNat / 256) + u.toNat % 256 = 2 ^ 8 * (u.toNat / 256) ||| u.toNat % 256 :=
      Nat.two_pow_add_eq_or_of_lt (by omega) _
    have hlt := u.toNat_lt
    have hu : u.toUInt8.toUInt16 ||| (u >>> 8).toUInt8.toUInt16 <<< 8 = u := by
      apply UInt16.toNat_inj.mp
      rw [UInt16.toNat_or, UInt8.toNat_toUInt16, UInt16.toNat_toUInt8, UInt16.toNat_shiftLeft,
        UInt8.toNat_toUInt16, UInt16.toNat_toUInt8, UInt16.toNat_shiftRight]
      show u.toNat % 256 ||| (u.toNat >>> 8 % 256) <<< 8 % 2 ^ 16 = u.toNat
      rw [Nat.shiftRight_eq_div_pow, Nat.shiftLeft_eq]
      show u.toNat % 256 ||| u.toNat / 256 % 256 * 256 % 65536 = u.toNat
      rw [Nat.or_comm, show u.toNat / 256 % 256 * 256 % 65536 = 2 ^ 8 * (u.toNat / 256) by omega, ← hor]
      omega
    show (u.toUInt8.toUInt16 ||| (u >>> 8).toUInt8.toUInt16 <<< 8) ::
      asStringView (utf16Bytes units) = _
    rw [hu, ih]

namespace Json

/-- What two keys are compared by: UTF-16 if there are escape sequences in both, or else the
characters. -/
def Str.rank (utf16 : Bool) (s : Str) : List ℕ :=
  if utf16 then s.units.map UInt16.toNat else codePoints s.units

def Str.isEscaped : Str → Bool
  | plain _ => false
  | escaped _ => true

/-- The order of the keys. -/
def Str.Before (s t : Str) : Prop :=
  s.rank (s.isEscaped && t.isEscaped) < t.rank (s.isEscaped && t.isEscaped)

theorem Str.rank_injective {utf16 : Bool} {s t : Str} (h : s.rank utf16 = t.rank utf16) :
    s.units = t.units := by
  unfold rank at h
  cases utf16 with
  | true =>
    apply map_injective_iff.mpr _ h
    intro u v huv
    exact UInt16.toNat_inj.mp huv
  | false => exact codePoints_injective h

theorem Str.rank_congr {utf16 : Bool} {s t : Str} (h : s.units = t.units) :
    s.rank utf16 = t.rank utf16 := by
  unfold rank
  rw [h]

theorem Str.Before.asymm {s t : Str} (h : s.Before t) : ¬ t.Before s := by
  unfold Before at h ⊢
  rw [Bool.and_comm]
  exact not_lt_of_gt h

theorem Str.units_of_not_before {s t : Str} (h : ¬ s.Before t) (h' : ¬ t.Before s) :
    s.units = t.units := by
  unfold Before at h h'
  rw [Bool.and_comm] at h'
  exact rank_injective (le_antisymm (not_lt.mp h') (not_lt.mp h))

theorem Str.not_before_of_units {s t : Str} (h : s.units = t.units) : ¬ s.Before t := by
  unfold Before
  rw [rank_congr h]
  exact lt_irrefl _

theorem Str.cycle_iff {a b c : Str} : a.Cycle b c ↔ a.isEscaped = true ∧ b.isEscaped = true ∧
    c.isEscaped = false ∧ a.rank true < b.rank true ∧ b.rank false ≤ c.rank false ∧
    c.rank false ≤ a.rank false := by
  have hplain : ∀ cs, rank false (plain cs) = cs.map fun ch => ch.val.toNat := codePoints_utf16
  cases a with
  | plain cs => simp [Cycle, isEscaped]
  | escaped a =>
    cases b with
    | plain cs => simp [Cycle, isEscaped]
    | escaped b =>
      cases c with
      | escaped c => simp [Cycle, isEscaped]
      | plain cs =>
        rw [hplain]
        unfold Cycle isEscaped
        simp only [true_and]
        rfl

theorem Str.not_before_trans {a b c : Str} (hab : ¬ b.Before a) (hbc : ¬ c.Before b)
    (h₁ : ¬ a.Cycle b c) (h₂ : ¬ b.Cycle c a) (h₃ : ¬ c.Cycle a b) : ¬ c.Before a := by
  unfold Before at hab hbc ⊢
  rw [not_lt] at hab hbc ⊢
  rw [cycle_iff] at h₁ h₂ h₃
  -- by the formats of the three
  cases ha : a.isEscaped with
  | false =>
    cases hb : b.isEscaped with
    | false =>
      simp only [ha, hb, Bool.and_false] at hab hbc ⊢
      exact le_trans hab hbc
    | true =>
      cases hc : c.isEscaped with
      | false =>
        simp only [ha, hb, hc, Bool.and_false, Bool.false_and] at hab hbc ⊢
        exact le_trans hab hbc
      | true =>
        simp only [ha, hb, hc, Bool.and_false, Bool.and_true] at hab hbc ⊢
        by_contra hlt
        rw [not_le] at hlt
        rcases lt_or_eq_of_le hbc with hbc | hbc
        · exact h₂ ⟨hb, hc, ha, hbc, le_of_lt hlt, hab⟩
        · rw [rank_congr (rank_injective hbc)] at hab
          exact absurd hab (not_le_of_gt hlt)
  | true =>
    cases hb : b.isEscaped with
    | false =>
      cases hc : c.isEscaped with
      | false =>
        simp only [ha, hb, hc, Bool.and_false, Bool.false_and] at hab hbc ⊢
        exact le_trans hab hbc
      | true =>
        simp only [ha, hb, hc, Bool.and_false, Bool.and_true] at hab hbc ⊢
        by_contra hlt
        rw [not_le] at hlt
        exact h₃ ⟨hc, ha, hb, hlt, hab, hbc⟩
    | true =>
      cases hc : c.isEscaped with
      | false =>
        simp only [ha, hb, hc, Bool.and_true] at hab hbc ⊢
        by_contra hlt
        rw [not_le] at hlt
        rcases lt_or_eq_of_le hab with hab | hab
        · exact h₁ ⟨ha, hb, hc, hab, hbc, le_of_lt hlt⟩
        · rw [← rank_congr (rank_injective hab)] at hbc
          exact absurd hbc (not_le_of_gt hlt)
      | true =>
        simp only [ha, hb, hc, Bool.and_true] at hab hbc ⊢
        exact le_trans hab hbc

theorem Str.Cycle.not_trans {a b c : Str} (h : a.Cycle b c) :
    a.Before b ∧ ¬ c.Before b ∧ ¬ a.Before c := by
  rw [cycle_iff] at h
  have ⟨ha, hb, hc, hab, hbc, hca⟩ := h
  unfold Before
  simp only [ha, hb, hc, Bool.and_true, Bool.and_false]
  exact ⟨hab, not_lt_of_ge hbc, not_lt_of_ge hca⟩

end Json

/-! ## Members of a container -/

namespace JsonParser

open Json

theorem byteData_of_elementVal {c : QCborContainerPrivate} {e : Element} {type : CborType}
    {utf16 ascii : Bool} {b : List UInt8} (hin : Element.InData c.data e)
    (h : elementVal c.data e = .bytes type utf16 ascii b) :
    c.byteData e = some b ∧ isUtf16 e = utf16 := by
  obtain ⟨payload, etype⟩ := e
  unfold elementVal payloadVal at h
  cases payload with
  | value n => cases h
  | container d => cases h
  | byteData offset utf16' ascii' =>
    obtain ⟨b', hb'⟩ := hin offset utf16' ascii' rfl
    simp only [hb', Option.getD_some, Val.bytes.injEq] at h
    constructor
    · show byteDataAt c.data offset = some b
      rw [hb', h.2.2.2]
    · exact h.2.1

/-- The keys of the members, as the text writes them, and their values. -/
structure MemberOf (P : Val → Json → Prop) (c : QCborContainerPrivate) (m : Parser.Member)
    (x : Str × Json) : Prop where
  keyInData : Element.InData c.data m.1
  valueInData : Element.InData c.data m.2
  key : elementVal c.data m.1 = x.1.val
  value : P (elementVal c.data m.2) x.2

variable {P : Val → Json → Prop} {c : QCborContainerPrivate}

variable {m m' : Parser.Member} {x x' : Str × Json}

theorem compareKeys_tells (h : MemberOf P c m x)
    (h' : MemberOf P c m' x') : Tells (compareKeys c m m')
      (x.1.rank (x.1.isEscaped && x'.1.isEscaped)) (x'.1.rank (x.1.isEscaped && x'.1.isEscaped)) := by
  obtain ⟨s, j⟩ := x
  obtain ⟨s', j'⟩ := x'
  have hkey := h.key
  have hkey' := h'.key
  unfold compareKeys
  cases s with
  | plain cs =>
    have ⟨hb, hu⟩ := byteData_of_elementVal h.keyInData hkey
    cases s' with
    | plain ds =>
      have ⟨hb', hu'⟩ := byteData_of_elementVal h'.keyInData hkey'
      rw [hb, hb', hu, hu']
      show Tells (compareUtf8Bytes (utf8 cs) (utf8 ds)) (codePoints (utf16 cs))
        (codePoints (utf16 ds))
      rw [codePoints_utf16, codePoints_utf16]
      exact compareUtf8Bytes_tells cs ds
    | escaped units =>
      have ⟨hb', hu'⟩ := byteData_of_elementVal h'.keyInData hkey'
      rw [hb, hb', hu, hu']
      show Tells (compareUtf8 (utf8 cs) (asStringView (utf16Bytes units))) (codePoints (utf16 cs))
        (codePoints units)
      rw [asStringView_utf16Bytes, codePoints_utf16]
      exact compareUtf8_tells cs units
  | escaped units =>
    have ⟨hb, hu⟩ := byteData_of_elementVal h.keyInData hkey
    cases s' with
    | plain ds =>
      have ⟨hb', hu'⟩ := byteData_of_elementVal h'.keyInData hkey'
      rw [hb, hb', hu, hu']
      show Tells (-compareUtf8 (utf8 ds) (asStringView (utf16Bytes units))) (codePoints units)
        (codePoints (utf16 ds))
      rw [asStringView_utf16Bytes, codePoints_utf16]
      exact (compareUtf8_tells ds units).neg
    | escaped units' =>
      have ⟨hb', hu'⟩ := byteData_of_elementVal h'.keyInData hkey'
      rw [hb, hb', hu, hu']
      show Tells (compareStrings (asStringView (utf16Bytes units))
        (asStringView (utf16Bytes units'))) (units.map UInt16.toNat) (units'.map UInt16.toNat)
      rw [asStringView_utf16Bytes, asStringView_utf16Bytes]
      exact compareStrings_tells units units'

/-- The less-than that `sortContainer` sorts by. -/
def lessThan (c : QCborContainerPrivate) (a b : Parser.Member) : Bool :=
  decide (Parser.compareKeys c a b < 0)

theorem lessThan_iff (h : MemberOf P c m x)
    (h' : MemberOf P c m' x') : lessThan c m m' = true ↔ x.1.Before x'.1 := by
  unfold lessThan
  rw [decide_eq_true_iff]
  exact (compareKeys_tells h h').lt

theorem lessThan_eq_false (h : MemberOf P c m x)
    (h' : MemberOf P c m' x') : lessThan c m m' = false ↔ ¬ x.1.Before x'.1 := by
  rw [← lessThan_iff h h', Bool.not_eq_true]

theorem compareKeys_eq_zero (h : MemberOf P c m x) (h' : MemberOf P c m' x') :
    (compareKeys c m m' == 0) = StableSort.equiv (lessThan c) m m' ∧
      (compareKeys c m m' == 0) = (x.1.units == x'.1.units) := by
  have heq := (compareKeys_tells h h').eq
  have hunits : (compareKeys c m m' == 0) = (x.1.units == x'.1.units) := by
    rw [Bool.eq_iff_iff, beq_iff_eq, beq_iff_eq, heq]
    exact ⟨Str.rank_injective, fun h => Str.rank_congr h⟩
  refine ⟨?_, hunits⟩
  rw [hunits, Bool.eq_iff_iff, beq_iff_eq, StableSort.equiv_iff, lessThan_eq_false h h',
    lessThan_eq_false h' h]
  constructor
  · intro hu
    exact ⟨Str.not_before_of_units hu, Str.not_before_of_units hu.symm⟩
  · intro hb
    exact Str.units_of_not_before hb.1 hb.2

theorem forall₂_left {α β : Type} {R : α → β → Prop} {l : List α} {l' : List β}
    (h : List.Forall₂ R l l') {a : α} (ha : a ∈ l) : ∃ b ∈ l', R a b := by
  induction h with
  | nil => cases ha
  | cons hab _ ih =>
    rw [mem_cons] at ha
    rcases ha with ha | ha
    · rw [ha]
      exact ⟨_, mem_cons_self, hab⟩
    · have ⟨b, hb, hr⟩ := ih ha
      exact ⟨b, mem_cons_of_mem _ hb, hr⟩

theorem forall₂_right {α β : Type} {R : α → β → Prop} {l : List α} {l' : List β}
    (h : List.Forall₂ R l l') {b : β} (hb : b ∈ l') : ∃ a ∈ l, R a b := forall₂_left h.flip hb

variable {l : List Parser.Member} {ms : List (Str × Json)}

theorem strictWeakOn_iff (hl : List.Forall₂ (MemberOf P c) l ms) :
    StableSort.StrictWeakOn (lessThan c) l ↔ KeysOrdered ms := by
  constructor
  · intro h x hx y hy z hz hcycle
    have ⟨a, ha, hax⟩ := forall₂_right hl hx
    have ⟨b, hb, hby⟩ := forall₂_right hl hy
    have ⟨d, hd, hdz⟩ := forall₂_right hl hz
    have ⟨hxy, hzy, hxz⟩ := hcycle.not_trans
    rw [← lessThan_iff hax hby] at hxy
    rw [← lessThan_eq_false hdz hby] at hzy
    rw [← lessThan_eq_false hax hdz] at hxz
    rw [h.trans b hb d hd a ha hzy hxz] at hxy
    cases hxy
  · intro h
    constructor
    · intro a ha b hb hab
      have ⟨x, _, hax⟩ := forall₂_left hl ha
      have ⟨y, _, hby⟩ := forall₂_left hl hb
      rw [lessThan_iff hax hby] at hab
      rw [lessThan_eq_false hby hax]
      exact hab.asymm
    · intro a ha b hb d hd hba hdb
      have ⟨x, hx, hax⟩ := forall₂_left hl ha
      have ⟨y, hy, hby⟩ := forall₂_left hl hb
      have ⟨z, hz, hdz⟩ := forall₂_left hl hd
      rw [lessThan_eq_false hby hax] at hba
      rw [lessThan_eq_false hdz hby] at hdb
      rw [lessThan_eq_false hdz hax]
      exact Str.not_before_trans hba hdb (h x hx y hy z hz) (h y hy z hz x hx) (h z hz x hx y hy)

/-! ## Unique keys -/

theorem assignOnto_eq (equal : Parser.Member → Parser.Member → Bool) (m : Parser.Member)
    (l : List Parser.Member) : assignOnto equal m l = StableSort.lastOfRuns equal (m :: l) := by
  induction l generalizing m with
  | nil => rfl
  | cons m' l ih =>
    unfold assignOnto StableSort.lastOfRuns
    rw [ih]
    cases equal m m' with
    | true => rfl
    | false => rfl

theorem customAssigningUniqueLast_eq (equal : Parser.Member → Parser.Member → Bool)
    (l : List Parser.Member) :
    customAssigningUniqueLast equal l = StableSort.lastOfRuns equal l := by
  induction l with
  | nil => rfl
  | cons m l ih =>
    cases l with
    | nil => rfl
    | cons m' l =>
      unfold customAssigningUniqueLast StableSort.lastOfRuns
      rw [ih, assignOnto_eq]

theorem forall₂_lasts (hl : List.Forall₂ (MemberOf P c) l ms) : List.Forall₂ (MemberOf P c)
    (StableSort.lasts (StableSort.equiv (lessThan c)) l) (lastMembers ms) := by
  induction hl with
  | nil => exact .nil
  | cons hmx hl ih =>
    rename_i m x l ms
    have hany : l.any (StableSort.equiv (lessThan c) m) =
        ms.any (fun y => x.1.units == y.1.units) := by
      rw [Bool.eq_iff_iff, any_eq_true, any_eq_true]
      constructor
      · intro ⟨m', hm', heq⟩
        have ⟨y, hy, hmy⟩ := forall₂_left hl hm'
        rw [← (compareKeys_eq_zero hmx hmy).1, (compareKeys_eq_zero hmx hmy).2] at heq
        exact ⟨y, hy, heq⟩
      · intro ⟨y, hy, heq⟩
        have ⟨m', hm', hmy⟩ := forall₂_right hl hy
        rw [← (compareKeys_eq_zero hmx hmy).2, (compareKeys_eq_zero hmx hmy).1] at heq
        exact ⟨m', hm', heq⟩
    unfold lastMembers StableSort.lasts
    rw [hany]
    by_cases h : ms.any (fun y => x.1.units == y.1.units) = true
    · rw [if_pos h, if_pos h]
      exact ih
    · rw [if_neg h, if_neg h]
      exact .cons hmx ih

/-! ## The members of a container -/

/-- Keys as the text writes them, each with a value that has `P`. -/
inductive StoredMembers (P : Val → Json → Prop) : List Val → List (Str × Json) → Prop
  | nil : StoredMembers P [] []
  | cons {s : Str} {v : Val} {j : Json} {vs : List Val} {ms : List (Str × Json)} : P v j →
      StoredMembers P vs ms → StoredMembers P (s.val :: v :: vs) ((s, j) :: ms)

theorem StoredMembers.forall₂ {elements : List Element}
    (hin : ∀ e ∈ elements, Element.InData c.data e)
    (h : StoredMembers P (elements.map (elementVal c.data)) ms) :
    List.Forall₂ (MemberOf P c) (members elements) ms := by
  generalize hvs : elements.map (elementVal c.data) = vs at h
  induction h generalizing elements with
  | nil =>
    rw [map_eq_nil_iff] at hvs
    rw [hvs]
    exact .nil
  | cons hv _ ih =>
    rw [map_eq_cons_iff] at hvs
    have ⟨key, elements', helements, hkey, hvs'⟩ := hvs
    rw [map_eq_cons_iff] at hvs'
    have ⟨value, elements'', helements', hvalue, hvs''⟩ := hvs'
    rw [helements, helements'] at hin ⊢
    rw [← hvalue] at hv
    apply List.Forall₂.cons
    · constructor
      · exact hin key mem_cons_self
      · exact hin value (mem_cons_of_mem _ mem_cons_self)
      · exact hkey
      · exact hv
    · exact ih (fun e he => hin e (mem_cons_of_mem _ (mem_cons_of_mem _ he))) hvs''

theorem storedMembers_of_forall₂ (h : List.Forall₂ (MemberOf P c) l ms) :
    (∀ e ∈ l.flatMap fun m => [m.1, m.2], Element.InData c.data e) ∧
      StoredMembers P ((l.flatMap fun m => [m.1, m.2]).map (elementVal c.data)) ms := by
  induction h with
  | nil => exact ⟨fun e he => absurd he not_mem_nil, .nil⟩
  | @cons m x l ms hmx _ ih =>
    constructor
    · intro e he
      rw [flatMap_cons, mem_append] at he
      rcases he with he | he
      · rw [mem_cons, mem_singleton] at he
        rcases he with he | he
        · rw [he]
          exact hmx.keyInData
        · rw [he]
          exact hmx.valueInData
      · exact ih.1 e he
    · rw [flatMap_cons, map_append]
      show StoredMembers P (elementVal c.data m.1 :: elementVal c.data m.2 :: _) _
      rw [hmx.key]
      exact .cons hmx.value ih.2

theorem sortContainer_unique (stableSort : Parser.StableSort) (c : QCborContainerPrivate) :
    sortContainer stableSort c = .mk c.data ((StableSort.lastOfRuns
      (fun a b => compareKeys c a b == 0) (stableSort (lessThan c)
        (members c.elements))).flatMap fun m => [m.1, m.2]) := by
  unfold sortContainer
  simp only
  rw [customAssigningUniqueLast_eq]
  rfl

theorem lastOfRuns_congr {α : Type} {eq eq' : α → α → Bool} {l : List α}
    (h : ∀ a ∈ l, ∀ b ∈ l, eq a b = eq' a b) :
    StableSort.lastOfRuns eq l = StableSort.lastOfRuns eq' l := by
  induction l with
  | nil => rfl
  | cons a l ih =>
    have ih' := ih fun x hx y hy => h x (mem_cons_of_mem _ hx) y (mem_cons_of_mem _ hy)
    cases l with
    | nil => rfl
    | cons b l =>
      unfold StableSort.lastOfRuns
      rw [ih', h a mem_cons_self b (mem_cons_of_mem _ mem_cons_self)]

theorem sortContainer_ok {stableSort : Parser.StableSort} (hsort : StableSort.Sorts stableSort)
    (hrec : c.HasRecords) (h : StoredMembers P c.vals ms) (hordered : KeysOrdered ms) :
    ∃ kept, kept.Perm (lastMembers ms) ∧ (sortContainer stableSort c).HasRecords ∧
      StoredMembers P (sortContainer stableSort c).vals kept := by
  rw [vals_eq_map] at h
  have hl := h.forall₂ hrec
  have hweak := (strictWeakOn_iff hl).mpr hordered
  have hperm := hsort.perm _ _ hweak
  have hcongr : StableSort.lastOfRuns (fun a b => compareKeys c a b == 0)
      (stableSort (lessThan c) (members c.elements)) =
      StableSort.lastOfRuns (StableSort.equiv (lessThan c))
        (stableSort (lessThan c) (members c.elements)) := by
    apply lastOfRuns_congr
    intro a ha b hb
    have ⟨x, _, hax⟩ := forall₂_left hl (hperm.subset ha)
    have ⟨y, _, hby⟩ := forall₂_left hl (hperm.subset hb)
    exact (compareKeys_eq_zero hax hby).1
  have ⟨kept, hforall, hkept⟩ := perm_comp_forall₂ (hsort.lastOfRuns_perm hweak)
    (forall₂_lasts hl)
  have ⟨hin, hstored⟩ := storedMembers_of_forall₂ hforall
  refine ⟨kept, hkept, ?_⟩
  rw [sortContainer_unique, hcongr]
  constructor
  · exact hin
  · rw [vals_eq_map]
    exact hstored

end JsonParser

end QtBase
