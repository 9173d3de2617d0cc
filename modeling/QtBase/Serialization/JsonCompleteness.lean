import QtBase.Serialization.JsonComplete
import Mathlib.Data.List.Pairwise

/-! A text of the grammar is parsed to the value it denotes exactly if no object in it has keys in a
cycle. `std::stable_sort` promises nothing for keys without an order. -/
namespace QtBase

open JsonParser Json Unicode QCborContainerPrivate List

/-! ## Strings -/

theorem utf8_injective {cs ds : List Char} (h : utf8 cs = utf8 ds) : utf16 cs = utf16 ds := by
  have hself := (compareUtf8Bytes_tells cs cs).eq.mpr rfl
  have hpoints : cs.map (fun c => c.val.toNat) = ds.map fun c => c.val.toNat := by
    apply (compareUtf8Bytes_tells cs ds).eq.mp
    rw [← h]
    exact hself
  apply codePoints_injective
  rw [codePoints_utf16, codePoints_utf16, hpoints]

/-- A value is one string at most. -/
theorem Val.IsString.unique {v : Val} {u u' : List UInt16} (h : v.IsString u) (h' : v.IsString u') :
    u = u' := by
  cases h with
  | utf16 units =>
    generalize hb : utf16Bytes u = b at h'
    cases h' with
    | utf16 units' =>
      rw [← asStringView_utf16Bytes u, hb, asStringView_utf16Bytes]
  | utf8 cs ascii hascii =>
    generalize hb : Unicode.utf8 cs = b at h'
    cases h' with
    | utf8 ds ascii' _ => exact utf8_injective hb

theorem Val.Contains.unique {type : CborType} {v : Val} {vs vs' : List Val}
    (h : v.Contains type vs) (h' : v.Contains type vs') : vs = vs' := by
  cases h with
  | container vs =>
    cases h' with
    | container _ => rfl
  | none =>
    cases h' with
    | none => rfl

/-! ## Members that count -/

namespace Json

variable {ms : List (Str × Json)}

theorem lastMembers_unique {m m' : Str × Json} (hm : m ∈ lastMembers ms) (hm' : m' ∈ lastMembers ms)
    (h : m.1.units = m'.1.units) : m = m' := by
  have hpairwise := StableSort.lasts_pairwise (fun a b : Str × Json => a.1.units == b.1.units) ms
  by_contra hne
  have hsymm : Std.Symm fun a b : Str × Json => (a.1.units == b.1.units) = false := by
    constructor
    intro a b hab
    rw [beq_eq_false_iff_ne] at hab ⊢
    exact hab.symm
  have hdistinct := hpairwise.forall hm hm' hne
  rw [beq_eq_false_iff_ne] at hdistinct
  exact hdistinct h

theorem orderedMembers_iff : OrderedMembers ms ↔ ∀ m ∈ lastMembers ms, m.2.Ordered := by
  induction ms with
  | nil =>
    unfold OrderedMembers
    exact ⟨fun _ m hm => absurd hm not_mem_nil, fun _ => trivial⟩
  | cons m ms ih =>
    obtain ⟨s, j⟩ := m
    unfold OrderedMembers lastMembers StableSort.lasts
    rw [ih]
    by_cases hany : ms.any (fun b => s.units == b.1.units) = true
    · rw [if_pos hany]
      rw [any_eq_true] at hany
      obtain ⟨m, hm, heq⟩ := hany
      rw [beq_iff_eq] at heq
      constructor
      · exact And.right
      · intro h
        exact ⟨.inl ⟨m, hm, heq⟩, h⟩
    · rw [if_neg hany]
      constructor
      · rintro ⟨hj, hms⟩ m hm
        rw [mem_cons] at hm
        rcases hm with hm | hm
        · rcases hj with ⟨m', hm', heq⟩ | hj
          · exfalso
            apply hany
            rw [any_eq_true]
            exact ⟨m', hm', beq_iff_eq.mpr heq⟩
          · simp [hm, hj]
        · exact hms m hm
      · intro h
        exact ⟨.inr (h _ mem_cons_self), fun m hm => h m (mem_cons_of_mem _ hm)⟩

end Json

namespace JsonParser

/-! ## Texts without a cycle -/

theorem keeps_of_sorts {stableSort : Parser.StableSort} (hsort : StableSort.Sorts stableSort) :
    Keeps stableSort (fun ms kept => kept.Perm (lastMembers ms)) fun ms => ¬ KeysOrdered ms where
  empty := .nil
  sorted P c ms hrec h := by
    by_cases hordered : KeysOrdered ms
    · have ⟨kept, hkept, hrec', hstored⟩ := sortContainer_ok hsort hrec h hordered
      exact .inr ⟨hrec', kept, hkept, hstored⟩
    · exact .inl hordered

mutual

theorem represents_of_parsed {v : Val} {j : Json}
    (h : Parsed (fun ms kept => kept.Perm (lastMembers ms)) (fun ms => ¬ KeysOrdered ms) v j)
    (hj : j.Ordered) : v.Represents j :=
  match h with
  | .null => .null
  | .true => .true
  | .false => .false
  | .number n => .number n
  | .double bits => .double bits
  | .string s => .string s.isString_val
  | .array hcontains hvs => .array hcontains (representsElements_of_parsed hvs hj)
  | .object hcontains hkept hvs => .object hcontains hkept (representsMembers_of_parsed hvs
      fun m hm => orderedMembers_iff.1 hj.2 m (hkept.subset hm))
  | .stray hstray => absurd hj.1 hstray

theorem representsElements_of_parsed {vs : List Val} {js : List Json}
    (h : ParsedElements (fun ms kept => kept.Perm (lastMembers ms)) (fun ms => ¬ KeysOrdered ms) vs js)
    (hj : OrderedElements js) : Val.RepresentsElements vs js :=
  match h with
  | .nil => .nil
  | .cons hv hvs => .cons (represents_of_parsed hv hj.1) (representsElements_of_parsed hvs hj.2)

theorem representsMembers_of_parsed {vs : List Val} {ms : List (Str × Json)}
    (h : ParsedMembers (fun ms kept => kept.Perm (lastMembers ms)) (fun ms => ¬ KeysOrdered ms) vs ms)
    (hj : ∀ m ∈ ms, m.2.Ordered) : Val.RepresentsMembers vs ms :=
  match h with
  | .nil => .nil
  | .cons hv hvs => .cons (Str.isString_val _) (represents_of_parsed hv (hj _ mem_cons_self))
      (representsMembers_of_parsed hvs fun m hm => hj m (mem_cons_of_mem _ hm))

end

/-! ## Texts with a cycle -/

open Classical in
/-- A stable sorting function that drops what has no order. -/
noncomputable def sortOrDrop (lt : Parser.Member → Parser.Member → Bool)
    (l : List Parser.Member) : List Parser.Member :=
  if StableSort.StrictWeakOn lt l then StableSort.insertionSort lt l else []

theorem sortOrDrop_sorts : StableSort.Sorts sortOrDrop where
  perm lt l h := by
    unfold sortOrDrop
    rw [if_pos h]
    exact StableSort.insertionSort_sorts.perm lt l h
  sorted lt l h := by
    unfold sortOrDrop
    rw [if_pos h]
    exact StableSort.insertionSort_sorts.sorted lt l h
  stable lt l h := by
    unfold sortOrDrop
    rw [if_pos h]
    exact StableSort.insertionSort_sorts.stable lt l h

/-- All members are dropped if there is a cycle. -/
def KeepsOrDrops (ms kept : List (Str × Json)) : Prop :=
  KeysOrdered ms ∧ kept.Perm (lastMembers ms) ∨ ¬ KeysOrdered ms ∧ kept = []

theorem keeps_sortOrDrop : Keeps sortOrDrop KeepsOrDrops fun _ => False where
  empty := .inl ⟨fun a ha => absurd ha not_mem_nil, .nil⟩
  sorted P c ms hrec h := by
    right
    by_cases hordered : KeysOrdered ms
    · have ⟨kept, hkept, hrec', hstored⟩ := sortContainer_ok sortOrDrop_sorts hrec h hordered
      exact ⟨hrec', kept, .inl ⟨hordered, hkept⟩, hstored⟩
    · have hl := h
      rw [vals_eq_map] at hl
      have hweak := (strictWeakOn_iff (hl.forall₂ hrec)).not.mpr hordered
      have hsorted : sortOrDrop (lessThan c) (Parser.members c.elements) = [] := if_neg hweak
      rw [sortContainer_unique, hsorted]
      exact ⟨fun e he => absurd he not_mem_nil, [], .inr ⟨hordered, rfl⟩, .nil⟩

theorem lastMembers_ne_nil {ms : List (Str × Json)} (h : ¬ KeysOrdered ms) : lastMembers ms ≠ [] := by
  intro hnil
  apply h
  rw [StableSort.lasts_eq_nil hnil]
  exact fun a ha => absurd ha not_mem_nil

mutual

theorem ordered_of_represents {v : Val} {j : Json} (h : Parsed KeepsOrDrops (fun _ => False) v j)
    (hv : v.Represents j) : j.Ordered :=
  match h, hv with
  | .null, _ => trivial
  | .true, _ => trivial
  | .false, _ => trivial
  | .number _, _ => trivial
  | .double _, _ => trivial
  | .string _, _ => trivial
  | .array hcontains hvs, .array hcontains' hvs' =>
    orderedElements_of_represents hvs (hcontains.unique hcontains' ▸ hvs')
  | .object hcontains hkept hvs, .object hcontains' hkept' hvs' => by
    rw [← hcontains.unique hcontains'] at hvs'
    rcases hkept with ⟨hordered, hkept⟩ | ⟨hordered, hkept⟩
    · have hmembers := orderedMembers_of_represents hvs hvs' (fun m hm => hkept.subset hm)
        (fun m hm => hkept'.subset hm)
      exact ⟨hordered, orderedMembers_iff.2 fun m hm => hmembers m (hkept.symm.subset hm)⟩
    · rw [hkept] at hvs
      cases hvs
      cases hvs'
      exact absurd (nil_perm.mp hkept') (lastMembers_ne_nil hordered)

theorem orderedElements_of_represents {vs : List Val} {js : List Json}
    (h : ParsedElements KeepsOrDrops (fun _ => False) vs js) (hvs : Val.RepresentsElements vs js) :
    OrderedElements js :=
  match h, hvs with
  | .nil, _ => trivial
  | .cons hv hvs, .cons hv' hvs' =>
    ⟨ordered_of_represents hv hv', orderedElements_of_represents hvs hvs'⟩

theorem orderedMembers_of_represents {vs : List Val} {ms kept kept' : List (Str × Json)}
    (h : ParsedMembers KeepsOrDrops (fun _ => False) vs kept)
    (hvs : Val.RepresentsMembers vs kept') (hsub : ∀ m ∈ kept, m ∈ lastMembers ms)
    (hsub' : ∀ m ∈ kept', m ∈ lastMembers ms) : ∀ m ∈ kept, m.2.Ordered :=
  match h, hvs with
  | .nil, _ => fun m hm => absurd hm not_mem_nil
  | .cons hv hvs, .cons (j := j) hk hv' hvs' => by
    have hunits := (Str.isString_val _).unique hk
    have hm := lastMembers_unique (hsub _ mem_cons_self) (hsub' _ mem_cons_self) hunits
    rw [Prod.mk.injEq] at hm
    intro m hmem
    rw [mem_cons] at hmem
    rcases hmem with hmem | hmem
    · rw [hmem]
      rw [← hm.2] at hv'
      exact ordered_of_represents hv hv'
    · exact orderedMembers_of_represents hvs hvs' (fun m hm => hsub m (mem_cons_of_mem _ hm))
        (fun m hm => hsub' m (mem_cons_of_mem _ hm)) m hmem

end

/-- A text is parsed to the value it denotes exactly if no object that counts has keys in a cycle. -/
theorem parse_represents_iff {decimal : Decimal} (hdecimal : decimal.ReadsIntegers)
    {text : List UInt8} {j : Json} (h : DocumentText decimal text j) :
    (∀ stableSort, StableSort.Sorts stableSort →
      ∃ v, parse text decimal stableSort nestingLimit = .ok (v, ⟨0, .noError⟩) ∧
        v.val.Represents j) ↔ j.Ordered := by
  constructor
  · intro hall
    have ⟨v, hv, hparsed⟩ := parse_ok hdecimal keeps_sortOrDrop h
    have ⟨v', hv', hrepresents⟩ := hall sortOrDrop sortOrDrop_sorts
    rw [hv, Except.ok.injEq, Prod.mk.injEq] at hv'
    rw [← hv'.1] at hrepresents
    exact ordered_of_represents hparsed hrepresents
  · intro hordered stableSort hsort
    have ⟨v, hv, hparsed⟩ := parse_ok hdecimal (keeps_of_sorts hsort) h
    exact ⟨v, hv, represents_of_parsed hparsed hordered⟩

/-! ## Two texts -/

/-- A conversion for numbers of one digit. -/
def digitDecimal : Decimal where
  toLongLong
    | [c] => if isAsciiDigit c then some (Int64.ofNat (c.toNat - 0x30)) else none
    | _ => none
  toDouble _ := none
  convertDoubleTo _ := none

theorem digitDecimal_readsIntegers : digitDecimal.ReadsIntegers := by
  intro t ht
  cases t with
  | nil => rfl
  | cons c t =>
    cases t with
    | nil =>
      have hc : isAsciiDigit c = false := by
        rcases ht with ht | ht | ht <;>
        · rw [mem_singleton] at ht
          rw [← ht]
          rfl
      show (if isAsciiDigit c then some _ else none) = none
      rw [hc]
      rfl
    | cons _ _ => rfl

theorem numberText_digit {c : UInt8} (hc : isAsciiDigit c = true) (hne : c ≠ 0x30) :
    NumberText [c] :=
  @NumberText.mk [] [c] [] [] (.inl rfl) (.digits hc hne fun _ hd => absurd hd not_mem_nil)
    .none .none

/-- `{"a":1, "\u0061":[]}` -/
def twiceText : List UInt8 :=
  [0x7b, 0x22, 0x61, 0x22, 0x3a, 0x31, 0x2c, 0x20, 0x22, 0x5c, 0x75, 0x30, 0x30, 0x36, 0x31, 0x22,
    0x3a, 0x5b, 0x5d, 0x7d]

def twice : Json := .object [(.plain ['a'], .number 1), (.escaped [0x61], .array [])]

theorem ws_space : Ws [0x20] := by
  intro c hc
  rw [mem_singleton] at hc
  rw [hc]
  rfl

theorem twiceText_document : DocumentText digitDecimal twiceText twice := by
  have hone : ValueText digitDecimal 1023 [0x31] (.number 1) :=
    .number (numberText_digit rfl (by decide)) rfl
  have hplain : StringText [0x22, 0x61, 0x22] (.plain ['a']) := by
    apply @StringText.plain ['a']
    intro c hc
    rw [mem_singleton] at hc
    rw [hc]
    unfold Unescaped
    decide
  have hescaped : StringText [0x22, 0x5c, 0x75, 0x30, 0x30, 0x36, 0x31, 0x22] (.escaped [0x61]) := by
    apply @StringText.escaped [0x5c, 0x75, 0x30, 0x30, 0x36, 0x31]
    · exact .cons (.unicode (w := 0) (x := 0) (y := 6) (z := 1) rfl rfl rfl rfl) .nil
    · exact mem_cons_self
  have hmembers : MembersText digitDecimal 1023 [0x22, 0x61, 0x22, 0x3a, 0x31, 0x2c, 0x20, 0x22, 0x5c,
      0x75, 0x30, 0x30, 0x36, 0x31, 0x22, 0x3a, 0x5b, 0x5d]
      [(.plain ['a'], .number 1), (.escaped [0x61], .array [])] :=
    .cons ws_nil hplain ws_nil ws_nil hone ws_nil
      (.one ws_space hescaped ws_nil ws_nil (.emptyArray ws_nil) ws_nil)
  exact .object ws_nil (.object hmembers) ws_nil

theorem twice_ordered : twice.Ordered := by
  constructor
  · intro a ha b hb c hc
    simp only [mem_cons, not_mem_nil, or_false] at ha hb hc
    rcases ha with ha | ha <;> rcases hb with hb | hb <;> rcases hc with hc | hc <;>
      rw [ha, hb, hc] <;> simp [Str.Cycle]
  · exact ⟨.inr trivial, .inr trivial, trivial⟩

/-- Two spellings of a key are one key, and the last value is kept. -/
theorem parse_represents_twice : digitDecimal.ReadsIntegers ∧
    DocumentText digitDecimal twiceText twice ∧ twice.Ordered ∧
    ∀ stableSort, StableSort.Sorts stableSort →
      ∃ v, parse twiceText digitDecimal stableSort nestingLimit = .ok (v, ⟨0, .noError⟩) ∧
        v.val.Represents twice :=
  ⟨digitDecimal_readsIntegers, twiceText_document, twice_ordered,
    (parse_represents_iff digitDecimal_readsIntegers twiceText_document).mpr twice_ordered⟩

/-- `{"\ue000":1,"X":2,"\ud800\udc00":3,"\ue000":4}` with U+F000 for X. -/
def cyclicText : List UInt8 :=
  [0x7b, 0x22, 0x5c, 0x75, 0x65, 0x30, 0x30, 0x30, 0x22, 0x3a, 0x31, 0x2c, 0x22, 0xef, 0x80, 0x80,
    0x22, 0x3a, 0x32, 0x2c, 0x22, 0x5c, 0x75, 0x64, 0x38, 0x30, 0x30, 0x5c, 0x75, 0x64, 0x63, 0x30,
    0x30, 0x22, 0x3a, 0x33, 0x2c, 0x22, 0x5c, 0x75, 0x65, 0x30, 0x30, 0x30, 0x22, 0x3a, 0x34, 0x7d]

def cyclic : Json :=
  .object [(.escaped [0xe000], .number 1), (.plain ['\uf000'], .number 2),
    (.escaped [0xd800, 0xdc00], .number 3), (.escaped [0xe000], .number 4)]

theorem cyclicText_document : DocumentText digitDecimal cyclicText cyclic := by
  have hdigit : ∀ c : UInt8, isAsciiDigit c = true → c ≠ 0x30 →
      ValueText digitDecimal 1023 [c] (.number (Int64.ofNat (c.toNat - 0x30))) := by
    intro c hc hne
    apply ValueText.number (numberText_digit hc hne)
    have hlong : digitDecimal.toLongLong [c] = some (Int64.ofNat (c.toNat - 0x30)) := by
      show (if isAsciiDigit c then _ else _) = _
      rw [hc]
      rfl
    unfold ofNumber
    rw [hlong]
  have hfirst : StringText [0x22, 0x5c, 0x75, 0x65, 0x30, 0x30, 0x30, 0x22] (.escaped [0xe000]) := by
    apply @StringText.escaped [0x5c, 0x75, 0x65, 0x30, 0x30, 0x30]
    · exact .cons (.unicode (w := 14) (x := 0) (y := 0) (z := 0) rfl rfl rfl rfl) .nil
    · exact mem_cons_self
  have hplain : StringText [0x22, 0xef, 0x80, 0x80, 0x22] (.plain ['\uf000']) := by
    apply @StringText.plain ['\uf000']
    intro c hc
    rw [mem_singleton] at hc
    rw [hc]
    unfold Unescaped
    decide
  have hpair : StringText [0x22, 0x5c, 0x75, 0x64, 0x38, 0x30, 0x30, 0x5c, 0x75, 0x64, 0x63, 0x30, 0x30,
      0x22] (.escaped [0xd800, 0xdc00]) := by
    apply @StringText.escaped [0x5c, 0x75, 0x64, 0x38, 0x30, 0x30, 0x5c, 0x75, 0x64, 0x63, 0x30, 0x30]
    · exact .cons (.unicode (w := 13) (x := 8) (y := 0) (z := 0) rfl rfl rfl rfl)
        (.cons (.unicode (w := 13) (x := 12) (y := 0) (z := 0) rfl rfl rfl rfl) .nil)
    · exact mem_cons_self
  have hmembers : MembersText digitDecimal 1023 [0x22, 0x5c, 0x75, 0x65, 0x30, 0x30, 0x30, 0x22, 0x3a,
      0x31, 0x2c, 0x22, 0xef, 0x80, 0x80, 0x22, 0x3a, 0x32, 0x2c, 0x22, 0x5c, 0x75, 0x64, 0x38, 0x30,
      0x30, 0x5c, 0x75, 0x64, 0x63, 0x30, 0x30, 0x22, 0x3a, 0x33, 0x2c, 0x22, 0x5c, 0x75, 0x65, 0x30,
      0x30, 0x30, 0x22, 0x3a, 0x34]
      [(.escaped [0xe000], .number 1), (.plain ['\uf000'], .number 2),
        (.escaped [0xd800, 0xdc00], .number 3), (.escaped [0xe000], .number 4)] :=
    .cons ws_nil hfirst ws_nil ws_nil (hdigit 0x31 rfl (by decide)) ws_nil
      (.cons ws_nil hplain ws_nil ws_nil (hdigit 0x32 rfl (by decide)) ws_nil
        (.cons ws_nil hpair ws_nil ws_nil (hdigit 0x33 rfl (by decide)) ws_nil
          (.one ws_nil hfirst ws_nil ws_nil (hdigit 0x34 rfl (by decide)) ws_nil)))
  exact .object ws_nil (.object hmembers) ws_nil

theorem length_of_representsMembers {vs : List Val} {ms : List (Str × Json)}
    (h : Val.RepresentsMembers vs ms) : vs.length = 2 * ms.length :=
  match h with
  | .nil => rfl
  | .cons _ _ hvs => by
    rw [length_cons, length_cons, length_cons, length_of_representsMembers hvs]
    omega

/-- With sorting by insertion, both values of a key are kept. -/
theorem parse_represents_cyclic : digitDecimal.ReadsIntegers ∧
    DocumentText digitDecimal cyclicText cyclic ∧
    StableSort.Sorts (StableSort.insertionSort (α := Parser.Member)) ∧
    ¬ ∃ v, parse cyclicText digitDecimal StableSort.insertionSort nestingLimit =
      .ok (v, ⟨0, .noError⟩) ∧ v.val.Represents cyclic := by
  refine ⟨digitDecimal_readsIntegers, cyclicText_document, StableSort.insertionSort_sorts, ?_⟩
  intro ⟨v, hv, hrepresents⟩
  have hparse : ∃ c, parse cyclicText digitDecimal StableSort.insertionSort nestingLimit =
      .ok (.container .map c, ⟨0, .noError⟩) ∧ c.elements.length = 8 := ⟨_, rfl, rfl⟩
  have ⟨c, hc, hlen⟩ := hparse
  rw [hv, Except.ok.injEq, Prod.mk.injEq] at hc
  rw [hc.1] at hrepresents
  cases hrepresents with
  | object hcontains hkept hvs =>
    have hvals := hcontains.unique (.container c.vals)
    have hlast := hkept.length_eq
    have hmembers := length_of_representsMembers hvs
    rw [hvals, length_vals, hlen, hlast] at hmembers
    exact absurd hmembers (by decide)

end JsonParser

end QtBase
