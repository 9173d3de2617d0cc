import QtBase.Serialization.QJsonObjectMap

/-! Objects that come from a text, and calls on them. The binary search for a key needs the stored
keys in an order with it. -/
namespace QtBase

open QtCbor Json JsonParser QCborContainerPrivate QCborValue List

namespace QJsonObject

/-! ## The object of a text -/

/-- The map that the members of a text are. -/
def Map.IsOf (m : Map) (ms : List (Str × Json)) : Prop :=
  (∀ e ∈ lastMembers ms, ∃ w, m e.1.units = some w ∧ w.Represents e.2) ∧
    ∀ key, (∀ e ∈ ms, e.1.units ≠ key) → m key = none

theorem isJson_of_contains {v : Val} {vs : List Val} {type : CborType}
    (htype : type = .array ∨ type = .map) (h : v.Contains type vs) : v.IsJson := by
  cases h with
  | container vs => exact .container vs htype
  | none => exact .empty htype

theorem isJson_of_parsed {keeps : List (Str × Json) → List (Str × Json) → Prop} {v : Val} {j : Json}
    (h : Parsed keeps (fun ms => ¬ KeysOrdered ms) v j) (hj : j.Ordered) : v.IsJson := by
  cases h with
  | null => exact .simple 0 (.inl rfl)
  | true => exact .simple 0 (.inr (.inl rfl))
  | false => exact .simple 0 (.inr (.inr (.inl rfl)))
  | number n => exact .simple n (.inr (.inr (.inr (.inl rfl))))
  | double bits => exact .simple bits (.inr (.inr (.inr (.inr rfl))))
  | string s => exact isJson_val s
  | array hcontains _ => exact isJson_of_contains (.inl rfl) hcontains
  | object hcontains _ _ => exact isJson_of_contains (.inr rfl) hcontains
  | stray hstray => exact absurd hj.1 hstray

variable {P : Val → Json → Prop} {vs : List Val} {ms kept : List (Str × Json)}

theorem entries_of_stored (h : StoredMembers P vs kept) : ∃ es : List (Str × Val),
    vs = flatten es ∧ List.Forall₂ (fun e m => e.1 = m.1 ∧ P e.2 m.2) es kept := by
  induction h with
  | nil => exact ⟨[], rfl, .nil⟩
  | @cons s v j vs ms hv _ ih =>
    have ⟨es, hvs, hes⟩ := ih
    refine ⟨(s, v) :: es, ?_, .cons ⟨rfl, hv⟩ hes⟩
    rw [flatten_cons, hvs]

theorem lastMembers_distinct (ms : List (Str × Json)) :
    (lastMembers ms).Pairwise fun a b => a.1.units ≠ b.1.units := by
  have hpairwise := StableSort.lasts_pairwise (fun a b : Str × Json => a.1.units == b.1.units) ms
  exact hpairwise.imp fun h => by rwa [beq_eq_false_iff_ne] at h

theorem distinct_of_forall₂ {es : List (Str × Val)}
    (h : List.Forall₂ (fun e m => e.1 = m.1 ∧ P e.2 m.2) es kept)
    (hkept : kept.Pairwise fun a b => a.1.units ≠ b.1.units) : Distinct es := by
  have hkeys : es.map Prod.fst = kept.map Prod.fst := by
    induction h with
    | nil => rfl
    | cons hem _ ih =>
      rw [pairwise_cons] at hkept
      rw [map_cons, map_cons, hem.1, ih hkept.2]
  have hmap : (kept.map Prod.fst).Pairwise fun s t : Str => s.units ≠ t.units :=
    pairwise_map.mpr hkept
  rw [← hkeys] at hmap
  have hpairwise := pairwise_map.mp hmap
  exact hpairwise

theorem lookup_of_mem {es : List (Str × Val)} (h : Distinct es) {e : Str × Val} (he : e ∈ es) :
    lookup es e.1.units = some e.2 := by
  have ⟨es₁, es₂, hes⟩ := append_of_mem he
  rw [hes] at h ⊢
  exact lookup_at h

theorem is_of_stored {c : QCborContainerPrivate} (hrec : c.HasRecords)
    (hstored : StoredMembers P c.vals kept) (hkept : kept.Perm (lastMembers ms))
    (hjson : ∀ v, ∀ m ∈ lastMembers ms, P v m.2 → v.IsJson ∧ v.Represents m.2)
    {object : QJsonObject} (hobject : object.o.getD .empty = c) :
    ∃ m : Map, Is object m ∧ m.IsOf ms := by
  have ⟨es, hvs, hes⟩ := entries_of_stored hstored
  have hdistinct : Distinct es := by
    apply distinct_of_forall₂ hes
    apply (hkept.pairwise_iff _).mpr (lastMembers_distinct ms)
    intro a b hab
    exact hab.symm
  refine ⟨lookup es, ⟨es, ⟨?_, hdistinct, ?_⟩, rfl⟩, ?_, ?_⟩
  · rw [hobject]
    exact ⟨hrec, hvs⟩
  · intro e he
    have ⟨m, hm, hem⟩ := forall₂_left hes he
    exact (hjson e.2 m (hkept.subset hm) hem.2).1
  · intro m hm
    have ⟨e, he, hem⟩ := forall₂_right hes (hkept.symm.subset hm)
    refine ⟨e.2, ?_, (hjson e.2 m hm hem.2).2⟩
    rw [← hem.1]
    exact lookup_of_mem hdistinct he
  · intro key hkey
    apply lookup_eq_none
    intro e he
    have ⟨m, hm, hem⟩ := forall₂_left hes he
    rw [hem.1]
    exact hkey m (StableSort.lasts_subset _ _ (hkept.subset hm))

theorem object_makeValue (d : Option QCborContainerPrivate) :
    (QJsonDocument.object (makeValue .map d)).o = d := by
  cases d with
  | none => rfl
  | some d => rfl

theorem parse_is {decimal : Decimal} (hdecimal : decimal.ReadsIntegers)
    {stableSort : Parser.StableSort} (hsort : StableSort.Sorts stableSort) {text : List UInt8}
    (h : DocumentText decimal text (.object ms)) (hordered : (Json.object ms).Ordered) :
    ∃ v, parse text decimal stableSort nestingLimit = .ok (v, ⟨0, .noError⟩) ∧
      ∃ m : Map, Is (QJsonDocument.object v) m ∧ m.IsOf ms := by
  have ⟨d, hparse, hQ⟩ := parse_object_ok hdecimal (keeps_of_sorts hsort) h
  refine ⟨_, hparse, ?_⟩
  rcases hQ with hstray | ⟨hrec, kept, hkept, hstored⟩
  · exact absurd hordered.1 hstray
  · apply is_of_stored hrec hstored hkept
    · intro v m hm hv
      have hm' := orderedMembers_iff.1 hordered.2 m hm
      exact ⟨isJson_of_parsed hv hm', represents_of_parsed hv hm'⟩
    · rw [object_makeValue]

/-! ## Calls -/

/-- Each key is a string, and no two are the same. -/
def KeysDistinct (object : QJsonObject) : Prop :=
  ∃ keys : List (List UInt16), keys.Nodup ∧
    2 * keys.length = (object.o.getD .empty).vals.length ∧
    ∀ i key, keys[i]? = some key →
      ∃ v, (object.o.getD .empty).vals[2 * i]? = some v ∧ v.IsString key

/-- What a run of calls has to do with the same calls on a map. -/
structure Follows (object : QJsonObject) (m : Map) (ops : List Op) : Prop where
  answers : (object.run ops).2 = (m.run ops).2
  distinct : (object.run ops).1.KeysDistinct
  value key : (object.run ops).1.Partitioned key →
    ((object.run ops).1.valueImpl key).val = (m.run ops).1.value key
  contains key : (object.run ops).1.Partitioned key →
    (object.run ops).1.containsImpl key = ((m.run ops).1 key).isSome

theorem keysDistinct_of_holds {object : QJsonObject} {es : List (Str × Val)} (h : Holds object es) :
    object.KeysDistinct := by
  refine ⟨es.map fun e => e.1.units, ?_, ?_, ?_⟩
  · exact pairwise_map.mpr h.distinct
  · rw [h.entries.vals, length_flatten, length_map]
  · intro i key hkey
    rw [List.getElem?_map] at hkey
    have ⟨e, he, heq⟩ := Option.map_eq_some_iff.mp hkey
    refine ⟨e.1.val, ?_, ?_⟩
    · rw [h.entries.vals, getElem?_flatten, he]
      rfl
    · rw [← heq]
      exact e.1.isString_val

theorem follows_of_is {object : QJsonObject} {m : Map} (h : Is object m) {ops : List Op}
    (hops : object.Orderly ops) : Follows object m ops := by
  have ⟨⟨es, hholds, hlookup⟩, hanswers⟩ := run_is h ops hops
  constructor
  · exact hanswers
  · exact keysDistinct_of_holds hholds
  · intro key hpart
    rw [← hlookup]
    exact hholds.value hpart
  · intro key hpart
    rw [← hlookup]
    exact hholds.contains hpart

/-- The object of a text follows its map through every run of calls whose keys are in an order with
the stored ones. -/
theorem parse_follows {decimal : Decimal} (hdecimal : decimal.ReadsIntegers)
    {stableSort : Parser.StableSort} (hsort : StableSort.Sorts stableSort) {text : List UInt8}
    {ms : List (Str × Json)} (h : DocumentText decimal text (.object ms))
    (hordered : (Json.object ms).Ordered) :
    ∃ v, parse text decimal stableSort nestingLimit = .ok (v, ⟨0, .noError⟩) ∧
      ∃ m : Map, m.IsOf ms ∧ ∀ ops, (QJsonDocument.object v).Orderly ops →
        Follows (QJsonDocument.object v) m ops := by
  have ⟨v, hparse, m, his, hof⟩ := parse_is hdecimal hsort h hordered
  exact ⟨v, hparse, m, hof, fun ops hops => follows_of_is his hops⟩

/-! ## Two runs -/

theorem partitioned_of_short {object : QJsonObject}
    (h : (object.o.getD .empty).elements.length / 2 ≤ 1) (key : List UInt16) :
    object.Partitioned key := by
  intro i j hij hj
  have hle : j < 1 := Nat.lt_of_lt_of_le hj h
  omega

/-- Reading the key of `{"a":1, "\u0061":[]}` and inserting another one. -/
theorem parse_follows_twice : digitDecimal.ReadsIntegers ∧
    StableSort.Sorts (StableSort.insertionSort (α := Parser.Member)) ∧
    DocumentText digitDecimal twiceText twice ∧ twice.Ordered ∧
    ∃ v, parse twiceText digitDecimal StableSort.insertionSort nestingLimit =
        .ok (v, ⟨0, .noError⟩) ∧
      (QJsonDocument.object v).Orderly [.contains [0x61], .insert [0x62] (.value .null 0)] ∧
      ∃ m : Map, m.IsOf [(.plain ['a'], .number 1), (.escaped [0x61], .array [])] ∧
        Follows (QJsonDocument.object v) m [.contains [0x61], .insert [0x62] (.value .null 0)] := by
  have ⟨v, hparse, m, hof, hfollows⟩ := parse_follows digitDecimal_readsIntegers
    StableSort.insertionSort_sorts twiceText_document twice_ordered
  refine ⟨digitDecimal_readsIntegers, StableSort.insertionSort_sorts, twiceText_document,
    twice_ordered, v, hparse, ?_⟩
  have hshort : ∃ c, parse twiceText digitDecimal StableSort.insertionSort nestingLimit =
      .ok (.container .map c, ⟨0, .noError⟩) ∧ c.elements.length = 2 := ⟨_, rfl, rfl⟩
  have ⟨c, hc, hlen⟩ := hshort
  rw [hparse, Except.ok.injEq, Prod.mk.injEq] at hc
  have hpart : (QJsonDocument.object v).Partitioned [0x61] ∧
      (QJsonDocument.object v).Partitioned [0x62] := by
    rw [hc.1]
    have hle : c.elements.length / 2 ≤ 1 := by rw [hlen]
    exact ⟨@partitioned_of_short ⟨some c⟩ hle _, @partitioned_of_short ⟨some c⟩ hle _⟩
  have horderly : (QJsonDocument.object v).Orderly
      [.contains [0x61], .insert [0x62] (.value .null 0)] := ⟨hpart.1, hpart.2, trivial⟩
  exact ⟨horderly, m, hof, hfollows _ horderly⟩

/-- `{"X":1}` with U+FFFD for X. -/
def replacementText : List UInt8 := [0x7b, 0x22, 0xef, 0xbf, 0xbd, 0x22, 0x3a, 0x31, 0x7d]

theorem replacementText_document : DocumentText digitDecimal replacementText
    (.object [(.plain ['\ufffd'], .number 1)]) := by
  have hone : ValueText digitDecimal 1023 [0x31] (.number 1) :=
    .number (numberText_digit rfl (by decide)) rfl
  have hplain : StringText [0x22, 0xef, 0xbf, 0xbd, 0x22] (.plain ['\ufffd']) := by
    apply @StringText.plain ['\ufffd']
    intro c hc
    rw [mem_singleton] at hc
    rw [hc]
    unfold Unescaped
    decide
  have hmembers : MembersText digitDecimal 1023 [0x22, 0xef, 0xbf, 0xbd, 0x22, 0x3a, 0x31]
      [(.plain ['\ufffd'], .number 1)] := .one ws_nil hplain ws_nil ws_nil hone ws_nil
  exact .object ws_nil (.object hmembers) ws_nil

/-- After the key U+10000 has been inserted, the key of the text is not found. -/
theorem parse_follows_replacement : digitDecimal.ReadsIntegers ∧
    StableSort.Sorts (StableSort.insertionSort (α := Parser.Member)) ∧
    DocumentText digitDecimal replacementText (.object [(.plain ['\ufffd'], .number 1)]) ∧
    ∃ v, parse replacementText digitDecimal StableSort.insertionSort nestingLimit =
        .ok (v, ⟨0, .noError⟩) ∧
      ∀ m : Map, m.IsOf [(.plain ['\ufffd'], .number 1)] →
        ¬ Follows (QJsonDocument.object v) m
          [.insert [0xd800, 0xdc00] (.value .null 0), .contains [0xfffd]] := by
  refine ⟨digitDecimal_readsIntegers, StableSort.insertionSort_sorts, replacementText_document, ?_⟩
  have hrun : ∃ v, parse replacementText digitDecimal StableSort.insertionSort nestingLimit =
        .ok (v, ⟨0, .noError⟩) ∧
      (((QJsonDocument.object v).insertImpl [0xd800, 0xdc00] (.value .null 0)).containsImpl
        [0xfffd]) = false := ⟨_, rfl, rfl⟩
  have ⟨v, hv, hcontains⟩ := hrun
  refine ⟨v, hv, ?_⟩
  intro m hof hfollows
  have ⟨w, hw, _⟩ := hof.1 _ mem_cons_self
  change m [0xfffd] = some w at hw
  have hanswers := hfollows.answers
  change [Answer.none, .bool (((QJsonDocument.object v).insertImpl [0xd800, 0xdc00]
    (.value .null 0)).containsImpl [0xfffd])] =
      [Answer.none, .bool ((m.put [0xd800, 0xdc00] (.value .null 0)) [0xfffd]).isSome] at hanswers
  have hput : m.put [0xd800, 0xdc00] (.value .null 0) [0xfffd] = some w := by
    unfold Map.put
    rw [Function.update_of_ne (by decide), hw]
  rw [hcontains, hput] at hanswers
  simp at hanswers

end QJsonObject

end QtBase
