import QtBase.Serialization.QJsonObjectKeys
import QtBase.Serialization.JsonCompleteness
import Mathlib.Logic.Function.Basic

/-! `QJsonObject` is a map from strings to values, as long as the keys that it is given are in an order
with the ones that it has. -/
namespace QtBase

open QtCbor Json JsonParser Unicode QCborContainerPrivate QCborValue List Function Option

/-- The values that an object holds. -/
inductive Val.IsJson : Val → Prop
  | simple {type : CborType} (n : Int64) : type = .null ∨ type = .isTrue ∨ type = .isFalse ∨
      type = .integer ∨ type = .double → IsJson (.value type n)
  | string (utf16 ascii : Bool) (b : List UInt8) : IsJson (.bytes .string utf16 ascii b)
  | empty {type : CborType} : type = .array ∨ type = .map → IsJson (.value type 0)
  | container {type : CborType} (vs : List Val) : type = .array ∨ type = .map →
      IsJson (.container type vs)

theorem isJson_val (s : Str) : s.val.IsJson := by
  cases s with
  | plain cs => exact .string _ _ _
  | escaped units => exact .string _ _ _

theorem convertFromCborType_bool {type : CborType}
    (h : JsonType.convertFromCborType type = .bool) : type = .isTrue ∨ type = .isFalse := by
  unfold JsonType.convertFromCborType at h
  split at h
  all_goals first
    | exact .inl rfl
    | exact .inr rfl
    | cases h

theorem convertFromCborType_double {type : CborType}
    (h : JsonType.convertFromCborType type = .double) : type = .integer ∨ type = .double := by
  unfold JsonType.convertFromCborType at h
  split at h
  all_goals first
    | exact .inl rfl
    | exact .inr rfl
    | cases h

theorem shared_spec (v : QCborValue) {type : CborType} (h : type = .array ∨ type = .map) :
    (v.shared type).Refers ∧ (v.shared type).type = type ∧ (v.shared type).val.IsJson := by
  cases v with
  | value t n =>
    refine ⟨trivial, rfl, ?_⟩
    show Val.IsJson (.value type (if _ then 0 else -1))
    rw [if_pos h]
    exact .empty h
  | element t d n =>
    refine ⟨trivial, rfl, ?_⟩
    show Val.IsJson (.value type (if _ then 0 else -1))
    rw [if_pos h]
    exact .empty h
  | container t d => exact ⟨trivial, rfl, .container _ h⟩

theorem fromJsonValue_spec (v : QCborValue) : v.fromJsonValue.Refers ∧
    (v.fromJsonValue.type = .undefined ↔ JsonType.convertFromCborType v.type = .undefined) ∧
    (JsonType.convertFromCborType v.type ≠ .undefined → v.fromJsonValue.val.IsJson) := by
  unfold fromJsonValue
  cases h : JsonType.convertFromCborType v.type with
  | null =>
    refine ⟨trivial, ?_, fun _ => .simple 0 (.inl rfl)⟩
    show CborType.null = .undefined ↔ JsonType.null = .undefined
    decide
  | bool =>
    have htype := convertFromCborType_bool h
    simp only
    rcases htype with htype | htype
    · rw [htype]
      exact ⟨trivial, by decide, fun _ => .simple 0 (.inr (.inl rfl))⟩
    · rw [htype]
      exact ⟨trivial, by decide, fun _ => .simple 0 (.inr (.inr (.inl rfl)))⟩
  | double =>
    have htype := convertFromCborType_double h
    simp only
    rcases htype with htype | htype
    · rw [htype]
      refine ⟨trivial, by simp [QCborValue.type], fun _ => .simple _ ?_⟩
      tauto
    · rw [htype]
      refine ⟨trivial, by simp [QCborValue.type], fun _ => .simple _ ?_⟩
      tauto
  | string =>
    have ⟨s, _, hrefers, hval⟩ := ofString_spec v.toString
    refine ⟨hrefers, by simp [QCborValue.type, ofString], fun _ => ?_⟩
    simp only
    rw [hval]
    exact isJson_val s
  | array =>
    have ⟨hrefers, htype, hjson⟩ := shared_spec v (.inl rfl : CborType.array = .array ∨ _)
    refine ⟨hrefers, ?_, fun _ => hjson⟩
    simp only
    rw [htype]
    decide
  | object =>
    have ⟨hrefers, htype, hjson⟩ := shared_spec v (.inr rfl : _ ∨ CborType.map = .map)
    refine ⟨hrefers, ?_, fun _ => hjson⟩
    simp only
    rw [htype]
    decide
  | undefined =>
    refine ⟨trivial, ?_, fun h => absurd rfl h⟩
    show CborType.undefined = .undefined ↔ JsonType.undefined = .undefined
    decide

namespace QJsonObject

/-! ## Operations -/

inductive Op
  | insert (key : List UInt16) (v : QCborValue)
  | subscript (key : List UInt16)
  | assign (key : List UInt16) (v : QCborValue)
  | remove (key : List UInt16)
  | take (key : List UInt16)
  | value (key : List UInt16)
  | contains (key : List UInt16)

def Op.key : Op → List UInt16
  | insert key _ => key
  | subscript key => key
  | assign key _ => key
  | remove key => key
  | take key => key
  | value key => key
  | contains key => key

/-- What a call returns. -/
inductive Answer
  | none
  | value (v : Val)
  | bool (b : Bool)

/-- A call. `subscript` reads from the reference that `operator[]` returns, and `assign` assigns to
it. -/
def step (object : QJsonObject) : Op → QJsonObject × Answer
  | .insert key v => (object.insertImpl key v, .none)
  | .subscript key =>
    let (object, index) := object.atImpl key
    (object, .value (object.valueOfRef index).val)
  | .assign key v =>
    let (object, index) := object.atImpl key
    (object.assignToRef index v, .none)
  | .remove key => (object.removeImpl key, .none)
  | .take key =>
    let (v, object) := object.takeImpl key
    (object, .value v.val)
  | .value key => (object, .value (object.valueImpl key).val)
  | .contains key => (object, .bool (object.containsImpl key))

/-- What an object is for: a partial function from strings to values. -/
abbrev Map := List UInt16 → Option Val

/-- The value a map has for a string, or undefined. -/
def Map.value (m : Map) (key : List UInt16) : Val := (m key).getD (.value .undefined 0)

/-- Inserting the undefined value removes the key. -/
def Map.put (m : Map) (key : List UInt16) (v : QCborValue) : Map :=
  Function.update m key (if JsonType.convertFromCborType v.type = .undefined then none
    else some v.fromJsonValue.val)

/-- The call on a map. -/
def Map.step (m : Map) : Op → Map × Answer
  | .insert key v => (m.put key v, .none)
  | .subscript key =>
    (Function.update m key (some ((m key).getD (.value .null 0))),
      .value ((m key).getD (.value .null 0)))
  | .assign key v => (m.put key v, .none)
  | .remove key => (Function.update m key none, .none)
  | .take key => (Function.update m key none, .value (m.value key))
  | .value key => (m, .value (m.value key))
  | .contains key => (m, .bool (m key).isSome)

/-! ## Entries of a changed container -/

variable {o : QCborContainerPrivate} {es₁ es₂ : List (Str × Val)} {s : Str} {v : QCborValue} {w : Val}

theorem insertIdx_at {α : Type} (l l' : List α) (a : α) :
    (l ++ l').insertIdx l.length a = l ++ a :: l' := by
  induction l with
  | nil => rfl
  | cons b l ih =>
    rw [cons_append, length_cons, insertIdx_succ_cons, ih]
    rfl

theorem set_at {α : Type} (l l' : List α) (a b : α) :
    (l ++ a :: l').set l.length b = l ++ b :: l' := by
  induction l with
  | nil => rfl
  | cons c l ih =>
    rw [cons_append, length_cons, set_cons_succ, ih]
    rfl

theorem eraseIdx_at {α : Type} (l l' : List α) (a : α) :
    (l ++ a :: l').eraseIdx l.length = l ++ l' := by
  induction l with
  | nil => rfl
  | cons c l ih =>
    rw [cons_append, length_cons, eraseIdx_cons_succ, ih]
    rfl

theorem flatten_at (es₁ es₂ : List (Str × Val)) (s : Str) (w : Val) :
    flatten (es₁ ++ (s, w) :: es₂) = flatten es₁ ++ s.val :: w :: flatten es₂ ∧
    flatten (es₁ ++ (s, w) :: es₂) = (flatten es₁ ++ [s.val]) ++ w :: flatten es₂ := by
  rw [flatten_append, flatten_cons, append_assoc]
  exact ⟨rfl, rfl⟩

theorem length_key (es₁ : List (Str × Val)) (s : Str) :
    (flatten es₁ ++ [s.val]).length = 2 * es₁.length + 1 := by
  rw [length_append, length_flatten, length_singleton]

theorem Entries.insert (h : Entries o (es₁ ++ es₂)) (hv : v.Refers) {key : List UInt16}
    (hkey : (ofString key).Refers ∧ (ofString key).val = s.val) :
    Entries ((o.insertAt (2 * es₁.length) (ofString key)).insertAt (2 * es₁.length + 1) v)
      (es₁ ++ (s, v.val) :: es₂) := by
  have hlen := h.length
  rw [length_append] at hlen
  have ⟨hvals₁, hrec₁⟩ := insertAt_spec h.records hkey.1
    (show 2 * es₁.length ≤ o.elements.length by omega)
  rw [h.vals, flatten_append, ← length_flatten, insertIdx_at, hkey.2] at hvals₁
  have hlen₁ : 2 * es₁.length + 1 ≤ (o.insertAt (2 * es₁.length) (ofString key)).elements.length := by
    rw [← length_vals, ← length_flatten, hvals₁, length_append, length_cons]
    omega
  have ⟨hvals₂, hrec₂⟩ := insertAt_spec hrec₁ hv hlen₁
  have hsplit : flatten es₁ ++ s.val :: flatten es₂ = (flatten es₁ ++ [s.val]) ++ flatten es₂ := by
    simp
  rw [length_flatten] at hvals₁
  rw [hvals₁, hsplit, ← length_key es₁ s, insertIdx_at] at hvals₂
  refine ⟨hrec₂, ?_⟩
  rw [(flatten_at es₁ es₂ s v.val).2, ← length_key es₁ s]
  exact hvals₂

theorem Entries.replace (h : Entries o (es₁ ++ (s, w) :: es₂)) (hv : v.Refers) :
    Entries (o.replaceAt (2 * es₁.length + 1) v) (es₁ ++ (s, v.val) :: es₂) := by
  have ⟨hvals, hrec⟩ := replaceAt_spec h.records hv (2 * es₁.length + 1)
  refine ⟨hrec, ?_⟩
  rw [hvals, h.vals, (flatten_at es₁ es₂ s w).2, (flatten_at es₁ es₂ s v.val).2, ← length_key es₁ s,
    set_at]

theorem Entries.remove (h : Entries o (es₁ ++ (s, w) :: es₂)) :
    Entries ((o.removeAt (2 * es₁.length + 1)).removeAt (2 * es₁.length)) (es₁ ++ es₂) := by
  have ⟨hvals₁, hrec₁⟩ := removeAt_spec h.records (2 * es₁.length + 1)
  have ⟨hvals₂, hrec₂⟩ := removeAt_spec hrec₁ (2 * es₁.length)
  refine ⟨hrec₂, ?_⟩
  have hsplit : (flatten es₁ ++ [s.val]) ++ flatten es₂ = flatten es₁ ++ s.val :: flatten es₂ := by
    simp
  rw [hvals₂, hvals₁, h.vals, (flatten_at es₁ es₂ s w).2, ← length_key es₁ s, eraseIdx_at, hsplit,
    ← length_flatten, eraseIdx_at, flatten_append]

theorem Entries.valueElement (h : Entries o (es₁ ++ (s, w) :: es₂)) : ∃ e,
    o.elements[2 * es₁.length + 1]? = some e ∧ Element.InData o.data e ∧
      elementVal o.data e = w := by
  have hval := getElem?_vals o (2 * es₁.length + 1)
  rw [h.vals, (flatten_at es₁ es₂ s w).2, ← length_key es₁ s,
    getElem?_append_right (Nat.le_refl _), Nat.sub_self, getElem?_cons_zero] at hval
  have ⟨e, he, hew⟩ := map_eq_some_iff.mp hval.symm
  rw [length_key] at he
  exact ⟨e, he, h.records e (mem_of_getElem? he), hew⟩

/-- A value of an object, read from its element. -/
theorem IsJson.element {e : Element} {data : List Cell} (hw : (elementVal data e).IsJson) :
    (∃ type n, e = ⟨.value n, type⟩ ∧ (QCborValue.value type n).val = elementVal data e) ∨
    (∃ offset utf16 ascii, e = ⟨.byteData offset utf16 ascii, .string⟩) ∨
    ∃ d type, e = ⟨.container d, type⟩ ∧ type ≠ .tag := by
  obtain ⟨payload, type⟩ := e
  cases payload with
  | value n =>
    left
    refine ⟨type, n, rfl, ?_⟩
    show Val.value type (if type = .array ∨ type = .map then 0 else n) = .value type n
    by_cases htype : type = .array ∨ type = .map
    · rw [if_pos htype]
      generalize hval : elementVal data ⟨.value n, type⟩ = val at hw
      have hval' : val = .value type n := hval.symm
      cases hw with
      | simple n' h' =>
        rw [Val.value.injEq] at hval'
        rw [hval'.1] at h'
        rcases htype with htype | htype
        · rw [htype] at h'
          simp at h'
        · rw [htype] at h'
          simp at h'
      | string _ _ _ => cases hval'
      | empty _ =>
        rw [Val.value.injEq] at hval'
        rw [hval'.2]
      | container _ _ => cases hval'
    · rw [if_neg htype]
  | byteData offset utf16 ascii =>
    right; left
    generalize hval : elementVal data ⟨.byteData offset utf16 ascii, type⟩ = val at hw
    have hval' : val = .bytes type utf16 ascii ((byteDataAt data offset).getD []) := hval.symm
    cases hw with
    | simple _ _ => cases hval'
    | string _ _ _ =>
      rw [Val.bytes.injEq] at hval'
      rw [← hval'.1]
      exact ⟨offset, utf16, ascii, rfl⟩
    | empty _ => cases hval'
    | container _ _ => cases hval'
  | container d =>
    right; right
    refine ⟨d, type, rfl, ?_⟩
    generalize hval : elementVal data ⟨.container d, type⟩ = val at hw
    have hval' : val = .container type d.vals := hval.symm
    cases hw with
    | simple _ _ => cases hval'
    | string _ _ _ => cases hval'
    | empty _ => cases hval'
    | container _ h' =>
      rw [Val.container.injEq] at hval'
      intro htag
      rw [hval'.1, htag] at h'
      simp at h'

theorem Entries.valueAt (h : Entries o (es₁ ++ (s, w) :: es₂)) (hw : w.IsJson) :
    (o.valueAt (2 * es₁.length + 1)).val = w := by
  have ⟨e, he, hin, hew⟩ := h.valueElement
  rw [← hew] at hw
  unfold QCborContainerPrivate.valueAt
  rw [he]
  rcases IsJson.element hw with ⟨type, n, heq, hval⟩ | ⟨offset, utf16, ascii, heq⟩ |
    ⟨d, type, heq, htag⟩
  · rw [heq] at hval hew ⊢
    exact hval.trans hew
  · rw [heq] at he hew ⊢
    show (o.vals[2 * es₁.length + 1]?).getD (.value .string 0) = w
    rw [getElem?_vals, he, map_some, hew]
    rfl
  · rw [heq] at hew ⊢
    simp only
    rw [if_neg fun htag' => htag htag'.1]
    exact hew

theorem Entries.extractAt (h : Entries o (es₁ ++ (s, w) :: es₂)) (hw : w.IsJson) :
    (o.extractAt (2 * es₁.length + 1)).1.val = w ∧
      Entries (o.extractAt (2 * es₁.length + 1)).2 (es₁ ++ (s, .value .undefined 0) :: es₂) := by
  have ⟨e, he, hin, hew⟩ := h.valueElement
  have hrest : Entries (.mk o.data (o.elements.set (2 * es₁.length + 1) ⟨.value 0, .undefined⟩))
      (es₁ ++ (s, .value .undefined 0) :: es₂) := by
    constructor
    · intro e' he'
      rcases mem_or_eq_of_mem_set he' with he' | he'
      · exact h.records e' he'
      · rw [he']
        intro offset utf16 ascii hp
        cases hp
    · rw [vals_eq_map, data_mk, elements_mk, map_set, ← vals_eq_map, h.vals,
        (flatten_at es₁ es₂ s w).2, (flatten_at es₁ es₂ s _).2, ← length_key es₁ s, set_at]
      rfl
  rw [← hew] at hw
  unfold QCborContainerPrivate.extractAt
  rw [he]
  rcases IsJson.element hw with ⟨type, n, heq, hval⟩ | ⟨offset, utf16, ascii, heq⟩ |
    ⟨d, type, heq, htag⟩
  · rw [heq] at hval hew ⊢
    exact ⟨hval.trans hew, hrest⟩
  · rw [heq] at hin hew ⊢
    refine ⟨?_, hrest⟩
    have ⟨b, hb⟩ := hin offset utf16 ascii rfl
    have hbyte : o.byteData ⟨.byteData offset utf16 ascii, .string⟩ = some b := hb
    have hw' : w = .bytes .string utf16 ascii b := by
      rw [← hew]
      show Val.bytes .string utf16 ascii ((byteDataAt o.data offset).getD []) = _
      rw [hb]
      rfl
    simp only
    unfold extractAt_complex
    rw [hbyte]
    simp only
    by_cases hcopy : b.length + sizeofByteData < o.data.length / 4
    · rw [if_pos hcopy, hw']
      have ⟨hvals, _⟩ := appendByteData_spec hasRecords_empty b .string utf16 ascii
      show ((QCborContainerPrivate.empty.appendByteData b .string utf16 ascii).vals[0]?).getD
        (.value .string 0) = _
      rw [hvals]
      rfl
    · rw [if_neg hcopy]
      exact hew
  · rw [heq] at hew ⊢
    simp only
    rw [if_neg fun htag' => htag htag'.1]
    exact ⟨hew, hrest⟩

/-! ## Maps -/

def lookup (es : List (Str × Val)) : Map := fun key =>
  (es.find? fun e => e.1.units == key).map Prod.snd

theorem lookup_eq_none {es : List (Str × Val)} {key : List UInt16}
    (h : ∀ e ∈ es, e.1.units ≠ key) : lookup es key = none := by
  unfold lookup
  rw [find?_eq_none.mpr fun e he => by rw [beq_iff_eq]; exact h e he]
  rfl

theorem lookup_append {es₁ es₂ : List (Str × Val)} {key : List UInt16}
    (h : ∀ e ∈ es₁, e.1.units ≠ key) : lookup (es₁ ++ es₂) key = lookup es₂ key := by
  have hnone : es₁.find? (fun e => e.1.units == key) = none :=
    find?_eq_none.mpr fun e he => by rw [beq_iff_eq]; exact h e he
  unfold lookup
  rw [find?_append, hnone, none_or]

theorem lookup_cons_self (es : List (Str × Val)) (s : Str) (w : Val) :
    lookup ((s, w) :: es) s.units = some w := by
  simp [lookup]

theorem lookup_put (h : ∀ e ∈ es₁, e.1.units ≠ s.units) :
    lookup (es₁ ++ (s, w) :: es₂) = update (lookup (es₁ ++ es₂)) s.units (some w) := by
  funext key
  by_cases hkey : key = s.units
  · rw [hkey, update_self, lookup_append h, lookup_cons_self]
  · rw [update_of_ne hkey]
    unfold lookup
    rw [find?_append, find?_append,
      find?_cons_of_neg (by rw [beq_iff_eq]; exact fun h => hkey h.symm)]

/-- Keys are different strings. -/
def Distinct (es : List (Str × Val)) : Prop := es.Pairwise fun a b => a.1.units ≠ b.1.units

theorem Distinct.around (h : Distinct (es₁ ++ (s, w) :: es₂)) :
    (∀ e ∈ es₁, e.1.units ≠ s.units) ∧ (∀ e ∈ es₂, e.1.units ≠ s.units) ∧ Distinct (es₁ ++ es₂) := by
  unfold Distinct at h ⊢
  rw [pairwise_append, pairwise_cons] at h
  refine ⟨fun e he => h.2.2 e he (s, w) mem_cons_self, fun e he => (h.2.1.1 e he).symm, ?_⟩
  rw [pairwise_append]
  exact ⟨h.1, h.2.1.2, fun a ha b hb => h.2.2 a ha b (mem_cons_of_mem _ hb)⟩

theorem Distinct.put (h : Distinct (es₁ ++ es₂)) (hs : ∀ e ∈ es₁ ++ es₂, e.1.units ≠ s.units) :
    Distinct (es₁ ++ (s, w) :: es₂) := by
  unfold Distinct at h ⊢
  rw [pairwise_append] at h ⊢
  rw [pairwise_cons]
  refine ⟨h.1, ⟨fun e he => (hs e (mem_append_right _ he)).symm, h.2.1⟩, ?_⟩
  intro a ha b hb
  rw [mem_cons] at hb
  rcases hb with hb | hb
  · rw [hb]
    exact hs a (mem_append_left _ ha)
  · exact h.2.2 a ha b hb

theorem lookup_drop (h : Distinct (es₁ ++ (s, w) :: es₂)) :
    lookup (es₁ ++ es₂) = update (lookup (es₁ ++ (s, w) :: es₂)) s.units none := by
  have ⟨h₁, h₂, _⟩ := h.around
  funext key
  by_cases hkey : key = s.units
  · rw [hkey, update_self]
    apply lookup_eq_none
    intro e he
    rw [mem_append] at he
    exact he.elim (h₁ e) (h₂ e)
  · rw [update_of_ne hkey, lookup_put h₁, update_of_ne hkey]

/-! ## Objects -/

/-- The key at a position is behind a given one. -/
def isBehind (o : QCborContainerPrivate) (key : List UInt16) (i : ℕ) : Bool :=
  match o.elements[2 * i]? with
  | some e => decide (0 < o.stringCompareElement e key)
  | none => false

/-- What `std::lower_bound` requires: the keys that are before a given one come first, and those
behind it come last. -/
def Partitioned (object : QJsonObject) (key : List UInt16) : Prop :=
  let o := object.o.getD .empty
  ∀ i j, i < j → j < o.elements.length / 2 → (isBefore o key j = true → isBefore o key i = true) ∧
    (isBehind o key i = true → isBehind o key j = true)

/-- An object with these entries. -/
structure Holds (object : QJsonObject) (es : List (Str × Val)) : Prop where
  entries : Entries (object.o.getD .empty) es
  distinct : Distinct es
  json : ∀ e ∈ es, e.2.IsJson

variable {object : QJsonObject} {es : List (Str × Val)} {key : List UInt16}

theorem Entries.splits (h : Entries o es) (hpart : Partitioned ⟨some o⟩ key) : Splits key es := by
  have hat : ∀ i (hi : i < es.length), (isBefore o key i = true ↔ es[i].1.Before (.escaped key)) ∧
      (isBehind o key i = true ↔ (Str.escaped key).Before es[i].1) := by
    intro i hi
    have ⟨e, he, hin, hval⟩ := h.keyAt hi
    have hand : ((Str.escaped key).isEscaped && es[i].1.isEscaped) = es[i].1.isEscaped :=
      Bool.true_and _
    unfold isBefore isBehind
    rw [he]
    simp only
    rw [decide_eq_true_iff, decide_eq_true_iff, stringCompareElement_lt hin hval,
      (stringCompareElement_tells hin hval key).gt]
    unfold Str.Before
    rw [hand]
    exact ⟨Iff.rfl, Iff.rfl⟩
  unfold Splits
  rw [pairwise_iff_getElem]
  intro i j hi hj hij
  have hlen := h.length
  have ⟨hbefore, hbehind⟩ := hpart i j hij (by
    show j < o.elements.length / 2
    omega)
  change isBefore o key j = true → isBefore o key i = true at hbefore
  change isBehind o key i = true → isBehind o key j = true at hbehind
  rw [(hat i hi).1, (hat j hj).1] at hbefore
  rw [(hat i hi).2, (hat j hj).2] at hbehind
  exact ⟨hbefore, hbehind⟩

/-- The key is found where it is, or it is not there. -/
theorem Holds.find (h : Holds object es) (hpart : object.Partitioned key) :
    (∃ es₁ es₂, es = es₁ ++ es₂ ∧ (∀ e ∈ es, e.1.units ≠ key) ∧
      indexOf (object.o.getD .empty) key = (2 * es₁.length, false)) ∨
    ∃ es₁ s w es₂, es = es₁ ++ (s, w) :: es₂ ∧ s.units = key ∧
      indexOf (object.o.getD .empty) key = (2 * es₁.length, true) ∧ object.o.isSome := by
  have hentries := h.entries
  have hsplits := hentries.splits hpart
  rcases indexOf_spec hentries hsplits with hfind | ⟨es₁, s, w, es₂, hes, hkey, hidx⟩
  · exact .inl hfind
  · right
    refine ⟨es₁, s, w, es₂, hes, hkey, hidx, ?_⟩
    obtain ⟨o⟩ := object
    cases o with
    | some o => rfl
    | none =>
      have hlen := hentries.length
      rw [hes, length_append, length_cons] at hlen
      have hempty : QCborContainerPrivate.empty.elements.length = 0 := rfl
      change QCborContainerPrivate.empty.elements.length = _ at hlen
      omega

/-! ## Calls -/

/-- The object is this map. -/
def Is (object : QJsonObject) (m : Map) : Prop := ∃ es, Holds object es ∧ lookup es = m

theorem lookup_at (h : Distinct (es₁ ++ (s, w) :: es₂)) :
    lookup (es₁ ++ (s, w) :: es₂) s.units = some w := by
  rw [lookup_append h.around.1, lookup_cons_self]

theorem Holds.value (h : Holds object es) (hpart : object.Partitioned key) :
    (object.valueImpl key).val = (lookup es).value key := by
  unfold valueImpl Map.value
  rcases h.find hpart with ⟨es₁, es₂, _, hne, hidx⟩ | ⟨es₁, s, w, es₂, hes, hkey, hidx, hsome⟩
  · rw [lookup_eq_none hne]
    obtain ⟨o⟩ := object
    cases o with
    | none => rfl
    | some o =>
      change indexOf o key = _ at hidx
      simp only
      rw [hidx]
      rfl
  · have hentries := h.entries
    have hdistinct := h.distinct
    have hjson := h.json (s, w) (by rw [hes]; simp)
    rw [hes] at hentries hdistinct
    obtain ⟨o⟩ := object
    cases o with
    | none => cases hsome
    | some o =>
      change indexOf o key = _ at hidx
      simp only
      rw [hidx, hes, ← hkey, lookup_at hdistinct]
      exact hentries.valueAt hjson

theorem Holds.contains (h : Holds object es) (hpart : object.Partitioned key) :
    object.containsImpl key = (lookup es key).isSome := by
  unfold containsImpl
  rcases h.find hpart with ⟨es₁, es₂, _, hne, hidx⟩ | ⟨es₁, s, w, es₂, hes, hkey, hidx, hsome⟩
  · rw [lookup_eq_none hne]
    obtain ⟨o⟩ := object
    cases o with
    | none => rfl
    | some o =>
      change indexOf o key = _ at hidx
      simp only
      rw [hidx]
      rfl
  · have hdistinct := h.distinct
    rw [hes] at hdistinct
    obtain ⟨o⟩ := object
    cases o with
    | none => cases hsome
    | some o =>
      change indexOf o key = _ at hidx
      simp only
      rw [hidx, hes, ← hkey, lookup_at hdistinct]
      rfl

theorem Holds.removeAt (h : Holds ⟨some o⟩ (es₁ ++ (s, w) :: es₂)) :
    Holds (QJsonObject.removeAt ⟨some o⟩ (2 * es₁.length)) (es₁ ++ es₂) where
  entries := h.entries.remove
  distinct := h.distinct.around.2.2
  json e he := by
    apply h.json e
    rw [mem_append] at he
    rw [mem_append, mem_cons]
    tauto

theorem Holds.remove (h : Holds object es) (hpart : object.Partitioned key) :
    Is (object.removeImpl key) (update (lookup es) key none) := by
  unfold removeImpl
  rcases h.find hpart with ⟨es₁, es₂, _, hne, hidx⟩ | ⟨es₁, s, w, es₂, hes, hkey, hidx, hsome⟩
  · refine ⟨es, ?_, ?_⟩
    · obtain ⟨o⟩ := object
      cases o with
      | none => exact h
      | some o =>
        change indexOf o key = _ at hidx
        simp only
        rw [hidx]
        exact h
    · rw [← lookup_eq_none hne, update_eq_self]
  · rw [hes] at h ⊢
    refine ⟨es₁ ++ es₂, ?_, ?_⟩
    · obtain ⟨o⟩ := object
      cases o with
      | none => cases hsome
      | some o =>
        change indexOf o key = _ at hidx
        simp only
        rw [hidx]
        exact h.removeAt
    · rw [lookup_drop h.distinct, hkey]

theorem Holds.take (h : Holds object es) (hpart : object.Partitioned key) :
    (object.takeImpl key).1.val = (lookup es).value key ∧
      Is (object.takeImpl key).2 (update (lookup es) key none) := by
  unfold takeImpl Map.value
  rcases h.find hpart with ⟨es₁, es₂, _, hne, hidx⟩ | ⟨es₁, s, w, es₂, hes, hkey, hidx, hsome⟩
  · have hnone := lookup_eq_none hne
    have hsame : update (lookup es) key none = lookup es := by
      rw [← hnone, update_eq_self]
    rw [hnone, hsame]
    obtain ⟨o⟩ := object
    cases o with
    | none => exact ⟨rfl, es, h, rfl⟩
    | some o =>
      change indexOf o key = _ at hidx
      simp only
      rw [hidx]
      exact ⟨rfl, es, h, rfl⟩
  · have hjson := h.json (s, w) (by rw [hes]; simp)
    rw [hes] at h ⊢
    obtain ⟨o⟩ := object
    cases o with
    | none => cases hsome
    | some o =>
      change indexOf o key = _ at hidx
      have hentries : Entries o (es₁ ++ (s, w) :: es₂) := h.entries
      have ⟨hval, hrest⟩ := hentries.extractAt hjson
      simp only
      rw [hidx, ← hkey, lookup_at h.distinct]
      refine ⟨hval, es₁ ++ es₂, ?_, ?_⟩
      · exact ⟨hrest.remove, h.distinct.around.2.2, h.removeAt.json⟩
      · rw [lookup_drop h.distinct]

theorem Holds.insertNew (h : Holds object (es₁ ++ es₂)) (hne : ∀ e ∈ es₁ ++ es₂, e.1.units ≠ key)
    (hv : v.Refers) (hjson : v.val.IsJson) : ∃ s, s.units = key ∧
      Holds ⟨some (((object.o.getD .empty).insertAt (2 * es₁.length) (ofString key)).insertAt
        (2 * es₁.length + 1) v)⟩ (es₁ ++ (s, v.val) :: es₂) ∧
      lookup (es₁ ++ (s, v.val) :: es₂) =
        update (lookup (es₁ ++ es₂)) key (some v.val) := by
  have ⟨s, hs, hkey⟩ := ofString_spec key
  rw [← hs] at hne
  refine ⟨s, hs, ⟨h.entries.insert hv hkey, h.distinct.put hne, ?_⟩, ?_⟩
  · intro e he
    rw [mem_append, mem_cons] at he
    rcases he with he | he | he
    · exact h.json e (mem_append_left _ he)
    · rw [he]
      exact hjson
    · exact h.json e (mem_append_right _ he)
  · rw [lookup_put fun e he => hne e (mem_append_left _ he), hs]

theorem Holds.replaceOld (h : Holds object (es₁ ++ (s, w) :: es₂)) (hv : v.Refers)
    (hjson : v.val.IsJson) :
    Holds ⟨some ((object.o.getD .empty).replaceAt (2 * es₁.length + 1) v)⟩
        (es₁ ++ (s, v.val) :: es₂) ∧
      lookup (es₁ ++ (s, v.val) :: es₂) =
        update (lookup (es₁ ++ (s, w) :: es₂)) s.units (some v.val) := by
  have ⟨h₁, h₂, hdistinct⟩ := h.distinct.around
  constructor
  · refine ⟨h.entries.replace hv, ?_, ?_⟩
    · apply hdistinct.put
      intro e he
      rw [mem_append] at he
      exact he.elim (h₁ e) (h₂ e)
    · intro e he
      rw [mem_append, mem_cons] at he
      rcases he with he | he | he
      · exact h.json e (mem_append_left _ he)
      · simp [he, hjson]
      · exact h.json e (mem_append_right _ (mem_cons_of_mem _ he))
  · rw [lookup_put h₁, lookup_put h₁, update_idem]

theorem Holds.insert (h : Holds object es) (hpart : object.Partitioned key) (v : QCborValue) :
    Is (object.insertImpl key v) ((lookup es).put key v) := by
  have ⟨hrefers, _, hjson⟩ := fromJsonValue_spec v
  unfold insertImpl Map.put
  by_cases hundefined : JsonType.convertFromCborType v.type = .undefined
  · rw [if_pos hundefined, if_pos hundefined]
    exact h.remove hpart
  rw [if_neg hundefined, if_neg hundefined]
  have hpos : object.position key = indexOf (object.o.getD .empty) key := by
    obtain ⟨o⟩ := object
    cases o with
    | none => rfl
    | some o => rfl
  rcases h.find hpart with ⟨es₁, es₂, hes, hne, hidx⟩ | ⟨es₁, s, w, es₂, hes, hkey, hidx, hsome⟩
  · rw [hes] at h hne ⊢
    have ⟨s, _, hholds, hlookup⟩ := h.insertNew hne hrefers (hjson hundefined)
    refine ⟨_, ?_, hlookup⟩
    simp only
    rw [hpos, hidx]
    exact hholds
  · rw [hes] at h ⊢
    have ⟨hholds, hlookup⟩ := h.replaceOld hrefers (hjson hundefined)
    refine ⟨_, ?_, by rw [hlookup, hkey]⟩
    simp only
    rw [hpos, hidx]
    exact hholds

/-- After `operator[]` the key is there, with the value it had or null. -/
theorem Holds.at (h : Holds object es) (hpart : object.Partitioned key) : ∃ es₁ s w es₂,
    s.units = key ∧ w = (lookup es key).getD (.value .null 0) ∧
      Holds (object.atImpl key).1 (es₁ ++ (s, w) :: es₂) ∧
      (object.atImpl key).1.o.isSome ∧ (object.atImpl key).2 = es₁.length ∧
      lookup (es₁ ++ (s, w) :: es₂) = update (lookup es) key (some w) := by
  unfold atImpl
  simp only
  rcases h.find hpart with ⟨es₁, es₂, hes, hne, hidx⟩ | ⟨es₁, s, w, es₂, hes, hkey, hidx, hsome⟩
  · rw [hidx]
    simp only [Bool.false_eq_true, if_false]
    rw [lookup_eq_none hne]
    rw [hes] at h hne ⊢
    have hrefers : (fromJsonValue (.value .null 0)).Refers := trivial
    have ⟨s, hs, hholds, hlookup⟩ := h.insertNew hne hrefers (.simple 0 (.inl rfl))
    exact ⟨es₁, s, .value .null 0, es₂, hs, rfl, hholds, rfl, by omega, hlookup⟩
  · rw [hidx]
    simp only [if_true]
    rw [hes] at h ⊢
    have hat := lookup_at h.distinct
    rw [hkey] at hat
    refine ⟨es₁, s, w, es₂, hkey, by rw [hat]; rfl, ?_, rfl, by omega, ?_⟩
    · obtain ⟨o⟩ := object
      cases o with
      | none => cases hsome
      | some o => exact h
    · rw [← hat, update_eq_self]

theorem Holds.subscript (h : Holds object es) (hpart : object.Partitioned key) :
    ((object.atImpl key).1.valueOfRef (object.atImpl key).2).val =
        (lookup es key).getD (.value .null 0) ∧
      Is (object.atImpl key).1
        (update (lookup es) key (some ((lookup es key).getD (.value .null 0)))) := by
  have ⟨es₁, s, w, es₂, _, hw, hholds, hsome, hidx, hlookup⟩ := h.at hpart
  rw [← hw, hidx]
  refine ⟨?_, _, hholds, hlookup⟩
  have hentries := hholds.entries
  have hjson := hholds.json (s, w) (by simp)
  unfold valueOfRef
  obtain ⟨o, ho⟩ := isSome_iff_exists.mp hsome
  rw [ho] at hentries ⊢
  rw [Nat.mul_comm]
  exact hentries.valueAt hjson

theorem Holds.assign (h : Holds object es) (hpart : object.Partitioned key) (v : QCborValue) :
    Is ((object.atImpl key).1.assignToRef (object.atImpl key).2 v) ((lookup es).put key v) := by
  have ⟨es₁, s, w, es₂, hkey, _, hholds, hsome, hidx, hlookup⟩ := h.at hpart
  have ⟨hrefers, htype, hjson⟩ := fromJsonValue_spec v
  obtain ⟨o, ho⟩ := isSome_iff_exists.mp hsome
  have hobject : (object.atImpl key).1 = ⟨some o⟩ := by rw [← ho]
  rw [hobject] at hholds ⊢
  rw [hidx]
  unfold assignToRef Map.put
  simp only
  have hsub : es₁.length * 2 + 1 - 1 = 2 * es₁.length := by omega
  by_cases hundefined : JsonType.convertFromCborType v.type = .undefined
  · rw [if_pos (htype.mpr hundefined), if_pos hundefined, hsub, Nat.mul_comm]
    refine ⟨es₁ ++ es₂, hholds.removeAt, ?_⟩
    rw [lookup_drop hholds.distinct, hlookup, hkey, update_idem]
  · rw [if_neg fun h => hundefined (htype.mp h), if_neg hundefined, Nat.mul_comm]
    have ⟨hholds', hlookup'⟩ := hholds.replaceOld hrefers (hjson hundefined)
    refine ⟨_, hholds', ?_⟩
    rw [hlookup', hlookup, hkey, update_idem]

/-- A call on an object is the call on the map that it is. -/
theorem step_is {m : Map} (h : Is object m) (op : Op) (hpart : object.Partitioned op.key) :
    Is (object.step op).1 (m.step op).1 ∧ (object.step op).2 = (m.step op).2 := by
  obtain ⟨es, h, hm⟩ := h
  rw [← hm]
  cases op with
  | insert key v => exact ⟨h.insert hpart v, rfl⟩
  | subscript key =>
    have ⟨hvalue, his⟩ := h.subscript hpart
    exact ⟨his, congrArg Answer.value hvalue⟩
  | assign key v => exact ⟨h.assign hpart v, rfl⟩
  | remove key => exact ⟨h.remove hpart, rfl⟩
  | take key =>
    have ⟨hvalue, his⟩ := h.take hpart
    exact ⟨his, congrArg Answer.value hvalue⟩
  | value key => exact ⟨⟨es, h, rfl⟩, congrArg Answer.value (h.value hpart)⟩
  | contains key => exact ⟨⟨es, h, rfl⟩, congrArg Answer.bool (h.contains hpart)⟩

/-! ## Runs -/

/-- Calls, and what they return. -/
def run (object : QJsonObject) : List Op → QJsonObject × List Answer
  | [] => (object, [])
  | op :: ops =>
    let (object, answer) := object.step op
    let (object, answers) := object.run ops
    (object, answer :: answers)

def Map.run (m : Map) : List Op → Map × List Answer
  | [] => (m, [])
  | op :: ops =>
    let (m, answer) := m.step op
    let (m, answers) := m.run ops
    (m, answer :: answers)

/-- Each call is given a key that the stored ones are in an order with. -/
def Orderly (object : QJsonObject) : List Op → Prop
  | [] => True
  | op :: ops => object.Partitioned op.key ∧ (object.step op).1.Orderly ops

theorem run_is {m : Map} (h : Is object m) (ops : List Op) (hops : object.Orderly ops) :
    Is (object.run ops).1 (m.run ops).1 ∧ (object.run ops).2 = (m.run ops).2 := by
  induction ops generalizing object m with
  | nil => exact ⟨h, rfl⟩
  | cons op ops ih =>
    have ⟨hstep, hanswer⟩ := step_is h op hops.1
    have ⟨hrun, hanswers⟩ := ih hstep hops.2
    refine ⟨hrun, ?_⟩
    show (object.step op).2 :: ((object.step op).1.run ops).2 = _
    rw [hanswer, hanswers]
    rfl

end QJsonObject

end QtBase
