import QtBase.Serialization.QJsonObject
import QtBase.Serialization.JsonSort

/-! Where `QJsonObject` finds a key. The keys that the binary search passes have to be in an order
with the key it looks for. -/
namespace QtBase

open QtCbor Json JsonParser Unicode QCborContainerPrivate List Option UInt16

/-! ## Stored strings -/

theorem getElem?_vals (c : QCborContainerPrivate) (i : ℕ) :
    c.vals[i]? = (c.elements[i]?).map (elementVal c.data) := by
  rw [vals_eq_map, getElem?_map]

variable {c : QCborContainerPrivate}

theorem type_of_elementVal {e : Element} {type : CborType} {utf16 ascii : Bool} {b : List UInt8}
    (h : elementVal c.data e = .bytes type utf16 ascii b) :
    e.type = type := by
  obtain ⟨payload, etype⟩ := e
  unfold elementVal payloadVal at h
  cases payload with
  | value n => cases h
  | container d => cases h
  | byteData offset utf16' ascii' =>
    simp only [Val.bytes.injEq] at h
    exact h.1

theorem ascii_chars {key : List UInt16} (h : isAscii key = true) : ∃ cs : List Char,
    utf16 cs = key ∧ utf8 cs = key.map toUInt8 ∧
      (cs.all fun c => !decide (c.val > 0x7f)) = true := by
  induction key with
  | nil => exact ⟨[], rfl, rfl, rfl⟩
  | cons u key ih =>
    unfold isAscii at h
    rw [all_cons, Bool.and_eq_true, decide_eq_true_iff] at h
    have hlt : u.toNat < 0x80 := lt_iff_toNat_lt.mp h.1
    have hbyte : u.toUInt8.toNat = u.toNat := by
      rw [toNat_toUInt8]
      omega
    have ⟨cs, h16, h8, hall⟩ := ih h.2
    have ⟨c, hc, hval⟩ := exists_utf16_singleton (u := u) (by unfold High; omega) (by unfold Low; omega)
    have hc8 := utf8EncodeChar_one (c := c) (b := u.toUInt8) (by omega) (by omega)
    refine ⟨c :: cs, ?_, ?_, ?_⟩
    · rw [utf16_cons, hc, h16]
      rfl
    · rw [utf8_cons, hc8, h8]
      rfl
    · have hle : ¬ c.val > 0x7f := by
        rw [gt_iff_lt, UInt32.lt_iff_toNat_lt]
        show ¬ 0x7f < c.val.toNat
        omega
      rw [all_cons, hall, decide_eq_false hle]
      rfl

theorem ofString_spec (key : List UInt16) : ∃ s : Str, s.units = key ∧
    (QCborValue.ofString key).Refers ∧ (QCborValue.ofString key).val = s.val := by
  have hof : ∀ (b : List UInt8) (utf16 ascii : Bool),
      (QCborValue.element .string (QCborContainerPrivate.empty.appendByteData b .string utf16 ascii)
        0).Refers ∧
      (QCborValue.element .string (QCborContainerPrivate.empty.appendByteData b .string utf16 ascii)
        0).val = .bytes .string utf16 ascii b := by
    intro b utf16 ascii
    have ⟨hvals, hrec⟩ := appendByteData_spec hasRecords_empty b .string utf16 ascii
    constructor
    · have helem : (QCborContainerPrivate.empty.appendByteData b .string utf16 ascii).elements[0]? =
          some ⟨.byteData (addByteData [] b).1 utf16 ascii, .string⟩ := rfl
      have ⟨b', hb'⟩ := hrec _ (mem_of_getElem? helem) _ _ _ rfl
      exact ⟨_, _, utf16, ascii, b', helem, rfl, hb'⟩
    · show ((QCborContainerPrivate.empty.appendByteData b .string utf16 ascii).vals[0]?).getD
        (.value .string 0) = _
      rw [hvals]
      rfl
  unfold QCborValue.ofString appendString
  by_cases hascii : isAscii key = true
  · have ⟨cs, h16, h8, hall⟩ := ascii_chars hascii
    refine ⟨.plain cs, h16, ?_⟩
    rw [if_pos hascii]
    unfold appendAsciiString
    show _ ∧ _ = Val.bytes .string false (cs.all fun c => !decide (c.val > 0x7f)) (utf8 cs)
    rw [h8, hall]
    exact hof _ false true
  · refine ⟨.escaped key, rfl, ?_⟩
    rw [if_neg hascii]
    exact hof _ true false

theorem stringCompareElement_tells {e : Element} {s : Str} (hin : Element.InData c.data e)
    (h : elementVal c.data e = s.val) (key : List UInt16) :
    Tells (c.stringCompareElement e key) (s.rank s.isEscaped)
      ((Str.escaped key).rank s.isEscaped) := by
  unfold stringCompareElement
  cases s with
  | plain cs =>
    have ⟨hb, hu⟩ := byteData_of_elementVal hin h
    rw [if_neg (not_not_intro (type_of_elementVal h)), hb]
    simp only
    rw [hu]
    show Tells (compareUtf8 (utf8 cs) key) (codePoints (utf16 cs)) (codePoints key)
    rw [codePoints_utf16]
    exact compareUtf8_tells cs key
  | escaped units =>
    have ⟨hb, hu⟩ := byteData_of_elementVal hin h
    rw [if_neg (not_not_intro (type_of_elementVal h)), hb]
    simp only
    rw [hu]
    show Tells (compareStrings (asStringView (utf16Bytes units)) key) (units.map toNat)
      (key.map toNat)
    rw [asStringView_utf16Bytes]
    exact compareStrings_tells units key

theorem stringCompareElement_lt {e : Element} {s : Str} (hin : Element.InData c.data e)
    (h : elementVal c.data e = s.val) (key : List UInt16) :
    c.stringCompareElement e key < 0 ↔ s.Before (.escaped key) := by
  have hand : (s.isEscaped && (Str.escaped key).isEscaped) = s.isEscaped := Bool.and_true _
  rw [(stringCompareElement_tells hin h key).lt]
  unfold Str.Before
  rw [hand]

theorem stringCompareElement_eq {e : Element} {s : Str} (hin : Element.InData c.data e)
    (h : elementVal c.data e = s.val) (key : List UInt16) :
    c.stringCompareElement e key = 0 ↔ s.units = key := by
  rw [(stringCompareElement_tells hin h key).eq]
  exact ⟨Str.rank_injective, fun h => Str.rank_congr h⟩

/-! ## Entries -/

namespace QJsonObject

/-- The keys and values by turns. -/
def flatten (es : List (Str × Val)) : List Val := es.flatMap fun e => [e.1.val, e.2]

theorem flatten_append (es es' : List (Str × Val)) : flatten (es ++ es') = flatten es ++ flatten es' :=
  flatMap_append

theorem flatten_cons (s : Str) (v : Val) (es : List (Str × Val)) :
    flatten ((s, v) :: es) = s.val :: v :: flatten es := rfl

theorem length_flatten (es : List (Str × Val)) : (flatten es).length = 2 * es.length := by
  induction es with
  | nil => rfl
  | cons e es ih =>
    rw [flatten_cons, length_cons, length_cons, ih, length_cons]
    omega

theorem getElem?_flatten (es : List (Str × Val)) (i : ℕ) :
    (flatten es)[2 * i]? = (es[i]?).map fun e => e.1.val := by
  induction es generalizing i with
  | nil => rfl
  | cons e es ih =>
    cases i with
    | zero => rfl
    | succ i =>
      have hidx : 2 * (i + 1) = 2 * i + 1 + 1 := by omega
      rw [flatten_cons, hidx, getElem?_cons_succ, getElem?_cons_succ, ih,
        getElem?_cons_succ]

/-- The container of an object with these entries. -/
structure Entries (o : QCborContainerPrivate) (es : List (Str × Val)) : Prop where
  records : o.HasRecords
  vals : o.vals = flatten es

/-- The comparisons of a key with the stored ones put it in one place: those it is behind come
first, and those it is before come last. -/
def Splits (key : List UInt16) (es : List (Str × Val)) : Prop :=
  es.Pairwise fun a b => (b.1.Before (.escaped key) → a.1.Before (.escaped key)) ∧
    ((Str.escaped key).Before a.1 → (Str.escaped key).Before b.1)

variable {o : QCborContainerPrivate} {es : List (Str × Val)} {key : List UInt16}

theorem Entries.length (h : Entries o es) : o.elements.length = 2 * es.length := by
  rw [← length_vals, h.vals, length_flatten]

/-- The element of a key. -/
theorem Entries.keyAt (h : Entries o es) {i : ℕ} (hi : i < es.length) : ∃ e,
    o.elements[2 * i]? = some e ∧ Element.InData o.data e ∧ elementVal o.data e = es[i].1.val := by
  have hlt : 2 * i < o.elements.length := by
    rw [h.length]
    omega
  have hval := getElem?_vals o (2 * i)
  rw [h.vals, getElem?_flatten, getElem?_eq_getElem hi, getElem?_eq_getElem hlt,
    map_some, map_some, some.injEq] at hval
  exact ⟨_, getElem?_eq_getElem hlt, h.records _ (getElem_mem hlt), hval.symm⟩

/-- The entries before a key are a prefix. -/
theorem Splits.prefix (h : Splits key es) : ∃ es₁ es₂, es = es₁ ++ es₂ ∧
    (∀ e ∈ es₁, e.1.Before (.escaped key)) ∧ ∀ e ∈ es₂, ¬ e.1.Before (.escaped key) := by
  induction es with
  | nil => exact ⟨[], [], rfl, fun _ he => absurd he not_mem_nil,
      fun _ he => absurd he not_mem_nil⟩
  | cons e es ih =>
    unfold Splits at h
    rw [pairwise_cons] at h
    by_cases hbefore : e.1.Before (.escaped key)
    · have ⟨es₁, es₂, hes, h₁, h₂⟩ := ih h.2
      refine ⟨e :: es₁, es₂, ?_, ?_, h₂⟩
      · rw [hes]
        rfl
      · intro e' he'
        rw [mem_cons] at he'
        rcases he' with he' | he'
        · simp [he', hbefore]
        · exact h₁ e' he'
    · refine ⟨[], e :: es, rfl, fun _ he => absurd he not_mem_nil, ?_⟩
      intro e' he'
      rw [mem_cons] at he'
      rcases he' with he' | he'
      · simp [he', hbefore]
      · exact fun hb => hbefore ((h.1 e' he').1 hb)

theorem indexOf_spec (h : Entries o es) (hsplit : Splits key es) :
    (∃ es₁ es₂, es = es₁ ++ es₂ ∧ (∀ e ∈ es, e.1.units ≠ key) ∧
      indexOf o key = (2 * es₁.length, false)) ∨
    ∃ es₁ s v es₂, es = es₁ ++ (s, v) :: es₂ ∧ s.units = key ∧
      indexOf o key = (2 * es₁.length, true) := by
  have ⟨es₁, es₂, hes, h₁, h₂⟩ := hsplit.prefix
  have hsize : o.elements.length / 2 = es.length := by
    rw [h.length]
    omega
  have hlen : es.length = es₁.length + es₂.length := by
    rw [hes, length_append]
  have hat : ∀ i (hi : i < es.length), ∀ e, o.elements[2 * i]? = some e →
      (o.stringCompareElement e key < 0 ↔ es[i].1.Before (.escaped key)) ∧
      (o.stringCompareElement e key = 0 ↔ es[i].1.units = key) := by
    intro i hi e he
    have ⟨e', he', hin, hval⟩ := h.keyAt hi
    rw [he', some.injEq] at he
    rw [← he]
    exact ⟨stringCompareElement_lt hin hval key, stringCompareElement_eq hin hval key⟩
  have hbound : lowerBound (isBefore o key) es.length 0 es.length = es₁.length := by
    apply lowerBound_eq (Nat.le_refl _) (Nat.zero_le _) (by omega)
    · intro i hi
      have hi' : i < es.length := by omega
      have ⟨e, he, _⟩ := h.keyAt hi'
      unfold isBefore
      rw [he]
      simp only
      rw [decide_eq_true_iff, (hat i hi' e he).1]
      simp only [hes, getElem_append_left hi]
      exact h₁ _ (getElem_mem hi)
    · intro i hi hi'
      rw [Nat.zero_add] at hi'
      have ⟨e, he, _⟩ := h.keyAt hi'
      unfold isBefore
      rw [he]
      simp only
      rw [decide_eq_false_iff_not, (hat i hi' e he).1]
      simp only [hes, getElem_append_right hi]
      exact h₂ _ (getElem_mem _)
  unfold indexOf
  simp only
  rw [hsize, hbound]
  unfold isAt
  rw [hsize]
  cases hes₂ : es₂ with
  | nil =>
    left
    rw [hes₂, length_nil] at hlen
    refine ⟨es₁, [], by rw [hes, hes₂], ?_, ?_⟩
    · intro e he hkey
      rw [hes, hes₂, append_nil] at he
      exact Str.not_before_of_units hkey (h₁ e he)
    · have hnone : o.elements[2 * es₁.length]? = none := by
        rw [getElem?_eq_none_iff, h.length]
        omega
      rw [hnone]
  | cons e₂ es₂' =>
    obtain ⟨s, v⟩ := e₂
    have hlt : es₁.length < es.length := by
      simp [hlen, hes₂]
    have ⟨e, he, _⟩ := h.keyAt hlt
    have hget : es[es₁.length] = (s, v) := by
      simp only [hes, hes₂]
      rw [getElem_append_right (Nat.le_refl _)]
      simp
    have hcmp := (hat _ hlt e he).2
    rw [hget] at hcmp
    rw [he]
    simp only
    by_cases hkey : s.units = key
    · right
      refine ⟨es₁, s, v, es₂', by rw [hes, hes₂], hkey, ?_⟩
      rw [hcmp.mpr hkey, bne_iff_ne.mpr (Nat.ne_of_lt hlt)]
      rfl
    · left
      refine ⟨es₁, (s, v) :: es₂', by rw [hes, hes₂], ?_, ?_⟩
      · have hs : (Str.escaped key).Before s := by
          by_contra hnot
          have hs₂ : ¬ s.Before (.escaped key) := by
            apply h₂ (s, v)
            simp [hes₂]
          exact hkey (Str.units_of_not_before hs₂ hnot)
        intro e' he' hkey'
        rw [hes, hes₂, mem_append, mem_cons] at he'
        rcases he' with he' | he' | he'
        · exact Str.not_before_of_units hkey' (h₁ e' he')
        · rw [he'] at hkey'
          exact hkey hkey'
        · unfold Splits at hsplit
          rw [hes, hes₂, pairwise_append, pairwise_cons] at hsplit
          have hbefore := (hsplit.2.1.1 e' he').2 hs
          have hunits : (Str.escaped key).units = e'.1.units := hkey'.symm
          exact Str.not_before_of_units hunits hbefore
      · have hne : ¬ o.stringCompareElement e key = 0 := fun h0 => hkey (hcmp.mp h0)
        rw [beq_eq_false_iff_ne.mpr hne, Bool.and_false]

end QJsonObject

end QtBase
