import QtBase.Serialization.CborContainer
import Mathlib.Data.List.InsertIdx

/-! What a container holds, without offsets: every string with its own bytes. The operations on
containers are stated on these values. -/
namespace QtBase

open QtCbor List

/-- An element together with what it refers to. -/
inductive Val
  | value (type : CborType) (n : Int64)
  | bytes (type : CborType) (utf16 ascii : Bool) (b : List UInt8)
  | container (type : CborType) (elements : List Val)

namespace QCborContainerPrivate

mutual

def vals : QCborContainerPrivate → List Val
  | .mk data elements => valsOf data elements

def valsOf (data : List Cell) : List Element → List Val
  | [] => []
  | e :: elements => elementVal data e :: valsOf data elements

def elementVal (data : List Cell) : Element → Val
  | ⟨payload, type⟩ => payloadVal data type payload

def payloadVal (data : List Cell) (type : CborType) : Payload QCborContainerPrivate → Val
  | .value n => .value type n
  | .byteData offset utf16 ascii => .bytes type utf16 ascii ((byteDataAt data offset).getD [])
  | .container d => .container type d.vals

end

theorem valsOf_eq_map (data : List Cell) (elements : List Element) :
    valsOf data elements = elements.map (elementVal data) := by
  induction elements with
  | nil => rfl
  | cons e elements ih =>
    unfold valsOf
    rw [map_cons, ih]

theorem vals_eq_map (c : QCborContainerPrivate) : c.vals = c.elements.map (elementVal c.data) := by
  cases c with
  | mk data elements =>
    unfold vals
    exact valsOf_eq_map data elements

@[simp] theorem data_mk (data : List Cell) (elements : List Element) :
    (mk data elements).data = data := rfl

@[simp] theorem elements_mk (data : List Cell) (elements : List Element) :
    (mk data elements).elements = elements := rfl

@[simp] theorem length_vals (c : QCborContainerPrivate) : c.vals.length = c.elements.length := by
  rw [vals_eq_map, length_map]

/-! ## Records -/

/-- The byte data of the element, if it has any, is in the memory block as a whole. -/
def Element.InData (data : List Cell) (e : Element) : Prop :=
  ∀ offset utf16 ascii, e.payload = .byteData offset utf16 ascii →
    ∃ b, byteDataAt data offset = some b

/-- Every element that has byte data refers to a complete record. -/
def HasRecords (c : QCborContainerPrivate) : Prop := ∀ e ∈ c.elements, Element.InData c.data e

theorem hasRecords_empty : HasRecords empty := fun _ he => by cases he

theorem byteDataAt_append {data : List Cell} {offset : ℕ} {b : List UInt8}
    (h : byteDataAt data offset = some b) (more : List Cell) :
    byteDataAt (data ++ more) offset = some b := by
  unfold byteDataAt at h ⊢
  cases hcell : data[offset]? with
  | none =>
    rw [hcell] at h
    cases h
  | some cell =>
    have hlt : offset < data.length := (List.getElem?_eq_some_iff.mp hcell).1
    rw [List.getElem?_append_left hlt, hcell]
    rw [hcell] at h
    cases cell with
    | byte b => cases h
    | len n =>
      simp only at h ⊢
      by_cases hfit : offset + sizeofByteData + n ≤ data.length
      · rw [if_pos hfit] at h
        have hfit' : offset + sizeofByteData + n ≤ (data ++ more).length := by
          simp
          omega
        rw [if_pos hfit', ← h, drop_append_of_le_length (by omega),
          take_append_of_le_length (by rw [length_drop]; omega)]
      · rw [if_neg hfit] at h
        cases h

theorem length_byteDataCells (block : List UInt8) :
    (byteDataCells block).length = sizeofByteData + block.length := by
  unfold byteDataCells sizeofByteData
  simp
  omega

theorem byteDataAt_byteDataCells (before : List Cell) (block : List UInt8) :
    byteDataAt (before ++ byteDataCells block) before.length = some block := by
  have hcell : (before ++ byteDataCells block)[before.length]? = some (.len block.length) := by
    rw [List.getElem?_append_right (Nat.le_refl _), Nat.sub_self]
    rfl
  have hdrop : (before ++ byteDataCells block).drop (before.length + sizeofByteData) =
      block.map .byte := by
    rw [← drop_drop, drop_left]
    rfl
  have hmap : (block.map Cell.byte).map Cell.toByte = block := by
    rw [map_map]
    exact map_id block
  unfold byteDataAt
  rw [hcell]
  simp only
  have hfit : before.length + sizeofByteData + block.length ≤
      (before ++ byteDataCells block).length := by
    apply Nat.le_of_eq
    rw [length_append, length_byteDataCells, Nat.add_assoc]
  rw [if_pos hfit, hdrop, take_of_length_le (Nat.le_of_eq (length_map _)), hmap]

theorem le_alignedOffset (size : ℕ) : size ≤ alignedOffset size := by
  unfold alignedOffset sizeofByteData
  omega

theorem addByteData_spec (data : List Cell) (block : List UInt8) : ∃ more,
    (addByteData data block).2 = data ++ more ∧
      byteDataAt (data ++ more) (addByteData data block).1 = some block := by
  have hlen : (data ++ List.replicate (alignedOffset data.length - data.length) (Cell.byte 0)).length =
      alignedOffset data.length := by
    have hle := le_alignedOffset data.length
    simp
    omega
  have hrec := byteDataAt_byteDataCells
    (data ++ List.replicate (alignedOffset data.length - data.length) (Cell.byte 0)) block
  rw [hlen] at hrec
  refine ⟨List.replicate (alignedOffset data.length - data.length) (Cell.byte 0) ++
    byteDataCells block, ?_, ?_⟩
  · unfold addByteData
    rw [← append_assoc]
  · rw [← append_assoc]
    exact hrec

theorem Element.InData.append {data : List Cell} {e : Element} (h : Element.InData data e)
    (more : List Cell) : Element.InData (data ++ more) e := by
  intro offset utf16 ascii hp
  have ⟨b, hb⟩ := h offset utf16 ascii hp
  exact ⟨b, byteDataAt_append hb more⟩

theorem elementVal_append {data : List Cell} {e : Element} (h : Element.InData data e)
    (more : List Cell) : elementVal (data ++ more) e = elementVal data e := by
  obtain ⟨payload, type⟩ := e
  unfold elementVal
  cases payload with
  | value n => rfl
  | container d => rfl
  | byteData offset utf16 ascii =>
    have ⟨b, hb⟩ := h offset utf16 ascii rfl
    unfold payloadVal
    rw [hb, byteDataAt_append hb more]

theorem HasRecords.map_append {c : QCborContainerPrivate} (h : c.HasRecords) (more : List Cell) :
    c.elements.map (elementVal (c.data ++ more)) = c.vals := by
  rw [vals_eq_map]
  apply map_congr_left
  intro e he
  exact elementVal_append (h e he) more

/-! ## Values -/

end QCborContainerPrivate

open QCborContainerPrivate

namespace QCborValue

def val : QCborValue → Val
  | .value type n => .value type (if type = .array ∨ type = .map then 0 else n)
  | .element type d n => (d.vals[n]?).getD (.value type 0)
  | .container type d => .container type d.vals

/-- A string, the bytes of which are where it says. -/
def Refers : QCborValue → Prop
  | .element _ d n => ∃ e offset utf16 ascii b, d.elements[n]? = some e ∧
      e.payload = .byteData offset utf16 ascii ∧ byteDataAt d.data offset = some b
  | _ => True

end QCborValue

namespace QCborContainerPrivate

variable {c : QCborContainerPrivate} {v : QCborValue}

theorem elementFor_spec (data : List Cell) (hv : v.Refers) : ∃ e more,
    elementFor data v = (e, data ++ more) ∧ Element.InData (data ++ more) e ∧
      elementVal (data ++ more) e = v.val := by
  cases v with
  | value type n =>
    refine ⟨⟨.value (if type = .array ∨ type = .map then 0 else n), type⟩, [], ?_, ?_, ?_⟩
    · rw [append_nil]
      rfl
    · intro offset utf16 ascii hp
      cases hp
    · rfl
  | container type d =>
    refine ⟨⟨.container d, type⟩, [], ?_, ?_, ?_⟩
    · rw [append_nil]
      rfl
    · intro offset utf16 ascii hp
      cases hp
    · rfl
  | element type d n =>
    obtain ⟨e, offset, utf16, ascii, b, he, hp, hb⟩ := hv
    have ⟨more, hdata, hrec⟩ := addByteData_spec data b
    have hbyte : d.byteData e = some b := by
      unfold byteData
      rw [hp]
      exact hb
    refine ⟨⟨.byteData (addByteData data b).1 utf16 ascii, e.type⟩, more, ?_, ?_, ?_⟩
    · unfold elementFor
      simp only [he, hp, hbyte]
      rw [← hdata]
    · intro offset' utf16' ascii' hp'
      cases hp'
      exact ⟨b, hrec⟩
    · have hval : (QCborValue.element type d n).val = elementVal d.data e := by
        show (d.vals[n]?).getD _ = _
        rw [vals_eq_map, List.getElem?_map, he]
        rfl
      obtain ⟨payload, etype⟩ := e
      simp only at hp
      subst hp
      rw [hval]
      unfold elementVal payloadVal
      rw [hrec, hb]

theorem insertAt_spec (h : c.HasRecords) (hv : v.Refers) {idx : ℕ}
    (hidx : idx ≤ c.elements.length) :
    (c.insertAt idx v).vals = c.vals.insertIdx idx v.val ∧ (c.insertAt idx v).HasRecords := by
  have ⟨e, more, helem, hin, hval⟩ := elementFor_spec c.data hv
  unfold insertAt
  rw [helem]
  constructor
  · rw [vals_eq_map, data_mk, elements_mk, map_insertIdx, h.map_append, hval]
  · intro e' he'
    rw [elements_mk, mem_insertIdx hidx] at he'
    rcases he' with he' | he'
    · rw [he']
      exact hin
    · exact (h e' he').append more

theorem append_spec (h : c.HasRecords) (hv : v.Refers) :
    (c.append v).vals = c.vals ++ [v.val] ∧ (c.append v).HasRecords := by
  have ⟨hvals, hrec⟩ := insertAt_spec h hv (Nat.le_refl c.elements.length)
  unfold append
  refine ⟨?_, hrec⟩
  rw [hvals, ← length_vals, insertIdx_length_self]

theorem replaceAt_spec (h : c.HasRecords) (hv : v.Refers) (idx : ℕ) :
    (c.replaceAt idx v).vals = c.vals.set idx v.val ∧ (c.replaceAt idx v).HasRecords := by
  have ⟨e, more, helem, hin, hval⟩ := elementFor_spec c.data hv
  unfold replaceAt
  rw [helem]
  constructor
  · rw [vals_eq_map, data_mk, elements_mk, map_set, h.map_append, hval]
  · intro e' he'
    rcases mem_or_eq_of_mem_set he' with he' | he'
    · exact (h e' he').append more
    · rw [he']
      exact hin

theorem removeAt_spec (h : c.HasRecords) (idx : ℕ) :
    (c.removeAt idx).vals = c.vals.eraseIdx idx ∧ (c.removeAt idx).HasRecords := by
  have hrefers : (QCborValue.value .undefined 0).Refers := trivial
  have ⟨hvals, hrec⟩ := replaceAt_spec h hrefers idx
  unfold removeAt
  constructor
  · rw [vals_eq_map, data_mk, elements_mk, ← eraseIdx_map, ← vals_eq_map, hvals]
    exact eraseIdx_set_eq
  · intro e he
    exact hrec e ((eraseIdx_sublist _ idx).subset he)

theorem appendByteData_spec (h : c.HasRecords) (block : List UInt8) (type : CborType)
    (utf16 ascii : Bool) :
    (c.appendByteData block type utf16 ascii).vals = c.vals ++ [.bytes type utf16 ascii block] ∧
      (c.appendByteData block type utf16 ascii).HasRecords := by
  have ⟨more, hdata, hrec⟩ := addByteData_spec c.data block
  unfold appendByteData
  simp only
  rw [hdata]
  constructor
  · rw [vals_eq_map, data_mk, elements_mk, map_append, h.map_append]
    unfold List.map elementVal payloadVal
    rw [hrec]
    rfl
  · intro e he
    rw [elements_mk, mem_append, mem_singleton] at he
    rcases he with he | he
    · exact (h e he).append more
    · intro offset' utf16' ascii' hp
      rw [he] at hp
      cases hp
      exact ⟨block, hrec⟩

end QCborContainerPrivate

end QtBase
