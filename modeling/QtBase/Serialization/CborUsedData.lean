import QtBase.Serialization.CborView
import QtBase.Text.Utf8
import Mathlib.Algebra.BigOperators.Group.List.Basic
import Mathlib.Algebra.Order.Ring.Int

/-! `QCborContainerPrivate::usedData`, the bytes of the memory block that elements still use. -/
namespace QtBase

open QtCbor QCborContainerPrivate List

/-- A container with its counter. -/
structure CountedContainer where
  usedData : ℤ
  container : QCborContainerPrivate

/-- What a `QCborStreamReader` that stands at a string gives: the size of the chunk to come, and
each chunk with the size that is announced behind it. -/
structure StringReader where
  lastError : Bool
  isByteArray : Bool
  isLengthKnown : Bool
  currentStringChunkSize : ℤ
  chunks : List (List UInt8 × ℤ)
  /-- Behind the last chunk is the end of the string, and no error. -/
  ends : Bool

/-- The loop that reads the chunks: whether the string ends, the memory block, and `isAscii`. -/
def readChunks (simd : Simd QUtf8.AsciiByte) (isString ends : Bool) :
    ℤ → List (List UInt8 × ℤ) → List Cell → Bool → Bool × List Cell × Bool
  | _, [], data, isAscii => (ends, data, isAscii)
  | len, (bytes, rawlen) :: chunks, data, isAscii =>
    let data := data ++ bytes.map .byte
    if isString && len != 0 then
      let utf8result := QUtf8.isValidUtf8 simd
        ((data.drop (data.length - len.toNat)).map Cell.toByte)
      if !utf8result.isValidUtf8 then (false, data, isAscii)
      else readChunks simd isString ends rawlen chunks data (isAscii && utf8result.isValidAscii)
    else readChunks simd isString ends rawlen chunks data isAscii

namespace CountedContainer

variable (c : CountedContainer)

/-- The memory block and the elements written, with the counter as it is. -/
def store (data : List Cell) (elements : List Element) : CountedContainer where
  usedData := c.usedData
  container := .mk data elements

/-- What the byte data of an element takes, with its header. -/
def recordSize (c : QCborContainerPrivate) (idx : ℕ) : ℤ :=
  match c.elements[idx]?.bind c.byteData with
  | some b => sizeofByteData + b.length
  | none => 0

def appendByteData (block : List UInt8) (type : CborType) (utf16 ascii : Bool) :
    CountedContainer where
  usedData := c.usedData + (sizeofByteData + block.length)
  container := c.container.appendByteData block type utf16 ascii

/-- `append` of a plain value, and `decodeBasicValueFromCbor`. -/
def append (type : CborType) (n : Int64) : CountedContainer :=
  c.store c.container.data (c.container.elements ++ [⟨.value n, type⟩])

/-- What `replaceAt_complex` adds by `addByteData`. -/
def added : QCborValue → ℤ
  | .element _ d n => recordSize d n
  | _ => 0

def insertAt (idx : ℕ) (value : QCborValue) : CountedContainer where
  usedData := c.usedData + added value
  container := c.container.insertAt idx value

def replaceAt (idx : ℕ) (value : QCborValue) : CountedContainer where
  usedData := c.usedData - recordSize c.container idx + added value
  container := c.container.replaceAt idx value

def removeAt (idx : ℕ) : CountedContainer where
  usedData := (c.replaceAt idx (.value .undefined 0)).usedData
  container := c.container.removeAt idx

/-- Whether `extractAt_complex` copies the byte data, and does not share the memory block. -/
def copies (b : List UInt8) : Bool := b.length + sizeofByteData < c.container.data.length / 4

def extractAt (idx : ℕ) : CountedContainer where
  usedData := match c.container.elements[idx]?.bind c.container.byteData with
    | some b => if c.copies b then c.usedData - (b.length + sizeofByteData) else c.usedData
    | none => c.usedData
  container := .mk c.container.data (c.container.elements.set idx ⟨.value 0, .undefined⟩)

/-- The container made by `extractAt_complex` for the byte data `b` of `e`. -/
def extracted (e : Element) (b : List UInt8) (utf16 ascii : Bool) : CountedContainer :=
  if c.copies b then appendByteData ⟨0, empty⟩ b e.type utf16 ascii
  else ⟨0, .mk c.container.data [e]⟩

/-! ## Decoding -/

section Decode

def MaxByteArraySize : ℕ := 2 ^ 63 - 1 - 24 - 1

def MaxStringSize : ℕ := (2 ^ 63 - 1 - 24) / 2 - 1

variable (simd : Simd QUtf8.AsciiByte) (r : StringReader)

def hasData : Bool := r.currentStringChunkSize != 0 || !r.isLengthKnown

/-- The value of the element: where its byte data begins, if there are any. -/
def decodeOffset : ℕ :=
  if hasData r then (c.container.data.length + 2 * sizeofByteData) / sizeofByteData * sizeofByteData
  else 0

/-- The memory block with room for the header. -/
def decodeStart : List Cell :=
  if hasData r then c.container.data ++
    List.replicate (c.decodeOffset r + sizeofByteData - c.container.data.length) (.byte 0)
  else c.container.data

/-- The early returns of `decodeStringFromCbor`. -/
def refused : Bool := r.lastError || decide (r.currentStringChunkSize < 0) ||
  (hasData r && decide (MaxByteArraySize < c.decodeOffset r))

/-- Whether the string is read to its end, the memory block then, and `isAscii`. -/
def decodeChunks : Bool × List Cell × Bool :=
  readChunks simd (!r.isByteArray) r.ends r.currentStringChunkSize r.chunks (c.decodeStart r)
    (!r.isByteArray)

def decodeStringFromCbor : CountedContainer :=
  let type := if r.isByteArray then CborType.byteArray else .string
  let offset := c.decodeOffset r
  if c.refused r then c
  else
    let (complete, data, isAscii) := c.decodeChunks simd r
    if !complete then c.store (data.take offset) c.container.elements
    else if !hasData r then c.store data (c.container.elements ++ [⟨.value 0, type⟩])
    else
      let len := data.length - offset - sizeofByteData
      if type = .string ∧ MaxStringSize < len then
        ⟨c.usedData + len, .mk (data.take offset) c.container.elements⟩
      else ⟨c.usedData + len, .mk (data.set offset (.len len))
        (c.container.elements ++ [⟨.byteData offset false isAscii, type⟩])⟩

end Decode

/-! ## Runs -/

/-- The calls. `append` of a value is `insertAt` behind the last element, also for the arrays, maps
and tags that are decoded. -/
inductive Call
  | appendByteData (block : List UInt8) (type : CborType) (utf16 ascii : Bool)
  | append (type : CborType) (n : Int64)
  | insertAt (idx : ℕ) (value : QCborValue)
  | replaceAt (idx : ℕ) (value : QCborValue)
  | removeAt (idx : ℕ)
  | extractAt (idx : ℕ)
  | decodeString (r : StringReader)

variable (simd : Simd QUtf8.AsciiByte)

def Call.run : Call → CountedContainer
  | appendByteData block type utf16 ascii => c.appendByteData block type utf16 ascii
  | append type n => c.append type n
  | insertAt idx value => c.insertAt idx value
  | replaceAt idx value => c.replaceAt idx value
  | removeAt idx => c.removeAt idx
  | extractAt idx => c.extractAt idx
  | decodeString r => c.decodeStringFromCbor simd r

/-- The index is one of the list, and the value, if it is a string, has bytes. -/
def Call.Legal : Call → Prop
  | insertAt idx value => idx ≤ c.container.elements.length ∧ value.Refers
  | replaceAt idx value => idx < c.container.elements.length ∧ value.Refers
  | removeAt idx | extractAt idx => idx < c.container.elements.length
  | _ => True

/-- Byte data is extracted only where it is copied. A string with byte data is not decoded to its
end, and one without does not fail. -/
def Call.Counts : Call → Prop
  | extractAt idx => ∀ b, c.container.elements[idx]?.bind c.container.byteData = some b →
      c.copies b = true
  | decodeString r => c.refused r = true ∨ (c.decodeChunks simd r).1 = !hasData r
  | _ => True

/-- The states of containers, new at first, after legal calls that `P` allows. -/
inductive Reached (P : CountedContainer → Call → Prop) : CountedContainer → Prop
  | new : Reached P ⟨0, empty⟩
  | call {c : CountedContainer} (x : Call) :
      Reached P c → x.Legal c → P c x → Reached P (x.run c simd)
  | extracted {c : CountedContainer} {idx : ℕ} {e : Element} {b : List UInt8}
      {offset : ℕ} {utf16 ascii : Bool} : Reached P c → P c (.extractAt idx) →
      c.container.elements[idx]? = some e → e.payload = .byteData offset utf16 ascii →
      c.container.byteData e = some b → Reached P (c.extracted e b utf16 ascii)

/-- What a value takes in the memory block. -/
def usedBy : Val → ℤ
  | .bytes _ _ _ b => sizeofByteData + b.length
  | _ => 0

/-- The sum over the elements with byte data, of the header and the bytes. -/
def total (c : QCborContainerPrivate) : ℤ := (c.vals.map usedBy).sum

structure Accounted (c : CountedContainer) : Prop where
  records : c.container.HasRecords
  usedData_eq : c.usedData = total c.container

variable {c} {simd}

theorem total_nonneg (c : QCborContainerPrivate) : 0 ≤ total c := by
  unfold total
  induction c.vals with
  | nil => exact Int.le_refl 0
  | cons v l ih =>
    have hv : 0 ≤ usedBy v := by
      cases v <;> simp only [usedBy] <;> omega
    rw [map_cons, sum_cons]
    omega

theorem usedBy_of_byteData {d : QCborContainerPrivate} {e : Element}
    (hin : Element.InData d.data e) :
    usedBy (elementVal d.data e) = match d.byteData e with
      | some b => sizeofByteData + b.length
      | none => 0 := by
  obtain ⟨payload, type⟩ := e
  unfold elementVal payloadVal byteData usedBy
  cases payload with
  | value n => rfl
  | container d => rfl
  | byteData offset utf16 ascii =>
    obtain ⟨b, hb⟩ := hin offset utf16 ascii rfl
    simp only [hb, Option.getD_some]

variable {idx : ℕ}

theorem recordSize_eq {d : QCborContainerPrivate} {e : Element} (he : d.elements[idx]? = some e)
    (hin : Element.InData d.data e) :
    recordSize d idx = usedBy (elementVal d.data e) := by
  unfold recordSize
  rw [he, usedBy_of_byteData hin]
  rfl

theorem added_eq {v : QCborValue} (hv : v.Refers) : added v = usedBy v.val := by
  cases v with
  | value type n => rfl
  | container type d => rfl
  | element type d n =>
    obtain ⟨e, offset, utf16, ascii, b, he, hp, hb⟩ := hv
    have hin : Element.InData d.data e := by
      intro offset' utf16' ascii' hp'
      rw [hp] at hp'
      cases hp'
      exact ⟨b, hb⟩
    show recordSize d n = usedBy ((d.vals[n]?).getD _)
    rw [recordSize_eq he hin, vals_eq_map, getElem?_map, he]
    rfl

theorem getElem_vals {d : QCborContainerPrivate} (h : d.HasRecords)
    (hidx : idx < d.elements.length) :
    ∃ v, d.vals[idx]? = some v ∧ usedBy v = recordSize d idx := by
  have he := getElem?_eq_getElem hidx
  refine ⟨_, by rw [vals_eq_map, getElem?_map, he]; rfl, ?_⟩
  exact (recordSize_eq he (h _ (getElem_mem hidx))).symm

/-- The sum after one value has been replaced. -/
theorem sum_set {l : List Val} {v w : Val} (h : l[idx]? = some v) :
    ((l.set idx w).map usedBy).sum = (l.map usedBy).sum - usedBy v + usedBy w := by
  obtain ⟨hlt, hv⟩ := List.getElem?_eq_some_iff.mp h
  have hlt' : idx < (l.map usedBy).length := by rwa [length_map]
  rw [map_set, sum_set', dif_pos hlt', getElem_map, hv]
  omega

namespace Accounted

theorem empty : Accounted ⟨0, QCborContainerPrivate.empty⟩ := ⟨hasRecords_empty, rfl⟩

theorem appendByteData (h : Accounted c) (block : List UInt8) (type : CborType)
    (utf16 ascii : Bool) : Accounted (c.appendByteData block type utf16 ascii) := by
  obtain ⟨hvals, hrec⟩ := appendByteData_spec h.records block type utf16 ascii
  refine ⟨hrec, ?_⟩
  unfold total CountedContainer.appendByteData
  rw [hvals, map_append, sum_append, h.usedData_eq]
  simp [usedBy, total]

/-- An element without byte data behind the others, and more memory. -/
theorem append (h : Accounted c) (more : List Cell) (type : CborType) (n : Int64) :
    Accounted (c.store (c.container.data ++ more)
      (c.container.elements ++ [⟨.value n, type⟩])) := by
  constructor
  · intro e he
    rcases mem_append.mp he with he | he
    · exact (h.records e he).append more
    · rw [mem_singleton.mp he]
      intro offset utf16 ascii hp
      cases hp
  · unfold total store
    rw [vals_eq_map, data_mk, elements_mk, map_append, h.records.map_append, map_append,
      sum_append, h.usedData_eq]
    exact (Int.add_zero _).symm

theorem grow (h : Accounted c) (more : List Cell) :
    Accounted (c.store (c.container.data ++ more) c.container.elements) := by
  constructor
  · intro e he
    exact (h.records e he).append more
  · unfold total store
    rw [vals_eq_map, data_mk, elements_mk, h.records.map_append]
    exact h.usedData_eq

theorem insertAt (h : Accounted c) (hidx : idx ≤ c.container.elements.length) {v : QCborValue}
    (hv : v.Refers) : Accounted (c.insertAt idx v) := by
  obtain ⟨hvals, hrec⟩ := insertAt_spec h.records hv hidx
  refine ⟨hrec, ?_⟩
  have hlen : idx ≤ c.container.vals.length := by
    rw [length_vals]
    exact hidx
  have hperm := perm_insertIdx v.val c.container.vals hlen
  unfold total CountedContainer.insertAt
  rw [hvals, (hperm.map usedBy).sum_eq, map_cons, sum_cons, h.usedData_eq, added_eq hv]
  exact Int.add_comm _ _

theorem replaceAt (h : Accounted c) (hidx : idx < c.container.elements.length) {v : QCborValue}
    (hv : v.Refers) : Accounted (c.replaceAt idx v) := by
  obtain ⟨hvals, hrec⟩ := replaceAt_spec h.records hv idx
  obtain ⟨w, hw, hused⟩ := getElem_vals h.records hidx
  refine ⟨hrec, ?_⟩
  unfold total CountedContainer.replaceAt
  rw [hvals, sum_set hw, hused, h.usedData_eq, added_eq hv]
  rfl

theorem removeAt (h : Accounted c) (hidx : idx < c.container.elements.length) :
    Accounted (c.removeAt idx) := by
  obtain ⟨hvals, hrec⟩ := removeAt_spec h.records idx
  obtain ⟨w, hw, hused⟩ := getElem_vals h.records hidx
  refine ⟨hrec, ?_⟩
  have hlt : idx < c.container.vals.length := by rwa [length_vals]
  have hperm := getElem_cons_eraseIdx_perm hlt
  have hsum := (hperm.map usedBy).sum_eq
  rw [map_cons, sum_cons, (List.getElem?_eq_some_iff.mp hw).2, hused] at hsum
  show c.usedData - recordSize c.container idx + 0 =
    ((c.container.removeAt idx).vals.map usedBy).sum
  rw [hvals]
  have htotal := h.usedData_eq
  unfold total at htotal
  omega

theorem extractAt (h : Accounted c) (hidx : idx < c.container.elements.length)
    (hcopies : Call.Counts c simd (.extractAt idx)) : Accounted (c.extractAt idx) := by
  obtain ⟨w, hw, hused⟩ := getElem_vals h.records hidx
  constructor
  · intro e he
    rcases mem_or_eq_of_mem_set he with he | rfl
    · exact h.records e he
    · intro offset utf16 ascii hp
      cases hp
  · unfold total CountedContainer.extractAt
    rw [vals_eq_map, data_mk, elements_mk, map_set, ← vals_eq_map, sum_set hw, hused]
    unfold recordSize
    dsimp only
    cases hb : c.container.elements[idx]?.bind c.container.byteData with
    | none => exact h.usedData_eq.trans (by simp [total, usedBy, elementVal, payloadVal])
    | some b =>
      dsimp only
      rw [if_pos (hcopies b hb), h.usedData_eq]
      simp [total, usedBy, elementVal, payloadVal]
      omega

theorem readChunks_append (isString ends : Bool) (chunks : List (List UInt8 × ℤ)) (len : ℤ)
    (data : List Cell) (isAscii : Bool) :
    ∃ more, (readChunks simd isString ends len chunks data isAscii).2.1 = data ++ more := by
  induction chunks generalizing len data isAscii with
  | nil => exact ⟨[], (append_nil _).symm⟩
  | cons chunk chunks ih =>
    obtain ⟨bytes, rawlen⟩ := chunk
    have hrest : ∀ isAscii, ∃ more, (readChunks simd isString ends rawlen chunks
        (data ++ bytes.map .byte) isAscii).2.1 = data ++ more := by
      intro isAscii
      obtain ⟨more, hmore⟩ := ih rawlen (data ++ bytes.map .byte) isAscii
      exact ⟨bytes.map .byte ++ more, by rw [hmore, append_assoc]⟩
    unfold readChunks
    dsimp only
    split
    · split
      · exact ⟨_, rfl⟩
      · exact hrest _
    · exact hrest _

theorem decodeString (h : Accounted c) {r : StringReader}
    (hcounts : Call.Counts c simd (.decodeString r)) :
    Accounted (c.decodeStringFromCbor simd r) := by
  unfold decodeStringFromCbor
  dsimp only
  by_cases hrefused : c.refused r = true
  · rw [if_pos hrefused]
    exact h
  rw [if_neg hrefused]
  obtain ⟨more, hmore⟩ := @readChunks_append simd (!r.isByteArray) r.ends r.chunks
    r.currentStringChunkSize (c.decodeStart r) (!r.isByteArray)
  have hcomplete := hcounts.resolve_left hrefused
  change (c.decodeChunks simd r).2.1 = _ at hmore
  rw [hcomplete, hmore, Bool.not_not]
  unfold decodeStart decodeOffset
  cases hdata : hasData r with
  | true =>
    -- the string has failed, and the memory block is cut off behind the padding
    rw [if_pos rfl, if_pos rfl, if_pos rfl, append_assoc]
    have hle : c.container.data.length ≤
        (c.container.data.length + 2 * sizeofByteData) / sizeofByteData * sizeofByteData := by
      unfold sizeofByteData
      omega
    rw [take_append, take_of_length_le hle]
    exact h.grow _
  | false =>
    rw [if_neg Bool.false_ne_true, if_neg Bool.false_ne_true, Bool.not_false, if_pos rfl]
    exact h.append more _ _

end Accounted

theorem Accounted.run (h : Accounted c) (x : Call) (hlegal : x.Legal c)
    (hcounts : x.Counts c simd) : Accounted (x.run c simd) := by
  cases x with
  | appendByteData block type utf16 ascii => exact h.appendByteData block type utf16 ascii
  | append type n =>
    have hplain := h.append [] type n
    rwa [append_nil] at hplain
  | insertAt idx v => exact h.insertAt hlegal.1 hlegal.2
  | replaceAt idx v => exact h.replaceAt hlegal.1 hlegal.2
  | removeAt idx => exact h.removeAt hlegal
  | extractAt idx => exact h.extractAt hlegal hcounts
  | decodeString r => exact h.decodeString hcounts

/-- Where every call counts, the counter is the sum at every moment. -/
theorem Reached.usedData_eq (h : Reached simd (fun c x => x.Counts c simd) c) :
    c.usedData = total c.container ∧ 0 ≤ c.usedData := by
  have haccounted : Accounted c := by
    induction h with
    | new => exact .empty
    | call x _ hlegal hcounts ih => exact ih.run x hlegal hcounts
    | @extracted c idx e b offset utf16 ascii _ hcounts he _ hb ih =>
      have hcopies : c.copies b = true := hcounts b (by rw [he]; exact hb)
      unfold CountedContainer.extracted
      rw [if_pos hcopies]
      exact Accounted.empty.appendByteData b e.type utf16 ascii
  rw [haccounted.usedData_eq]
  exact ⟨rfl, total_nonneg _⟩

/-- A string is put into a new container and taken out again. -/
theorem Reached.usedData_eq_removed :
    let c := Call.run (Call.run ⟨0, QCborContainerPrivate.empty⟩ (.portable _)
      (.appendByteData [0x61] .string false true)) (.portable _) (.removeAt 0)
    c.usedData = total c.container ∧ 0 ≤ c.usedData :=
  Reached.usedData_eq (.call _ (.call _ .new trivial trivial)
    (by show 0 < 1; decide) trivial)

/-- The string `a` as a stream has it. -/
def oneLetter : StringReader := ⟨false, false, true, 1, [([0x61], 0)], true⟩

/-- A decoded string of one byte counts as one byte. When it is removed, the header is subtracted
as well. -/
theorem Reached.usedData_negative : ¬ ∀ (simd : Simd QUtf8.AsciiByte) (c : CountedContainer),
    Reached simd (fun _ _ => True) c → c.usedData = total c.container ∧ 0 ≤ c.usedData := by
  intro h
  have hdecoded := @Reached.call (Simd.portable _) (fun _ _ => True) _
    (.decodeString oneLetter) .new trivial trivial
  have hremoved := h _ _ (.call (.removeAt 0) hdecoded (by show 0 < 1; decide) trivial)
  exact absurd hremoved.2 (by decide)

end CountedContainer

end QtBase
