import QtBase.Lib.LowerBound
import QtBase.Text.Compare

/-! The table that HPACK refers to: a static part, and a dynamic part in chunks of sixteen fields. -/
namespace QtBase

namespace HPack

structure HeaderField where
  name : List UInt8
  value : List UInt8
  deriving DecidableEq

/-- `entry_size`: nothing if the size does not fit into 32 bits. -/
def entry_size (name value : List UInt8) : Option UInt32 :=
  let sum := name.length + value.length
  if sum > 0xffffffff - 32 then none else some (UInt32.ofNat (sum + 32))

/-- `compare`: the bytes first, then the lengths, whose difference is made an `int`. -/
def compare (lhs rhs : List UInt8) : ℤ :=
  let minLen := min lhs.length rhs.length
  let cmp := lexCompare UInt8.toNat (lhs.take minLen) (rhs.take minLen)
  if cmp ≠ 0 then cmp else ((lhs.length : ℤ) - rhs.length).bmod (2 ^ 32)

/-- The bytes of a string in the source. -/
def ascii (s : String) : List UInt8 := s.toList.map fun c => c.val.toUInt8

/-- A chunk, with its address. -/
structure Chunk where
  ptr : ℕ
  fields : List HeaderField

/-- An entry of the search index: the field it points to, which does not change while it is there,
the address of the chunk, or null for a key that is only looked up, and the offset in the chunk. -/
structure SearchEntry where
  field : HeaderField
  chunk : Option ℕ
  offset : ℕ
  deriving DecidableEq

structure FieldLookupTable where
  maxTableSize : UInt32
  tableCapacity : UInt32
  chunks : List Chunk
  useIndex : Bool
  searchIndex : List SearchEntry
  nDynamic : ℕ
  beginPos : ℕ
  endPos : ℕ
  dataSize : UInt32
  /-- The address of the next chunk that is allocated. -/
  nextPtr : ℕ

namespace FieldLookupTable

def ChunkSize : ℕ := 16

/-- The constructor. -/
def make (maxSize : UInt32) (use : Bool) : FieldLookupTable :=
  ⟨maxSize, maxSize, [], use, [], 0, 0, 0, 0, 0⟩

variable (t : FieldLookupTable)

/-! ## The search index -/

def indexOfChunk (chunk : ℕ) : ℕ := t.chunks.findIdx fun c => c.ptr == chunk

/-- `SearchEntry::operator <`. -/
def less (a b : SearchEntry) : Bool :=
  let cmp := compare a.field.name b.field.name
  if cmp ≠ 0 then decide (cmp < 0)
  else
    let cmp := compare a.field.value b.field.value
    if cmp ≠ 0 then decide (cmp < 0)
    else match a.chunk, b.chunk with
      | none, chunk => chunk.isSome
      | some _, none => false
      | some left, some right =>
        let leftChunkIndex := t.indexOfChunk left
        let rightChunkIndex := t.indexOfChunk right
        if leftChunkIndex ≠ rightChunkIndex then decide (leftChunkIndex > rightChunkIndex)
        else decide (a.offset > b.offset)

def equivalent (a b : SearchEntry) : Bool := !t.less a b && !t.less b a

/-- `std::set::insert`, where the index is the sequence of its entries. -/
def insertKey (e : SearchEntry) : List SearchEntry :=
  if t.searchIndex.any (t.equivalent e) then t.searchIndex
  else t.searchIndex.takeWhile (fun x => t.less x e) ++
    e :: t.searchIndex.dropWhile fun x => t.less x e

/-- `std::set::erase`. -/
def eraseKey (e : SearchEntry) : List SearchEntry :=
  t.searchIndex.filter fun x => !t.equivalent x e

/-- `std::set::lower_bound`. -/
def lower_bound (key : SearchEntry) : Option SearchEntry :=
  (t.searchIndex.dropWhile fun x => t.less x key).head?

/-! ## The dynamic part -/

/-- The field at a chunk and an offset. -/
def fieldAt (absIndex : ℕ) : HeaderField := match t.chunks[absIndex / ChunkSize]? with
  | some chunk => chunk.fields.getD (absIndex % ChunkSize) ⟨[], []⟩
  | none => ⟨[], []⟩

def front : HeaderField := t.fieldAt t.beginPos

def back : HeaderField := t.fieldAt (t.endPos - 1)

/-- The address of a chunk. -/
def chunkAt (i : ℕ) : Option ℕ := (t.chunks[i]?).map Chunk.ptr

def frontKey : SearchEntry := ⟨t.front, t.chunkAt 0, t.beginPos⟩

def backKey : SearchEntry :=
  let absIndex := t.endPos - 1
  ⟨t.back, t.chunkAt (absIndex / ChunkSize), absIndex % ChunkSize⟩

def clearDynamicTable : FieldLookupTable :=
  { t with searchIndex := [], chunks := [], beginPos := 0, endPos := 0, nDynamic := 0, dataSize := 0 }

def evictEntry : FieldLookupTable :=
  if t.nDynamic = 0 then t
  else
    let t := if t.useIndex then { t with searchIndex := t.eraseKey t.backKey } else t
    let field := t.back
    let entrySize := entry_size field.name field.value
    let t := { t with
      dataSize := t.dataSize - entrySize.getD 0
      nDynamic := t.nDynamic - 1
      endPos := t.endPos - 1 }
    if t.endPos = t.beginPos then { t with endPos := ChunkSize, beginPos := ChunkSize }
    else if t.endPos % ChunkSize = 0 then { t with chunks := t.chunks.dropLast }
    else t

/-- `while (nDynamic && …) evictEntry();` Each round has one entry less. -/
def evictWhile (more : FieldLookupTable → Bool) : ℕ → FieldLookupTable → FieldLookupTable
  | 0, t => t
  | n + 1, t => if t.nDynamic ≠ 0 && more t then evictWhile more n t.evictEntry else t

/-- A chunk more, if there is no space before the first entry. -/
def pushChunk : FieldLookupTable :=
  if t.beginPos = 0 then
    { t with
      chunks := ⟨t.nextPtr, List.replicate ChunkSize ⟨[], []⟩⟩ :: t.chunks
      endPos := t.endPos + ChunkSize
      beginPos := ChunkSize
      nextPtr := t.nextPtr + 1 }
  else t

/-- `front() = field`. -/
def setFront (field : HeaderField) : FieldLookupTable :=
  { t with chunks := t.chunks.modifyHead fun c => { c with fields := c.fields.set t.beginPos field } }

/-- `prependField`, and whether it has succeeded. -/
def prependField (name value : List UInt8) : FieldLookupTable × Bool :=
  match entry_size name value with
  | none => (t, false)
  | some entrySize =>
    if entrySize > t.tableCapacity then (t.clearDynamicTable, true)
    else
      let t := evictWhile (fun t => t.tableCapacity - t.dataSize < entrySize) t.nDynamic t
      let t := t.pushChunk
      let t := { t with
        beginPos := t.beginPos - 1
        dataSize := t.dataSize + entrySize
        nDynamic := t.nDynamic + 1 }
      let t := t.setFront ⟨name, value⟩
      let t := if t.useIndex then { t with searchIndex := t.insertKey t.frontKey } else t
      (t, true)

/-- `updateDynamicTableSize`, and whether it has succeeded. -/
def updateDynamicTableSize (size : UInt32) : FieldLookupTable × Bool :=
  if size = 0 then (t.clearDynamicTable, true)
  else if size > t.maxTableSize then (t, false)
  else
    let t := { t with tableCapacity := size }
    (evictWhile (fun t => t.dataSize > t.tableCapacity) t.nDynamic t, true)

def setMaxDynamicTableSize (size : UInt32) : FieldLookupTable :=
  ({ t with maxTableSize := size }.updateDynamicTableSize size).1

def dynamicDataSize : UInt32 := t.dataSize

/-! ## Both parts -/

def staticPart : List HeaderField := [
  ⟨ascii ":authority", ascii ""⟩,
  ⟨ascii ":method", ascii "GET"⟩,
  ⟨ascii ":method", ascii "POST"⟩,
  ⟨ascii ":path", ascii "/"⟩,
  ⟨ascii ":path", ascii "/index.html"⟩,
  ⟨ascii ":scheme", ascii "http"⟩,
  ⟨ascii ":scheme", ascii "https"⟩,
  ⟨ascii ":status", ascii "200"⟩,
  ⟨ascii ":status", ascii "204"⟩,
  ⟨ascii ":status", ascii "206"⟩,
  ⟨ascii ":status", ascii "304"⟩,
  ⟨ascii ":status", ascii "400"⟩,
  ⟨ascii ":status", ascii "404"⟩,
  ⟨ascii ":status", ascii "500"⟩,
  ⟨ascii "accept-charset", ascii ""⟩,
  ⟨ascii "accept-encoding", ascii "gzip, deflate"⟩,
  ⟨ascii "accept-language", ascii ""⟩,
  ⟨ascii "accept-ranges", ascii ""⟩,
  ⟨ascii "accept", ascii ""⟩,
  ⟨ascii "access-control-allow-origin", ascii ""⟩,
  ⟨ascii "age", ascii ""⟩,
  ⟨ascii "allow", ascii ""⟩,
  ⟨ascii "authorization", ascii ""⟩,
  ⟨ascii "cache-control", ascii ""⟩,
  ⟨ascii "content-disposition", ascii ""⟩,
  ⟨ascii "content-encoding", ascii ""⟩,
  ⟨ascii "content-language", ascii ""⟩,
  ⟨ascii "content-length", ascii ""⟩,
  ⟨ascii "content-location", ascii ""⟩,
  ⟨ascii "content-range", ascii ""⟩,
  ⟨ascii "content-type", ascii ""⟩,
  ⟨ascii "cookie", ascii ""⟩,
  ⟨ascii "date", ascii ""⟩,
  ⟨ascii "etag", ascii ""⟩,
  ⟨ascii "expect", ascii ""⟩,
  ⟨ascii "expires", ascii ""⟩,
  ⟨ascii "from", ascii ""⟩,
  ⟨ascii "host", ascii ""⟩,
  ⟨ascii "if-match", ascii ""⟩,
  ⟨ascii "if-modified-since", ascii ""⟩,
  ⟨ascii "if-none-match", ascii ""⟩,
  ⟨ascii "if-range", ascii ""⟩,
  ⟨ascii "if-unmodified-since", ascii ""⟩,
  ⟨ascii "last-modified", ascii ""⟩,
  ⟨ascii "link", ascii ""⟩,
  ⟨ascii "location", ascii ""⟩,
  ⟨ascii "max-forwards", ascii ""⟩,
  ⟨ascii "proxy-authenticate", ascii ""⟩,
  ⟨ascii "proxy-authorization", ascii ""⟩,
  ⟨ascii "range", ascii ""⟩,
  ⟨ascii "referer", ascii ""⟩,
  ⟨ascii "refresh", ascii ""⟩,
  ⟨ascii "retry-after", ascii ""⟩,
  ⟨ascii "server", ascii ""⟩,
  ⟨ascii "set-cookie", ascii ""⟩,
  ⟨ascii "strict-transport-security", ascii ""⟩,
  ⟨ascii "transfer-encoding", ascii ""⟩,
  ⟨ascii "user-agent", ascii ""⟩,
  ⟨ascii "vary", ascii ""⟩,
  ⟨ascii "via", ascii ""⟩,
  ⟨ascii "www-authenticate", ascii ""⟩]

def acceptPos : ℕ := 18

/-- The order of the static part, by names only or by names and values. -/
def staticLess (nameAndValue : Bool) (lhs rhs : HeaderField) : Bool :=
  let cmp := compare lhs.name rhs.name
  if cmp ≠ 0 then decide (cmp < 0)
  else nameAndValue && decide (compare lhs.value rhs.value < 0)

/-- `findInStaticPart`: a position, which may be the end. -/
def findInStaticPart (field : HeaderField) (nameAndValue : Bool) : ℕ :=
  let table := staticPart
  if field.name = ascii "accept" then
    if nameAndValue && field.value ≠ [] then table.length else acceptPos
  else
    let less (i : ℕ) : Bool := staticLess nameAndValue (table.getD i ⟨[], []⟩) field
    let staticPos := lowerBound less acceptPos 0 acceptPos
    if staticPos ≠ acceptPos then staticPos
    else lowerBound less table.length (acceptPos + 1) (table.length - (acceptPos + 1))

def keyToIndex (key : SearchEntry) : ℕ :=
  let chunkIndex := t.indexOfChunk (key.chunk.getD 0)
  key.offset + chunkIndex * ChunkSize - t.beginPos + 1 + staticPart.length

/-- What both `indexOf` have in common: `found` tells whether a field is what is looked for. -/
def lookup (field : HeaderField) (nameAndValue : Bool) (found : HeaderField → Bool) : ℕ :=
  match staticPart[findInStaticPart field nameAndValue]? with
  | some f => if found f then findInStaticPart field nameAndValue + 1 else dynamic
  | none => dynamic
where
  dynamic : ℕ :=
    if t.useIndex then
      match t.lower_bound ⟨field, none, 0⟩ with
      | some e => if found e.field then t.keyToIndex e else 0
      | none => 0
    else 0

/-- `indexOf` of a name and a value. -/
def indexOf (name value : List UInt8) : ℕ :=
  t.lookup ⟨name, value⟩ true fun f => f.name == name && f.value == value

/-- `indexOf` of a name. -/
def indexOfName (name : List UInt8) : ℕ := t.lookup ⟨name, []⟩ false fun f => f.name == name

def indexIsValid (index : ℕ) : Bool := index ≠ 0 && index ≤ staticPart.length + t.nDynamic

def field (index : ℕ) : Option HeaderField :=
  if t.indexIsValid index then
    if index - 1 < staticPart.length then staticPart[index - 1]?
    else some (t.fieldAt (index - 1 - staticPart.length + t.beginPos))
  else none

def fieldName (index : ℕ) : Option (List UInt8) := (t.field index).map HeaderField.name

end FieldLookupTable

end HPack

end QtBase
