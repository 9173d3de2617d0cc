import QtBase.Text.Compare

/-! `QCborContainerPrivate`: the elements of an array or a map, and one block of memory for the
bytes of all strings in it. -/
namespace QtBase

/-- `QCborValue::Type`. -/
inductive CborType
  | integer | byteArray | string | array | map | tag
  | simpleType (n : UInt8)
  | double | dateTime | url | regularExpression | uuid | invalid
  deriving DecidableEq

namespace CborType

abbrev isFalse : CborType := simpleType 20

abbrev isTrue : CborType := simpleType 21

abbrev null : CborType := simpleType 22

abbrev undefined : CborType := simpleType 23

/-- The number the enumeration gives to a type. -/
def toInt : CborType → ℤ
  | integer => 0x00
  | byteArray => 0x40
  | string => 0x60
  | array => 0x80
  | map => 0xa0
  | tag => 0xc0
  | simpleType n => 0x100 + n.toNat
  | double => 0x202
  | dateTime => 0x10000
  | url => 0x10020
  | regularExpression => 0x10023
  | uuid => 0x10025
  | invalid => -1

end CborType

namespace QtCbor

/-- What a place of the memory block holds: a byte, or the length that a `ByteData` starts with,
which also takes the seven places after it. -/
inductive Cell
  | byte (b : UInt8)
  | len (n : ℕ)
  deriving DecidableEq

def Cell.toByte : Cell → UInt8
  | byte b => b
  | len _ => 0

/-- The union of an element together with its flags, which tell what is in it: a plain value without
a flag, an offset with `HasByteData`, a container with `IsContainer`. -/
inductive Payload (C : Type)
  | value (n : Int64)
  | byteData (offset : ℕ) (stringIsUtf16 stringIsAscii : Bool)
  | container (d : C)

structure ElementOf (C : Type) where
  payload : Payload C
  type : CborType

end QtCbor

open QtCbor

inductive QCborContainerPrivate
  | mk (data : List Cell) (elements : List (ElementOf QCborContainerPrivate))

abbrev QtCbor.Element := ElementOf QCborContainerPrivate

/-- A value outside of a container. Without a container of its own `n` is the value; with one `n` is
the index of the element that has the bytes, or -1 for an array, map or tag. -/
inductive QCborValue
  | value (type : CborType) (n : Int64)
  | element (type : CborType) (container : QCborContainerPrivate) (n : ℕ)
  | container (type : CborType) (container : QCborContainerPrivate)

namespace QCborContainerPrivate

variable (c : QCborContainerPrivate)

def data : QCborContainerPrivate → List Cell
  | mk data _ => data

def elements : QCborContainerPrivate → List Element
  | mk _ elements => elements

/-- `new QCborContainerPrivate`. -/
def empty : QCborContainerPrivate := mk [] []

/-! ## Byte data -/

/-- The size and the alignment of a `ByteData`. -/
def sizeofByteData : ℕ := 8

def alignedOffset (size : ℕ) : ℕ := (size + (sizeofByteData - 1)) / sizeofByteData * sizeofByteData

/-- A `ByteData` with its bytes. -/
def byteDataCells (block : List UInt8) : List Cell :=
  .len block.length :: List.replicate (sizeofByteData - 1) (.byte 0) ++ block.map .byte

/-- `addByteData`. The bytes that align the offset are never read. -/
def addByteData (data : List Cell) (block : List UInt8) : ℕ × List Cell :=
  let offset := alignedOffset data.length
  (offset, data ++ List.replicate (offset - data.length) (.byte 0) ++ byteDataCells block)

/-- The bytes of the `ByteData` at an offset, if there is one and it is complete. -/
def byteDataAt (data : List Cell) (offset : ℕ) : Option (List UInt8) :=
  match data[offset]? with
  | some (.len n) =>
    if offset + sizeofByteData + n ≤ data.length then
      some (((data.drop (offset + sizeofByteData)).take n).map Cell.toByte)
    else none
  | _ => none

/-- `byteData(e)`. -/
def byteData (e : Element) : Option (List UInt8) := match e.payload with
  | .byteData offset _ _ => byteDataAt c.data offset
  | _ => none

/-- The memory of UTF-16, on a machine that stores the low byte first. -/
def utf16Bytes (units : List UInt16) : List UInt8 :=
  units.flatMap fun u : UInt16 => [u.toUInt8, (u >>> 8).toUInt8]

/-- `ByteData::asStringView`. -/
def asStringView : List UInt8 → List UInt16
  | low :: high :: bytes => (low.toUInt16 ||| high.toUInt16 <<< 8) :: asStringView bytes
  | _ => []

def isUtf16 (e : Element) : Bool := match e.payload with
  | .byteData _ utf16 _ => utf16
  | _ => false

/-! ## Changing elements -/

def appendByteData (block : List UInt8) (type : CborType) (utf16 ascii : Bool) :
    QCborContainerPrivate :=
  let (offset, data) := addByteData c.data block
  mk data (c.elements ++ [⟨.byteData offset utf16 ascii, type⟩])

def appendAsciiString (str : List UInt8) : QCborContainerPrivate :=
  c.appendByteData str .string false true

def appendUtf8String (str : List UInt8) : QCborContainerPrivate :=
  c.appendByteData str .string false false

/-- `makeValue(type, -1, d)`. -/
def makeValue (type : CborType) : Option QCborContainerPrivate → QCborValue
  | none => .value type (-1)
  | some d => .container type d

/-- What `replaceAt_internal` stores for a value, and the memory block after that. -/
def elementFor (data : List Cell) : QCborValue → Element × List Cell
  | .value type n => (⟨.value (if type = .array ∨ type = .map then 0 else n), type⟩, data)
  | .container type d => (⟨.container d, type⟩, data)
  | .element _ d n =>
    match d.elements[n]? with
    | none => (⟨.value 0, .undefined⟩, data)
    | some e =>
      match e.payload, d.byteData e with
      | .byteData _ utf16 ascii, some b =>
        let (offset, data) := addByteData data b
        (⟨.byteData offset utf16 ascii, e.type⟩, data)
      | _, _ => (e, data)

def replaceAt (idx : ℕ) (value : QCborValue) : QCborContainerPrivate :=
  let (e, data) := elementFor c.data value
  mk data (c.elements.set idx e)

def insertAt (idx : ℕ) (value : QCborValue) : QCborContainerPrivate :=
  let (e, data) := elementFor c.data value
  mk data (c.elements.insertIdx idx e)

def append (value : QCborValue) : QCborContainerPrivate := c.insertAt c.elements.length value

def removeAt (idx : ℕ) : QCborContainerPrivate :=
  let c := c.replaceAt idx (.value .undefined 0)
  mk c.data (c.elements.eraseIdx idx)

/-! ## Reading elements -/

def valueAt (idx : ℕ) : QCborValue := match c.elements[idx]? with
  | none => .value .undefined 0
  | some e => match e.payload with
    | .container d =>
      -- a tag that has not been parsed to its end
      if e.type = .tag ∧ d.elements.length ≠ 2 then .value .invalid 0 else .container e.type d
    | .byteData _ _ _ => .element e.type c idx
    | .value n => .value e.type n

/-- `elementFromValue`. -/
def elementFromValue : QCborValue → Element
  | .value type n => ⟨.value n, type⟩
  | .container type d => ⟨.container d, type⟩
  | .element type d n => (d.elements[n]?).getD ⟨.value 0, type⟩

end QCborContainerPrivate

end QtBase
