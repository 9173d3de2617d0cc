import QtBase.Serialization.CborContainer
import QtBase.Lib.LowerBound

/-! `QJsonObject`: keys and values by turns in one container, the keys sorted. A `QJsonValue` is the
`QCborValue` in it. -/
namespace QtBase

open QtCbor

namespace QCborContainerPrivate

variable (c : QCborContainerPrivate)

/-! ## Strings -/

/-- `QtPrivate::isAscii`. -/
def isAscii (s : List UInt16) : Bool := s.all (· < 0x80)

/-- `append(QStringView)`. -/
def appendString (s : List UInt16) : QCborContainerPrivate :=
  if isAscii s then c.appendAsciiString (s.map UInt16.toUInt8)
  else c.appendByteData (utf16Bytes s) .string true false

/-- `ByteData::toUtf8String`, `QString::fromUtf8`. -/
def toUtf8String (b : List UInt8) : List UInt16 :=
  QUtf8.convertToUnicode QUtf8.simdDecodeAscii b

def stringAt (idx : ℕ) : List UInt16 := match c.elements[idx]? with
  | none => []
  | some e => match e.payload, c.byteData e with
    | .byteData _ utf16 ascii, some b =>
      if utf16 then asStringView b else if ascii then b.map UInt8.toUInt16 else toUtf8String b
    | _, _ => []

/-- Less than 0 if the element comes before the string. -/
def stringCompareElement (e : Element) (s : List UInt16) : ℤ :=
  if e.type ≠ .string then e.type.toInt - CborType.string.toInt
  else match c.byteData e with
    | none => if s.isEmpty then 0 else -1
    | some b => if isUtf16 e then compareStrings (asStringView b) s else compareUtf8 b s

/-- What `extractAt_complex` returns for an element with byte data: a container with a copy of the
bytes, or one that shares them all. -/
def extractAt_complex (e : Element) : QCborValue := match e.payload, c.byteData e with
  | .byteData _ utf16 ascii, some b =>
    if b.length + sizeofByteData < c.data.length / 4 then
      .element e.type (empty.appendByteData b e.type utf16 ascii) 0
    else .element e.type (mk c.data [e]) 0
  | _, _ => .value .undefined 0

/-- `extractAt`: the value, and the container without it. -/
def extractAt (idx : ℕ) : QCborValue × QCborContainerPrivate := match c.elements[idx]? with
  | none => (.value .undefined 0, c)
  | some e =>
    let rest := mk c.data (c.elements.set idx ⟨.value 0, .undefined⟩)
    match e.payload with
    | .container d =>
      if e.type = .tag ∧ d.elements.length ≠ 2 then (.value .invalid 0, rest)
      else (.container e.type d, rest)
    | .byteData _ _ _ => (c.extractAt_complex e, rest)
    | .value n => (.value e.type n, rest)

end QCborContainerPrivate

open QCborContainerPrivate

namespace QCborValue

def type : QCborValue → CborType
  | value type _ => type
  | element type _ _ => type
  | container type _ => type

/-- `QCborValue(QStringView)`. -/
def ofString (s : List UInt16) : QCborValue :=
  .element .string (QCborContainerPrivate.empty.appendString s) 0

def toString : QCborValue → List UInt16
  | element .string d n => d.stringAt n
  | _ => []

end QCborValue

/-- `QJsonValue::Type`. -/
inductive JsonType
  | null | bool | double | string | array | object | undefined
  deriving DecidableEq

/-- `convertFromCborType`. -/
def JsonType.convertFromCborType : CborType → JsonType
  | .null => .null
  | .isTrue => .bool
  | .isFalse => .bool
  | .double => .double
  | .integer => .double
  | .string => .string
  | .array => .array
  | .map => .object
  | _ => .undefined

namespace QCborValue

/-- `n`. -/
def valueHelper : QCborValue → Int64
  | value _ n => n
  | element _ _ n => .ofNat n
  | container _ _ => -1

/-- `QCborArray::fromJsonArray` and `QCborMap::fromJsonObject` share the container. -/
def shared (type : CborType) : QCborValue → QCborValue
  | container _ d => .container type d
  | _ => .value type (-1)

/-- `QCborValue::fromJsonValue`. -/
def fromJsonValue (v : QCborValue) : QCborValue :=
  match JsonType.convertFromCborType v.type with
  | .bool => .value v.type 0
  | .double => .value v.type v.valueHelper
  | .string => ofString v.toString
  | .array => v.shared .array
  | .object => v.shared .map
  | .null => .value .null 0
  | .undefined => .value .undefined 0

end QCborValue

structure QJsonObject where
  o : Option QCborContainerPrivate

/-- `QJsonDocument::object`, for the value that the parser returned. -/
def QJsonDocument.object : QCborValue → QJsonObject
  | .container .map d => ⟨some d⟩
  | _ => ⟨none⟩

namespace QJsonObject

open QCborValue

/-- The comparison that `std::lower_bound` is given, for the key at a position. -/
def isBefore (o : QCborContainerPrivate) (key : List UInt16) (i : ℕ) : Bool :=
  match o.elements[2 * i]? with
  | some e => decide (o.stringCompareElement e key < 0)
  | none => false

/-- `it != end`, and the key there is equal. -/
def isAt (o : QCborContainerPrivate) (key : List UInt16) (it : ℕ) : Bool :=
  match o.elements[2 * it]? with
  | some e => it != o.elements.length / 2 && o.stringCompareElement e key == 0
  | none => false

/-- The position of a key, or where it has to be inserted, and whether it is there. -/
def indexOf (o : QCborContainerPrivate) (key : List UInt16) : ℕ × Bool :=
  let size := o.elements.length / 2
  let it := lowerBound (isBefore o key) size 0 size
  (2 * it, isAt o key it)

variable (object : QJsonObject)

/-- `value`. -/
def valueImpl (key : List UInt16) : QCborValue := match object.o with
  | none => .value .undefined 0
  | some o =>
    let (i, keyExists) := indexOf o key
    if keyExists then o.valueAt (i + 1) else .value .undefined 0

/-- `contains`. -/
def containsImpl (key : List UInt16) : Bool := match object.o with
  | none => false
  | some o => (indexOf o key).2

def removeAt (index : ℕ) : QJsonObject := match object.o with
  | none => object
  | some o => ⟨some ((o.removeAt (index + 1)).removeAt index)⟩

/-- `remove`. -/
def removeImpl (key : List UInt16) : QJsonObject := match object.o with
  | none => object
  | some o =>
    let (index, keyExists) := indexOf o key
    if keyExists then object.removeAt index else object

/-- `take`. -/
def takeImpl (key : List UInt16) : QCborValue × QJsonObject := match object.o with
  | none => (.value .undefined 0, object)
  | some o =>
    let (index, keyExists) := indexOf o key
    if keyExists then
      let (v, o) := o.extractAt (index + 1)
      (v, removeAt ⟨some o⟩ index)
    else (.value .undefined 0, object)

def insertAt (pos : ℕ) (key : List UInt16) (value : QCborValue) (keyExists : Bool) : QJsonObject :=
  let o := object.o.getD .empty
  if keyExists then ⟨some (o.replaceAt (pos + 1) (fromJsonValue value))⟩
  else ⟨some ((o.insertAt pos (ofString key)).insertAt (pos + 1) (fromJsonValue value))⟩

/-- `o ? indexOf(o, key, &keyExists) : 0`. -/
def position (key : List UInt16) : ℕ × Bool := match object.o with
  | none => (0, false)
  | some o => indexOf o key

/-- `insert`. -/
def insertImpl (key : List UInt16) (value : QCborValue) : QJsonObject :=
  if JsonType.convertFromCborType value.type = .undefined then object.removeImpl key
  else
    let (pos, keyExists) := object.position key
    object.insertAt pos key value keyExists

/-- `operator[]`: the object, and the index of the reference. -/
def atImpl (key : List UInt16) : QJsonObject × ℕ :=
  let o := object.o.getD .empty
  let (index, keyExists) := indexOf o key
  if keyExists then (⟨some o⟩, index / 2)
  else (⟨some ((o.insertAt index (ofString key)).insertAt (index + 1)
    (fromJsonValue (.value .null 0)))⟩, index / 2)

/-- What a reference refers to. -/
def valueOfRef (index : ℕ) : QCborValue := match object.o with
  | none => .value .undefined 0
  | some o => o.valueAt (index * 2 + 1)

/-- `QJsonValueRef::operator=`. -/
def assignToRef (index : ℕ) (value : QCborValue) : QJsonObject := match object.o with
  | none => object
  | some o =>
    let value := fromJsonValue value
    if value.type = .undefined then
      ⟨some ((o.removeAt (index * 2 + 1)).removeAt (index * 2 + 1 - 1))⟩
    else ⟨some (o.replaceAt (index * 2 + 1) value)⟩

end QJsonObject

end QtBase
