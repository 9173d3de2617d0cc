import QtBase.Network.HPackSearch
import QtBase.Network.HPackStrings

/-! The encoder of header lists, and what it leaves of its table when it fails. -/
namespace QtBase

namespace HPack

abbrev HttpHeader := List HeaderField

structure BitPattern where
  value : UInt8
  bitLength : ℕ
  deriving DecidableEq

namespace BitPattern

def Indexed : BitPattern := ⟨1, 1⟩

def LiteralIncrementalIndexing : BitPattern := ⟨1, 2⟩

def LiteralNoIndexing : BitPattern := ⟨0, 4⟩

def LiteralNeverIndexing : BitPattern := ⟨1, 4⟩

def is_literal_field (pattern : BitPattern) : Bool :=
  pattern == LiteralIncrementalIndexing || pattern == LiteralNoIndexing ||
    pattern == LiteralNeverIndexing

end BitPattern

open BitPattern

def write_bit_pattern (pattern : BitPattern) (outputStream : BitOStream) : BitOStream :=
  outputStream.writeBits pattern.value pattern.bitLength

def is_request_pseudo_header (name : List UInt8) : Bool :=
  name == ascii ":method" || name == ascii ":scheme" || name == ascii ":authority" ||
    name == ascii ":path"

structure Encoder where
  lookupTable : FieldLookupTable
  compressStrings : Bool

namespace Encoder

/-- The constructor. -/
def make (size : UInt32) (compress : Bool) : Encoder := ⟨FieldLookupTable.make size true, compress⟩

variable (e : Encoder) (outputStream : BitOStream)

/-! ## Fields -/

def encodeIndexedField (index : ℕ) : Exec (Encoder × BitOStream × Bool) := do
  qAssert (e.lookupTable.indexIsValid index = true)
  let outputStream := write_bit_pattern Indexed outputStream
  pure (e, outputStream.write (UInt32.ofNat index), true)

/-- A field that is entered in the table, if it has this type. -/
def prependLiteral (fieldType : BitPattern) (name value : List UInt8) : Encoder :=
  if fieldType = LiteralIncrementalIndexing then
    { e with lookupTable := (e.lookupTable.prependField name value).1 }
  else e

/-- `encodeLiteralField` with a name. -/
def encodeLiteralField (fieldType : BitPattern) (name value : List UInt8) (withCompression : Bool) :
    Exec (Encoder × BitOStream × Bool) := do
  qAssert (fieldType.is_literal_field = true)
  if outputStream.bitsSet % 8 ≠ 0 then pure (e, outputStream, false)
  else
    let e := e.prependLiteral fieldType name value
    let outputStream := (write_bit_pattern fieldType outputStream).write 0
    let outputStream ← outputStream.writeString name withCompression
    let outputStream ← outputStream.writeString value withCompression
    pure (e, outputStream, true)

/-- `encodeLiteralField` with the index of a name. -/
def encodeLiteralFieldOfIndex (fieldType : BitPattern) (nameIndex : ℕ) (value : List UInt8)
    (withCompression : Bool) : Exec (Encoder × BitOStream × Bool) := do
  qAssert (fieldType.is_literal_field = true)
  qAssert ((e.lookupTable.fieldName nameIndex).isSome = true)
  let name := (e.lookupTable.fieldName nameIndex).getD []
  let e := e.prependLiteral fieldType name value
  let outputStream := (write_bit_pattern fieldType outputStream).write (UInt32.ofNat nameIndex)
  let outputStream ← outputStream.writeString value withCompression
  pure (e, outputStream, true)

def encodeHeaderField (field : HeaderField) : Exec (Encoder × BitOStream × Bool) :=
  let index := e.lookupTable.indexOf field.name field.value
  if index ≠ 0 then e.encodeIndexedField outputStream index
  else
    let index := e.lookupTable.indexOfName field.name
    if index ≠ 0 then
      e.encodeLiteralFieldOfIndex outputStream LiteralIncrementalIndexing index field.value
        e.compressStrings
    else
      e.encodeLiteralField outputStream LiteralIncrementalIndexing field.name field.value
        e.compressStrings

def encodeMethod (field : HeaderField) : Exec (Encoder × BitOStream × Bool) := do
  qAssert (field.name = ascii ":method")
  let index := e.lookupTable.indexOf field.name field.value
  if index ≠ 0 then e.encodeIndexedField outputStream index
  else
    let index := e.lookupTable.indexOfName field.name
    qAssert (index ≠ 0)
    e.encodeLiteralFieldOfIndex outputStream LiteralIncrementalIndexing index field.value
      e.compressStrings

/-! ## Header lists -/

def headerName : List (List UInt8) := [ascii ":authority", ascii ":scheme", ascii ":path"]

/-- The pseudo-header fields of a request, with the encoder, the stream and what was found, or
nothing if the list is not valid. -/
def requestLoop (e : Encoder) (outputStream : BitOStream) (methodFound : Bool)
    (headerFound : List Bool) :
    HttpHeader → Exec (Encoder × BitOStream × Option (Bool × List Bool))
  | [] => pure (e, outputStream, some (methodFound, headerFound))
  | field :: header =>
    if field.name = ascii ":status" then pure (e, outputStream, none)
    else if field.name = ascii ":method" then
      if methodFound then pure (e, outputStream, none)
      else do
        let (e, outputStream, encoded) ← e.encodeMethod outputStream field
        if encoded then requestLoop e outputStream true headerFound header
        else pure (e, outputStream, none)
    else if field.name = ascii "cookie" then
      requestLoop e outputStream methodFound headerFound header
    else
      match headerName.findIdx? fun name => name == field.name with
      | none => requestLoop e outputStream methodFound headerFound header
      | some j =>
        if headerFound.getD j false then pure (e, outputStream, none)
        else do
          let (e, outputStream, encoded) ← e.encodeHeaderField outputStream field
          if encoded then requestLoop e outputStream methodFound (headerFound.set j true) header
          else pure (e, outputStream, none)

def encodeRequestPseudoHeaders (header : HttpHeader) : Exec (Encoder × BitOStream × Bool) := do
  let (e, outputStream, found) ← requestLoop e outputStream false [false, false, false] header
  match found with
  | none => pure (e, outputStream, false)
  -- ":authority" is not mandatory
  | some (methodFound, headerFound) =>
    pure (e, outputStream, methodFound && (headerFound.drop 1).all fun found => found)

/-- The pseudo-header field of a response, likewise. -/
def responseLoop (e : Encoder) (outputStream : BitOStream) (statusFound : Bool) :
    HttpHeader → Exec (Encoder × BitOStream × Option Bool)
  | [] => pure (e, outputStream, some statusFound)
  | field :: header =>
    if is_request_pseudo_header field.name then pure (e, outputStream, none)
    else if field.name = ascii ":status" then
      if statusFound then pure (e, outputStream, none)
      else do
        let (e, outputStream, encoded) ← e.encodeHeaderField outputStream field
        if encoded then responseLoop e outputStream true header
        else pure (e, outputStream, none)
    else responseLoop e outputStream statusFound header

def encodeResponsePseudoHeaders (header : HttpHeader) : Exec (Encoder × BitOStream × Bool) := do
  let (e, outputStream, found) ← responseLoop e outputStream false header
  pure (e, outputStream, found.getD false)

/-- The fields that are not left out. -/
def encodeFields (leftOut : List UInt8 → Bool) (e : Encoder) (outputStream : BitOStream) :
    HttpHeader → Exec (Encoder × BitOStream × Bool)
  | [] => pure (e, outputStream, true)
  | field :: header =>
    if leftOut field.name then encodeFields leftOut e outputStream header
    else do
      let (e, outputStream, encoded) ← e.encodeHeaderField outputStream field
      if encoded then encodeFields leftOut e outputStream header
      else pure (e, outputStream, false)

def encodeRequest (header : HttpHeader) : Exec (Encoder × BitOStream × Bool) :=
  if header.length = 0 then pure (e, outputStream, false)
  else do
    let (e, outputStream, encoded) ← e.encodeRequestPseudoHeaders outputStream header
    if encoded then encodeFields is_request_pseudo_header e outputStream header
    else pure (e, outputStream, false)

def encodeResponse (header : HttpHeader) : Exec (Encoder × BitOStream × Bool) :=
  if header.length = 0 then pure (e, outputStream, false)
  else do
    let (e, outputStream, encoded) ← e.encodeResponsePseudoHeaders outputStream header
    if encoded then encodeFields (fun name => name == ascii ":status") e outputStream header
    else pure (e, outputStream, false)

end Encoder

end HPack

end QtBase
