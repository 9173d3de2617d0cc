import QtBase.Core.Exec

/-! `QByteArray::toBase64` and `fromBase64Encoding`. -/
namespace QtBase.Base64

/-- The flags of `QByteArray::Base64Options`. -/
structure Base64Options where
  base64UrlEncoding : Bool
  omitTrailingEquals : Bool
  abortOnBase64DecodingErrors : Bool

inductive Base64DecodingStatus
  | ok
  | illegalInputLength
  | illegalCharacter
  | illegalPadding
  deriving DecidableEq

def bytes (s : String) : List UInt8 := s.toList.map fun c => c.toUInt8

def alphabet_base64 : List UInt8 :=
  bytes "ABCDEFGHIJKLMNOPQRSTUVWXYZabcdefghijklmnopqrstuvwxyz0123456789+/"

def alphabet_base64url : List UInt8 :=
  bytes "ABCDEFGHIJKLMNOPQRSTUVWXYZabcdefghijklmnopqrstuvwxyz0123456789-_"

def Base64Options.alphabet (options : Base64Options) : List UInt8 :=
  if options.base64UrlEncoding then alphabet_base64url else alphabet_base64

def padchar : UInt8 := '='.toUInt8

/-! ## Encoding -/

/-- `*out++ = ch`, in a buffer of `size` bytes. -/
def put (size : ℕ) (ch : UInt8) (out : List UInt8) : Exec (List UInt8) := do
  qAssert (out.length < size)
  return out ++ [ch]

/-- `*out++ = alphabet[i]` -/
def putDigit (options : Base64Options) (size i : ℕ) (out : List UInt8) : Exec (List UInt8) :=
  match options.alphabet[i]? with
  | some ch => put size ch out
  | none => .error .undefined

/-- The second half of a round: the digits of `chunk`, of which `padlen` are missing. -/
def putChunk (options : Base64Options) (size chunk padlen : ℕ) (out : List UInt8) :
    Exec (List UInt8) := do
  let j := (chunk &&& 0x00fc0000) >>> 18
  let k := (chunk &&& 0x0003f000) >>> 12
  let l := (chunk &&& 0x00000fc0) >>> 6
  let m := chunk &&& 0x0000003f
  let out ← putDigit options size j out
  let out ← putDigit options size k out
  let out ←
    if padlen > 1 then
      if options.omitTrailingEquals then pure out else put size padchar out
    else putDigit options size l out
  if padlen > 0 then
    if options.omitTrailingEquals then pure out else put size padchar out
  else putDigit options size m out

/-- The loop over the bytes that are left, three at a time. -/
def toBase64From (options : Base64Options) (size : ℕ) : List UInt8 → List UInt8 →
    Exec (List UInt8)
  | [], out => .ok out
  | [x], out => putChunk options size (x.toNat <<< 16) 2 out
  | [x, y], out => putChunk options size (x.toNat <<< 16 ||| y.toNat <<< 8) 1 out
  | x :: y :: z :: rest, out => do
    let out ← putChunk options size (x.toNat <<< 16 ||| y.toNat <<< 8 ||| z.toNat) 0 out
    toBase64From options size rest out

def toBase64 (options : Base64Options) (data : List UInt8) : Exec (List UInt8) := do
  let size := (data.length + 2) / 3 * 4
  let out ← toBase64From options size data []
  qAssert (options.omitTrailingEquals ∨ out.length = size)
  return out

/-! ## Decoding -/

/-- What a character stands for; -1 is `none`. -/
def digit (options : Base64Options) (c : UInt8) : Option ℕ :=
  let ch := c.toInt8.toInt
  if ch ≥ 'A'.toNat ∧ ch ≤ 'Z'.toNat then some (ch - 'A'.toNat).toNat
  else if ch ≥ 'a'.toNat ∧ ch ≤ 'z'.toNat then some (ch - 'a'.toNat + 26).toNat
  else if ch ≥ '0'.toNat ∧ ch ≤ '9'.toNat then some (ch - '0'.toNat + 52).toNat
  else if ch = '+'.toNat ∧ !options.base64UrlEncoding then some 62
  else if ch = '-'.toNat ∧ options.base64UrlEncoding then some 62
  else if ch = '/'.toNat ∧ !options.base64UrlEncoding then some 63
  else if ch = '_'.toNat ∧ options.base64UrlEncoding then some 63
  else none

structure fromBase64_helper_result where
  decodedLength : ℕ
  status : Base64DecodingStatus

/-- The variables of `fromBase64_helper`. -/
structure State where
  buf : ℕ := 0
  nbits : ℕ := 0
  offset : ℕ := 0
  i : ℕ := 0
  output : List UInt8

namespace State

/-- `input[i]`; without an input of its own, the decoder reads from where it writes. -/
def read (input : Option (List UInt8)) (i : ℕ) (s : State) : Exec UInt8 :=
  match (input.getD s.output)[i]? with
  | some ch => .ok ch
  | none => .error .undefined

/-- `output[offset++] = ch` -/
def write (ch : UInt8) (s : State) : Exec State := do
  qAssert (s.offset < s.output.length)
  return { s with output := s.output.set s.offset ch, offset := s.offset + 1 }

/-- The last part of a round, for `d != -1`. -/
def push (d : ℕ) (s : State) : Exec State := do
  let s := { s with buf := s.buf <<< 6 ||| d, nbits := s.nbits + 6 }
  if s.nbits ≥ 8 then
    let s := { s with nbits := s.nbits - 8 }
    qAssert (s.offset < s.i)
    let s ← s.write (UInt8.ofNat (s.buf >>> s.nbits))
    return { s with buf := s.buf &&& (1 <<< s.nbits - 1) }
  else return s

/-- `return result` with an error: nothing is decoded. -/
def fail (status : Base64DecodingStatus) (s : State) :
    Exec (fromBase64_helper_result × List UInt8) :=
  .ok (⟨0, status⟩, s.output)

end State

/-- The loop, with the number of rounds that may be left. -/
def fromBase64_loop (options : Base64Options) (input : Option (List UInt8)) (inputSize : ℕ) :
    ℕ → State → Exec (fromBase64_helper_result × List UInt8)
  | 0, _ => .error .diverge
  | rounds + 1, s =>
    if s.i < inputSize then do
      let ch ← s.read input s.i
      match digit options ch with
      | some d =>
        let s ← s.push d
        fromBase64_loop options input inputSize rounds { s with i := s.i + 1 }
      | none =>
        if options.abortOnBase64DecodingErrors then
          if ch = padchar then
            if inputSize % 4 ≠ 0 then s.fail .illegalInputLength
            else if s.i = inputSize - 1 then
              fromBase64_loop options input inputSize rounds { s with i := s.i + 1 }
            else if s.i = inputSize - 2 then do
              let s := { s with i := s.i + 1 }
              let ch ← s.read input s.i
              if ch = padchar then
                fromBase64_loop options input inputSize rounds { s with i := s.i + 1 }
              else s.fail .illegalPadding
            else s.fail .illegalPadding
          else s.fail .illegalCharacter
        else fromBase64_loop options input inputSize rounds { s with i := s.i + 1 }
    else .ok (⟨s.offset, .ok⟩, s.output)

/-- `input` is `none` when `output` aliases it. -/
def fromBase64_helper (options : Base64Options) (input : Option (List UInt8)) (inputSize : ℕ)
    (output : List UInt8) : Exec (fromBase64_helper_result × List UInt8) :=
  fromBase64_loop options input inputSize (inputSize + 1) { output }

/-- `fromBase64Encoding(const QByteArray &)`. A new buffer starts with the bytes of `fresh`. -/
def fromBase64Encoding (fresh : ℕ → UInt8) (options : Base64Options) (base64 : List UInt8) :
    Exec (List UInt8 × Base64DecodingStatus) := do
  let base64Size := base64.length
  let result := (List.range (base64Size * 3 / 4)).map fresh
  let (base64result, result) ← fromBase64_helper options (some base64) base64Size result
  return (result.take base64result.decodedLength, base64result.status)

/-- `fromBase64Encoding(QByteArray &&)` -/
def fromBase64EncodingMove (fresh : ℕ → UInt8) (isDetached : Bool) (options : Base64Options)
    (base64 : List UInt8) : Exec (List UInt8 × Base64DecodingStatus) :=
  if isDetached then do
    let (base64result, base64) ← fromBase64_helper options none base64.length base64
    return (base64.take base64result.decodedLength, base64result.status)
  else fromBase64Encoding fresh options base64

end QtBase.Base64
