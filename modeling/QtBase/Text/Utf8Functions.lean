import QtBase.Core.Exec
import QtBase.Lib.Unicode

/-! `QUtf8Functions`: one character from UTF-16 to UTF-8 and back. -/
namespace QtBase

open Unicode

namespace QChar

def isHighSurrogate (ucs4 : UInt32) : Bool := ucs4 &&& 0xfffffc00 == 0xd800

def isLowSurrogate (ucs4 : UInt32) : Bool := ucs4 &&& 0xfffffc00 == 0xdc00

def isSurrogate (ucs4 : UInt32) : Bool := ucs4 - 0xd800 < 2048

def requiresSurrogates (ucs4 : UInt32) : Bool := ucs4 ≥ 0x10000

def surrogateToUcs4 (high low : UInt16) : UInt32 := high.toUInt32 <<< 10 + low.toUInt32 - 0x35fdc00

def highSurrogate (ucs4 : UInt32) : UInt16 := (ucs4 >>> 10 + 0xd7c0).toUInt16

def lowSurrogate (ucs4 : UInt32) : UInt16 := (ucs4 % 0x400 + 0xdc00).toUInt16

def LastValidCodePoint : UInt32 := 0x10ffff

def ReplacementCharacter : UInt16 := 0xfffd

end QChar

namespace QUtf8Functions

/-- What `toUtf8` returns: the bytes it appends, and the units that are left. -/
inductive ToUtf8
  | error
  | endOfString
  | ok (bytes : List UInt8) (src : List UInt16)
  deriving DecidableEq

def toUtf8 (u : UInt16) (src : List UInt16) : ToUtf8 :=
  if u < 0x80 then .ok [u.toUInt8] src
  else if u < 0x800 then
    .ok [(0xc0 : UInt8) ||| (u >>> 6).toUInt8, (0x80 ||| (u &&& 0x3f)).toUInt8] src
  else if !QChar.isSurrogate u.toUInt32 then
    .ok [(0xe0 : UInt8) ||| (u >>> 12).toUInt8, (0x80 : UInt8) ||| ((u >>> 6).toUInt8 &&& 0x3f),
      (0x80 ||| (u &&& 0x3f)).toUInt8] src
  else match src with
    | [] => .endOfString
    | low :: rest =>
      if !QChar.isHighSurrogate u.toUInt32 then .error
      else if !QChar.isLowSurrogate low.toUInt32 then .error
      else
        let ucs4 := QChar.surrogateToUcs4 u low
        let u := ucs4.toUInt16
        .ok [(0xf0 : UInt8) ||| ((ucs4 >>> 18).toUInt8 &&& 0xf),
          (0x80 : UInt8) ||| ((ucs4 >>> 12).toUInt8 &&& 0x3f),
          (0x80 : UInt8) ||| ((u >>> 6).toUInt8 &&& 0x3f), (0x80 ||| (u &&& 0x3f)).toUInt8] rest

/-- What `fromUtf8` returns: the units it appends, and how many bytes it has consumed. -/
inductive FromUtf8
  | error
  | endOfString
  | ok (units : List UInt16) (charsConsumed : ℕ)
  deriving DecidableEq

def isContinuationByte (b : UInt8) : Bool := b &&& 0xc0 == 0x80

/-- What the first byte decides: `charsNeeded`, `min_uc` and the first bits of `uc`. -/
def leadByte (b : UInt8) : Option (ℕ × UInt32 × UInt32) :=
  if b ≤ 0xc1 then none
  else if b < 0xe0 then some (2, 0x80, (b &&& 0x1f).toUInt32)
  else if b < 0xf0 then some (3, 0x800, (b &&& 0x0f).toUInt32)
  else if b < 0xf5 then some (4, 0x10000, (b &&& 0x07).toUInt32)
  else none

def appendBits (uc : UInt32) (b : UInt8) : UInt32 := uc <<< 6 ||| (b &&& 0x3f).toUInt32

/-- The safety check of what has been decoded, and its UTF-16. -/
def checked (charsNeeded : ℕ) (min_uc uc : UInt32) : FromUtf8 :=
  if uc < min_uc then .error
  else if QChar.isSurrogate uc || uc > QChar.LastValidCodePoint then .error
  else if !QChar.requiresSurrogates uc then .ok [uc.toUInt16] charsNeeded
  else .ok [QChar.highSurrogate uc, QChar.lowSurrogate uc] charsNeeded

/-- The continuation bytes. -/
def continuations (charsNeeded : ℕ) (min_uc uc : UInt32) (src : List UInt8) : FromUtf8 :=
  if src.length < charsNeeded - 1 then
    if src.length > 0 && !isContinuationByte (src.getD 0 0) then .error
    else if src.length > 1 && !isContinuationByte (src.getD 1 0) then .error
    else .endOfString
  else if !isContinuationByte (src.getD 0 0) then .error
  else
    let uc := appendBits uc (src.getD 0 0)
    if charsNeeded > 2 then
      if !isContinuationByte (src.getD 1 0) then .error
      else
        let uc := appendBits uc (src.getD 1 0)
        if charsNeeded > 3 then
          if !isContinuationByte (src.getD 2 0) then .error
          else checked charsNeeded min_uc (appendBits uc (src.getD 2 0))
        else checked charsNeeded min_uc uc
    else checked charsNeeded min_uc uc

def fromUtf8 (skipAsciiHandling : Bool) (b : UInt8) (src : List UInt8) : FromUtf8 :=
  if !skipAsciiHandling && b < 0x80 then .ok [b.toUInt16] 1
  else match leadByte b with
    | none => .error
    | some (charsNeeded, min_uc, uc) => continuations charsNeeded min_uc uc src

end QUtf8Functions

end QtBase
