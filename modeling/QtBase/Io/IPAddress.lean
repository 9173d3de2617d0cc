import Mathlib.Data.Int.Notation
import Mathlib.Tactic.Common
import Mathlib.Algebra.Order.Ring.Int

/-! `qipaddress.cpp`: addresses as text and back. Buffers are the characters from a pointer on, with
the terminator. -/
namespace QtBase

namespace QIPAddressUtils

/-! ## Numbers -/

/-- The loop of `qulltoString_helper` for base 10. A `qulonglong` is divided fewer times than it has
bits. -/
def qulltoString : ℕ → UInt64 → List UInt16 → List UInt16
  | 0, _, p => p
  | rounds + 1, number, p =>
    let p := (0x30 + (number % 10).toUInt16) :: p
    let number := number / 10
    if number ≠ 0 then qulltoString rounds number p else p

/-- `number`. -/
def number (val : UInt8) : List UInt16 := if val ≠ 0 then qulltoString 64 val.toUInt64 [] else [0x30]

def ascii_isspace (c : UInt8) : Bool := c == 32 || (9 ≤ c && c ≤ 13)

def isAsciiDigit (c : UInt8) : Bool := 0x30 ≤ c && c ≤ 0x39

/-- `scanPrefix`: where the digits start, and the base, which is 0 if there is none. -/
def scanPrefix (p : List UInt8) (base : ℕ) : List UInt8 × ℕ :=
  match p with
  | [] => (p, base)
  | c :: rest =>
    if !isAsciiDigit c then (p, base)
    else if c = 0x30 then
      match rest with
      | [] => (p, if base = 0 then 8 else base)
      | x :: digits =>
        if x = 0x62 ∨ x = 0x42 then
          let base := if base = 0 then 2 else base
          (if base = 2 then digits else p, base)
        else if x = 0x78 ∨ x = 0x58 then
          let base := if base = 0 then 16 else base
          (if base = 16 then digits else p, base)
        else (p, if base = 0 then 8 else base)
    else (p, if base = 0 then 10 else base)

/-- The value of a digit, in bases up to 36. -/
def digitValue (c : UInt8) : ℕ :=
  if 0x30 ≤ c ∧ c ≤ 0x39 then c.toNat - 0x30
  else if 0x61 ≤ c ∧ c ≤ 0x7a then c.toNat - 0x61 + 10
  else if 0x41 ≤ c ∧ c ≤ 0x5a then c.toNat - 0x41 + 10
  else 36

def digitsIn (base : ℕ) (p : List UInt8) : List ℕ := (p.map digitValue).takeWhile fun d => d < base

def ofDigits (base : ℕ) (digits : List ℕ) : ℕ := digits.foldl (fun n d => n * base + d) 0

/-- `std::from_chars` to `unsigned long long`: the value and how many characters it has taken, or
nothing without digits or if the value does not fit. -/
def from_chars (p : List UInt8) (base : ℕ) : Option (UInt64 × ℕ) :=
  let digits := digitsIn base p
  if digits = [] then none
  else if ofDigits base digits < 2 ^ 64 then some (UInt64.ofNat (ofDigits base digits), digits.length)
  else none

/-- `qstrntoull`: the result and how many characters are used. -/
def qstrntoull (begin : List UInt8) (base : ℕ) : UInt64 × ℕ :=
  let p := begin.dropWhile ascii_isspace
  if p = [] ∨ p.head? = some 0x2d then (0, 0)
  else
    let (next, base) := scanPrefix (if p.head? = some 0x2b then p.drop 1 else p) base
    if base = 0 ∨ next = [] then (0, 0)
    else match from_chars next base with
      | none => (0, 0)
      | some (result, used) => (result, begin.length - next.length + used)

/-! ## IPv4 -/

/-- `checkedToAscii`: the buffer, or the index of a character that is no ASCII. -/
def checkedToAscii (text : List UInt16) : Except ℕ (List UInt8) :=
  if text.all (· < 0x7f) then .ok (text.map UInt16.toUInt8 ++ [0])
  else .error (text.findIdx fun c => !decide (c < 0x7f))

/-- The character at a pointer plus an index. -/
def at' (ptr : List UInt8) (i : ℕ) : UInt8 := ptr.getD i 0

/-- The loop of `parseIp4Internal`, which runs four times at most. -/
def parseIp4Loop (acceptLeadingZero : Bool) : ℕ → ℕ → List UInt8 → UInt32 → UInt32 × Bool
  | 0, _, _, address => (address, false)
  | rounds + 1, dotCount, ptr, address =>
    if !acceptLeadingZero && at' ptr 0 == 0x30 && at' ptr 1 != 0x2e && at' ptr 1 != 0 then
      (address, false)
    else
      let (ll, used) := qstrntoull (ptr.takeWhile (· ≠ 0)) 0
      let x := ll.toUInt32
      if used = 0 ∨ ll ≠ x.toUInt64 then (address, false)
      else
        let next := at' ptr used
        let byte := next = 0x2e ∨ dotCount = 3
        if byte ∧ x &&& ~~~0xff ≠ 0 then (address, false)
        else if ¬byte ∧ dotCount = 2 ∧ x &&& ~~~0xffff ≠ 0 then (address, false)
        else if ¬byte ∧ dotCount = 1 ∧ x &&& ~~~0xffffff ≠ 0 then (address, false)
        else
          let address :=
            if byte then address <<< 8
            else if dotCount = 2 then address <<< 16
            else if dotCount = 1 then address <<< 24
            else address
          let address := address ||| x
          if dotCount = 3 ∨ next = 0 then (address, next == 0)
          else if next ≠ 0x2e then (address, false)
          else parseIp4Loop acceptLeadingZero rounds (dotCount + 1) (ptr.drop (used + 1)) address

def parseIp4Internal (ptr : List UInt8) (acceptLeadingZero : Bool) : UInt32 × Bool :=
  parseIp4Loop acceptLeadingZero 4 0 ptr 0

/-- `parseIp4`: the address and whether it was parsed; an address that is not written is zero
here. -/
def parseIp4 (text : List UInt16) : UInt32 × Bool :=
  match checkedToAscii text with
  | .error _ => (0, false)
  | .ok buffer => parseIp4Internal buffer true

def dot : List UInt16 := [0x2e]

/-- `toString` of an IPv4 address. -/
def toString4 (appendTo : List UInt16) (address : UInt32) : List UInt16 :=
  appendTo ++ (number (address >>> 24).toUInt8 ++ dot ++ number (address >>> 16).toUInt8 ++ dot ++
    number (address >>> 8).toUInt8 ++ dot ++ number address.toUInt8)

/-! ## IPv6 -/

/-- The octets of an address, in network byte order. -/
structure IPv6Address where
  octets : List UInt8
  size : octets.length = 16

/-- The octet at an index. -/
def octet (address : List UInt8) (i : ℕ) : UInt8 := address.getD i 0

/-- The loop of `parseIp6`: the address, and the number of characters behind the pointer that is
returned, or nothing if it is null. A round takes at least one character. -/
def parseIp6Loop (colonCount : ℕ) : ℕ → List UInt8 → ℕ → ℤ → List UInt8 → List UInt8 × Option ℕ
  | 0, ptr, _, _, address => (address, some ptr.length)
  | rounds + 1, ptr, pos, zeroWordsToFill, address =>
    if pos < 15 then
      if at' ptr 0 = 0x3a then
        if zeroWordsToFill < 1 then (address, some ptr.length)
        else if (pos = 0 ∨ pos = colonCount * 2) ∧ (at' ptr 0 = 0 ∨ at' ptr 1 ≠ 0x3a) then
          (address, some ptr.length)
        else
          let ptr := if pos = 0 ∨ pos = colonCount * 2 then ptr.drop 1 else ptr
          parseIp6Loop colonCount rounds (ptr.drop 1) (pos + zeroWordsToFill.toNat * 2) 0 address
      else
        let (ll, used) := qstrntoull ptr 16
        let x := ll.toUInt16
        if used = 0 ∨ used > 4 then (address, some ptr.length)
        else if at' ptr used = 0x2e then
          if pos ≠ 12 then (address, some ptr.length)
          else
            let (ip4, ok) := parseIp4Internal ptr false
            if !ok then (address, some ptr.length)
            else ((((address.set 12 (ip4 >>> 24).toUInt8).set 13 (ip4 >>> 16).toUInt8).set 14
              (ip4 >>> 8).toUInt8).set 15 ip4.toUInt8, none)
        else
          let address := (address.set pos (x >>> 8).toUInt8).set (pos + 1) (x &&& 0xff).toUInt8
          let pos := pos + 2
          if at' ptr used = 0 then (address, if pos = 16 then none else some 1)
          else if at' ptr used ≠ 0x3a then (address, some (ptr.length - used))
          else parseIp6Loop colonCount rounds (ptr.drop (used + 1)) pos zeroWordsToFill address
    else (address, if pos = 16 then none else some 1)

/-- `parseIp6`: the address, and the number of characters behind the pointer that is returned, with
the terminator, or nothing if it is null. -/
def parseIp6 (text : List UInt16) : List UInt8 × Option ℕ :=
  match checkedToAscii text with
  | .error i => (List.replicate 16 0, some (text.length - i + 1))
  | .ok buffer =>
    let chars := buffer.takeWhile (· ≠ 0)
    let colonCount := chars.count 0x3a
    let dotCount := chars.count 0x2e
    let address := List.replicate 16 0
    if dotCount ≠ 0 ∧ dotCount ≠ 3 then (address, some 1)
    else if colonCount = 2 ∧ text.length = 2 then (address, none)
    else
      -- a text of one character has no character before it
      let atEnd := (at' buffer 0 = 0x3a ∧ at' buffer 1 = 0x3a) ∨
        (at' buffer (text.length - 2) = 0x3a ∧ at' buffer (text.length - 1) = 0x3a)
      if ¬atEnd ∧ (colonCount < 2 ∨ colonCount > 7) then (address, some 1)
      else
        let zeroWordsToFill : ℤ := (if atEnd then 9 else 8) - colonCount
        let zeroWordsToFill := if dotCount ≠ 0 then zeroWordsToFill - 1 else zeroWordsToFill
        parseIp6Loop colonCount buffer.length buffer 0 zeroWordsToFill address

/-- `toHex`. -/
def toHex (c : UInt8) : UInt16 :=
  let c := c &&& 0xf
  if c < 10 then 0x30 + c.toUInt16 else 0x61 + (c.toUInt16 - 10)

/-- The digits of a group, without leading zeros. -/
def toHexGroup (high low : UInt8) : List UInt16 :=
  if high ≠ 0 then
    if high >>> 4 ≠ 0 then
      [toHex (high >>> 4), toHex (high &&& 0xf), toHex (low >>> 4), toHex (low &&& 0xf)]
    else if high &&& 0xf ≠ 0 then [toHex (high &&& 0xf), toHex (low >>> 4), toHex (low &&& 0xf)]
    else []
  else if low >>> 4 ≠ 0 then [toHex (low >>> 4), toHex (low &&& 0xf)]
  else [toHex (low &&& 0xf)]

variable (address : List UInt8)

/-- Whether a group is zero. -/
def zeroGroup (i : ℕ) : Bool := octet address i == 0 && octet address (i + 1) == 0

/-- The inner loop that looks for the "::": where the zeros from `j` on end. -/
def scanZeros : ℕ → ℕ → ℕ
  | 0, j => j
  | rounds + 1, j => if j < 16 then if zeroGroup address j then scanZeros rounds (j + 2) else j else j

/-- The loop that looks for the "::": the length and the offset of the run. -/
def findZeroRun : ℕ → ℕ → ℕ → ℕ → ℕ × ℕ
  | 0, _, zeroRunLength, zeroRunOffset => (zeroRunLength, zeroRunOffset)
  | rounds + 1, i, zeroRunLength, zeroRunOffset =>
    if i < 16 then
      if zeroGroup address i then
        let j := scanZeros address 8 i
        if j - i > zeroRunLength then findZeroRun rounds (j + 2) (j - i) i
        else findZeroRun rounds (i + 2) zeroRunLength zeroRunOffset
      else findZeroRun rounds (i + 2) zeroRunLength zeroRunOffset
    else (zeroRunLength, zeroRunOffset)

/-- The octets 12 to 15. -/
def embeddedAddress : UInt32 :=
  (octet address 12).toUInt32 <<< 24 ||| (octet address 13).toUInt32 <<< 16 |||
    (octet address 14).toUInt32 <<< 8 ||| (octet address 15).toUInt32

/-- The loop that prints the groups. -/
def printGroups (embeddedIp4 : Bool) (zeroRunLength : ℕ) (zeroRunOffset : ℤ) :
    ℕ → ℕ → List UInt16 → List UInt16
  | 0, _, appendTo => appendTo
  | rounds + 1, i, appendTo =>
    if i < 16 then
      if (i : ℤ) = zeroRunOffset then
        printGroups embeddedIp4 zeroRunLength zeroRunOffset rounds (i + (zeroRunLength - 2) + 2)
          (appendTo ++ [0x3a])
      else if i = 12 ∧ embeddedIp4 then toString4 appendTo (embeddedAddress address)
      else
        let appendTo := appendTo ++ toHexGroup (octet address i) (octet address (i + 1))
        printGroups embeddedIp4 zeroRunLength zeroRunOffset rounds (i + 2)
          (if i ≠ 14 then appendTo ++ [0x3a] else appendTo)
    else appendTo

/-- Whether all octets before an index are zero. -/
def zeroes (n : ℕ) : Bool := (address.take n).all (· == 0)

/-- `toString` of an IPv6 address. -/
def toString6 (appendTo : List UInt16) : List UInt16 :=
  let mapped := zeroes address 10 && octet address 10 == 0xff && octet address 11 == 0xff
  let compatible := zeroes address 10 && octet address 10 == 0 && octet address 11 == 0
  let short := octet address 12 == 0 && octet address 13 == 0 && octet address 14 == 0
  if compatible && short && octet address 15 == 0 then appendTo ++ [0x3a, 0x3a]
  else
    let embeddedIp4 := mapped || (compatible && !short)
    let (zeroRunLength, zeroRunOffset) := findZeroRun address 8 0 0 0
    let zeroRunOffset : ℤ := if zeroRunLength < 4 then -1 else zeroRunOffset
    let appendTo := if zeroRunOffset = 0 then appendTo ++ [0x3a] else appendTo
    printGroups address embeddedIp4 zeroRunLength zeroRunOffset 8 0 appendTo

end QIPAddressUtils

end QtBase
