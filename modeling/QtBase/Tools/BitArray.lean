import QtBase.Core.Exec
import Mathlib.Data.Nat.Notation

/-! `QBitArray`: a byte array with the data in front of it one byte that says how many bits of the
last one are unused. A `QByteArray` is the list of its bytes; a NUL byte follows them in memory. -/
namespace QtBase

namespace QByteArrayData

/-- `QByteArray::resize`. The bytes stay, and so does the NUL behind them; what else is added is not
initialized. -/
def resize (d : List UInt8) (size : ℕ) (added : ℕ → UInt8) : List UInt8 :=
  (d ++ 0 :: (List.range size).map added).take size

/-- `QByteArray(size, Qt::Uninitialized)`. -/
def uninitialized (size : ℕ) (added : ℕ → UInt8) : List UInt8 := (List.range size).map added

end QByteArrayData

/-- `memset(d.data() + pos, value, n)`. -/
def memset (d : List UInt8) (pos : ℕ) (value : UInt8) (n : ℕ) : Exec (List UInt8) :=
  if pos + n ≤ d.length then .ok (d.take pos ++ List.replicate n value ++ d.drop (pos + n))
  else .error .undefined

/-- `(1 << n) - 1` as an `uchar`. -/
def lowMask (n : ℕ) : UInt8 := UInt8.ofNat ((1 <<< n) - 1)

structure QBitArray where
  d : List UInt8
  deriving DecidableEq

namespace QBitArray

def size (a : QBitArray) : ℕ := a.d.length * 8 - (a.d.getD 0 0).toNat

/-- `QBitArray(size, value)`. -/
def ofSize (size : ℕ) (value : Bool) (added : ℕ → UInt8) : Exec QBitArray :=
  if size = 0 then pure ⟨[]⟩
  else do
    let d := QByteArrayData.uninitialized (1 + (size + 7) / 8) added
    let d ← memset d 1 (if value then 0xff else 0) (d.length - 1)
    let d := d.set 0 (UInt8.ofNat (d.length * 8 - size))
    if value && size % 8 != 0 then
      pure ⟨d.modify (1 + size / 8) (· &&& lowMask (size % 8))⟩
    else pure ⟨d⟩

def resize (a : QBitArray) (size : ℕ) (added : ℕ → UInt8) : Exec QBitArray :=
  if size = 0 then pure ⟨QByteArrayData.resize a.d 0 added⟩
  else do
    let s := a.d.length
    let d := QByteArrayData.resize a.d (1 + (size + 7) / 8) added
    let d ←
      if size > s * 8 then memset d s 0 (d.length - s)
      else if size % 8 ≠ 0 then pure (d.modify (1 + size / 8) (· &&& lowMask (size % 8)))
      else pure d
    pure ⟨d.set 0 (UInt8.ofNat (d.length * 8 - size))⟩

def setBit (a : QBitArray) (i : ℕ) (value : Bool) : Exec QBitArray := do
  qAssert (i < a.size)
  let bitMask := UInt8.ofNat (1 <<< (i % 8))
  if value then pure ⟨a.d.modify (1 + i / 8) (· ||| bitMask)⟩
  else pure ⟨a.d.modify (1 + i / 8) (· &&& ~~~bitMask)⟩

def testBit (a : QBitArray) (i : ℕ) : Exec Bool := do
  qAssert (i < a.size)
  let bitMask := UInt8.ofNat (1 <<< (i % 8))
  pure (a.d.getD (1 + i / 8) 0 &&& bitMask != 0)

/-- `fill(value, size)`; without a size the bits stay as many as they are. -/
def fill (a : QBitArray) (value : Bool) (size : Option ℕ) (added : ℕ → UInt8) : Exec QBitArray :=
  ofSize (size.getD a.size) value added

/-- `while (begin < end && more(begin)) setBit(begin++, value)`. -/
def setBits (value : Bool) (more : ℕ → Bool) : ℕ → ℕ → QBitArray → Exec (ℕ × QBitArray)
  | 0, first, a => pure (first, a)
  | n + 1, first, a =>
    if more first then do
      let a ← a.setBit first value
      setBits value more n (first + 1) a
    else pure (first, a)

/-- `fill(value, begin, end)`. -/
def fillRange (a : QBitArray) (value : Bool) (first last : ℕ) : Exec QBitArray := do
  let (first, a) ← setBits value (· % 8 != 0) (last - first) first a
  let len := last - first
  if len = 0 then pure a
  else do
    let s := len / 8 * 8
    let d ← memset a.d (first / 8 + 1) (if value then 0xff else 0) (s / 8)
    let first := first + s
    let (_, a) ← setBits value (fun _ => true) (last - first) first ⟨d⟩
    pure a

def fromBits (data : List UInt8) (size : ℕ) : Exec QBitArray :=
  if size = 0 then pure ⟨[]⟩
  else do
    let nbytes := (size + 7) / 8
    qAssert (nbytes ≤ data.length)
    let bits := 0 :: data.take nbytes
    let bits := if size % 8 ≠ 0 then bits.modify nbytes (· &&& (0xff >>> UInt8.ofNat (8 - size % 8)))
      else bits
    pure ⟨bits.set 0 (UInt8.ofNat (bits.length * 8 - size))⟩

/-- The loop of `&=`, `|=` and `^=` over the data bytes of the other array. -/
def combineData (op : UInt8 → UInt8 → UInt8) : List UInt8 → List UInt8 → List UInt8
  | a, [] => a
  | [], _ => []
  | a :: as, b :: bs => op a b :: combineData op as bs

/-- `operator&=`. An empty `other` has no header: the loop that clears starts at the first byte and
ends with the NUL behind the last one. -/
def andAssign (a other : QBitArray) (added : ℕ → UInt8) : Exec QBitArray := do
  let a ← a.resize (max a.size other.size) added
  let n := other.d.length - 1
  pure ⟨a.d.take 1 ++ combineData (· &&& ·) (a.d.drop 1 |>.take n) (other.d.drop 1) ++
    (a.d.drop (1 + n)).map fun _ => 0⟩

def orAssign (a other : QBitArray) (added : ℕ → UInt8) : Exec QBitArray := do
  let a ← a.resize (max a.size other.size) added
  pure ⟨a.d.take 1 ++ combineData (· ||| ·) (a.d.drop 1) (other.d.drop 1)⟩

def xorAssign (a other : QBitArray) (added : ℕ → UInt8) : Exec QBitArray := do
  let a ← a.resize (max a.size other.size) added
  pure ⟨a.d.take 1 ++ combineData (· ^^^ ·) (a.d.drop 1) (other.d.drop 1)⟩

/-- `operator~`. -/
def complement (a : QBitArray) (added : ℕ → UInt8) : Exec QBitArray := do
  let sz := a.size
  let r ← ofSize sz false added
  let d := r.d.take 1 ++ (a.d.drop 1).map (~~~·)
  if sz % 8 ≠ 0 then pure ⟨d.modify (d.length - 1) (· &&& lowMask (sz % 8))⟩
  else pure ⟨d⟩

/-! ## Counting -/

/-- `qPopulationCount` of a number of `w` bits. -/
def qPopulationCount (w v : ℕ) : ℕ := (List.range w).countP v.testBit

/-- `qFromUnaligned` of `n` bytes, the first of which is the lowest. The last one may be the NUL
behind the array. -/
def qFromUnaligned (n : ℕ) (bits : List UInt8) : ℕ :=
  ((bits ++ [0]).take n).foldr (fun (b : UInt8) v => b.toNat + 256 * v) 0

/-- The loop over words of eight bytes. -/
def countWords : ℕ → List UInt8 → ℕ → List UInt8 × ℕ
  | 0, bits, numBits => (bits, numBits)
  | fuel + 1, bits, numBits =>
    if 7 ≤ bits.length then
      countWords fuel (bits.drop 8) (numBits + qPopulationCount 64 (qFromUnaligned 8 bits))
    else (bits, numBits)

def count (a : QBitArray) (on : Bool) : ℕ :=
  let (bits, numBits) := countWords a.d.length (a.d.drop 1) 0
  let (bits, numBits) :=
    if 3 ≤ bits.length then
      (bits.drop 4, numBits + qPopulationCount 32 (qFromUnaligned 4 bits))
    else (bits, numBits)
  let (bits, numBits) :=
    if 1 < bits.length then
      (bits.drop 2, numBits + qPopulationCount 16 (qFromUnaligned 2 bits))
    else (bits, numBits)
  let numBits :=
    if 0 < bits.length then numBits + qPopulationCount 8 (bits.getD 0 0).toNat else numBits
  if on then numBits else a.size - numBits

end QBitArray

end QtBase
