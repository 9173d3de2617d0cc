import QtBase.Core.Exec
import Mathlib.Data.Int.Basic
import Mathlib.Data.Nat.Notation

/-! `QContiguousCache`: a window of consecutive indexes, kept in a circular array. `qsizetype` is ℤ,
and the cache is one that no copy shares, so `detach` does nothing. -/
namespace QtBase

/-- `QContiguousCacheTypedData`. A slot is `none` while no element has been constructed in it. -/
structure QContiguousCache (α : Type) where
  array : List (Option α)
  alloc : ℤ
  count : ℤ
  start : ℤ
  offset : ℤ
  deriving DecidableEq

/-- `a % b` of the C++ rules: the sign is that of the dividend. -/
def remainder (a b : ℤ) : Exec ℤ := if b = 0 then .error .undefined else .ok (a.tmod b)

/-- The element at `array + i`. -/
def loadSlot {α : Type} (array : List (Option α)) (i : ℤ) : Exec α :=
  if i < 0 then .error .undefined
  else match array[i.toNat]? with
    | some (some v) => .ok v
    | _ => .error .undefined

def storeSlot {α : Type} (array : List (Option α)) (i : ℤ) (v : α) : Exec (List (Option α)) :=
  if i < 0 ∨ array.length ≤ i.toNat then .error .undefined
  else .ok (array.set i.toNat (some v))

namespace QContiguousCache

variable {α : Type}

def allocateData (aalloc : ℤ) : List (Option α) := List.replicate aalloc.toNat none

def ofCapacity (cap : ℤ) : Exec (QContiguousCache α) := do
  qAssert (cap ≥ 0)
  pure ⟨allocateData cap, cap, 0, 0, 0⟩

def containsIndex (d : QContiguousCache α) (pos : ℤ) : Bool :=
  pos ≥ d.offset && pos - d.offset < d.count

def firstIndex (d : QContiguousCache α) : ℤ := d.offset

/-- The loop of `setCapacity`: both pointers step down and wrap around. -/
def copyBackwards (src : List (Option α)) (srcAlloc destAlloc : ℤ) :
    ℕ → ℤ → ℤ → List (Option α) → Exec (List (Option α))
  | 0, _, _, dest => pure dest
  | oldcount + 1, s, t, dest => do
    let v ← loadSlot src s
    let dest ← storeSlot dest t v
    let t := if t = 0 then destAlloc else t
    let s := if s = 0 then srcAlloc else s
    copyBackwards src srcAlloc destAlloc oldcount (s - 1) (t - 1) dest

def newStart (offset asize : ℤ) : Exec ℤ := if asize = 0 then pure 0 else remainder offset asize

def setCapacity (d : QContiguousCache α) (asize : ℤ) : Exec (QContiguousCache α) := do
  qAssert (asize ≥ 0)
  if asize = d.alloc then pure d
  else do
    let count := min d.count asize
    let offset := d.offset + d.count - count
    let start ← newStart offset asize
    if count = 0 then pure ⟨allocateData asize, asize, count, start, offset⟩
    else do
      let dest ← remainder (start + count - 1) asize
      let src ← remainder (d.start + d.count - 1) d.alloc
      let array ← copyBackwards d.array d.alloc asize count.toNat src dest (allocateData asize)
      pure ⟨array, asize, count, start, offset⟩

def clear (d : QContiguousCache α) : QContiguousCache α :=
  { d with count := 0, start := 0, offset := 0 }

def append (d : QContiguousCache α) (value : α) : Exec (QContiguousCache α) :=
  if d.alloc = 0 then pure d
  else do
    let slot ← remainder (d.start + d.count) d.alloc
    let array ← storeSlot d.array slot value
    if d.count = d.alloc then do
      let start ← remainder (d.start + 1) d.alloc
      pure { d with array, start, offset := d.offset + 1 }
    else pure { d with array, count := d.count + 1 }

def prepend (d : QContiguousCache α) (value : α) : Exec (QContiguousCache α) :=
  if d.alloc = 0 then pure d
  else do
    let start := if d.start ≠ 0 then d.start - 1 else d.alloc - 1
    let count := if d.count ≠ d.alloc then d.count + 1 else d.count
    let array ← storeSlot d.array start value
    pure { d with array, start, offset := d.offset - 1, count }

def insert (d : QContiguousCache α) (pos : ℤ) (value : α) : Exec (QContiguousCache α) := do
  qAssert (pos ≥ 0)
  if d.alloc = 0 then pure d
  else if d.containsIndex pos then do
    let slot ← remainder pos d.alloc
    let array ← storeSlot d.array slot value
    pure { d with array }
  else if pos = d.offset - 1 then d.prepend value
  else if pos = d.offset + d.count then d.append value
  else do
    -- we don't leave gaps
    let start ← remainder pos d.alloc
    let array ← storeSlot d.clear.array start value
    pure { d.clear with array, offset := pos, start, count := 1 }

/-- `at`. -/
def get (d : QContiguousCache α) (pos : ℤ) : Exec α := do
  qAssert (pos ≥ d.offset ∧ pos - d.offset < d.count)
  let slot ← remainder pos d.alloc
  loadSlot d.array slot

/-- The first lines of `operator[]`. -/
def ensureIndex [Inhabited α] (d : QContiguousCache α) (pos : ℤ) : Exec (QContiguousCache α) :=
  if d.containsIndex pos then pure d else d.insert pos default

/-- `operator[]`, with the value that is assigned through the reference, if one is. -/
def subscript [Inhabited α] (d : QContiguousCache α) (pos : ℤ) (value : Option α) :
    Exec (QContiguousCache α) := do
  let d ← d.ensureIndex pos
  let slot ← remainder pos d.alloc
  let old ← loadSlot d.array slot
  let array ← storeSlot d.array slot (value.getD old)
  pure { d with array }

def removeFirst (d : QContiguousCache α) : Exec (QContiguousCache α) := do
  qAssert (d.count > 0)
  let start ← remainder (d.start + 1) d.alloc
  pure { d with count := d.count - 1, start, offset := d.offset + 1 }

def removeLast (d : QContiguousCache α) : Exec (QContiguousCache α) := do
  qAssert (d.count > 0)
  pure { d with count := d.count - 1 }

def normalizeIndexes (d : QContiguousCache α) : QContiguousCache α := { d with offset := d.start }

/-! ## Runs -/

inductive Op (α : Type)
  | append (value : α)
  | prepend (value : α)
  | insert (pos : ℤ) (value : α)
  | subscript (pos : ℤ) (value : Option α)
  | removeFirst
  | removeLast
  | setCapacity (size : ℤ)
  | clear
  | normalizeIndexes

def step [Inhabited α] (d : QContiguousCache α) : Op α → Exec (QContiguousCache α)
  | .append value => d.append value
  | .prepend value => d.prepend value
  | .insert pos value => d.insert pos value
  | .subscript pos value => d.subscript pos value
  | .removeFirst => d.removeFirst
  | .removeLast => d.removeLast
  | .setCapacity size => d.setCapacity size
  | .clear => pure d.clear
  | .normalizeIndexes => pure d.normalizeIndexes

def run [Inhabited α] : QContiguousCache α → List (Op α) → Exec (QContiguousCache α)
  | d, [] => pure d
  | d, op :: ops => do
    let d ← d.step op
    d.run ops

end QContiguousCache

end QtBase
