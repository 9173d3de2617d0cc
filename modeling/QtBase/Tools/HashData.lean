import QtBase.Tools.HashSpan
import QtBase.Lib.LinearProbing
import Mathlib.Data.Nat.Bitwise
import Mathlib.Data.Nat.Log

/-! The hash table shared by `QHash` and `QMultiHash` (`QHashPrivate::Data`): bucket
arithmetic, lookup, insertion with growth, and erasure by backward shift. -/
namespace QtBase.QHashPrivate

/-- `Node` and `MultiNode`; the latter has the list of values of its chain as `value`. -/
structure Node (K V : Type) where
  key : K
  value : V

def sizeMax : ℕ := 2 ^ 64 - 1

/-- Number of leading zeros of a 64-bit value. -/
def qCountLeadingZeroBits (v : ℕ) : ℕ := if v = 0 then 64 else 63 - Nat.log2 v

namespace GrowthPolicy

def bucketsForCapacity (requestedCapacity : ℕ) : ℕ :=
  if requestedCapacity ≤ 64 then NEntries
  else
    let count := qCountLeadingZeroBits requestedCapacity
    if count < 2 then sizeMax else 1 <<< (64 - count + 1)

def bucketForHash (nBuckets hash : ℕ) : ℕ := hash &&& (nBuckets - 1)

end GrowthPolicy

/-- `size` is kept apart from the spans, of which there are `numBuckets >> SpanShift`. The
reference count lives with the block that holds the data. -/
structure Data (K V : Type) where
  size : ℕ
  numBuckets : ℕ
  seed : ℕ
  spans : ℕ → Span (Node K V)

/-- A bucket as its span, counted from `d->spans`, and its index in the span. -/
structure Bucket where
  span : ℕ
  index : ℕ
  deriving DecidableEq

namespace Bucket

def ofIndex (bucket : ℕ) : Bucket := ⟨bucket >>> SpanShift, bucket &&& LocalBucketMask⟩

def toBucketIndex (b : Bucket) : ℕ := b.span <<< SpanShift ||| b.index

def advanceWrapped {K V : Type} (d : Data K V) (b : Bucket) : Bucket :=
  if b.index + 1 = NEntries then
    if b.span + 1 = d.numBuckets >>> SpanShift then ⟨0, 0⟩ else ⟨b.span + 1, 0⟩
  else ⟨b.span, b.index + 1⟩

end Bucket

/-- Greatest bucket count for which `new Span[]` does not overflow; a span has 144 bytes. -/
def MaxBucketCount : ℕ := ((2 ^ 63 - 1) / 144) <<< SpanShift

def allocateSpans (K V : Type) (numBuckets : ℕ) : Exec (ℕ → Span (Node K V)) :=
  if numBuckets > MaxBucketCount then .error .badAlloc else .ok fun _ => Span.new

namespace Data

variable {K V : Type}

def setSpan (d : Data K V) (s : ℕ) (sp : Span (Node K V)) : Data K V :=
  { d with spans := Function.update d.spans s sp }

def isUnused (d : Data K V) (b : Bucket) : Bool := !(d.spans b.span).hasNode b.index

def node (d : Data K V) (b : Bucket) : Exec (Node K V) := (d.spans b.span).at b.index

def insertAt (d : Data K V) (b : Bucket) : Exec (Data K V) := do
  let sp ← (d.spans b.span).insert b.index
  pure (d.setSpan b.span sp)

/-- Placement `new` in a bucket that `insertAt` has reserved, or assignment to its node. -/
def construct (d : Data K V) (b : Bucket) (n : Node K V) : Data K V :=
  d.setSpan b.span ((d.spans b.span).construct b.index n)

/-- `Data(size_t reserve)`; `globalSeed` is what `QHashSeed::globalSeed()` returns. -/
def new (globalSeed reserve : ℕ) : Exec (Data K V) := do
  let numBuckets := GrowthPolicy.bucketsForCapacity reserve
  let spans ← allocateSpans K V numBuckets
  pure ⟨0, numBuckets, globalSeed, spans⟩

def shouldGrow (d : Data K V) : Bool := d.size ≥ d.numBuckets >>> 1

section Lookup

variable [DecidableEq K] (calculateHash : K → ℕ → ℕ)

/-- The loop of `findBucket`. It looks at each bucket at most once before it repeats itself. -/
def findBucketFrom (d : Data K V) (key : K) : ℕ → Bucket → Exec Bucket
  | 0, _ => .error .diverge
  | k + 1, bucket =>
    let offset := (d.spans bucket.span).offset bucket.index
    if offset = UnusedEntry then .ok bucket
    else do
      let n ← (d.spans bucket.span).atOffset offset
      if n.key = key then .ok bucket else findBucketFrom d key k (bucket.advanceWrapped d)

def findBucket (d : Data K V) (key : K) : Exec Bucket := do
  qAssert (d.numBuckets > 0)
  let hash := calculateHash key d.seed
  findBucketFrom d key d.numBuckets (Bucket.ofIndex (GrowthPolicy.bucketForHash d.numBuckets hash))

def findNode (d : Data K V) (key : K) : Exec (Option (Node K V)) := do
  let bucket ← findBucket calculateHash d key
  if d.isUnused bucket then pure none
  else
    let n ← d.node bucket
    pure (some n)

/-- The body of the loops that copy or move the node of bucket (`s`, `index`) of `spans` to
this table: to the same bucket, or to the bucket found for its key. -/
def reinsert (spans : ℕ → Span (Node K V)) (resized : Bool) (s : ℕ) (d : Data K V) (index : ℕ) :
    Exec (Data K V) :=
  if (spans s).hasNode index then do
    let n ← (spans s).at index
    let it ← if resized then findBucket calculateHash d n.key else pure ⟨s, index⟩
    qAssert (d.isUnused it = true)
    let d ← d.insertAt it
    pure (d.construct it n)
  else pure d

def reallocationHelper (d : Data K V) (spans : ℕ → Span (Node K V)) (nSpans : ℕ) (resized : Bool) :
    Exec (Data K V) :=
  (List.range nSpans).foldlM (fun d s =>
    (List.range NEntries).foldlM (reinsert calculateHash spans resized s) d) d

/-- `Data(const Data &other)` -/
def copy (other : Data K V) : Exec (Data K V) := do
  let spans ← allocateSpans K V other.numBuckets
  reallocationHelper calculateHash { other with spans := spans } other.spans
    (other.numBuckets >>> SpanShift) false

/-- `Data(const Data &other, size_t reserved)` -/
def copyReserved (other : Data K V) (reserved : ℕ) : Exec (Data K V) := do
  let numBuckets := GrowthPolicy.bucketsForCapacity (max other.size reserved)
  let spans ← allocateSpans K V numBuckets
  reallocationHelper calculateHash { other with numBuckets := numBuckets, spans := spans } other.spans
    (other.numBuckets >>> SpanShift) true

def rehash (d : Data K V) (sizeHint : ℕ) : Exec (Data K V) := do
  let sizeHint := if sizeHint = 0 then d.size else sizeHint
  let newBucketCount := GrowthPolicy.bucketsForCapacity sizeHint
  let spans ← allocateSpans K V newBucketCount
  reallocationHelper calculateHash { d with numBuckets := newBucketCount, spans := spans } d.spans
    (d.numBuckets >>> SpanShift) true

/-- Returns the table, the bucket and whether it already holds the key. In a new bucket the
caller constructs the node. -/
def findOrInsert (d : Data K V) (key : K) : Exec (Data K V × Bucket × Bool) := do
  let it ← if d.numBuckets > 0 then (findBucket calculateHash d key).map some else pure none
  match it with
  | some it =>
    if d.isUnused it then place d (some it) else pure (d, it, true)
  | none => place d none
where
  place (d : Data K V) (it : Option Bucket) : Exec (Data K V × Bucket × Bool) := do
    let (d, it) ← if d.shouldGrow then do
        let d ← rehash calculateHash d (d.size + 1)
        let it ← findBucket calculateHash d key
        pure (d, some it)
      else pure (d, it)
    match it with
    | none => .error .undefined
    | some it => do
      qAssert (d.isUnused it = true)
      let d ← d.insertAt it
      pure ({ d with size := d.size + 1 }, it, false)

end Lookup

section Detached

variable [DecidableEq K] (calculateHash : K → ℕ → ℕ) (globalSeed : ℕ)

/-- `detached(Data *d)` -/
def detached : Option (Data K V) → Exec (Data K V)
  | none => new globalSeed 0
  | some d => d.copy calculateHash

/-- `detached(Data *d, size_t size)` -/
def detachedReserved (size : ℕ) : Option (Data K V) → Exec (Data K V)
  | none => new globalSeed size
  | some d => d.copyReserved calculateHash size

end Detached

/-! An iterator of a table is its bucket, or `none` at the end. -/

/-- `iterator::operator++` -/
def increment (d : Data K V) : ℕ → ℕ → Exec (Option ℕ)
  | 0, _ => .error .diverge
  | k + 1, bucket =>
    let bucket := bucket + 1
    if bucket = d.numBuckets then .ok none
    else if d.isUnused (Bucket.ofIndex bucket) then increment d k bucket
    else .ok (some bucket)

def begin (d : Data K V) : Exec (Option ℕ) :=
  if d.isUnused (Bucket.ofIndex 0) then d.increment d.numBuckets 0 else .ok (some 0)

section Erase

variable (calculateHash : K → ℕ → ℕ)

/-- The inner loop of `erase`: whether the walk from `newBucket` meets the hole `bucket`
before it meets `next`. -/
def meetsHole (d : Data K V) (next bucket : Bucket) : ℕ → Bucket → Exec Bool
  | 0, _ => .error .diverge
  | k + 1, newBucket =>
    if newBucket = next then .ok false
    else if newBucket = bucket then .ok true
    else meetsHole d next bucket k (newBucket.advanceWrapped d)

/-- Move the node of `next` into the hole `bucket`. -/
def moveNode (d : Data K V) (next bucket : Bucket) : Exec (Data K V) :=
  if next.span = bucket.span then do
    let sp ← (d.spans bucket.span).moveLocal next.index bucket.index
    pure (d.setSpan bucket.span sp)
  else do
    let (sp, nsp) ← (d.spans bucket.span).moveFromSpan (d.spans next.span) next.index bucket.index
    pure ((d.setSpan bucket.span sp).setSpan next.span nsp)

/-- The outer loop of `erase`: re-insert the entries that follow to avoid holes. -/
def closeHole : ℕ → Data K V → Bucket → Bucket → Exec (Data K V)
  | 0, _, _, _ => .error .diverge
  | k + 1, d, bucket, next =>
    let next := next.advanceWrapped d
    let offset := (d.spans next.span).offset next.index
    if offset = UnusedEntry then .ok d
    else do
      let n ← (d.spans next.span).atOffset offset
      let hash := calculateHash n.key d.seed
      let newBucket := Bucket.ofIndex (GrowthPolicy.bucketForHash d.numBuckets hash)
      if ← meetsHole d next bucket d.numBuckets newBucket then do
        let d ← d.moveNode next bucket
        closeHole k d next next
      else closeHole k d bucket next

def erase (d : Data K V) (bucket : Bucket) : Exec (Data K V) := do
  qAssert ((d.spans bucket.span).hasNode bucket.index = true)
  let sp ← (d.spans bucket.span).erase bucket.index
  let d := { d.setSpan bucket.span sp with size := d.size - 1 }
  closeHole calculateHash d.numBuckets d bucket bucket

end Erase

end Data

end QtBase.QHashPrivate
