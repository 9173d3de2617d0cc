import QtBase.Lib.Ring
import QtBase.Tools.HashEdit

/-! `QCache`: the nodes of a hash table are also linked in a ring, in the order of their last use.
A node keeps its links when the table moves it, and tells its neighbours where it went. -/
namespace QtBase.QCache

open QtBase.Lib QtBase.QHashPrivate

/-- Where a `Chain` is: in the cache itself, or in the entries of a span. -/
inductive Ptr where
  | chain
  | node (entries entry : ℕ)
  deriving DecidableEq

/-- The hash table, the address of the `entries` of each span, the address that the next allocation
will have, and the `prev` and `next` of all nodes. -/
structure Table (K V : Type) where
  d : Data K V
  entries : ℕ → ℕ
  unused : ℕ
  links : Links Ptr

/-! ## The hash table moves its nodes -/

namespace Table

variable {K V : Type}

/-- `bucket.node()` -/
def address (t : Table K V) (b : Bucket) : Ptr :=
  .node (t.entries b.span) ((t.d.spans b.span).offsets b.index)

/-- What `if (nextFree == allocated) addStorage();` does to the nodes of span `s`:
`new (&newEntries[i].node()) Node(std::move(entries[i].node()))` for each of them. -/
def addStorage (t : Table K V) (s : ℕ) : Table K V :=
  if (t.d.spans s).nextFree = (t.d.spans s).allocated then
    { t with
      entries := Function.update t.entries s t.unused
      unused := t.unused + 1
      links := (List.range (t.d.spans s).allocated).foldl
        (fun l i => l.relocate (.node (t.entries s) i) (.node t.unused i)) t.links }
  else t

def insertAt (t : Table K V) (b : Bucket) : Exec (Table K V) := do
  let d ← t.d.insertAt b
  pure { t.addStorage b.span with d := d }

/-- Move the node of `next` into the hole `bucket`. -/
def moveNode (t : Table K V) (next bucket : Bucket) : Exec (Table K V) := do
  let d ← t.d.moveNode next bucket
  if next.span = bucket.span then pure { t with d := d }
  else
    let moved := { t.addStorage bucket.span with d := d }
    pure { moved with links := moved.links.relocate (t.address next) (moved.address bucket) }

section Hash

variable (calculateHash : K → ℕ → ℕ)

/-- The outer loop of `erase` -/
def closeHole : ℕ → Table K V → Bucket → Bucket → Exec (Table K V)
  | 0, _, _, _ => .error .diverge
  | k + 1, t, bucket, next =>
    let next := next.advanceWrapped t.d
    let offset := (t.d.spans next.span).offset next.index
    if offset = UnusedEntry then .ok t
    else do
      let n ← (t.d.spans next.span).atOffset offset
      let hash := calculateHash n.key t.d.seed
      let newBucket := Bucket.ofIndex (GrowthPolicy.bucketForHash t.d.numBuckets hash)
      if ← Data.meetsHole t.d next bucket t.d.numBuckets newBucket then do
        let t ← t.moveNode next bucket
        closeHole k t next next
      else closeHole k t bucket next

def erase (t : Table K V) (bucket : Bucket) : Exec (Table K V) := do
  qAssert ((t.d.spans bucket.span).hasNode bucket.index = true)
  let sp ← (t.d.spans bucket.span).erase bucket.index
  let t := { t with d := { t.d.setSpan bucket.span sp with size := t.d.size - 1 } }
  closeHole calculateHash t.d.numBuckets t bucket bucket

variable [DecidableEq K]

/-- The body of the loops of `rehash`, which move the node of bucket (`s`, `index`) of the old spans
to the bucket found for its key. -/
def reinsert (old : Table K V) (s : ℕ) (t : Table K V) (index : ℕ) : Exec (Table K V) :=
  if (old.d.spans s).hasNode index then do
    let n ← (old.d.spans s).at index
    let it ← Data.findBucket calculateHash t.d n.key
    qAssert (t.d.isUnused it = true)
    let t ← t.insertAt it
    let t := { t with d := t.d.construct it n }
    pure { t with links := t.links.relocate (old.address ⟨s, index⟩) (t.address it) }
  else pure t

/-- The new spans have no entries yet. -/
def rehash (t : Table K V) (sizeHint : ℕ) : Exec (Table K V) := do
  let sizeHint := if sizeHint = 0 then t.d.size else sizeHint
  let newBucketCount := GrowthPolicy.bucketsForCapacity sizeHint
  let spans ← allocateSpans K V newBucketCount
  let new := { t with
    d := { t.d with numBuckets := newBucketCount, spans := spans }, entries := fun _ => 0 }
  (List.range (t.d.numBuckets >>> SpanShift)).foldlM (fun new s =>
    (List.range NEntries).foldlM (reinsert calculateHash t s) new) new

/-- Returns the table, the bucket and whether it already holds the key. -/
def findOrInsert (t : Table K V) (key : K) : Exec (Table K V × Bucket × Bool) := do
  let it ← if t.d.numBuckets > 0 then (Data.findBucket calculateHash t.d key).map some else pure none
  match it with
  | some it =>
    if t.d.isUnused it then place t (some it) else pure (t, it, true)
  | none => place t none
where
  place (t : Table K V) (it : Option Bucket) : Exec (Table K V × Bucket × Bool) := do
    let (t, it) ← if t.d.shouldGrow then do
        let t ← rehash calculateHash t (t.d.size + 1)
        let it ← Data.findBucket calculateHash t.d key
        pure (t, some it)
      else pure (t, it)
    match it with
    | none => .error .undefined
    | some it => do
      qAssert (t.d.isUnused it = true)
      let t ← t.insertAt it
      pure ({ t with d := { t.d with size := t.d.size + 1 } }, it, false)

end Hash

/-- The node at an address. -/
def node (t : Table K V) : Ptr → Exec (Node K V)
  | .chain => .error .undefined
  | .node entries entry =>
    match (List.range (t.d.numBuckets >>> SpanShift)).find? fun s =>
        decide ((t.d.spans s).allocated ≠ 0 ∧ t.entries s = entries) with
    | none => .error .undefined
    | some s => do
      qAssert (entry < (t.d.spans s).allocated)
      ((t.d.spans s).entries entry).getNode

end Table

/-! ## The cache -/

/-- `QCache::Value`; the object is a pointer. -/
structure Value (T : Type) where
  t : Option T
  cost : ℤ

end QCache

open QCache in
/-- The table holds the nodes, its links the sentinel `chain` too. -/
structure QCache (K T : Type) where
  table : Table K (Value T)
  mx : ℤ
  total : ℤ

namespace QCache

open QtBase.Lib QtBase.QHashPrivate

variable {K T : Type} [DecidableEq K] (calculateHash : K → ℕ → ℕ)

/-- `QCache(maxCost)`; `globalSeed` is what `QHashSeed::globalSeed()` returns. -/
def construct (globalSeed : ℕ) (maxCost : ℤ) : Exec (QCache K T) := do
  let d ← Data.new globalSeed 0
  pure ⟨⟨d, fun _ => 0, 1, ⟨id, id⟩⟩, maxCost, 0⟩

def maxCost (c : QCache K T) : ℤ := c.mx

def totalCost (c : QCache K T) : ℤ := c.total

def isEmpty (c : QCache K T) : Bool := c.table.d.size == 0

def unlink (c : QCache K T) (n : Ptr) : Exec (QCache K T) := do
  let links := c.table.links.unlink n
  let node ← c.table.node n
  let it ← Data.findBucket calculateHash c.table.d node.key
  let table ← Table.erase calculateHash { c.table with links := links } it
  pure { c with table := table, total := c.total - node.value.cost }

/-- `d.findNode(key)` -/
def findNode (c : QCache K T) (key : K) : Exec (Option (Bucket × Node K (Value T))) := do
  let bucket ← Data.findBucket calculateHash c.table.d key
  if c.table.d.isUnused bucket then pure none
  else
    let n ← c.table.d.node bucket
    pure (some (bucket, n))

def relink (c : QCache K T) (key : K) : Exec (QCache K T × Option T) :=
  if c.isEmpty then pure (c, none)
  else do
    match ← c.findNode calculateHash key with
    | none => pure (c, none)
    | some (bucket, node) =>
      let n := c.table.address bucket
      let links := c.table.links
      let links :=
        if links.next .chain ≠ n then
          let links := links.unlink n
          let links := links.setNext n (links.next .chain)
          let links := links.setPrev (links.next .chain) n
          let links := links.setPrev n .chain
          links.setNext .chain n
        else links
      pure ({ c with table := { c.table with links := links } }, node.value.t)

/-- Each step of the loop takes a node out of the table. -/
def trimLoop (m : ℤ) : ℕ → QCache K T → Exec (QCache K T)
  | 0, _ => .error .diverge
  | steps + 1, c =>
    if c.table.links.prev .chain ≠ .chain ∧ c.total > m then do
      let c ← c.unlink calculateHash (c.table.links.prev .chain)
      trimLoop m steps c
    else pure c

def trim (c : QCache K T) (m : ℤ) : Exec (QCache K T) :=
  trimLoop calculateHash m (c.table.d.size + 1) c

def setMaxCost (c : QCache K T) (m : ℤ) : Exec (QCache K T) :=
  trim calculateHash { c with mx := m } m

/-- `d.clear()` leaves a table without buckets. -/
def clear (c : QCache K T) : QCache K T :=
  let links := c.table.links.setNext .chain .chain
  let links := links.setPrev .chain .chain
  { c with
    table := { c.table with
      d := { c.table.d with size := 0, numBuckets := 0, spans := fun _ => Span.new }
      links := links }
    total := 0 }

def remove (c : QCache K T) (key : K) : Exec (QCache K T × Bool) :=
  if c.isEmpty then pure (c, false)
  else do
    match ← c.findNode calculateHash key with
    | none => pure (c, false)
    | some (bucket, _) =>
      let c ← c.unlink calculateHash (c.table.address bucket)
      pure (c, true)

/-- The node loses its object before it is taken out. -/
def take (c : QCache K T) (key : K) : Exec (QCache K T × Option T) :=
  if c.isEmpty then pure (c, none)
  else do
    match ← c.findNode calculateHash key with
    | none => pure (c, none)
    | some (bucket, node) =>
      let d := c.table.d.construct bucket ⟨node.key, { node.value with t := none }⟩
      let c := { c with table := { c.table with d := d } }
      let c ← c.unlink calculateHash (c.table.address bucket)
      pure (c, node.value.t)

def insert (c : QCache K T) (key : K) (object : Option T) (cost : ℤ) :
    Exec (QCache K T × Bool) :=
  if cost > c.mx then do
    let (c, _) ← c.remove calculateHash key
    pure (c, false)
  else do
    let c ← c.trim calculateHash (c.mx - cost)
    let (table, it, initialized) ← c.table.findOrInsert calculateHash key
    let c := { c with table := table }
    if initialized then
      let n ← table.d.node it
      let prevCost := n.value.cost
      let d := table.d.construct it ⟨n.key, ⟨object, cost⟩⟩
      let (c, _) ← relink calculateHash { c with table := { table with d := d } } key
      pure ({ c with total := c.total + (cost - prevCost) }, true)
    else
      let d := table.d.construct it ⟨key, ⟨object, cost⟩⟩
      let links := table.links.pushFront .chain (table.address it)
      let c := { c with table := { table with d := d, links := links } }
      pure ({ c with total := c.total + cost }, true)

def object (c : QCache K T) (key : K) : Exec (QCache K T × Option T) := c.relink calculateHash key

def contains (c : QCache K T) (key : K) : Exec Bool :=
  if c.isEmpty then pure false
  else do
    let n ← c.findNode calculateHash key
    pure n.isSome

end QCache

end QtBase
