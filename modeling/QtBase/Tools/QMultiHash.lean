import QtBase.Tools.QHash
import QtBase.Lib.PairLog

/-! `QMultiHash`: a table whose nodes hold chains of values, and the separately kept number of
values. -/
namespace QtBase

open QHashPrivate LinearProbing

/-- A `QMultiHash` object; the value of a node is its chain. -/
structure QMultiHash (K V : Type) where
  d : Cow.Handle (Data K (List V))
  m_size : ℤ

namespace QMultiHash

/-- Bucket and position in the chain; the end iterator is `none`. -/
structure Iterator where
  bucket : ℕ
  pos : ℕ

variable {K V : Type}

def isEmpty (h : QMultiHash K V) : Bool := h.m_size == 0

def isDetached (h : QMultiHash K V) : Bool := match h.d with
  | none => false
  | some l => !l.shared

/-- The hash that is the only owner of its table. -/
def own (d : Data K (List V)) (m_size : ℤ) : QMultiHash K V := ⟨Cow.Handle.own d, m_size⟩

/-- The functions that `QMultiHash` has in common with `QHash` only use `d`. -/
def toQHash (h : QMultiHash K V) : QHash K (List V) := ⟨h.d⟩

/-- `iterator(piter it)`, at the first value of the bucket. -/
def iterator (d : Data K (List V)) : Option ℕ → Exec (Option Iterator)
  | none => pure none
  | some bucket => do
    let n ← d.node (Bucket.ofIndex bucket)
    qAssert (n.value.isEmpty = false)
    pure (some ⟨bucket, 0⟩)

/-- `iterator::operator++` -/
def increment (d : Data K (List V)) (it : Iterator) : Exec (Option Iterator) := do
  let n ← d.node (Bucket.ofIndex it.bucket)
  qAssert (it.pos < n.value.length)
  if it.pos + 1 < n.value.length then pure (some ⟨it.bucket, it.pos + 1⟩)
  else do
    let i ← d.increment d.numBuckets it.bucket
    pure (i.map fun bucket => ⟨bucket, 0⟩)

section Members

variable [DecidableEq K] (calculateHash : K → ℕ → ℕ) (globalSeed : ℕ)

def detach (h : QMultiHash K V) : Exec (Data K (List V)) :=
  h.toQHash.detach calculateHash globalSeed

def reserve (h : QMultiHash K V) (size : ℕ) : Exec (QMultiHash K V) := do
  let q ← h.toQHash.reserve calculateHash globalSeed size
  pure ⟨q.d, h.m_size⟩

def squeeze (h : QMultiHash K V) : Exec (QMultiHash K V) := h.reserve calculateHash globalSeed 0

def clear (_ : QMultiHash K V) : QMultiHash K V := ⟨none, 0⟩

/-! ### Reading -/

def values (h : QMultiHash K V) (key : K) : Exec (List V) := match h.d with
  | none => pure []
  | some l => do
    let n ← l.data.findNode calculateHash key
    pure ((n.map Node.value).getD [])

def constBegin (h : QMultiHash K V) : Exec (Option Iterator) := match h.d with
  | none => pure none
  | some l => do
    let i ← l.data.begin
    iterator l.data i

/-! ### Changing -/

/-- The start of `remove` and `take`: the bucket found before the detach. -/
def locate (h : QMultiHash K V) (key : K) : Exec (Data K (List V) × Bucket) := match h.d with
  | none => .error .undefined
  | some l => do
    let it ← l.data.findBucket calculateHash key
    let d ← h.detach calculateHash globalSeed
    pure (d, Bucket.ofIndex it.toBucketIndex)

def remove (h : QMultiHash K V) (key : K) : Exec (QMultiHash K V × ℤ) :=
  if h.isEmpty then pure (h, 0)
  else do
    let (d, it) ← h.locate calculateHash globalSeed key
    if d.isUnused it then pure (own d h.m_size, 0)
    else do
      let node ← d.node it
      let n : ℤ := node.value.length
      let d := d.construct it { node with value := [] }
      qAssert (h.m_size - n ≥ 0)
      let d ← d.erase calculateHash it
      pure (own d (h.m_size - n), n)

/-- `remove(key, value)` -/
def removeValue [DecidableEq V] (h : QMultiHash K V) (key : K) (value : V) :
    Exec (QMultiHash K V × ℤ) :=
  if h.isEmpty then pure (h, 0)
  else do
    let (d, it) ← h.locate calculateHash globalSeed key
    if d.isUnused it then pure (own d h.m_size, 0)
    else do
      let node ← d.node it
      let n : ℤ := node.value.count value
      let rest := node.value.filter fun x => x ≠ value
      let d := d.construct it { node with value := rest }
      let d ← if rest.isEmpty then d.erase calculateHash it else pure d
      qAssert (h.m_size - n ≥ 0)
      pure (own d (h.m_size - n), n)

def take [Inhabited V] (h : QMultiHash K V) (key : K) : Exec (QMultiHash K V × V) :=
  if h.isEmpty then pure (h, default)
  else do
    let (d, it) ← h.locate calculateHash globalSeed key
    if d.isUnused it then pure (own d h.m_size, default)
    else do
      let node ← d.node it
      match node.value with
      | [] => .error .undefined
      | t :: rest => do
        let d ← if rest.isEmpty then d.erase calculateHash it
          else pure (d.construct it { node with value := rest })
        qAssert (h.m_size - 1 ≥ 0)
        pure (own d (h.m_size - 1), t)

def emplace_helper (d : Data K (List V)) (m_size : ℤ) (key : K) (value : V) :
    Exec (QMultiHash K V × Option Iterator) := do
  let (d, it, initialized) ← d.findOrInsert calculateHash key
  if initialized then do
    let n ← d.node it
    pure (own (d.construct it { n with value := value :: n.value }) (m_size + 1),
      some ⟨it.toBucketIndex, 0⟩)
  else pure (own (d.construct it ⟨key, [value]⟩) (m_size + 1), some ⟨it.toBucketIndex, 0⟩)

/-- `insert` and `emplace` -/
def insert (h : QMultiHash K V) (key : K) (value : V) :
    Exec (QMultiHash K V × Option Iterator) := do
  let d ← h.detach calculateHash globalSeed
  emplace_helper calculateHash d h.m_size key value

def emplaceReplace_helper (d : Data K (List V)) (m_size : ℤ) (key : K) (value : V) :
    Exec (QMultiHash K V × Option Iterator) := do
  let (d, it, initialized) ← d.findOrInsert calculateHash key
  if initialized then do
    let n ← d.node it
    match n.value with
    | [] => .error .undefined
    | _ :: rest => pure (own (d.construct it { n with value := value :: rest }) m_size,
        some ⟨it.toBucketIndex, 0⟩)
  else pure (own (d.construct it ⟨key, [value]⟩) (m_size + 1), some ⟨it.toBucketIndex, 0⟩)

/-- `replace` and `emplaceReplace` -/
def replace (h : QMultiHash K V) (key : K) (value : V) :
    Exec (QMultiHash K V × Option Iterator) := do
  let d ← h.detach calculateHash globalSeed
  emplaceReplace_helper calculateHash d h.m_size key value

/-- `operator[]`: the bucket whose first value the result refers to. -/
def index [Inhabited V] (h : QMultiHash K V) (key : K) : Exec (Data K (List V) × Bucket × ℤ) := do
  let d ← h.detach calculateHash globalSeed
  let (d, it, initialized) ← d.findOrInsert calculateHash key
  if initialized then pure (d, it, h.m_size)
  else pure (d.construct it ⟨key, [default]⟩, it, h.m_size + 1)

/-- `hash[key]`, read -/
def indexValue [Inhabited V] (h : QMultiHash K V) (key : K) : Exec (QMultiHash K V × V) := do
  let (d, it, m_size) ← h.index calculateHash globalSeed key
  let n ← d.node it
  match n.value with
  | [] => .error .undefined
  | v :: _ => pure (own d m_size, v)

/-- `hash[key] = value` -/
def indexAssign [Inhabited V] (h : QMultiHash K V) (key : K) (value : V) : Exec (QMultiHash K V) := do
  let (d, it, m_size) ← h.index calculateHash globalSeed key
  let n ← d.node it
  match n.value with
  | [] => .error .undefined
  | _ :: rest => pure (own (d.construct it { n with value := value :: rest }) m_size)

/-- `detach(const_iterator it)`; the position in the chain is found again in the copy. -/
def detachAt (h : QMultiHash K V) (it : Iterator) : Exec (Data K (List V)) := match h.d with
  | none => .error .undefined
  | some l =>
    if l.shared then do
      let n ← l.data.node (Bucket.ofIndex it.bucket)
      qAssert (it.pos < n.value.length)
      l.data.copy calculateHash
    else pure l.data

/-- The part of `erase` for an entry that had none after it in its chain. -/
def eraseLast (d : Data K (List V)) (it : Iterator) : Exec (Data K (List V) × Option Iterator) :=
  if it.pos = 0 then do
    let bucket := Bucket.ofIndex it.bucket
    let d ← d.erase calculateHash bucket
    if bucket.toBucketIndex = d.numBuckets - 1 ∨ d.isUnused bucket then do
      let i ← d.increment d.numBuckets it.bucket
      let i ← iterator d i
      pure (d, i)
    else do
      let i ← iterator d (some bucket.toBucketIndex)
      pure (d, i)
  else do
    let i ← d.increment d.numBuckets it.bucket
    let i ← iterator d i
    pure (d, i)

/-- `erase(const_iterator it)`, for an iterator of this hash. -/
def erase (h : QMultiHash K V) (it : Iterator) : Exec (QMultiHash K V × Option Iterator) := do
  let d ← h.detachAt calculateHash it
  let n ← d.node (Bucket.ofIndex it.bucket)
  qAssert (it.pos < n.value.length)
  let d := d.construct (Bucket.ofIndex it.bucket) { n with value := n.value.eraseIdx it.pos }
  let (d, i) ← if it.pos + 1 < n.value.length then pure (d, some it) else eraseLast calculateHash d it
  qAssert (h.m_size - 1 ≥ 0)
  pure (own d (h.m_size - 1), i)

/-- The loop of `unite`: insert what `copy` has from `cit` on. -/
def uniteFrom (copy : Data K (List V)) : ℕ → QMultiHash K V → Option Iterator → Exec (QMultiHash K V)
  | 0, _, _ => .error .diverge
  | _ + 1, h, none => pure h
  | k + 1, h, some cit => do
    let n ← copy.node (Bucket.ofIndex cit.bucket)
    match n.value[cit.pos]? with
    | none => .error .undefined
    | some v => do
      let (h, _) ← h.insert calculateHash globalSeed n.key v
      let cit ← increment copy cit
      uniteFrom copy k h cit

/-- The hash while another object shares its table as well, if `also` says so. -/
def withShare (h : QMultiHash K V) (also : Bool) : QMultiHash K V :=
  ⟨h.d.map fun l => ⟨l.shared || also, l.data⟩, h.m_size⟩

/-- `unite(const QMultiHash &other)` for a hash that is not empty; an empty one is assigned
`other`. The local `copy(other)` shares the table of `other`, which may be the own one. -/
def unite (h other : QMultiHash K V) (sameTable : Bool) : Exec (QMultiHash K V) :=
  if other.isEmpty then pure h
  else match other.d with
    | none => .error .undefined
    | some copy => do
      let d ← (h.withShare sameTable).detach calculateHash globalSeed
      let cit ← other.constBegin
      uniteFrom calculateHash globalSeed copy.data (other.m_size.toNat + 1) (own d h.m_size) cit

end Members

end QMultiHash

end QtBase
