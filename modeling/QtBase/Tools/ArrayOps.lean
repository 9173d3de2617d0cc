import QtBase.Core.Exec
import Mathlib.Data.Int.Order.Basic
import Mathlib.Logic.Function.Basic

/-! `QGenericArrayOps::Inserter` and `QMovableArrayOps::Inserter`, for elements whose constructors
and assignments do not throw. -/
namespace QtBase.ArrayOps

inductive Slot (T : Type)
  | unconstructed
  | live (value : T)
  /-- An object that was moved from: it can be assigned to, its value is unspecified. -/
  | moved
  deriving DecidableEq

/-- The slots around `QArrayDataPointer::ptr`, which is at 0. -/
abbrev Memory (T : Type) := ℤ → Slot T

variable {T : Type}

namespace Memory

/-- `new (m + p) T(value)` -/
def construct (m : Memory T) (p : ℤ) (value : T) : Exec (Memory T) :=
  match m p with
  | .unconstructed => .ok (Function.update m p (.live value))
  | _ => .error .undefined

/-- `m[p] = value` -/
def assign (m : Memory T) (p : ℤ) (value : T) : Exec (Memory T) :=
  match m p with
  | .unconstructed => .error .undefined
  | _ => .ok (Function.update m p (.live value))

/-- What `std::move(m[p])` gives, once it is taken. -/
def moveFrom (m : Memory T) (p : ℤ) : Exec (T × Memory T) :=
  match m p with
  | .live value => .ok (value, Function.update m p .moved)
  | _ => .error .undefined

/-- `new (m + p) T(std::move(m[q]))` -/
def moveConstruct (m : Memory T) (p q : ℤ) : Exec (Memory T) := do
  let (value, m) ← m.moveFrom q
  m.construct p value

/-- `m[p] = std::move(m[q])`. An object that is assigned to itself keeps what `selfMove` says. -/
def moveAssign (selfMove : T → T) (m : Memory T) (p q : ℤ) : Exec (Memory T) := do
  let (value, m) ← m.moveFrom q
  m.assign p (if p = q then selfMove value else value)

/-- `::memmove(m + dest, m + source, count * sizeof(T))`: the objects live on where they are put. -/
def memmove (m : Memory T) (dest source count : ℤ) : Memory T := fun p =>
  if dest ≤ p ∧ p < dest + count then m (p - dest + source)
  else if source ≤ p ∧ p < source + count then .unconstructed
  else m p

end Memory

/-- `for (i = start; i != stop; ++i)`. Past `stop` it only ends by overflow. -/
def forUp {σ : Type} (start stop : ℤ) (body : ℤ → σ → Exec σ) (s : σ) : Exec σ :=
  if start ≤ stop then
    (List.range (stop - start).toNat).foldlM (fun s (k : ℕ) => body (start + k) s) s
  else .error .undefined

/-- `for (i = start; i != stop; --i)` -/
def forDown {σ : Type} (start stop : ℤ) (body : ℤ → σ → Exec σ) (s : σ) : Exec σ :=
  if stop ≤ start then
    (List.range (start - stop).toNat).foldlM (fun s (k : ℕ) => body (start - k) s) s
  else .error .undefined

/-- `QArrayDataPointer`, as far as an `Inserter` uses it. -/
structure DataPointer (T : Type) where
  memory : Memory T
  size : ℤ

/-- `source[i]` -/
def sourceAt (source : List T) (i : ℤ) : Exec T :=
  if 0 ≤ i then
    match source[i.toNat]? with
    | some value => .ok value
    | none => .error .undefined
  else .error .undefined

namespace Generic

/-- `end` (here `endPos`), `last` and `where` are counted from `begin`. -/
structure Inserter (T : Type) where
  memory : Memory T
  size : ℤ
  sourceCopyConstruct : ℤ := 0
  nSource : ℤ := 0
  move : ℤ := 0
  sourceCopyAssign : ℤ := 0
  endPos : ℤ := 0
  last : ℤ := 0
  where' : ℤ := 0

namespace Inserter

def ofData (data : DataPointer T) : Inserter T := { memory := data.memory, size := data.size }

/-- The destructor stores `begin` and `size`. -/
def toData (s : Inserter T) : DataPointer T := ⟨s.memory, s.size⟩

def setup (pos n : ℤ) (s : Inserter T) : Inserter T :=
  let dist := s.size - pos
  let s := { s with
    endPos := s.size
    last := s.size - 1
    where' := pos
    sourceCopyConstruct := 0
    nSource := n
    move := n - dist
    sourceCopyAssign := n }
  if n > dist then
    { s with
      sourceCopyConstruct := n - dist
      move := 0
      sourceCopyAssign := s.sourceCopyAssign - (n - dist) }
  else s

/-- The first loop: new elements at the end, from those to be inserted. -/
def copyConstruct (value : ℤ → Exec T) (s : Inserter T) : Exec (Inserter T) :=
  forUp 0 s.sourceCopyConstruct (fun i s => do
    let t ← value (s.nSource - s.sourceCopyConstruct + i)
    let memory ← s.memory.construct (s.endPos + i) t
    return { s with memory, size := s.size + 1 }) s

/-- The second loop: new elements at the end, from those inside the array. -/
def moveConstruct (s : Inserter T) : Exec (Inserter T) :=
  forUp s.sourceCopyConstruct s.nSource (fun i s => do
    let memory ← s.memory.moveConstruct (s.endPos + i) (s.endPos + i - s.nSource)
    return { s with memory, size := s.size + 1 }) s

/-- The third loop: elements move `n` slots towards the end. -/
def moveAssign (selfMove : T → T) (n : ℤ) (s : Inserter T) : Exec (Inserter T) :=
  forDown 0 s.move (fun i s => do
    let memory ← s.memory.moveAssign selfMove (s.last + i) (s.last + (i - n))
    return { s with memory }) s

/-- The last loop: the remaining new elements. -/
def copyAssign (value : ℤ → Exec T) (s : Inserter T) : Exec (Inserter T) :=
  forUp 0 s.sourceCopyAssign (fun i s => do
    let t ← value i
    let memory ← s.memory.assign (s.where' + i) t
    return { s with memory }) s

/-- Both `insert` functions: element `i` of the `n` new ones is `value i`. -/
def insertValues (selfMove : T → T) (pos : ℤ) (value : ℤ → Exec T) (n : ℤ) (s : Inserter T) :
    Exec (Inserter T) := do
  let oldSize := s.size
  let s := s.setup pos n
  let s ← s.copyConstruct fun i => value i
  qAssert (s.size ≤ oldSize + n)
  let s ← s.moveConstruct
  qAssert (s.size = oldSize + n)
  let s ← s.moveAssign selfMove s.nSource
  s.copyAssign value

end Inserter

open Inserter

/-- `Inserter(data).insert(pos, source, n)` -/
def insert (selfMove : T → T) (data : DataPointer T) (pos : ℤ) (source : List T) (n : ℤ) :
    Exec (DataPointer T) := do
  let s ← (ofData data).insertValues selfMove pos (sourceAt source) n
  return s.toData

/-- `Inserter(data).insert(pos, t, n)` -/
def insertCopies (selfMove : T → T) (data : DataPointer T) (pos : ℤ) (t : T) (n : ℤ) :
    Exec (DataPointer T) := do
  let s ← (ofData data).insertValues selfMove pos (fun _ => .ok t) n
  return s.toData

/-- `Inserter(data).insertOne(pos, std::move(t))` -/
def insertOne (selfMove : T → T) (data : DataPointer T) (pos : ℤ) (t : T) :
    Exec (DataPointer T) := do
  let s := (ofData data).setup pos 1
  if s.sourceCopyConstruct ≠ 0 then
    qAssert (s.sourceCopyConstruct = 1)
    let memory ← s.memory.construct s.endPos t
    return { s with memory, size := s.size + 1 : Inserter T }.toData
  else
    let memory ← s.memory.moveConstruct s.endPos (s.endPos - 1)
    let s := { s with memory, size := s.size + 1 }
    let s ← s.moveAssign selfMove 1
    let memory ← s.memory.assign s.where' t
    return { s with memory }.toData

end Generic

namespace Movable

structure Inserter (T : Type) where
  data : DataPointer T
  displaceFrom : ℤ
  displaceTo : ℤ
  nInserts : ℤ

def displace (data : DataPointer T) (pos n : ℤ) : Inserter T :=
  { data := { data with memory := data.memory.memmove (pos + n) pos (data.size - pos) }
    displaceFrom := pos
    displaceTo := pos + n
    nInserts := n }

/-- The destructor. -/
def Inserter.toData (s : Inserter T) : DataPointer T :=
  { s.data with size := s.data.size + s.nInserts }

/-- `while (n--) new (where++) T(value)`, the values in order -/
def constructValues (value : ℤ → Exec T) (where' n : ℤ) (s : Inserter T) : Exec (Inserter T) :=
  forUp 0 n (fun i s => do
    let t ← value i
    let memory ← s.data.memory.construct (where' + i) t
    return { s with data := { s.data with memory }, displaceFrom := s.displaceFrom + 1 }) s

/-- `Inserter(data).insert(pos, source, n)` -/
def insert (data : DataPointer T) (pos : ℤ) (source : List T) (n : ℤ) : Exec (DataPointer T) := do
  let s ← constructValues (sourceAt source) pos n (displace data pos n)
  return s.toData

/-- `Inserter(data).insert(pos, t, n)` -/
def insertCopies (data : DataPointer T) (pos : ℤ) (t : T) (n : ℤ) : Exec (DataPointer T) := do
  let s ← constructValues (fun _ => .ok t) pos n (displace data pos n)
  return s.toData

/-- `Inserter(data).insertOne(pos, std::move(t))` -/
def insertOne (data : DataPointer T) (pos : ℤ) (t : T) : Exec (DataPointer T) := do
  let s ← constructValues (fun _ => .ok t) pos 1 (displace data pos 1)
  qAssert (s.displaceFrom = s.displaceTo)
  return s.toData

end Movable

end QtBase.ArrayOps
