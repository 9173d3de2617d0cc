import QtBase.Lib.SortedMap
import Mathlib.Algebra.Order.Ring.Int
import Mathlib.Tactic.Common

/-! `QtPrivate::ResultStoreBase`: the results of a computation, reported in any order. -/
namespace QtBase.ResultStore

open QtBase.Lib

variable {T : Type}

/-- What the pointer of a `ResultItem` leads to: a `T` or a `QList<T>`. -/
inductive Result (T : Type) where
  | single (value : T)
  | vector (values : List T)

/-- `ResultItem`; a null pointer is `none`. -/
structure ResultItem (T : Type) where
  m_count : ℤ
  result : Option (Result T)

namespace ResultItem

def isValid (item : ResultItem T) : Bool := item.result.isSome

def isVector (item : ResultItem T) : Bool := item.m_count != 0

def count (item : ResultItem T) : ℤ := if item.m_count = 0 then 1 else item.m_count

/-- `*pointer<T>()` of an iterator at `vectorIndex` -/
def value (item : ResultItem T) (vectorIndex : ℤ) : Option T :=
  match item.result with
  | some (.single value) => some value
  | some (.vector values) => values[vectorIndex.toNat]?
  | none => none

end ResultItem

/-- `QMap<int, ResultItem>` -/
abbrev Store (T : Type) := List (ℤ × ResultItem T)

/-- `ResultIteratorBase`: the position of its map iterator, and the index in the vector there. -/
structure ResultIterator where
  mapIterator : ℕ
  m_vectorIndex : ℤ
  deriving DecidableEq

namespace Store

variable (store : Store T)

/-- `ResultIteratorBase(store.end())` -/
def end' : ResultIterator := ⟨store.length, 0⟩

/-- `ResultIteratorBase(store.begin())` -/
def begin' : ResultIterator := ⟨0, 0⟩

/-- What a map iterator points to. -/
def at' (it : ℕ) : ℤ × ResultItem T := store.getD it (0, ⟨0, none⟩)

/-- The end of `findResult`, once the map iterator is chosen. -/
def findIn (index : ℤ) (it : ℕ) : ResultIterator :=
  let vectorIndex := index - (store.at' it).1
  if vectorIndex ≥ (store.at' it).2.count then store.end'
  else if (store.at' it).2.isVector = false ∧ vectorIndex ≠ 0 then store.end'
  else ⟨it, vectorIndex⟩

def findResult (index : ℤ) : ResultIterator :=
  if store = [] then store.end'
  else
    let it := lowerBoundKey store index
    if it = store.length then
      let it := it - 1
      if (store.at' it).2.isVector = false then store.end' else store.findIn index it
    else if (store.at' it).1 > index then
      if it = 0 then store.end' else store.findIn index (it - 1)
    else store.findIn index it

/-- `value()` of an iterator -/
def value (it : ResultIterator) : Option T := (store.at' it.mapIterator).2.value it.m_vectorIndex

/-- `++it` -/
def next (it : ResultIterator) : ResultIterator :=
  if it.m_vectorIndex + 1 < (store.at' it.mapIterator).2.m_count then
    { it with m_vectorIndex := it.m_vectorIndex + 1 }
  else ⟨it.mapIterator + 1, 0⟩

/-- The values from `it` to `end()`, at most `steps` of them. -/
def iterate : ℕ → ResultIterator → List (Option T)
  | 0, _ => []
  | steps + 1, it => if it = store.end' then [] else store.value it :: iterate steps (store.next it)

end Store

/-! ## The store -/

structure ResultStoreBase (T : Type) where
  m_results : Store T
  insertIndex : ℤ
  resultCount : ℤ
  m_filterMode : Bool
  pendingResults : Store T
  filteredResults : ℤ

namespace ResultStoreBase

variable (s : ResultStoreBase T)

/-- `ResultStoreBase()`, with `setFilterMode(filterMode)` -/
def construct (filterMode : Bool) : ResultStoreBase T where
  m_results := []
  insertIndex := 0
  resultCount := 0
  m_filterMode := filterMode
  pendingResults := []
  filteredResults := 0

def count : ℤ := s.resultCount

def resultAt (index : ℤ) : ResultIterator := s.m_results.findResult index

/-- The loop of `syncResultCount`, which visits an item of the map at most once. -/
def syncLoop : ℕ → ℤ → ℤ
  | 0, resultCount => resultCount
  | steps + 1, resultCount =>
    let it := s.m_results.findResult resultCount
    if it = s.m_results.end' then resultCount
    else syncLoop steps (resultCount + (s.m_results.at' it.mapIterator).2.count)

def syncResultCount : ResultStoreBase T :=
  { s with resultCount := s.syncLoop s.m_results.length s.resultCount }

def insertResultItemIfValid (index : ℤ) (resultItem : ResultItem T) : ResultStoreBase T :=
  if resultItem.isValid then
    { s with m_results := insertKey index resultItem s.m_results }.syncResultCount
  else { s with filteredResults := s.filteredResults + resultItem.count }

/-- `syncPendingResults`, whose loop takes one pending item after the other. -/
def syncPending : ℕ → ResultStoreBase T → ResultStoreBase T
  | 0, s => s
  | steps + 1, s =>
    match s.pendingResults with
    | [] => s
    | (index, result) :: rest =>
      if index ≠ s.resultCount + s.filteredResults then s
      else
        let s := s.insertResultItemIfValid (index - s.filteredResults) result
        syncPending steps { s with pendingResults := rest }

def syncPendingResults : ResultStoreBase T := syncPending s.pendingResults.length s

/-- `updateInsertIndex`: the new state, and the index it returns -/
def updateInsertIndex (index count : ℤ) : ResultStoreBase T × ℤ :=
  if index = -1 then ({ s with insertIndex := s.insertIndex + count }, s.insertIndex)
  else ({ s with insertIndex := max (index + count) s.insertIndex }, index)

def insertResultItem (index : ℤ) (resultItem : ResultItem T) : ResultStoreBase T × ℤ :=
  if s.m_filterMode ∧ index ≠ -1 ∧ index > s.insertIndex then
    let s := { s with pendingResults := insertKey index resultItem s.pendingResults }
    (s.syncPendingResults, index)
  else
    let (s, storeIndex) := s.updateInsertIndex index resultItem.count
    let s := s.insertResultItemIfValid (storeIndex - s.filteredResults) resultItem
    (s.syncPendingResults, storeIndex)

def containsValidResultItem (index : ℤ) : Bool :=
  let inPending := s.m_filterMode && decide (index ≠ -1) && decide (index > s.insertIndex)
  let store := if inPending then s.pendingResults else s.m_results
  let it := store.findResult index
  it ≠ store.end' && (store.at' it.mapIterator).2.isValid

/-- `addResult(int, const void *)` -/
def addItem (index : ℤ) (result : Option (Result T)) : ResultStoreBase T × ℤ :=
  s.insertResultItem index ⟨0, result⟩

/-- `addResults(int, const void *, int, int)` -/
def addItems (index : ℤ) (results : Option (Result T)) (vectorSize totalCount : ℤ) :
    ResultStoreBase T × ℤ :=
  if s.m_filterMode = false ∨ vectorSize = totalCount then
    s.insertResultItem index ⟨vectorSize, results⟩
  else
    let s := if vectorSize > 0 then (s.insertResultItem index ⟨vectorSize, results⟩).1 else s
    s.insertResultItem (index + vectorSize) ⟨totalCount - vectorSize, none⟩

/-- `addResult(int, const T *)` -/
def addResult (index : ℤ) (result : Option T) : ResultStoreBase T × ℤ :=
  if s.containsValidResultItem index then (s, -1)
  else
    match result with
    | none => s.addItem index none
    | some value => s.addItem index (some (.single value))

/-- `addResults(int, const QList<T> *, int)` -/
def addResults (index : ℤ) (results : List T) (totalCount : ℤ) : ResultStoreBase T × ℤ :=
  if (s.m_filterMode = false ∨ (results.length : ℤ) = totalCount) ∧ results = [] then (s, -1)
  else if s.containsValidResultItem index then (s, -1)
  else if s.m_filterMode = true ∧ (results.length : ℤ) ≠ totalCount ∧ 0 = results.length then
    s.addItems index none 0 totalCount
  else s.addItems index (some (.vector results)) results.length totalCount

end ResultStoreBase

end QtBase.ResultStore
