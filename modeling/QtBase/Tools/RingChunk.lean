import QtBase.Core.Exec
import Mathlib.Algebra.Order.Ring.Int
import Mathlib.Data.Nat.Notation
import Mathlib.Tactic.Linarith

/-! `QRingChunk`: a byte array with the part of it that holds live bytes. -/
namespace QtBase

open List

/-- `MaxByteArraySize` for a 64-bit `qsizetype`. -/
def MaxByteArraySize : ℕ := 2 ^ 63 - 1 - 24 - 1

/-- The block holds the bytes and counts its owners. A null array, an empty literal and raw data
have no block. -/
structure QByteArray where
  bytes : List UInt8
  block : Option ℕ
  size_le : bytes.length ≤ MaxByteArraySize

namespace QByteArray

def size (a : QByteArray) : ℕ := a.bytes.length

def null : QByteArray := ⟨[], none, Nat.zero_le _⟩

/-- `QByteArray(size, Qt::Uninitialized)`; `memory` is what a new block happens to hold. -/
def uninitialized (memory : ℕ → ℕ → UInt8) (block : ℕ) (size : ℕ) : Exec QByteArray :=
  if h : size ≤ MaxByteArraySize then
    .ok ⟨(List.range size).map (memory block), some block, by simpa using h⟩
  else .error .badAlloc

/-- `QByteArray(const char *, qsizetype)`, for bytes of another array. -/
def ofSlice (a : QByteArray) (pos len : ℕ) (block : ℕ) : QByteArray :=
  ⟨(a.bytes.drop pos).take len, if len = 0 then none else some block, by
    have h := a.size_le
    simp only [List.length_take, List.length_drop]
    omega⟩

/-- `isDetached()`, where `ref` has the counts of the blocks. -/
def isDetached (a : QByteArray) (ref : ℕ → ℕ) : Bool := match a.block with
  | none => false
  | some block => ref block == 1

/-- The byte that a pointer to position `i` reads; behind the last byte is a terminating zero. -/
def byteAt (a : QByteArray) (i : ℕ) : Exec UInt8 :=
  if i ≤ a.size then .ok (a.bytes.getD i 0) else .error .undefined

/-- `memcpy` to position `pos`. -/
def overwrite (a : QByteArray) (pos : ℕ) (data : List UInt8) (h : pos + data.length ≤ a.size) :
    QByteArray :=
  ⟨a.bytes.take pos ++ data ++ a.bytes.drop (pos + data.length), a.block, by
    have h' := a.size_le
    unfold size at h
    simp only [List.length_append, List.length_take, List.length_drop]
    omega⟩

@[simp] theorem size_overwrite (a : QByteArray) {pos : ℕ} {data : List UInt8}
    (h : pos + data.length ≤ a.size) : (a.overwrite pos data h).size = a.size := by
  unfold size overwrite at *
  simp
  omega

end QByteArray

/-- The live bytes are those from `headOffset` to `tailOffset`. -/
structure QRingChunk where
  chunk : QByteArray
  headOffset : ℕ
  tailOffset : ℕ
  head_le : headOffset ≤ tailOffset
  tail_le : tailOffset ≤ chunk.size
  /-- A chunk without live bytes starts at the front. -/
  head_eq_zero : headOffset = tailOffset → headOffset = 0

namespace QRingChunk

variable (memory : ℕ → ℕ → UInt8) (ref : ℕ → ℕ) (block : ℕ) (c : QRingChunk)

def size : ℕ := c.tailOffset - c.headOffset

def capacity : ℕ := c.chunk.size

def available : ℕ := c.chunk.size - c.tailOffset

def isShared : Bool := !c.chunk.isDetached ref

/-- The `size()` bytes at `data()`. -/
def live : List UInt8 := (c.chunk.bytes.take c.tailOffset).drop c.headOffset

/-- `QRingChunk(const QByteArray &)` and `assign`. -/
def ofArray (qba : QByteArray) : QRingChunk where
  chunk := qba
  headOffset := 0
  tailOffset := qba.size
  head_le := Nat.zero_le _
  tail_le := le_refl _
  head_eq_zero _ := rfl

/-- The array without live bytes. -/
def unused (a : QByteArray) : QRingChunk where
  chunk := a
  headOffset := 0
  tailOffset := 0
  head_le := le_refl _
  tail_le := Nat.zero_le _
  head_eq_zero _ := rfl

/-- `QRingChunk(qsizetype alloc)` -/
def new (alloc : ℤ) : Exec QRingChunk := do
  let chunk ← QByteArray.uninitialized memory block alloc.toNat
  pure (unused chunk)

def allocate (alloc : ℤ) : Exec QRingChunk :=
  if h : alloc > 0 ∧ c.size = 0 then
    if c.chunk.size < alloc ∨ c.isShared ref then do
      let chunk ← QByteArray.uninitialized memory block alloc.toNat
      pure { c with
        chunk
        tail_le := by
          have h₁ := c.head_le
          have h₂ := c.head_eq_zero
          have h₃ := h.2
          unfold size at h₃
          omega }
    else pure c
  else .error .undefined

def detach : Exec QRingChunk := do
  qAssert (c.isShared ref = true)
  pure (ofArray (c.chunk.ofSlice c.headOffset c.size block))

/-- The chunk after `char *data()`. -/
def data : Exec QRingChunk := if c.isShared ref then c.detach ref block else pure c

def advance (offset : ℤ) : Exec QRingChunk :=
  if h : c.headOffset + offset ≥ 0 ∧ c.size - offset > 0 then
    .ok { c with
      headOffset := (c.headOffset + offset).toNat
      head_le := by
        have h₁ := c.head_le
        unfold size at h
        omega
      head_eq_zero := by
        have h₁ := c.head_le
        unfold size at h
        omega }
  else .error .undefined

def grow (offset : ℤ) : Exec QRingChunk :=
  if h : c.size + offset > 0 ∧ c.headOffset + c.size + offset ≤ c.capacity then
    .ok { c with
      tailOffset := (c.tailOffset + offset).toNat
      head_le := by
        have h₁ := c.head_le
        unfold size at h
        omega
      tail_le := by
        have h₁ := c.head_le
        unfold size capacity at h
        omega
      head_eq_zero := by
        have h₁ := c.head_le
        unfold size at h
        omega }
  else .error .undefined

def reset : QRingChunk := unused c.chunk

/-- The chunk after `clear`. -/
def cleared : QRingChunk := unused QByteArray.null

/-- `toByteArray() &&` -/
def toByteArray : QByteArray :=
  if c.headOffset ≠ 0 ∨ c.tailOffset ≠ c.chunk.size then
    if c.isShared ref then c.chunk.ofSlice c.headOffset c.size block
    else ⟨c.live, c.chunk.block, by
      have h := c.chunk.size_le
      simp only [live, List.length_drop, List.length_take]
      omega⟩
  else c.chunk

/-- A write through a pointer into the array, which must not have other owners. -/
def write (pos : ℕ) (data : List UInt8) : Exec QRingChunk :=
  if h : c.isShared ref = false ∧ pos + data.length ≤ c.chunk.size then
    .ok { c with
      chunk := c.chunk.overwrite pos data h.2
      tail_le := by
        rw [QByteArray.size_overwrite]
        exact c.tail_le }
  else .error .undefined

/-! ## The live bytes -/

variable {memory ref block c} {c' : QRingChunk}

@[simp] theorem length_live (c : QRingChunk) : c.live.length = c.size := by
  have h := c.tail_le
  unfold QByteArray.size at h
  unfold live size
  simp
  omega

theorem size_le_capacity (c : QRingChunk) : c.size ≤ c.capacity := by
  have h := c.tail_le
  unfold size capacity
  omega

theorem capacity_le (c : QRingChunk) : c.capacity ≤ MaxByteArraySize := c.chunk.size_le

@[simp] theorem live_ofArray (a : QByteArray) : (ofArray a).live = a.bytes := by
  simp [live, ofArray, QByteArray.size]

@[simp] theorem live_unused (a : QByteArray) : (unused a).live = [] := by
  simp [live, unused]

theorem new_eq (memory : ℕ → ℕ → UInt8) (block : ℕ) {alloc : ℤ} (h : alloc ≤ MaxByteArraySize) :
    ∃ a : QByteArray, new memory block alloc = .ok (unused a) ∧ a.size = alloc.toNat ∧ a.block = some block := by
  have hle : alloc.toNat ≤ MaxByteArraySize := by omega
  unfold new QByteArray.uninitialized
  rw [dif_pos hle]
  exact ⟨_, rfl, by simp [QByteArray.size], rfl⟩

theorem eq_unused (h : c.size = 0) : c = unused c.chunk := by
  cases c with
  | mk chunk headOffset tailOffset head_le tail_le head_eq_zero =>
    unfold size at h
    have hhead : headOffset = 0 := by
      apply head_eq_zero
      simp only at h
      omega
    have htail : tailOffset = 0 := by
      simp only at h
      omega
    subst hhead htail
    rfl

theorem allocate_eq (memory : ℕ → ℕ → UInt8) (ref : ℕ → ℕ) (block : ℕ) {alloc : ℤ}
    (h : alloc ≤ MaxByteArraySize) (hpos : 0 < alloc) (hsize : c.size = 0) : ∃ a : QByteArray, c.allocate memory ref block alloc = .ok (unused a) ∧
      alloc ≤ a.size ∧ (a.block = some block ∨ a.block = c.chunk.block ∧ c.isShared ref = false) := by
  have hle : alloc.toNat ≤ MaxByteArraySize := by omega
  rw [eq_unused hsize]
  unfold allocate
  rw [dif_pos ⟨hpos, rfl⟩]
  split_ifs with hnew
  · unfold QByteArray.uninitialized
    rw [dif_pos hle]
    refine ⟨_, rfl, ?_, .inl ?_⟩
    · simp only [QByteArray.size, length_map, length_range]
      omega
    · rfl
  · push Not at hnew
    exact ⟨c.chunk, rfl, hnew.1, .inr ⟨rfl, by simpa using hnew.2⟩⟩

theorem advance_eq {offset : ℤ} (h₁ : 0 ≤ c.headOffset + offset) (h₂ : offset < c.size) :
    ∃ c', c.advance offset = .ok c' ∧ c'.chunk = c.chunk ∧ c'.tailOffset = c.tailOffset ∧
      (c'.headOffset : ℤ) = c.headOffset + offset := by
  unfold advance
  rw [dif_pos ⟨h₁, by omega⟩]
  exact ⟨_, rfl, rfl, rfl, Int.toNat_of_nonneg h₁⟩

theorem grow_eq {offset : ℤ} (h₁ : 0 < c.size + offset) (h₂ : c.tailOffset + offset ≤ c.capacity) :
    ∃ c', c.grow offset = .ok c' ∧ c'.chunk = c.chunk ∧ c'.headOffset = c.headOffset ∧
      (c'.tailOffset : ℤ) = c.tailOffset + offset := by
  have hle := c.head_le
  have hsize : (c.headOffset : ℤ) + c.size = c.tailOffset := by
    unfold size
    omega
  unfold grow
  rw [dif_pos ⟨h₁, by omega⟩]
  exact ⟨_, rfl, rfl, rfl, Int.toNat_of_nonneg (by omega)⟩

theorem live_of_head (hc : c'.chunk = c.chunk) (ht : c'.tailOffset = c.tailOffset) {n : ℕ}
    (hh : c'.headOffset = c.headOffset + n) : c'.live = c.live.drop n := by
  unfold live
  rw [hc, ht, hh, drop_drop]

theorem live_of_tail (hc : c'.chunk = c.chunk) (hh : c'.headOffset = c.headOffset) {n : ℕ}
    (ht : c'.tailOffset + n = c.tailOffset) : c'.live = c.live.take (c.size - n) := by
  have h₁ := c.head_le
  have h₂ := c'.head_le
  have hn : c.headOffset + (c.size - n) = c'.tailOffset := by
    unfold size
    omega
  unfold live
  rw [hc, hh, take_drop, hn, take_take, min_eq_left (by omega)]

theorem live_write {pos : ℕ} {data : List UInt8} (hs : c.isShared ref = false)
    (hpos : pos + data.length ≤ c.size) :
    ∃ c', c.write ref (c.headOffset + pos) data = .ok c' ∧ c'.chunk.block = c.chunk.block ∧
      c'.live = c.live.take pos ++ data ++ c.live.drop (pos + data.length) := by
  have h₁ := c.head_le
  have h₂ := c.tail_le
  unfold size at hpos
  have hfit : c.headOffset + pos + data.length ≤ c.chunk.size := by omega
  unfold write
  rw [dif_pos ⟨hs, hfit⟩]
  refine ⟨_, rfl, rfl, ?_⟩
  unfold QByteArray.size at h₂ hfit
  show ((_ : List UInt8).take c.tailOffset).drop c.headOffset = _
  unfold QByteArray.overwrite live
  apply ext_getElem?
  intro i
  simp only [getElem?_drop, getElem?_take, getElem?_append, length_append,
    length_take, length_drop]
  split_ifs <;> first | rfl | (exfalso; omega) | (congr 1; omega)

theorem bytes_toByteArray (c : QRingChunk) (ref : ℕ → ℕ) (block : ℕ) :
    (c.toByteArray ref block).bytes = c.live := by
  have h₁ := c.head_le
  unfold toByteArray
  split_ifs with hpart hshared
  · unfold QByteArray.ofSlice live size
    simp only
    rw [drop_take]
  · rfl
  · push Not at hpart
    unfold live
    rw [hpart.1, hpart.2, drop_zero]
    exact (take_length ..).symm

theorem block_toByteArray (c : QRingChunk) (ref : ℕ → ℕ) (block : ℕ) :
    (c.toByteArray ref block).block = some block ∨ (c.toByteArray ref block).block = none ∨
      (c.toByteArray ref block).block = c.chunk.block := by
  unfold toByteArray
  split_ifs
  · unfold QByteArray.ofSlice
    split_ifs
    · exact .inr (.inl rfl)
    · exact .inl rfl
  · exact .inr (.inr rfl)
  · exact .inr (.inr rfl)

theorem byteAt_head (hpos : 0 < c.size) {x : UInt8} (hx : c.live[0]? = some x) :
    c.chunk.byteAt c.headOffset = .ok x := by
  have h₁ := c.tail_le
  unfold size at hpos
  unfold live at hx
  rw [getElem?_drop, getElem?_take, if_pos (by omega), Nat.add_zero] at hx
  unfold QByteArray.byteAt
  rw [if_pos (by omega), getD_eq_getElem?_getD, hx]
  rfl

end QRingChunk

end QtBase
