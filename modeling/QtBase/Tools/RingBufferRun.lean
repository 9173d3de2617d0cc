import QtBase.Tools.RingQueue

/-! Whole runs on a `QRingBuffer`: a queue of bytes that is changed at both ends. -/
namespace QtBase.QRingBuffer

open QRingChunk List

inductive Call
  | append (data : List UInt8)
  | appendArray (qba : QByteArray)
  | appendMoved (qba : QByteArray)
  | reserve (bytes : ℤ)
  | reserveFront (bytes : ℤ)
  | putChar (c : UInt8)
  | ungetChar (c : UInt8)
  | free (bytes : ℤ)
  | chop (bytes : ℤ)
  | truncate (pos : ℤ)
  | clear
  | skip (length : ℤ)
  | getChar
  | read (maxLength : ℤ)
  | readFirst
  | readLine (maxLength : ℤ)
  | readPointerAtPosition (pos : ℤ)
  | indexOf (c : UInt8) (maxLength pos : ℤ)
  | peek (maxLength pos : ℤ)
  | setChunkSize (size : ℤ) (h : size < 2 ^ 31)

inductive Answer
  | void
  | number (n : ℤ)
  | bytes (data : List UInt8)
  | pointer (data : Option (List UInt8))

/-- The live bytes of all chunks. -/
def content (b : QRingBuffer) : List UInt8 := b.buffers.flatMap live

namespace Call

def run (memory : ℕ → ℕ → UInt8) (b : QRingBuffer) : Call → Exec (QRingBuffer × Answer)
  | append data => do
    let b ← b.append memory data
    pure (b, .void)
  | appendArray qba => pure (b.appendArray qba, .void)
  | appendMoved qba => pure (b.appendMoved qba, .void)
  | reserve bytes => do
    let (b, _) ← b.reserve memory bytes
    pure (b, .void)
  | reserveFront bytes => do
    let b ← b.reserveFront memory bytes
    pure (b, .void)
  | putChar c => do
    let b ← b.putChar memory c
    pure (b, .void)
  | ungetChar c => do
    let b ← b.ungetChar memory c
    pure (b, .void)
  | free bytes => do
    let b ← b.free bytes
    pure (b, .void)
  | chop bytes => do
    let b ← b.chop bytes
    pure (b, .void)
  | truncate pos => do
    let b ← b.truncate pos
    pure (b, .void)
  | clear => pure (b.clear, .void)
  | skip length => do
    let (b, n) ← b.skip length
    pure (b, .number n)
  | getChar => do
    let (b, c) ← b.getChar
    pure (b, .number c)
  | read maxLength => do
    let (b, data) ← b.read maxLength
    pure (b, .bytes data)
  | readFirst => do
    let (b, data) ← b.readFirst
    pure (b, .bytes data)
  | readLine maxLength => do
    let (b, data) ← b.readLine maxLength
    pure (b, .bytes data)
  | readPointerAtPosition pos => do
    let p ← b.readPointerAtPosition pos
    pure (b, .pointer p)
  | indexOf c maxLength pos => do
    let i ← b.indexOf c maxLength pos
    pure (b, .number i)
  | peek maxLength pos => do
    let data ← b.peek maxLength pos
    pure (b, .bytes data)
  | setChunkSize size h => pure ({ b with basicBlockSize := size, basicBlockSize_lt := h }, .void)

/-- The asserted preconditions. An array that is passed is one that the caller owns. -/
def Valid (b : QRingBuffer) : Call → Prop
  | append data => (data.length : ℤ) < MaxByteArraySize
  | appendArray qba | appendMoved qba => ∀ block, qba.block = some block → 0 < b.others block
  | reserve bytes | reserveFront bytes => 0 < bytes ∧ bytes < MaxByteArraySize
  | free bytes | chop bytes => bytes ≤ b.bufferSize
  | truncate pos => 0 ≤ pos ∧ pos ≤ b.bufferSize
  | readLine maxLength => 1 < maxLength
  | readPointerAtPosition pos => 0 ≤ pos
  | indexOf _ maxLength pos | peek maxLength pos => 0 ≤ maxLength ∧ 0 ≤ pos
  | _ => True

/-- Empty arrays that were appended are not in the way: an empty buffer that gets new bytes has
no second chunk, and a read that takes chunk after chunk finds bytes in each of them. -/
def Unobstructed (b : QRingBuffer) : Call → Prop
  | append data => data ≠ [] → b.bufferSize = 0 → b.buffers.length ≤ 1
  | reserve _ | putChar _ => b.bufferSize = 0 → b.buffers.length ≤ 1
  | getChar => b.bufferSize ≠ 0 → Unblocked b.buffers 1
  | read maxLength => Unblocked b.buffers (readLength b.content maxLength)
  | readLine maxLength => Unblocked b.buffers (lineLength b.content maxLength)
  | _ => True

/-- What a queue of bytes does: the bytes before and after the call, and the answer. -/
def Spec (s s' : List UInt8) : Call → Answer → Prop
  | append data, a => s' = s ++ data ∧ a = .void
  | appendArray qba, a | appendMoved qba, a => s' = s ++ qba.bytes ∧ a = .void
  | reserve bytes, a => (∃ new : List UInt8, new.length = bytes.toNat ∧ s' = s ++ new) ∧ a = .void
  | reserveFront bytes, a =>
    (∃ new : List UInt8, new.length = bytes.toNat ∧ s' = new ++ s) ∧ a = .void
  | putChar c, a => s' = s ++ [c] ∧ a = .void
  | ungetChar c, a => s' = c :: s ∧ a = .void
  | free bytes, a => s' = s.drop bytes.toNat ∧ a = .void
  | chop bytes, a => s' = s.take (s.length - bytes.toNat) ∧ a = .void
  | truncate pos, a => s' = s.take pos.toNat ∧ a = .void
  | clear, a => s' = [] ∧ a = .void
  | skip length, a => s' = s.drop (min length s.length).toNat ∧ a = .number (min length s.length)
  | getChar, a => s' = s.tail ∧ a = .number ((s.head?.map fun c => (c.toNat : ℤ)).getD (-1))
  | read maxLength, a =>
    s' = s.drop (readLength s maxLength) ∧ a = .bytes (s.take (readLength s maxLength))
  | readFirst, a => ∃ n, s' = s.drop n ∧ a = .bytes (s.take n)
  | readLine maxLength, a =>
    s' = s.drop (lineLength s maxLength) ∧ a = .bytes (s.take (lineLength s maxLength))
  | readPointerAtPosition pos, a => s' = s ∧ ∃ p, a = .pointer p ∧ match p with
    | none => (s.length : ℤ) ≤ pos
    | some piece => piece ≠ [] ∧ piece <+: s.drop pos.toNat
  | indexOf c maxLength pos, a => s' = s ∧ a = .number (firstIndex s c maxLength pos)
  | peek maxLength pos, a => s' = s ∧ a = .bytes ((s.drop pos.toNat).take maxLength.toNat)
  | setChunkSize _ _, a => s' = s ∧ a = .void

variable {b : QRingBuffer} {s : List UInt8}

theorem run_spec (memory : ℕ → ℕ → UInt8) (h : b.Holds s) (c : Call) (hv : c.Valid b)
    (hu : c.Unobstructed b) :
    ∃ b' a s', c.run memory b = .ok (b', a) ∧ b'.Holds s' ∧ c.Spec s s' a := by
  have hc : b.content = s := h.bytes
  have hown : ∀ qba : QByteArray, (∀ block, qba.block = some block → 0 < b.others block) →
      ∀ block, qba.block = some block → block < b.nextBlock := by
    intro qba howned block hblock
    by_contra hge
    have h₁ := howned block hblock
    have h₂ := h.unowned block (Nat.le_of_not_lt hge)
    omega
  cases c with
  | append data =>
    obtain ⟨b', hrun, h'⟩ := h.append memory hv hu
    simp only [run, hrun, ok_bind]
    exact ⟨b', _, _, rfl, h', rfl, rfl⟩
  | appendArray qba => exact ⟨_, _, _, rfl, h.appendArray (hown qba hv), rfl, rfl⟩
  | appendMoved qba => exact ⟨_, _, _, rfl, h.appendMoved (hown qba hv), rfl, rfl⟩
  | reserve bytes =>
    obtain ⟨b', init, c, tail, hrun, hb, -, hsize, hs, h'⟩ := h.reserve memory hv.1 hv.2 hu
    simp only [run, hrun, ok_bind]
    refine ⟨b', _, _, rfl, h', ⟨_, ?_, rfl⟩, rfl⟩
    rw [length_drop, length_live]
    omega
  | reserveFront bytes =>
    obtain ⟨b', c, rest, hrun, hb, -, hsize, hs, h'⟩ := h.reserveFront memory hv.1 hv.2
    simp only [run, hrun, ok_bind]
    refine ⟨b', _, _, rfl, h', ⟨_, ?_, rfl⟩, rfl⟩
    rw [length_take, length_live]
    omega
  | putChar c =>
    obtain ⟨b', hrun, h'⟩ := h.putChar memory c hu
    simp only [run, hrun, ok_bind]
    exact ⟨b', _, _, rfl, h', rfl, rfl⟩
  | ungetChar c =>
    obtain ⟨b', hrun, h'⟩ := h.ungetChar memory c
    simp only [run, hrun, ok_bind]
    exact ⟨b', _, _, rfl, h', rfl, rfl⟩
  | free bytes =>
    obtain ⟨b', hrun, h'⟩ := h.free hv
    simp only [run, hrun, ok_bind]
    exact ⟨b', _, _, rfl, h', rfl, rfl⟩
  | chop bytes =>
    obtain ⟨b', hrun, h'⟩ := h.chop hv
    simp only [run, hrun, ok_bind]
    exact ⟨b', _, _, rfl, h', rfl, rfl⟩
  | truncate pos =>
    obtain ⟨b', hrun, h'⟩ := h.truncate hv.1 hv.2
    simp only [run, hrun, ok_bind]
    exact ⟨b', _, _, rfl, h', rfl, rfl⟩
  | clear => exact ⟨_, _, _, rfl, h.clear, rfl, rfl⟩
  | skip length =>
    obtain ⟨b', hrun, h'⟩ := h.skip length
    simp only [run, hrun, ok_bind]
    exact ⟨b', _, _, rfl, h', rfl, rfl⟩
  | getChar =>
    cases s with
    | nil =>
      simp only [run, h.getChar_nil, ok_bind]
      exact ⟨b, _, _, rfl, h, rfl, rfl⟩
    | cons x s =>
      obtain ⟨hne, -⟩ := h.exists_cons (cons_ne_nil x s)
      obtain ⟨b', hrun, h'⟩ := h.getChar_cons (hu hne)
      simp only [run, hrun, ok_bind]
      exact ⟨b', _, _, rfl, h', rfl, rfl⟩
  | read maxLength =>
    obtain ⟨b', hrun, h'⟩ := h.read (by rw [← hc]; exact hu)
    simp only [run, hrun, ok_bind]
    exact ⟨b', _, _, rfl, h', rfl, rfl⟩
  | readFirst =>
    obtain ⟨b', n, hrun, h'⟩ := h.readFirst
    simp only [run, hrun, ok_bind]
    exact ⟨b', _, _, rfl, h', n, rfl, rfl⟩
  | readLine maxLength =>
    obtain ⟨b', hrun, h'⟩ := h.readLine hv (by rw [← hc]; exact hu)
    simp only [run, hrun, ok_bind]
    exact ⟨b', _, _, rfl, h', rfl, rfl⟩
  | readPointerAtPosition pos =>
    have hpos : pos ≥ 0 := hv
    have hspec := readPointerFrom_spec b.buffers hpos
    rw [h.bytes] at hspec
    simp only [run, QRingBuffer.readPointerAtPosition, qAssert_pos hpos, ok_bind, pure_eq_ok]
    exact ⟨b, _, s, rfl, h, rfl, _, rfl, hspec⟩
  | indexOf c maxLength pos =>
    simp only [run, h.indexOf c hv.1 hv.2, ok_bind]
    exact ⟨b, _, s, rfl, h, rfl, rfl⟩
  | peek maxLength pos =>
    simp only [run, h.peek hv.1 hv.2, ok_bind]
    exact ⟨b, _, s, rfl, h, rfl, rfl⟩
  | setChunkSize size hlt =>
    exact ⟨_, _, s, rfl, ⟨h.bytes, h.bufferSize, h.fresh, h.unowned⟩, rfl, rfl⟩

end Call

/-! ## Runs -/

/-- `QRingBuffer(growth)` -/
def empty (growth : ℤ) (h : growth < 2 ^ 31) : QRingBuffer where
  buffers := []
  bufferSize := 0
  basicBlockSize := growth
  basicBlockSize_lt := h
  others := fun _ => 0
  nextBlock := 0

/-- Any number of unobstructed calls. In between, the owners outside of the buffer make new arrays,
and copy and drop those they have. -/
inductive Run (memory : ℕ → ℕ → UInt8) : QRingBuffer → Prop
  | start (growth : ℤ) (h : growth < 2 ^ 31) : Run memory (empty growth h)
  | call {b b' a} (c : Call) : Run memory b → c.Valid b → c.Unobstructed b →
      c.run memory b = .ok (b', a) → Run memory b'
  | others {b} (others : ℕ → ℕ) (nextBlock : ℕ) : Run memory b → b.nextBlock ≤ nextBlock →
      (∀ block < b.nextBlock, b.others block = 0 → others block = 0) →
      (∀ block, nextBlock ≤ block → others block = 0) → Run memory { b with others, nextBlock }

variable {memory : ℕ → ℕ → UInt8} {b : QRingBuffer}

theorem Run.holds (hrun : Run memory b) : b.Holds b.content := by
  induction hrun with
  | start growth h => exact ⟨rfl, rfl, fun c hc => absurd hc not_mem_nil, fun _ _ => rfl⟩
  | @call b b' a c _ hv hu hc ih =>
    obtain ⟨b₁, a₁, s', hrun, h', -⟩ := c.run_spec memory ih hv hu
    rw [hc, Except.ok.injEq, Prod.mk.injEq] at hrun
    obtain ⟨rfl, rfl⟩ := hrun
    rw [content, h'.bytes]
    exact h'
  | @others b others nextBlock _ hle hold hnew ih =>
    exact ⟨rfl, ih.bufferSize, fun c hc block hblock => (ih.fresh c hc block hblock).trans_le hle, hnew⟩

/-- After every run of unobstructed calls the size is right, and every further unobstructed call
returns, with the answer and the change that a queue of the bytes makes. -/
theorem byteQueue_of_run (hrun : Run memory b) : b.bufferSize = b.content.length ∧
    ∀ c : Call, c.Valid b → c.Unobstructed b →
      ∃ b' a, c.run memory b = .ok (b', a) ∧ c.Spec b.content b'.content a := by
  have h := hrun.holds
  refine ⟨h.bufferSize, fun c hv hu => ?_⟩
  obtain ⟨b', a, s', hc, h', hspec⟩ := c.run_spec memory h hv hu
  rw [← h'.bytes] at hspec
  exact ⟨b', a, hc, hspec⟩

/-- A program that appends arrays without a header and then calls one function. -/
def afterArrays (arrays : List QByteArray) : QRingBuffer :=
  arrays.foldl QRingBuffer.appendArray (empty 4 (by decide))

theorem Run.afterArrays (memory : ℕ → ℕ → UInt8) (arrays : List QByteArray)
    (h : ∀ a ∈ arrays, a.block = none) : Run memory (afterArrays arrays) := by
  unfold QRingBuffer.afterArrays
  have hstart : Run memory (empty 4 (by decide)) := Run.start 4 (by decide)
  generalize empty 4 (by decide) = b at hstart ⊢
  induction arrays generalizing b with
  | nil => exact hstart
  | cons a arrays ih =>
    have hnone : a.block = none := h a (mem_cons_self ..)
    have hv : (Call.appendArray a).Valid b := fun block hblock => by
      rw [hnone] at hblock
      cases hblock
    exact ih (fun a' ha' => h a' (mem_cons_of_mem a ha')) _ (hstart.call _ hv trivial rfl)

/-- The arrays of a program that sends "A", nothing, and "B". -/
def letterA : QByteArray := ⟨[65], none, by decide⟩

def letterB : QByteArray := ⟨[66], none, by decide⟩

theorem byteQueue_of_run_letters : ∃ b : QRingBuffer, Run (fun _ _ => 0) b ∧
    b.content = [65, 66] ∧ ∃ b' a, (Call.read 2).run (fun _ _ => 0) b = .ok (b', a) ∧
      (Call.read 2).Spec b.content b'.content a := by
  have hrun : Run (fun _ _ => 0) (afterArrays [letterA, letterB]) :=
    Run.afterArrays _ _ (by simp [letterA, letterB])
  refine ⟨_, hrun, rfl, (byteQueue_of_run hrun).2 (.read 2) trivial ?_⟩
  exact .inr ⟨by decide, .inr ⟨by decide, trivial⟩⟩

/-- An empty array between two others stops `read` for ever. Once it is the first chunk, `getChar`
returns the byte behind its end. Two empty arrays that are left make `reserve` grow one that it has
not allocated. -/
theorem obstructed_by_empty_arrays : ∃ b₁ b₂ b₃ : QRingBuffer,
    Run (fun _ _ => 0) b₁ ∧ b₁.content = [65, 66] ∧
      (Call.read 2).run (fun _ _ => 0) b₁ = .error .diverge ∧
    Run (fun _ _ => 0) b₂ ∧ b₂.content = [66] ∧
      (∃ b', Call.getChar.run (fun _ _ => 0) b₂ = .ok (b', .number 0)) ∧
    Run (fun _ _ => 0) b₃ ∧ b₃.content = [] ∧
      (Call.reserve 1).run (fun _ _ => 0) b₃ = .error .undefined := by
  have hnone : ∀ a ∈ [letterA, QByteArray.null, letterB], a.block = none := by
    simp [letterA, letterB, QByteArray.null]
  have hnone' : ∀ a ∈ [letterA, QByteArray.null, QByteArray.null], a.block = none := by
    simp [letterA, QByteArray.null]
  have hrun₁ := Run.afterArrays (fun _ _ => 0) _ hnone
  have hrun₃ := Run.afterArrays (fun _ _ => 0) _ hnone'
  have hle : 1 ≤ (afterArrays [letterA, QByteArray.null, letterB]).bufferSize := by decide
  have hle' : 1 ≤ (afterArrays [letterA, QByteArray.null, QByteArray.null]).bufferSize := by decide
  refine ⟨_, _, _, hrun₁, rfl, rfl, hrun₁.call (.free 1) hle trivial rfl, rfl, ⟨_, rfl⟩,
    hrun₃.call (.free 1) hle' trivial rfl, rfl, rfl⟩

end QtBase.QRingBuffer
