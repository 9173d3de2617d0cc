import QtBase.Tools.RingChunk

/-! `QRingBuffer`: a queue of bytes in a list of chunks. -/
namespace QtBase

structure QRingBuffer where
  buffers : List QRingChunk
  bufferSize : ℤ
  basicBlockSize : ℤ
  basicBlockSize_lt : basicBlockSize < 2 ^ 31
  /-- How many owners each block has outside of the buffer. -/
  others : ℕ → ℕ
  /-- The number that the next new block gets. -/
  nextBlock : ℕ

namespace QRingBuffer

/-- How many of the chunks have the block. -/
def count (l : List QRingChunk) (block : ℕ) : ℕ := l.countP fun c => c.chunk.block = some block

/-- The reference count of a block. -/
def ref (b : QRingBuffer) (block : ℕ) : ℕ := count b.buffers block + b.others block

/-- Another owner outside of the buffer. -/
def acquire (others : ℕ → ℕ) (owned : Option ℕ) (block : ℕ) : ℕ :=
  others block + if owned = some block then 1 else 0

/-- One owner less. -/
def release (others : ℕ → ℕ) (owned : Option ℕ) (block : ℕ) : ℕ :=
  others block - if owned = some block then 1 else 0

def modifyFirst (b : QRingBuffer) (f : QRingChunk → Exec QRingChunk) : Exec QRingBuffer :=
  match b.buffers with
  | [] => .error .undefined
  | c :: rest => do
    let c ← f c
    pure { b with buffers := c :: rest }

def modifyLast (b : QRingBuffer) (f : QRingChunk → Exec QRingChunk) : Exec QRingBuffer :=
  match b.buffers.getLast? with
  | none => .error .undefined
  | some c => do
    let c ← f c
    pure { b with buffers := b.buffers.dropLast ++ [c] }

variable (memory : ℕ → ℕ → UInt8) (b : QRingBuffer)

/-- `buffers.first().data()` -/
def dataFirst : Exec QRingBuffer := do
  let b' ← b.modifyFirst fun c => c.data b.ref b.nextBlock
  pure { b' with nextBlock := b.nextBlock + 1 }

/-- `buffers.last().data()` -/
def dataLast : Exec QRingBuffer := do
  let b' ← b.modifyLast fun c => c.data b.ref b.nextBlock
  pure { b' with nextBlock := b.nextBlock + 1 }

def isEmpty : Bool := b.bufferSize == 0

def nextDataBlockSize : Exec ℤ :=
  if b.bufferSize = 0 then pure 0
  else match b.buffers with
    | [] => .error .undefined
    | c :: _ => pure c.size

/-- The first `n` bytes from `readPointer()` on. -/
def readPointer (n : ℤ) : Exec (List UInt8) := match b.buffers with
  | [] => .error .undefined
  | c :: _ => pure (c.live.take n.toNat)

def clear : QRingBuffer := match b.buffers with
  | [] => b
  | _ :: _ => { b with buffers := [QRingChunk.cleared], bufferSize := 0 }

/-- All bytes of the only chunk go. -/
def minify (b : QRingBuffer) (chunk : QRingChunk) (reset : List QRingChunk) : QRingBuffer :=
  if chunk.capacity ≤ b.basicBlockSize ∧ chunk.isShared b.ref = false then
    { b with buffers := reset, bufferSize := 0 }
  else b.clear

/-- The loop of `free`, with the chunks and the size that are left. -/
def freeFrom : List QRingChunk → ℤ → ℤ → Exec QRingBuffer
  | [], bufferSize, bytes =>
    if bytes > 0 then .error .undefined else pure { b with buffers := [], bufferSize }
  | chunk :: rest, bufferSize, bytes =>
    if bytes > 0 then
      if rest.length = 0 ∨ chunk.size > bytes then
        if bufferSize = bytes then
          pure ({ b with buffers := chunk :: rest, bufferSize }.minify chunk (chunk.reset :: rest))
        else do
          qAssert (bytes < MaxByteArraySize)
          let chunk ← chunk.advance bytes
          pure { b with buffers := chunk :: rest, bufferSize := bufferSize - bytes }
      else freeFrom rest (bufferSize - chunk.size) (bytes - chunk.size)
    else pure { b with buffers := chunk :: rest, bufferSize }

def free (bytes : ℤ) : Exec QRingBuffer := do
  qAssert (bytes ≤ b.bufferSize)
  freeFrom b b.buffers b.bufferSize bytes

/-- The loop of `chop`; the chunks that are left are listed from the last to the first. -/
def chopFrom : List QRingChunk → ℤ → ℤ → Exec QRingBuffer
  | [], bufferSize, bytes =>
    if bytes > 0 then .error .undefined else pure { b with buffers := [], bufferSize }
  | chunk :: rest, bufferSize, bytes =>
    if bytes > 0 then
      if rest.length = 0 ∨ chunk.size > bytes then
        if bufferSize = bytes then
          pure ({ b with buffers := (chunk :: rest).reverse, bufferSize }.minify chunk
            (chunk.reset :: rest).reverse)
        else do
          qAssert (bytes < MaxByteArraySize)
          let chunk ← chunk.grow (-bytes)
          pure { b with buffers := (chunk :: rest).reverse, bufferSize := bufferSize - bytes }
      else chopFrom rest (bufferSize - chunk.size) (bytes - chunk.size)
    else pure { b with buffers := (chunk :: rest).reverse, bufferSize }

def chop (bytes : ℤ) : Exec QRingBuffer := do
  qAssert (bytes ≤ b.bufferSize)
  chopFrom b b.buffers.reverse b.bufferSize bytes

def truncate (pos : ℤ) : Exec QRingBuffer := do
  qAssert (pos ≥ 0 ∧ pos ≤ b.bufferSize)
  b.chop (b.bufferSize - pos)

/-! ## Room for new bytes -/

/-- The chunk for the first bytes of an empty buffer. -/
def allocateFirst (chunkSize : ℤ) : Exec QRingBuffer := match b.buffers with
  | [] => do
    let c ← QRingChunk.new memory b.nextBlock chunkSize
    pure { b with buffers := [c], nextBlock := b.nextBlock + 1 }
  | c :: rest => do
    let c ← c.allocate memory b.ref b.nextBlock chunkSize
    pure { b with buffers := c :: rest, nextBlock := b.nextBlock + 1 }

/-- The part of `reserve` that finds the chunk, and where in it the new bytes start. -/
def reserveChunk (bytes : ℤ) : Exec (QRingBuffer × ℕ) :=
  if b.bufferSize = 0 then do
    let b ← b.allocateFirst memory (max b.basicBlockSize bytes)
    pure (b, 0)
  else match b.buffers.getLast? with
    | none => .error .undefined
    | some chunk =>
      if b.basicBlockSize = 0 ∨ chunk.isShared b.ref ∨ bytes > chunk.available then do
        let c ← QRingChunk.new memory b.nextBlock (max b.basicBlockSize bytes)
        pure ({ b with buffers := b.buffers ++ [c], nextBlock := b.nextBlock + 1 }, 0)
      else pure (b, chunk.size)

/-- The result is the position in the last chunk that the returned pointer is at. -/
def reserve (bytes : ℤ) : Exec (QRingBuffer × ℕ) := do
  qAssert (bytes > 0 ∧ bytes < MaxByteArraySize)
  let (b, tail) ← b.reserveChunk memory bytes
  let b ← b.modifyLast fun c => c.grow bytes
  let b ← dataLast { b with bufferSize := b.bufferSize + bytes }
  pure (b, tail)

/-- A first chunk that is filled from its end. -/
def growFront (bytes : ℤ) (c : QRingChunk) : Exec QRingChunk := do
  let c ← c.grow (max b.basicBlockSize bytes)
  c.advance (max b.basicBlockSize bytes - bytes)

/-- The part of `reserveFront` that makes room. -/
def reserveFrontChunk (bytes : ℤ) : Exec QRingBuffer :=
  if b.bufferSize = 0 then do
    let b' ← b.allocateFirst memory (max b.basicBlockSize bytes)
    b'.modifyFirst (b.growFront bytes)
  else match b.buffers with
    | [] => .error .undefined
    | chunk :: rest =>
      if b.basicBlockSize = 0 ∨ chunk.isShared b.ref ∨ bytes > chunk.headOffset then do
        let c ← QRingChunk.new memory b.nextBlock (max b.basicBlockSize bytes)
        let c ← b.growFront bytes c
        pure { b with buffers := c :: chunk :: rest, nextBlock := b.nextBlock + 1 }
      else b.modifyFirst fun c => c.advance (-bytes)

/-- The returned pointer is at the first byte of the first chunk. -/
def reserveFront (bytes : ℤ) : Exec QRingBuffer := do
  qAssert (bytes > 0 ∧ bytes < MaxByteArraySize)
  let b ← b.reserveFrontChunk memory bytes
  dataFirst { b with bufferSize := b.bufferSize + bytes }

def writeFirst (data : List UInt8) : Exec QRingBuffer :=
  b.modifyFirst fun c => c.write b.ref c.headOffset data

def writeLast (tail : ℕ) (data : List UInt8) : Exec QRingBuffer :=
  b.modifyLast fun c => c.write b.ref (c.headOffset + tail) data

def putChar (c : UInt8) : Exec QRingBuffer := do
  let (b, tail) ← b.reserve memory 1
  b.writeLast tail [c]

def ungetChar (c : UInt8) : Exec QRingBuffer := do
  let b ← b.reserveFront memory 1
  b.writeFirst [c]

/-- `append(const char *data, qint64 size)` -/
def append (data : List UInt8) : Exec QRingBuffer :=
  if data.length = 0 then pure b
  else do
    let (b, tail) ← b.reserve memory data.length
    b.writeLast tail data

/-- `append(const QByteArray &qba)` -/
def appendArray (qba : QByteArray) : QRingBuffer :=
  if b.bufferSize ≠ 0 ∨ b.buffers.length = 0 then
    { b with
      buffers := b.buffers ++ [QRingChunk.ofArray qba]
      bufferSize := b.bufferSize + qba.size }
  else
    { b with
      buffers := b.buffers.dropLast ++ [QRingChunk.ofArray qba]
      bufferSize := b.bufferSize + qba.size }

/-- `append(QByteArray &&qba)`: an assigned chunk swaps its array with the one of the caller. -/
def appendMoved (qba : QByteArray) : QRingBuffer :=
  if b.bufferSize ≠ 0 ∨ b.buffers.length = 0 then
    { b.appendArray qba with others := release b.others qba.block }
  else
    { b.appendArray qba with
      others := acquire (release b.others qba.block) (b.buffers.getLast?.bind (·.chunk.block)) }

/-! ## Reading -/

/-- The bytes at the returned pointer, as many as `length` says. -/
def readPointerFrom : List QRingChunk → ℤ → Option (List UInt8)
  | [], _ => none
  | chunk :: rest, pos =>
    if chunk.size > pos then some (chunk.live.drop pos.toNat)
    else readPointerFrom rest (pos - chunk.size)

def readPointerAtPosition (pos : ℤ) : Exec (Option (List UInt8)) := do
  qAssert (pos ≥ 0)
  pure (readPointerFrom b.buffers pos)

/-- The loop of `indexOf`; `memchr` looks at the bytes between `index` and `nextBlockIndex`. -/
def indexOfFrom (c : UInt8) (maxLength pos : ℤ) : List QRingChunk → ℤ → ℤ
  | [], _ => -1
  | chunk :: rest, index =>
    let nextBlockIndex := min (index + chunk.size) maxLength
    if nextBlockIndex > 0 then
      match ((chunk.live.drop (-index).toNat).take (nextBlockIndex - max index 0).toNat).idxOf? c with
      | some i => i + max index 0 + pos
      | none => if nextBlockIndex = maxLength then -1 else indexOfFrom c maxLength pos rest nextBlockIndex
    else indexOfFrom c maxLength pos rest nextBlockIndex

def indexOf (c : UInt8) (maxLength pos : ℤ) : Exec ℤ := do
  qAssert (maxLength ≥ 0 ∧ pos ≥ 0)
  if maxLength = 0 then pure (-1) else pure (indexOfFrom c maxLength pos b.buffers (-pos))

/-- The loop of `peek`, with the bytes copied so far. -/
def peekFrom (maxLength : ℤ) : List QRingChunk → ℤ → List UInt8 → List UInt8
  | [], _, data => data
  | chunk :: rest, pos, data =>
    if data.length = maxLength then data
    else if pos < chunk.size then
      peekFrom maxLength rest 0 (data ++ (chunk.live.drop pos.toNat).take
        (min (chunk.size - pos) (maxLength - data.length)).toNat)
    else peekFrom maxLength rest (pos - chunk.size) data

def peek (maxLength pos : ℤ) : Exec (List UInt8) := do
  qAssert (maxLength ≥ 0 ∧ pos ≥ 0)
  pure (peekFrom maxLength b.buffers pos [])

/-- The loop of `read`, with the bytes copied so far. A round that copies nothing leaves
everything as it is. -/
def readFrom (bytesToRead : ℤ) : ℕ → QRingBuffer → List UInt8 → Exec (QRingBuffer × List UInt8)
  | 0, _, _ => .error .diverge
  | k + 1, b, data =>
    if data.length < bytesToRead then do
      let blockSize ← b.nextDataBlockSize
      let n := min (bytesToRead - data.length) blockSize
      let piece ← b.readPointer n
      let b ← b.free n
      readFrom bytesToRead k b (data ++ piece)
    else pure (b, data)

/-- `read(char *data, qint64 maxLength)` -/
def read (maxLength : ℤ) : Exec (QRingBuffer × List UInt8) :=
  let bytesToRead := min b.bufferSize maxLength
  readFrom bytesToRead (bytesToRead.toNat + 1) b []

/-- `QByteArray read()` -/
def readFirst : Exec (QRingBuffer × List UInt8) :=
  if b.bufferSize = 0 then pure (b, [])
  else match b.buffers with
    | [] => .error .undefined
    | chunk :: rest => do
      let a := chunk.toByteArray b.ref b.nextBlock
      pure ({ b with
        buffers := rest
        bufferSize := b.bufferSize - chunk.size
        others := acquire b.others a.block
        nextBlock := b.nextBlock + 1 }, a.bytes)

def getChar : Exec (QRingBuffer × ℤ) :=
  if b.isEmpty then pure (b, -1)
  else match b.buffers with
    | [] => .error .undefined
    | chunk :: _ => do
      let c ← chunk.chunk.byteAt chunk.headOffset
      let b ← b.free 1
      pure (b, c.toNat)

def skip (length : ℤ) : Exec (QRingBuffer × ℤ) := do
  let bytesToSkip := min length b.bufferSize
  let b ← b.free bytesToSkip
  pure (b, bytesToSkip)

def readLine (maxLength : ℤ) : Exec (QRingBuffer × List UInt8) := do
  qAssert (maxLength > 1)
  let i ← b.indexOf 10 (maxLength - 1) 0
  b.read (if i ≥ 0 then i + 1 else maxLength - 1)

end QRingBuffer

end QtBase
