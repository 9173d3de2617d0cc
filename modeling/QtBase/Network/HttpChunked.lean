import QtBase.Core.Exec
import QtBase.Network.HttpChunkSize

/-! `QHttpNetworkReplyPrivate::readReplyBodyChunked`: a chunked body is read from a socket. -/
namespace QtBase.Http

open List

inductive ReplyState
  | NothingDoneState
  | ReadingStatusState
  | ReadingHeaderState
  | ReadingDataState
  | AllDoneState
  | SPDYSYNSent
  | SPDYUploading
  | SPDYHalfClosed
  | SPDYClosed
  | Aborted
  deriving DecidableEq, Repr

structure QHttpNetworkReplyPrivate where
  state : ReplyState
  fragment : List UInt8
  lastChunkRead : Bool
  currentChunkSize : ℤ
  currentChunkRead : ℤ
  readBufferMaxSize : ℤ
  forceConnectionCloseEnabled : Bool
  deriving DecidableEq, Repr

/-- A call on its way: the reply, the bytes that wait in the socket, those appended to `out`, and
`bytes`. -/
structure Reading where
  d : QHttpNetworkReplyPrivate
  socket : List UInt8
  out : List UInt8
  bytes : ℤ
  deriving DecidableEq, Repr

/-- The loop of `readReplyBodyRaw`. -/
def readRawLoop : ℕ → ℤ → ℤ → List UInt8 → List UInt8 → ℤ →
    Exec (ℤ × List UInt8 × List UInt8)
  | 0, _, _, _, _, _ => .error .diverge
  | k + 1, toBeRead, size, socket, out, bytes =>
    if toBeRead > 0 then
      let byteData := socket.take toBeRead.toNat
      let socket := socket.drop toBeRead.toNat
      let haveRead : ℤ := byteData.length
      if haveRead ≤ 0 then .ok (bytes, socket, out)
      else
        let size := size - haveRead
        readRawLoop k (toInt (min (128 * 1024) (min size socket.length))) size socket
          (out ++ byteData) (bytes + haveRead)
    else .ok (bytes, socket, out)

def readReplyBodyRaw (d : QHttpNetworkReplyPrivate) (socket out : List UInt8) (size : ℤ) :
    Exec (ℤ × List UInt8 × List UInt8) :=
  let toBeRead := toInt (min (128 * 1024) (min size socket.length))
  let toBeRead := if d.readBufferMaxSize ≠ 0 then toInt (min toBeRead d.readBufferMaxSize)
    else toBeRead
  readRawLoop (socket.length + 1) toBeRead size socket out 0

namespace Reading

/-- `bytes += getChunkSize(socket, &currentChunkSize)` -/
def getChunkSize (longMax : ℤ) (x : Reading) : Reading :=
  let (n, fragment, socket, chunkSize) := Http.getChunkSize longMax x.d.fragment x.socket
  { x with
    d := { x.d with fragment, currentChunkSize := chunkSize }
    socket, bytes := x.bytes + n }

/-- For the first chunk and when a chunk is done. `false` when the function returns. -/
def beginChunk (longMax : ℤ) (x : Reading) : Reading × Bool :=
  if ¬ x.d.lastChunkRead ∧ x.d.currentChunkRead ≥ x.d.currentChunkSize then
    let x := { x with d := { x.d with currentChunkSize := 0, currentChunkRead := 0 } }
    if x.bytes ≠ 0 then
      -- the line end after the chunk, or the half of it that has come
      let haveRead := (x.socket.take 2).length
      let x := { x with socket := x.socket.drop 2 }
      if haveRead ≠ 2 then (x, false)
      else
        let x := getChunkSize longMax { x with bytes := x.bytes + haveRead }
        (x, x.d.currentChunkSize ≠ -1)
    else
      let x := getChunkSize longMax x
      (x, x.d.currentChunkSize ≠ -1)
  else (x, true)

/-- The end of the stream: the line end after the last chunk. -/
def finish (x : Reading) : Reading :=
  let crlf' := x.socket.take 2
  let x := { x with
    d := { x.d with lastChunkRead := true }
    socket := x.socket.drop 2
    bytes := x.bytes + crlf'.length }
  if crlf' = crlf ∨ crlf' = [lf] then { x with d := { x.d with state := .AllDoneState } }
  else if crlf' = [cr] then x
  else if crlf' ≠ [] then
    { x with d := { x.d with forceConnectionCloseEnabled := true, state := .AllDoneState } }
  else x

end Reading

/-- The loop of `readReplyBodyChunked`. -/
def chunkedLoop (longMax : ℤ) : ℕ → Reading → Exec Reading
  | 0, _ => .error .diverge
  | k + 1, x =>
    if x.socket = [] then .ok x
    else if x.d.readBufferMaxSize ≠ 0 ∧ x.bytes > x.d.readBufferMaxSize then .ok x
    else
      let (x, more) := x.beginChunk longMax
      if ¬ more then .ok x
      else if x.d.currentChunkSize = 0 ∨ x.d.lastChunkRead then .ok x.finish
      else do
        let (haveRead, socket, out) ← readReplyBodyRaw x.d x.socket x.out
          (x.d.currentChunkSize - x.d.currentChunkRead)
        chunkedLoop longMax k { x with
          d := { x.d with currentChunkRead := x.d.currentChunkRead + haveRead }
          socket, out, bytes := x.bytes + haveRead }

def readReplyBodyChunked (longMax : ℤ) (d : QHttpNetworkReplyPrivate) (socket out : List UInt8) :
    Exec Reading :=
  chunkedLoop longMax (socket.length + 1) ⟨d, socket, out, 0⟩

structure Chunk where
  line : List UInt8
  data : List UInt8
  ne_nil : data ≠ []
  wellFormed : SizeLine line data.length

/-- A chunked body without trailer fields. -/
structure Body where
  chunks : List Chunk
  last : List UInt8
  wellFormed : SizeLine last 0

/-- The bytes of the chunks, and of what follows them. -/
def chunkBytes (tail : List UInt8) : List Chunk → List UInt8
  | [] => tail
  | c :: cs => c.line ++ crlf ++ (c.data ++ crlf ++ chunkBytes tail cs)

def chunkData (cs : List Chunk) : List UInt8 := cs.flatMap Chunk.data

namespace Body

def bytes (b : Body) : List UInt8 := chunkBytes (b.last ++ crlf ++ crlf) b.chunks

def data (b : Body) : List UInt8 := chunkData b.chunks

end Body

@[simp] theorem Reading.finish_socket (x : Reading) : x.finish.socket = x.socket.drop 2 := by
  unfold Reading.finish
  dsimp only
  split_ifs <;> rfl

theorem readRawLoop_spec {k : ℕ} {toBeRead size : ℤ} {socket out : List UInt8} {bytes : ℤ}
    (hk : socket.length < k) (h0 : 0 ≤ toBeRead) (hsize : toBeRead ≤ size)
    (hsocket : toBeRead ≤ socket.length)
    (hzero : toBeRead = 0 → size = 0 ∨ socket.length = 0) :
    readRawLoop k toBeRead size socket out bytes =
      .ok (bytes + min size socket.length, socket.drop size.toNat,
        out ++ socket.take size.toNat) := by
  induction k generalizing toBeRead size socket out bytes with
  | zero => omega
  | succ k ih =>
    unfold readRawLoop
    by_cases hpos : toBeRead > 0
    · have hlen : (socket.take toBeRead.toNat).length = toBeRead.toNat := by
        simp
        omega
      have hrest : (socket.drop toBeRead.toNat).length = socket.length - toBeRead.toNat :=
        length_drop
      have hmin : toInt (min (128 * 1024) (min (size - toBeRead) ((socket.length - toBeRead.toNat :
          ℕ) : ℤ))) = min (128 * 1024) (min (size - toBeRead) ((socket.length - toBeRead.toNat :
          ℕ) : ℤ)) := toInt_of_lt (by omega) (by omega)
      have hnat : ((toBeRead.toNat : ℕ) : ℤ) = toBeRead := by omega
      rw [if_pos hpos]
      simp only [hlen, hnat, hrest]
      rw [if_neg (by omega), hmin]
      clear hmin
      rw [ih (by omega) (by omega) (by omega) (by omega) (by omega)]
      have hsplit : size.toNat = toBeRead.toNat + (size - toBeRead).toNat := by omega
      rw [hrest, drop_drop, hsplit, append_assoc, take_add]
      congr 2
      omega
    · rw [if_neg hpos]
      rcases hzero (by omega) with h | h
      · subst h
        rw [Int.min_eq_left (by omega)]
        simp
      · rw [eq_nil_of_length_eq_zero h, Int.min_eq_right (by simp; omega)]
        simp

theorem readReplyBodyRaw_spec {d : QHttpNetworkReplyPrivate} (hmax : 0 ≤ d.readBufferMaxSize)
    {socket out : List UInt8} {size : ℤ} (hsize : 0 ≤ size) :
    readReplyBodyRaw d socket out size =
      .ok (min size socket.length, socket.drop size.toNat, out ++ socket.take size.toNat) := by
  unfold readReplyBodyRaw
  have hmin : toInt (min (128 * 1024) (min size socket.length)) =
      min (128 * 1024) (min size socket.length) := toInt_of_lt (by omega) (by omega)
  simp only [hmin]
  by_cases h : d.readBufferMaxSize ≠ 0
  · rw [if_pos h, toInt_of_lt (by omega) (by omega), readRawLoop_spec (by omega) (by omega)
      (by omega) (by omega) (by omega), Int.zero_add]
  · rw [if_neg h, readRawLoop_spec (by omega) (by omega) (by omega) (by omega) (by omega),
      Int.zero_add]

end QtBase.Http
