import QtBase.Core.Exec
import QtBase.Network.Http2Frames
import Mathlib.Algebra.Order.Ring.Int

/-! Writing a block of headers: a HEADERS frame, and CONTINUATION frames for what does not fit. -/
namespace QtBase

open List UInt32 Nat

namespace Http2

/-- `qToBigEndian<quint32>`. -/
def qToBigEndian32 (x : UInt32) : List UInt8 :=
  [(x >>> 24).toUInt8, (x >>> 16).toUInt8, (x >>> 8).toUInt8, x.toUInt8]

/-- `uchar(type)`. -/
def FrameType.toByte : FrameType → UInt8
  | .DATA => 0x0
  | .HEADERS => 0x1
  | .PRIORITY => 0x2
  | .RST_STREAM => 0x3
  | .SETTINGS => 0x4
  | .PUSH_PROMISE => 0x5
  | .PING => 0x6
  | .GOAWAY => 0x7
  | .WINDOW_UPDATE => 0x8
  | .CONTINUATION => 0x9
  | .LAST_FRAME_TYPE => 0xa

structure FrameWriter where
  frame : Frame

namespace FrameWriter

variable (w : FrameWriter)

/-- `start`, for a new writer: all nine bytes of the header are set. -/
def start (type : FrameType) (flags : UInt8) (streamID : UInt32) : FrameWriter :=
  ⟨⟨[0, 0, 0, type.toByte, flags] ++ qToBigEndian32 streamID⟩⟩

def setPayloadSize (size : UInt32) : Exec FrameWriter := do
  qAssert (frameHeaderSize ≤ w.frame.buffer.length)
  qAssert (size ≤ maxPayloadSize)
  pure ⟨⟨[(size >>> 16).toUInt8, (size >>> 8).toUInt8, size.toUInt8] ++ w.frame.buffer.drop 3⟩⟩

def setFlags (flags : UInt8) : Exec FrameWriter := do
  qAssert (frameHeaderSize ≤ w.frame.buffer.length)
  pure ⟨⟨w.frame.buffer.set 4 flags⟩⟩

def addFlag (flag : UInt8) : Exec FrameWriter := w.setFlags (w.frame.flags ||| flag)

def updatePayloadSize : Exec FrameWriter := do
  let size := UInt32.ofNat (w.frame.buffer.length - frameHeaderSize)
  qAssert (size ≤ maxPayloadSize)
  w.setPayloadSize size

/-- `write`, to a socket that takes everything. -/
def write (socket : List UInt8) : Exec (List UInt8) := do
  qAssert (frameHeaderSize ≤ w.frame.buffer.length)
  qAssert (w.frame.type ≠ .LAST_FRAME_TYPE)
  qAssert (w.frame.validateHeader = .goodFrame)
  pure (socket ++ w.frame.buffer)

/-- `socket.write(&buffer[offset], size)`, where all these bytes must be there. -/
def writeBytes (buffer : List UInt8) (offset size : ℕ) (socket : List UInt8) :
    Exec (List UInt8) := do
  qAssert (offset + size ≤ buffer.length)
  pure (socket ++ (buffer.drop offset).take size)

def addFlagIf (condition : Bool) (flag : UInt8) : Exec FrameWriter :=
  if condition then w.addFlag flag else pure w

/-- A round of the loop in `writeHEADERS`: a CONTINUATION frame. -/
def writeChunk (buffer : List UInt8) (offset chunkSize : UInt32) (socket : List UInt8) :
    Exec (FrameWriter × List UInt8) := do
  let w ← w.addFlagIf ((chunkSize + offset).toNat == buffer.length) FrameFlag.END_HEADERS
  let w ← w.setPayloadSize chunkSize
  let socket ← w.write socket
  let socket ← writeBytes buffer offset.toNat chunkSize.toNat socket
  pure (w, socket)

/-- The loop, with a bound on its rounds. -/
def writeContinuations (buffer : List UInt8) (sizeLimit : UInt32) :
    ℕ → FrameWriter → UInt32 → List UInt8 → Exec (List UInt8)
  | 0, _, _, _ => .error .diverge
  | n + 1, continuationWriter, offset, socket =>
    if offset.toNat = buffer.length then pure socket
    else do
      let chunkSize := min sizeLimit (UInt32.ofNat buffer.length - offset)
      let (continuationWriter, socket) ←
        continuationWriter.writeChunk buffer offset chunkSize socket
      writeContinuations buffer sizeLimit n continuationWriter (offset + chunkSize) socket

/-- The limit as `writeHEADERS` uses it. -/
def capped (sizeLimit : UInt32) : UInt32 :=
  if sizeLimit > maxPayloadSize then maxPayloadSize else sizeLimit

/-- `writeHEADERS`: what is in the socket then. The socket takes everything, so that the result is
`true`. -/
def writeHEADERS (rounds : ℕ) (sizeLimit : UInt32) (socket : List UInt8) : Exec (List UInt8) := do
  qAssert (frameHeaderSize ≤ w.frame.buffer.length)
  let sizeLimit := capped sizeLimit
  if UInt32.ofNat (w.frame.buffer.length - frameHeaderSize) ≤ sizeLimit then
    let w ← w.addFlag FrameFlag.END_HEADERS
    let w ← w.updatePayloadSize
    w.write socket
  else
    let w ← w.setFlags (w.frame.flags &&& ~~~FrameFlag.END_HEADERS)
    let w ← w.setPayloadSize sizeLimit
    let firstChunkSize := UInt32.ofNat frameHeaderSize + sizeLimit
    let socket ← writeBytes w.frame.buffer 0 firstChunkSize.toNat socket
    writeContinuations w.frame.buffer sizeLimit rounds (start .CONTINUATION 0 w.frame.streamID)
      firstChunkSize socket

end FrameWriter

/-! ## The octets of a header -/

theorem toNat_shift_or_add (a : UInt8) {y k : UInt32} (n : ℕ) (hk : k.toNat = n) (hn : n ≤ 24)
    (hy : y.toNat < 2 ^ n) : (a.toUInt32 <<< k ||| y).toNat = a.toNat * 2 ^ n + y.toNat := by
  have ha := a.toNat_lt
  have hpow : (2 : ℕ) ^ n ≤ 2 ^ 24 := Nat.pow_le_pow_right (by omega) hn
  have hlt : a.toNat * 2 ^ n < 2 ^ 32 :=
    Nat.lt_of_le_of_lt (Nat.mul_le_mul (Nat.le_of_lt_succ ha) hpow) (by omega)
  rw [UInt32.toNat_or, UInt32.toNat_shiftLeft, UInt8.toNat_toUInt32, hk,
    Nat.mod_eq_of_lt (by omega : n < 32), Nat.shiftLeft_eq, Nat.mod_eq_of_lt hlt,
    ← Nat.shiftLeft_eq, ← Nat.shiftLeft_add_eq_or_of_lt hy, Nat.shiftLeft_eq]

theorem toNat_octet (x : UInt32) {k : UInt32} (n : ℕ) (hk : k.toNat = n) (hn : n < 32) :
    (x >>> k).toUInt8.toNat = x.toNat / 2 ^ n % 256 := by
  rw [UInt32.toNat_toUInt8, UInt32.toNat_shiftRight, hk, mod_eq_of_lt hn,
    shiftRight_eq_div_pow]

theorem size_of_octets {size : UInt32} (h : size.toNat ≤ 0xffffff) :
    (size >>> 16).toUInt8.toUInt32 <<< 16 ||| (size >>> 8).toUInt8.toUInt32 <<< 8 |||
      size.toUInt8.toUInt32 = size := by
  have h16 := toNat_octet size (k := 16) 16 rfl (by omega)
  have h8 := toNat_octet size (k := 8) 8 rfl (by omega)
  have h0 : size.toUInt8.toUInt32.toNat = size.toNat % 256 := by
    rw [UInt8.toNat_toUInt32, UInt32.toNat_toUInt8]
  have hlow := toNat_shift_or_add (size >>> 8).toUInt8 (y := size.toUInt8.toUInt32) (k := 8) 8 rfl
    (by omega) (by omega)
  rw [← UInt32.toNat_inj, UInt32.or_assoc,
    toNat_shift_or_add _ (k := 16) 16 rfl (by omega) (by omega), hlow, h16, h8, h0]
  omega

theorem qFromBigEndian32_qToBigEndian32 (x : UInt32) (l : List UInt8) :
    qFromBigEndian32 (qToBigEndian32 x ++ l) = x := by
  have hx := x.toNat_lt
  have h24 := toNat_octet x (k := 24) 24 rfl (by omega)
  have h16 := toNat_octet x (k := 16) 16 rfl (by omega)
  have h8 := toNat_octet x (k := 8) 8 rfl (by omega)
  have h0 : x.toUInt8.toUInt32.toNat = x.toNat % 256 := by
    rw [UInt8.toNat_toUInt32, UInt32.toNat_toUInt8]
  have hlow := toNat_shift_or_add (x >>> 8).toUInt8 (y := x.toUInt8.toUInt32) (k := 8) 8 rfl
    (by omega) (by omega)
  have hmiddle := toNat_shift_or_add (x >>> 16).toUInt8
    (y := (x >>> 8).toUInt8.toUInt32 <<< 8 ||| x.toUInt8.toUInt32) (k := 16) 16 rfl (by omega)
    (by omega)
  show (x >>> 24).toUInt8.toUInt32 <<< 24 ||| (x >>> 16).toUInt8.toUInt32 <<< 16 |||
    (x >>> 8).toUInt8.toUInt32 <<< 8 ||| x.toUInt8.toUInt32 = x
  rw [← UInt32.toNat_inj, UInt32.or_assoc, UInt32.or_assoc,
    toNat_shift_or_add _ (k := 24) 24 rfl (by omega) (by omega), hmiddle, hlow, h24, h16, h8, h0]
  omega

namespace Frame

/-! ## Headers -/

/-- A frame from what stands in its header, and its payload. -/
def ofHeader (sizes : List UInt8) (type flags : UInt8) (id payload : List UInt8) : Frame :=
  ⟨sizes ++ type :: flags :: (id ++ payload)⟩

/-- The three bytes of a size. -/
def sizeOctets (size : UInt32) : List UInt8 :=
  [(size >>> 16).toUInt8, (size >>> 8).toUInt8, size.toUInt8]

variable {f : Frame} {size : UInt32} {type flags : UInt8} {sizes id payload : List UInt8}

theorem exists_header (h : frameHeaderSize ≤ f.buffer.length) : ∃ sizes type flags id,
    f = ofHeader sizes type flags id f.payload ∧ sizes.length = 3 ∧ id.length = 4 := by
  have hheader : (f.buffer.take frameHeaderSize).length = 9 := length_take_of_le h
  have hsplit : f = ⟨f.buffer.take frameHeaderSize ++ f.payload⟩ :=
    congrArg Frame.mk (take_append_drop frameHeaderSize f.buffer).symm
  rw [hsplit]
  match f.buffer.take frameHeaderSize, hheader with
  | [a, b, c, t, fl, i, j, k, l], _ => exact ⟨[a, b, c], t, fl, [i, j, k, l], rfl, rfl, rfl⟩

theorem length_ofHeader (hsizes : sizes.length = 3) (hid : id.length = 4) :
    (ofHeader sizes type flags id payload).buffer.length = 9 + payload.length := by
  unfold ofHeader
  simp
  omega

theorem payloadLength_ofHeader (hsizes : sizes.length = 3) (hid : id.length = 4) :
    (ofHeader sizes type flags id payload).buffer.length - frameHeaderSize = payload.length := by
  rw [length_ofHeader hsizes hid]
  exact Nat.add_sub_cancel_left 9 _

theorem fields_ofHeader (hsizes : sizes.length = 3) (hid : id.length = 4) :
    (ofHeader sizes type flags id payload).flags = flags ∧
      (ofHeader sizes type flags id payload).payload = payload ∧
        (ofHeader sizes type flags id payload).streamID = qFromBigEndian32 id := by
  match sizes, id, hsizes, hid with
  | [a, b, c], [i, j, k, l], _, _ => exact ⟨rfl, rfl, rfl⟩

theorem type_ofHeader (hsizes : sizes.length = 3) {sizes' id' payload' : List UInt8}
    (hsizes' : sizes'.length = 3) (type flags flags' : UInt8) :
    (ofHeader sizes type flags id payload).type =
      (ofHeader sizes' type flags' id' payload').type := by
  match sizes, sizes', hsizes, hsizes' with
  | [a, b, c], [a', b', c'], _, _ => rfl

theorem payloadSize_ofHeader (hsize : size.toNat ≤ 0xffffff) :
    (ofHeader (sizeOctets size) type flags id payload).payloadSize = size :=
  size_of_octets hsize

theorem complete_ofHeader (hid : id.length = 4) (hsize : size.toNat = payload.length)
    (hle : size.toNat ≤ 0xffffff) :
    (ofHeader (sizeOctets size) type flags id payload).Complete := by
  unfold Complete
  rw [length_ofHeader rfl hid, payloadSize_ofHeader hle, hsize]
  rfl

end Frame

namespace FrameWriter

open Frame

variable {size : UInt32} {type flags : UInt8} {sizes id payload : List UInt8}

theorem header_le (hsizes : sizes.length = 3) (hid : id.length = 4) :
    frameHeaderSize ≤ (ofHeader sizes type flags id payload).buffer.length := by
  rw [length_ofHeader hsizes hid]
  exact le_add_right 9 _

theorem setFlags_ofHeader (flags' : UInt8) (hsizes : sizes.length = 3) (hid : id.length = 4) :
    setFlags ⟨ofHeader sizes type flags id payload⟩ flags' =
      .ok ⟨ofHeader sizes type flags' id payload⟩ := by
  unfold setFlags
  rw [qAssert_pos (header_le hsizes hid), ok_bind]
  match sizes, hsizes with
  | [a, b, c], _ => rfl

theorem addFlag_ofHeader (flag : UInt8) (hsizes : sizes.length = 3) (hid : id.length = 4) :
    addFlag ⟨ofHeader sizes type flags id payload⟩ flag =
      .ok ⟨ofHeader sizes type (flags ||| flag) id payload⟩ := by
  unfold addFlag
  rw [(fields_ofHeader hsizes hid).1]
  exact setFlags_ofHeader _ hsizes hid

theorem setPayloadSize_ofHeader (hsizes : sizes.length = 3) (hid : id.length = 4)
    (hsize : size.toNat ≤ 0xffffff) :
    setPayloadSize ⟨ofHeader sizes type flags id payload⟩ size =
      .ok ⟨ofHeader (sizeOctets size) type flags id payload⟩ := by
  unfold setPayloadSize
  rw [qAssert_pos (header_le hsizes hid), ok_bind, qAssert_pos
    (le_iff_toNat_le.mpr (show size.toNat ≤ maxPayloadSize.toNat from hsize)), ok_bind]
  match sizes, hsizes with
  | [a, b, c], _ => rfl

theorem validateHeader_of_type {f : Frame} (htype : f.type = .HEADERS ∨ f.type = .CONTINUATION)
    (hsize : f.payloadSize.toNat ≤ 0xffffff) : f.validateHeader = .goodFrame := by
  have hle : ¬f.payloadSize > maxPayloadSize := by
    rw [gt_iff_lt, lt_iff_toNat_lt]
    exact Nat.not_lt.mpr hsize
  unfold validateHeader
  rcases htype with htype | htype
  · rw [htype, if_neg hle]
  · rw [htype, if_neg hle]

theorem write_ofHeader (socket : List UInt8) (hid : id.length = 4) (hsize : size.toNat ≤ 0xffffff)
    (htype : (ofHeader (sizeOctets size) type flags id payload).type = .HEADERS ∨
      (ofHeader (sizeOctets size) type flags id payload).type = .CONTINUATION) :
    write ⟨ofHeader (sizeOctets size) type flags id payload⟩ socket =
      .ok (socket ++ (ofHeader (sizeOctets size) type flags id payload).buffer) := by
  have hlast : (ofHeader (sizeOctets size) type flags id payload).type ≠ .LAST_FRAME_TYPE := by
    rcases htype with htype | htype
    · rw [htype]
      exact FrameType.noConfusion
    · rw [htype]
      exact FrameType.noConfusion
  unfold write
  rw [qAssert_pos (header_le rfl hid), ok_bind, qAssert_pos hlast, ok_bind, qAssert_pos
    (validateHeader_of_type htype (by rw [payloadSize_ofHeader hsize]; exact hsize)), ok_bind]
  rfl

/-- The frames behind the first one. -/
structure Rest (streamID : UInt32) (limit : ℕ) (block : List UInt8) (frames : List Frame) : Prop
    where
  types : frames.map Frame.type = List.replicate frames.length .CONTINUATION
  complete : ∀ f ∈ frames, f.Complete
  streamID : ∀ f ∈ frames, f.streamID = streamID
  payload_le : ∀ f ∈ frames, f.payload.length ≤ limit
  end_headers : frames ≠ [] → frames.map (fun f => testFlag f.flags FrameFlag.END_HEADERS) =
    List.replicate (frames.length - 1) false ++ [true]
  payload : frames.flatMap Frame.payload = block

theorem Rest.nil (streamID : UInt32) (limit : ℕ) : Rest streamID limit [] [] where
  types := rfl
  complete _ hf := absurd hf not_mem_nil
  streamID _ hf := absurd hf not_mem_nil
  payload_le _ hf := absurd hf not_mem_nil
  end_headers hne := absurd rfl hne
  payload := rfl

theorem Rest.cons {streamID : UInt32} {limit : ℕ} {block : List UInt8} {frames : List Frame}
    (h : Rest streamID limit block frames) {f : Frame} (htype : f.type = .CONTINUATION)
    (hcomplete : f.Complete) (hid : f.streamID = streamID) (hle : f.payload.length ≤ limit)
    (hflag : testFlag f.flags FrameFlag.END_HEADERS = decide (frames = [])) :
    Rest streamID limit (f.payload ++ block) (f :: frames) where
  types := by
    rw [map_cons, h.types, htype, length_cons, replicate_succ]
  complete g hg := by
    rcases mem_cons.mp hg with rfl | hg
    · exact hcomplete
    · exact h.complete g hg
  streamID g hg := by
    rcases mem_cons.mp hg with rfl | hg
    · exact hid
    · exact h.streamID g hg
  payload_le g hg := by
    rcases mem_cons.mp hg with rfl | hg
    · exact hle
    · exact h.payload_le g hg
  end_headers _ := by
    rw [map_cons, hflag, length_cons, Nat.add_sub_cancel]
    cases frames with
    | nil => rfl
    | cons g frames =>
      rw [h.end_headers (cons_ne_nil g frames), length_cons, Nat.add_sub_cancel,
        replicate_succ]
      rfl
  payload := by rw [flatMap_cons, h.payload]

theorem toNat_min (a b : UInt32) : (min a b).toNat = min a.toNat b.toNat := by
  by_cases hle : a ≤ b
  · have hle' := UInt32.le_iff_toNat_le.mp hle
    rw [show min a b = a from if_pos hle, Nat.min_eq_left hle']
  · have hlt := UInt32.lt_iff_toNat_lt.mp (UInt32.not_le.mp hle)
    rw [show min a b = b from if_neg hle, Nat.min_eq_right (Nat.le_of_lt hlt)]

theorem addFlagIf_ofHeader (condition : Bool) (flag : UInt8) (hsizes : sizes.length = 3)
    (hid : id.length = 4) : addFlagIf ⟨ofHeader sizes type 0 id payload⟩ condition flag =
      .ok ⟨ofHeader sizes type (if condition then flag else 0) id payload⟩ := by
  cases condition with
  | false => rfl
  | true =>
    unfold addFlagIf
    rw [if_pos rfl, addFlag_ofHeader _ hsizes hid, UInt8.zero_or]
    rfl

theorem writeChunk_ok {buffer : List UInt8} {offset chunk : UInt32} (hid : id.length = 4)
    (hsizes : sizes.length = 3) (hle : offset.toNat + chunk.toNat ≤ buffer.length)
    (hmax : chunk.toNat ≤ 0xffffff) (socket : List UInt8) :
    let flags := if (chunk + offset).toNat == buffer.length then FrameFlag.END_HEADERS else 0
    writeChunk ⟨ofHeader sizes FrameType.CONTINUATION.toByte 0 id []⟩ buffer offset chunk socket =
      .ok (⟨ofHeader (sizeOctets chunk) FrameType.CONTINUATION.toByte flags id []⟩,
        socket ++ (ofHeader (sizeOctets chunk) FrameType.CONTINUATION.toByte flags id
          ((buffer.drop offset.toNat).take chunk.toNat)).buffer) := by
  intro flags
  unfold writeChunk
  rw [addFlagIf_ofHeader _ _ hsizes hid, ok_bind, setPayloadSize_ofHeader hsizes hid hmax, ok_bind,
    write_ofHeader socket hid hmax (.inr rfl), ok_bind]
  unfold writeBytes
  rw [qAssert_pos hle, ok_bind, pure_eq_ok, ok_bind, pure_eq_ok]
  unfold ofHeader
  dsimp only
  rw [append_nil, append_assoc, append_assoc, cons_append, cons_append]

theorem writeContinuations_ok {buffer : List UInt8} (hbuffer : buffer.length < 2 ^ 32)
    {limit : UInt32} (hpos : 0 < limit.toNat) (hmax : limit.toNat ≤ 0xffffff)
    (hid : id.length = 4) {n : ℕ} {offset : UInt32} (hoffset : offset.toNat ≤ buffer.length)
    (hrounds : buffer.length - offset.toNat < n) (hsizes : sizes.length = 3)
    (socket : List UInt8) : ∃ rest,
      writeContinuations buffer limit n ⟨ofHeader sizes FrameType.CONTINUATION.toByte 0 id []⟩
        offset socket = .ok (socket ++ rest.flatMap Frame.buffer) ∧
      Rest (qFromBigEndian32 id) limit.toNat (buffer.drop offset.toNat) rest ∧
        (rest = [] → offset.toNat = buffer.length) := by
  induction n generalizing offset sizes socket with
  | zero => omega
  | succ n ih =>
    unfold writeContinuations
    by_cases hdone : offset.toNat = buffer.length
    · rw [if_pos hdone, hdone, drop_length]
      exact ⟨[], by rw [flatMap_nil, append_nil]; rfl, Rest.nil _ _, fun _ => rfl⟩
    · rw [if_neg hdone]
      dsimp only
      obtain ⟨chunk, hchunk⟩ : ∃ chunk, chunk = min limit (UInt32.ofNat buffer.length - offset) :=
        ⟨_, rfl⟩
      have hsize : chunk.toNat = min limit.toNat (buffer.length - offset.toNat) := by
        have hlength : (UInt32.ofNat buffer.length).toNat = buffer.length := by
          rw [UInt32.toNat_ofNat', Nat.mod_eq_of_lt hbuffer]
        rw [hchunk, toNat_min, UInt32.toNat_sub_of_le _ _
          (UInt32.le_iff_toNat_le.mpr (by rw [hlength]; exact hoffset)), hlength]
      have hsum : (chunk + offset).toNat = chunk.toNat + offset.toNat := by
        rw [UInt32.toNat_add, Nat.mod_eq_of_lt (by omega)]
      have hpayload : ((buffer.drop offset.toNat).take chunk.toNat).length = chunk.toNat := by
        simp
        omega
      have hnext : (offset + chunk).toNat = offset.toNat + chunk.toNat := by
        rw [UInt32.add_comm, hsum, Nat.add_comm]
      rw [← hchunk, writeChunk_ok hid hsizes (by omega) (by omega) socket, ok_bind]
      dsimp only
      obtain ⟨flags, hflags⟩ : ∃ flags, flags =
        if (chunk + offset).toNat == buffer.length then FrameFlag.END_HEADERS else 0 := ⟨_, rfl⟩
      rw [← hflags]
      have hsplit : buffer.drop offset.toNat = (buffer.drop offset.toNat).take chunk.toNat ++
          buffer.drop (offset + chunk).toNat := by
        rw [hnext, ← drop_drop, take_append_drop]
      obtain ⟨f, hf⟩ : ∃ f, f = ofHeader (sizeOctets chunk) FrameType.CONTINUATION.toByte flags id
        ((buffer.drop offset.toNat).take chunk.toNat) := ⟨_, rfl⟩
      obtain ⟨hfflags, hfpayload, hfid⟩ := hf ▸ @fields_ofHeader FrameType.CONTINUATION.toByte flags
        (sizeOctets chunk) id ((buffer.drop offset.toNat).take chunk.toNat) rfl hid
      have hcomplete : f.Complete :=
        hf ▸ complete_ofHeader hid hpayload.symm (Nat.le_trans (by omega) hmax)
      rw [← hf]
      by_cases hlast : (chunk + offset).toNat = buffer.length
      · obtain ⟨m, rfl⟩ := Nat.exists_eq_succ_of_ne_zero (show n ≠ 0 by omega)
        have hdone' : (offset + chunk).toNat = buffer.length := by omega
        refine ⟨[f], ?_, ?_, fun hnil => absurd hnil (cons_ne_nil f [])⟩
        · unfold writeContinuations
          simp [hdone']
        · rw [hsplit, hdone', drop_length, ← hfpayload]
          refine (Rest.nil _ _).cons (hf ▸ rfl) hcomplete hfid (by rw [hfpayload]; omega) ?_
          rw [hfflags, hflags, if_pos (beq_iff_eq.mpr hlast)]
          rfl
      · rw [if_neg (beq_iff_eq.not.mpr hlast)] at hflags
        obtain ⟨rest, hwrite, hrest, hnil⟩ := @ih (sizeOctets chunk) (offset + chunk) (by omega)
          (by omega) rfl (socket ++ f.buffer)
        have hne : rest ≠ [] := fun heq => hlast (by rw [hsum, ← hnil heq, hnext, Nat.add_comm])
        refine ⟨f :: rest, ?_, ?_, fun hnil => absurd hnil (cons_ne_nil f rest)⟩
        · simp [hflags, hwrite]
        · rw [hsplit, ← hfpayload]
          refine hrest.cons (hf ▸ rfl) hcomplete hfid (by rw [hfpayload]; omega) ?_
          rw [hfflags, hflags, decide_eq_false hne]
          rfl

theorem writeContinuations_mono {buffer out : List UInt8} {limit : UInt32} {n m : ℕ} (hnm : n ≤ m)
    {w : FrameWriter} {offset : UInt32} {socket : List UInt8}
    (h : writeContinuations buffer limit n w offset socket = .ok out) :
    writeContinuations buffer limit m w offset socket = .ok out := by
  induction n generalizing m w offset socket with
  | zero => cases h
  | succ n ih =>
    obtain ⟨m, rfl⟩ := exists_eq_succ_of_ne_zero (show m ≠ 0 by omega)
    unfold writeContinuations at h ⊢
    split_ifs at h ⊢ with hdone
    · exact h
    · obtain ⟨⟨w', socket'⟩, hchunk, h⟩ := bind_eq_ok h
      dsimp only
      rw [hchunk, ok_bind]
      exact ih (le_of_succ_le_succ hnm) h

theorem writeContinuations_large {buffer : List UInt8} (hbuffer : 2 ^ 32 ≤ buffer.length)
    (limit : UInt32) (n : ℕ) (w : FrameWriter) (offset : UInt32) (socket out : List UInt8) :
    writeContinuations buffer limit n w offset socket ≠ .ok out := by
  induction n generalizing w offset socket with
  | zero => exact fun h => by cases h
  | succ n ih =>
    intro h
    have hlt := offset.toNat_lt
    unfold writeContinuations at h
    rw [if_neg (by omega)] at h
    obtain ⟨⟨w', socket'⟩, -, h⟩ := bind_eq_ok h
    exact ih _ _ _ h

/-! ## The frames of a block -/

/-- These frames carry the block of a HEADERS frame. -/
structure Carries (f : Frame) (limit : ℕ) (frames : List Frame) : Prop where
  types : frames.map Frame.type = .HEADERS :: List.replicate (frames.length - 1) .CONTINUATION
  complete : ∀ g ∈ frames, g.Complete
  streamID : ∀ g ∈ frames, g.streamID = f.streamID
  payload_le : ∀ g ∈ frames, g.payload.length ≤ limit
  end_headers : frames.map (fun g => testFlag g.flags FrameFlag.END_HEADERS) =
    List.replicate (frames.length - 1) false ++ [true]
  payload : frames.flatMap Frame.payload = f.payload

/-- With rounds enough, `writeHEADERS` writes frames that carry the block. -/
def WritesBlock (f : Frame) (sizeLimit : UInt32) : Prop := ∀ socket, ∃ n frames,
  (∀ rounds, n ≤ rounds → writeHEADERS ⟨f⟩ rounds sizeLimit socket =
    .ok (socket ++ frames.flatMap Frame.buffer)) ∧ Carries f (capped sizeLimit).toNat frames

theorem capped_le (sizeLimit : UInt32) : (capped sizeLimit).toNat ≤ 0xffffff := by
  unfold capped
  split_ifs with hle
  · exact Nat.le_refl _
  · exact Nat.not_lt.mp fun hlt => hle (lt_iff_toNat_lt.mpr hlt)

variable {sizeLimit : UInt32}

theorem capped_pos (h : 0 < sizeLimit.toNat) :
    0 < (capped sizeLimit).toNat := by
  unfold capped
  split_ifs with hle
  · exact succ_pos _
  · exact h

/-- A frame and the ones behind it. -/
theorem Carries.of_rest {f g : Frame} {limit : ℕ} {block : List UInt8} {frames : List Frame}
    (hrest : Rest f.streamID limit block frames) (htype : g.type = .HEADERS)
    (hcomplete : g.Complete) (hid : g.streamID = f.streamID) (hle : g.payload.length ≤ limit)
    (hflag : testFlag g.flags FrameFlag.END_HEADERS = decide (frames = []))
    (hpayload : g.payload ++ block = f.payload) : Carries f limit (g :: frames) where
  types := by
    rw [map_cons, hrest.types, htype, length_cons, Nat.add_sub_cancel]
  complete h hh := by
    rcases mem_cons.mp hh with rfl | hh
    · exact hcomplete
    · exact hrest.complete h hh
  streamID h hh := by
    rcases mem_cons.mp hh with rfl | hh
    · exact hid
    · exact hrest.streamID h hh
  payload_le h hh := by
    rcases mem_cons.mp hh with rfl | hh
    · exact hle
    · exact hrest.payload_le h hh
  end_headers := by
    rw [map_cons, hflag, length_cons, Nat.add_sub_cancel]
    cases frames with
    | nil => rfl
    | cons g frames =>
      rw [hrest.end_headers (cons_ne_nil g frames), length_cons, Nat.add_sub_cancel,
        replicate_succ]
      rfl
  payload := by rw [flatMap_cons, hrest.payload, hpayload]

theorem testFlag_or (flags : UInt8) :
    testFlag (flags ||| FrameFlag.END_HEADERS) FrameFlag.END_HEADERS = true := by
  have habsorb : (flags ||| FrameFlag.END_HEADERS) &&& FrameFlag.END_HEADERS =
      FrameFlag.END_HEADERS := by
    apply UInt8.eq_of_toBitVec_eq
    rw [UInt8.toBitVec_and, UInt8.toBitVec_or]
    ext i hi
    rw [BitVec.getElem_and, BitVec.getElem_or, Bool.and_or_distrib_right, Bool.and_self]
    simp
  unfold testFlag
  rw [habsorb]
  rfl

theorem testFlag_and_not (flags : UInt8) :
    testFlag (flags &&& ~~~FrameFlag.END_HEADERS) FrameFlag.END_HEADERS = false := by
  have hcleared : ~~~FrameFlag.END_HEADERS &&& FrameFlag.END_HEADERS = 0 := by decide
  unfold testFlag
  rw [UInt8.and_assoc, hcleared, UInt8.and_zero]
  rfl

theorem updatePayloadSize_ofHeader (hsizes : sizes.length = 3) (hid : id.length = 4)
    (hle : payload.length ≤ 0xffffff) :
    updatePayloadSize ⟨ofHeader sizes type flags id payload⟩ =
      .ok ⟨ofHeader (sizeOctets (ofNat payload.length)) type flags id payload⟩ := by
  have hsize : (ofNat payload.length).toNat = payload.length := by
    rw [toNat_ofNat', mod_eq_of_lt (by omega)]
  have hmax : ofNat payload.length ≤ maxPayloadSize :=
    le_iff_toNat_le.mpr (by rw [hsize]; exact hle)
  unfold updatePayloadSize
  dsimp only
  rw [payloadLength_ofHeader hsizes hid, qAssert_pos hmax, ok_bind]
  exact setPayloadSize_ofHeader hsizes hid (by rw [hsize]; exact hle)

theorem writeHEADERS_short (hsizes : sizes.length = 3) (hid : id.length = 4)
    (htype : (ofHeader sizes type flags id payload).type = .HEADERS)
    (hfits : payload.length ≤ (capped sizeLimit).toNat) (socket : List UInt8) :
    ∃ g, (∀ rounds, writeHEADERS ⟨ofHeader sizes type flags id payload⟩ rounds sizeLimit socket =
        .ok (socket ++ g.buffer)) ∧
      Carries (ofHeader sizes type flags id payload) (capped sizeLimit).toNat [g] := by
  have hmax := capped_le sizeLimit
  have hsize : (ofNat payload.length).toNat = payload.length := by
    rw [toNat_ofNat', mod_eq_of_lt (by omega)]
  have hle : ofNat payload.length ≤ capped sizeLimit :=
    le_iff_toNat_le.mpr (by rw [hsize]; exact hfits)
  obtain ⟨g, hg⟩ : ∃ g, g = ofHeader (sizeOctets (ofNat payload.length)) type
    (flags ||| FrameFlag.END_HEADERS) id payload := ⟨_, rfl⟩
  have hgtype : g.type = .HEADERS := by
    rw [hg, ← htype]
    exact type_ofHeader rfl hsizes _ _ _
  obtain ⟨hgflags, hgpayload, hgid⟩ := hg ▸ @fields_ofHeader type (flags ||| FrameFlag.END_HEADERS)
    (sizeOctets (ofNat payload.length)) id payload rfl hid
  obtain ⟨-, hfpayload, hfid⟩ := @fields_ofHeader type flags sizes id payload hsizes hid
  refine ⟨g, fun rounds => ?_, ?_⟩
  · have hwrite := write_ofHeader socket hid (show (ofNat payload.length).toNat ≤ 0xffffff by
      omega) (.inl (hg ▸ hgtype))
    unfold writeHEADERS
    rw [qAssert_pos (header_le hsizes hid), ok_bind]
    dsimp only
    rw [payloadLength_ofHeader hsizes hid, if_pos hle, addFlag_ofHeader _ hsizes hid, ok_bind,
      updatePayloadSize_ofHeader hsizes hid (by omega), ok_bind, hwrite, ← hg]
  · refine Carries.of_rest (Rest.nil _ _) hgtype ?_ (hgid.trans hfid.symm)
      (by rw [hgpayload]; exact hfits) ?_ (by rw [append_nil, hgpayload, hfpayload])
    · rw [hg]
      exact complete_ofHeader hid hsize (by omega)
    · rw [hgflags, testFlag_or]
      rfl

theorem writeHEADERS_long (hsizes : sizes.length = 3) (hid : id.length = 4)
    (htype : (ofHeader sizes type flags id payload).type = .HEADERS)
    (hlt : 9 + payload.length < 2 ^ 32) (hpos : 0 < sizeLimit.toNat)
    (hfits : (capped sizeLimit).toNat < payload.length) (socket : List UInt8) : ∃ frames,
      (∀ rounds, payload.length ≤ rounds →
        writeHEADERS ⟨ofHeader sizes type flags id payload⟩ rounds sizeLimit socket =
          .ok (socket ++ frames.flatMap Frame.buffer)) ∧
      Carries (ofHeader sizes type flags id payload) (capped sizeLimit).toNat frames := by
  have hmax := capped_le sizeLimit
  have hsize : (UInt32.ofNat payload.length).toNat = payload.length := by
    rw [UInt32.toNat_ofNat', Nat.mod_eq_of_lt (by omega)]
  have hnot : ¬UInt32.ofNat payload.length ≤ capped sizeLimit := fun hle => by
    have hle' := UInt32.le_iff_toNat_le.mp hle
    omega
  obtain ⟨first, hfirst⟩ : ∃ first, first = ofHeader (sizeOctets (capped sizeLimit)) type
    (flags &&& ~~~FrameFlag.END_HEADERS) id payload := ⟨_, rfl⟩
  obtain ⟨g, hg⟩ : ∃ g, g = ofHeader (sizeOctets (capped sizeLimit)) type
    (flags &&& ~~~FrameFlag.END_HEADERS) id (payload.take (capped sizeLimit).toNat) := ⟨_, rfl⟩
  have hlength : first.buffer.length = 9 + payload.length := by
    rw [hfirst]
    exact length_ofHeader rfl hid
  have hoffset : (UInt32.ofNat frameHeaderSize + capped sizeLimit).toNat =
      9 + (capped sizeLimit).toNat := by
    rw [UInt32.toNat_add, Nat.mod_eq_of_lt]
    · rfl
    · show 9 + (capped sizeLimit).toNat < 2 ^ 32
      omega
  obtain ⟨-, hpayload, hid'⟩ := hfirst ▸ @fields_ofHeader type (flags &&& ~~~FrameFlag.END_HEADERS)
    (sizeOctets (capped sizeLimit)) id payload rfl hid
  obtain ⟨hgflags, hgpayload, hgid⟩ := hg ▸ @fields_ofHeader type
    (flags &&& ~~~FrameFlag.END_HEADERS) (sizeOctets (capped sizeLimit)) id
    (payload.take (capped sizeLimit).toNat) rfl hid
  obtain ⟨hfflags, hfpayload, hfid⟩ := @fields_ofHeader type flags sizes id payload hsizes hid
  have hbehind : first.buffer.drop 9 = payload := hpayload
  have hrest : first.buffer.drop (9 + (capped sizeLimit).toNat) =
      payload.drop (capped sizeLimit).toNat := by
    rw [← drop_drop, hbehind]
  have htaken : first.buffer.take (9 + (capped sizeLimit).toNat) = g.buffer := by
    rw [take_add, hbehind, hfirst, hg]
    match id, hid with
    | [i, j, k, l], _ => rfl
  have htake : (payload.take (capped sizeLimit).toNat).length = (capped sizeLimit).toNat :=
    length_take_of_le (Nat.le_of_lt hfits)
  obtain ⟨rest, hwrite, hcarried, hnil⟩ := @writeContinuations_ok [0, 0, 0]
    (qToBigEndian32 first.streamID) first.buffer (by omega) (capped sizeLimit) (capped_pos hpos)
    hmax rfl (payload.length) (UInt32.ofNat frameHeaderSize + capped sizeLimit) (by omega)
    (by have := capped_pos hpos; omega) rfl (socket ++ g.buffer)
  have hne : rest ≠ [] := fun heq => by
    have hend := hnil heq
    omega
  have hstream := qFromBigEndian32_qToBigEndian32 first.streamID []
  rw [append_nil] at hstream
  rw [hoffset, hrest, hstream, hid', ← hfid] at hcarried
  refine ⟨g :: rest, fun rounds hrounds => ?_, ?_⟩
  · unfold writeHEADERS
    rw [qAssert_pos (header_le hsizes hid), ok_bind]
    dsimp only
    rw [payloadLength_ofHeader hsizes hid, if_neg hnot, hfflags, setFlags_ofHeader _ hsizes hid,
      ok_bind, setPayloadSize_ofHeader hsizes hid hmax, ok_bind, ← hfirst, hoffset]
    unfold writeBytes
    rw [qAssert_pos (show 0 + (9 + (capped sizeLimit).toNat) ≤ first.buffer.length by omega),
      ok_bind, pure_eq_ok, ok_bind, drop_zero, htaken,
      flatMap_cons, ← append_assoc]
    exact writeContinuations_mono hrounds hwrite
  · refine Carries.of_rest hcarried ?_ ?_ (hgid.trans hfid.symm)
      (Nat.le_of_eq (by rw [hgpayload, htake])) ?_
      (by rw [hgpayload, hfpayload, take_append_drop])
    · rw [hg, ← htype]
      exact type_ofHeader rfl hsizes _ _ _
    · rw [hg]
      exact complete_ofHeader hid htake.symm hmax
    · rw [hgflags, testFlag_and_not, decide_eq_false hne]

theorem writesBlock_of_lt {f : Frame} (htype : f.type = .HEADERS)
    (hheader : frameHeaderSize ≤ f.buffer.length) (hpos : 0 < sizeLimit.toNat)
    (hlt : f.buffer.length < 2 ^ 32) : WritesBlock f sizeLimit := by
  intro socket
  obtain ⟨sizes, type, flags, id, hf, hsizes, hid⟩ := exists_header hheader
  have hlength := @length_ofHeader type flags sizes id f.payload hsizes hid
  rw [← hf] at hlength
  rw [hf] at htype ⊢
  by_cases hfits : f.payload.length ≤ (capped sizeLimit).toNat
  · obtain ⟨g, hwrite, hcarries⟩ := writeHEADERS_short hsizes hid htype hfits socket
    refine ⟨0, [g], fun rounds _ => ?_, hcarries⟩
    rw [hwrite, flatMap_singleton]
  · obtain ⟨frames, hwrite, hcarries⟩ := writeHEADERS_long hsizes hid htype (by omega) hpos
      (Nat.not_le.mp hfits) socket
    exact ⟨_, frames, hwrite, hcarries⟩

/-- Frames that carry a block are no longer than nine bytes for each of them and the block. -/
theorem Carries.length {f : Frame} {limit : ℕ} {frames : List Frame} (h : Carries f limit frames) :
    (frames.flatMap Frame.buffer).length = 9 * frames.length + f.payload.length := by
  have hcomplete := h.complete
  rw [← h.payload]
  clear h
  induction frames with
  | nil => rfl
  | cons g frames ih =>
    have hg := hcomplete g mem_cons_self
    have hpayload := length_payload hg
    unfold Complete frameHeaderSize at hg
    rw [flatMap_cons, flatMap_cons, length_append, length_append,
      length_cons, ih fun k hk => hcomplete k (mem_cons_of_mem _ hk)]
    omega

theorem setFlags_length {w w' : FrameWriter} (h : w.setFlags flags = .ok w') :
    w'.frame.buffer.length = w.frame.buffer.length := by
  unfold setFlags at h
  obtain ⟨-, -, h⟩ := bind_eq_ok h
  rw [← Except.ok.inj h]
  exact length_set

theorem setPayloadSize_length {w w' : FrameWriter} (h : w.setPayloadSize size = .ok w') :
    w'.frame.buffer.length = w.frame.buffer.length := by
  unfold setPayloadSize at h
  by_cases hheader : frameHeaderSize ≤ w.frame.buffer.length
  · obtain ⟨-, -, h⟩ := bind_eq_ok h
    obtain ⟨-, -, h⟩ := bind_eq_ok h
    unfold frameHeaderSize at hheader
    rw [← Except.ok.inj h]
    dsimp only
    rw [length_append, length_drop]
    show 3 + (w.frame.buffer.length - 3) = w.frame.buffer.length
    omega
  · rw [qAssert_neg hheader] at h
    cases h

theorem not_writesBlock {f : Frame} (hlarge : 2 ^ 32 ≤ f.buffer.length) :
    ¬WritesBlock f sizeLimit := by
  intro hwrites
  obtain ⟨n, frames, hwrite, hcarries⟩ := hwrites []
  have hwrite := hwrite n (Nat.le_refl n)
  have hmax := capped_le sizeLimit
  unfold writeHEADERS at hwrite
  obtain ⟨-, -, hwrite⟩ := bind_eq_ok hwrite
  dsimp only at hwrite
  split_ifs at hwrite with hfits
  · obtain ⟨w, hflag, hwrite⟩ := bind_eq_ok hwrite
    obtain ⟨w', hsize, hwrite⟩ := bind_eq_ok hwrite
    have hlength := setFlags_length hflag
    unfold updatePayloadSize at hsize
    obtain ⟨-, -, hsize⟩ := bind_eq_ok hsize
    have hlength' := setPayloadSize_length hsize
    unfold FrameWriter.write at hwrite
    obtain ⟨-, -, hwrite⟩ := bind_eq_ok hwrite
    obtain ⟨-, -, hwrite⟩ := bind_eq_ok hwrite
    obtain ⟨-, -, hwrite⟩ := bind_eq_ok hwrite
    have hout := congrArg List.length (Except.ok.inj hwrite)
    rw [nil_append, nil_append, hcarries.length, hlength', hlength] at hout
    have hpayload : f.payload.length = f.buffer.length - 9 := length_drop
    obtain ⟨g, rfl⟩ := length_eq_one_iff.mp (show frames.length = 1 by
      dsimp only at hout
      omega)
    have hle := hcarries.payload_le g mem_cons_self
    have hblock := congrArg List.length hcarries.payload
    rw [flatMap_singleton] at hblock
    omega
  · obtain ⟨w, hflag, hwrite⟩ := bind_eq_ok hwrite
    obtain ⟨w', hsize, hwrite⟩ := bind_eq_ok hwrite
    obtain ⟨socket, -, hwrite⟩ := bind_eq_ok hwrite
    have hlength := setFlags_length hflag
    have hlength' := setPayloadSize_length hsize
    refine writeContinuations_large ?_ _ _ _ _ _ _ hwrite
    rw [hlength', hlength]
    exact hlarge

end FrameWriter

end Http2

end QtBase
