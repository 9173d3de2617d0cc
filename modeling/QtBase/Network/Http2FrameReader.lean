import QtBase.Core.Exec
import QtBase.Network.Http2Frames
import Mathlib.Algebra.Order.Ring.Int

/-! Reading frames from a socket that gives any number of bytes at a time. -/
namespace QtBase

open List Nat

namespace Http2

/-- `std::vector::resize`. -/
def resize (buffer : List UInt8) (n : ℕ) : List UInt8 :=
  buffer.take n ++ List.replicate (n - buffer.length) 0

/-- Bytes that are copied to an offset. -/
def overwrite (buffer : List UInt8) (offset : ℕ) (bytes : List UInt8) : List UInt8 :=
  buffer.take offset ++ bytes ++ buffer.drop (offset + bytes.length)

/-- `socket.read`: no more bytes than there are, and than fit. -/
def socketRead (stream : List UInt8) (available maxSize : ℕ) : List UInt8 × List UInt8 :=
  (stream.take (min available maxSize), stream.drop (min available maxSize))

structure FrameReader where
  offset : UInt32
  frame : Frame

/-- A call of `read`: how many bytes the socket has for the header and for the payload, and whether
the frame, if it is good, is moved away behind the call. -/
structure ReadCall where
  header : ℕ
  payload : ℕ
  moved : Bool

namespace FrameReader

variable (r : FrameReader) (stream : List UInt8)

/-- The bytes that were read are in the buffer. -/
def append (buffer bytes : List UInt8) : FrameReader :=
  ⟨r.offset + UInt32.ofNat bytes.length, ⟨overwrite buffer r.offset.toNat bytes⟩⟩

def readHeader (available : ℕ) : Exec (FrameReader × List UInt8 × Bool) := do
  qAssert (r.offset.toNat < frameHeaderSize)
  let buffer := if r.frame.buffer.length < frameHeaderSize then
    resize r.frame.buffer frameHeaderSize else r.frame.buffer
  let got := socketRead stream available (frameHeaderSize - r.offset.toNat)
  let r := r.append buffer got.1
  pure (r, got.2, r.offset.toNat == frameHeaderSize)

def readPayload (available : ℕ) : Exec (FrameReader × List UInt8 × Bool) := do
  let buffer := r.frame.buffer
  qAssert (r.offset.toNat < buffer.length)
  qAssert (buffer.length > frameHeaderSize)
  let got := socketRead stream available (buffer.length - r.offset.toNat)
  let r := r.append buffer got.1
  pure (r, got.2, r.offset.toNat == r.frame.buffer.length)

/-- The end of `read`: the frame can be re-used. -/
def finish : Exec (FrameReader × List UInt8 × FrameStatus) := do
  let r := { r with offset := 0 }
  qAssert (r.frame.validateHeader = .goodFrame)
  qAssert (r.frame.type = .LAST_FRAME_TYPE ∨
    r.frame.buffer.length = frameHeaderSize + r.frame.payloadSize.toNat)
  pure (r, stream, r.frame.validatePayload)

/-- The second half of `read`, behind the header. -/
def readRest (available : ℕ) : Exec (FrameReader × List UInt8 × FrameStatus) := do
  let (r, stream, complete) ←
    if r.offset.toNat < r.frame.buffer.length then r.readPayload stream available
    else pure (r, stream, true)
  if complete then r.finish stream else pure (r, stream, .incompleteFrame)

def read (call : ReadCall) : Exec (FrameReader × List UInt8 × FrameStatus) :=
  if r.offset.toNat < frameHeaderSize then do
    let (r, stream, complete) ← r.readHeader stream call.header
    if complete then
      if r.frame.validateHeader ≠ .goodFrame then pure (r, stream, r.frame.validateHeader)
      else if maxPayloadSize < r.frame.payloadSize then pure (r, stream, .sizeError)
      else
        let buffer := resize r.frame.buffer (r.frame.payloadSize.toNat + frameHeaderSize)
        { r with frame := ⟨buffer⟩ }.readRest stream call.payload
    else pure (r, stream, .incompleteFrame)
  else r.readRest stream call.payload

/-- What is left in the reader if a good frame is moved away. -/
def moveFrame (call : ReadCall) (status : FrameStatus) : FrameReader :=
  if status = .goodFrame ∧ call.moved then { r with frame := ⟨[]⟩ } else r

/-- The status and the frame behind every call. -/
def reads (r : FrameReader) (stream : List UInt8) :
    List ReadCall → Exec (List (FrameStatus × Frame) × List UInt8)
  | [] => pure ([], stream)
  | call :: calls => do
    let (r, stream, status) ← r.read stream call
    let (results, stream) ← reads (r.moveFrame call status) stream calls
    pure ((status, r.frame) :: results, stream)

/-- The frames that were good. -/
def goodFrames (results : List (FrameStatus × Frame)) : List Frame :=
  (results.filter fun result => result.1 == .goodFrame).map Prod.snd

end FrameReader

/-! ## Buffers -/

/-- The buffer begins with as many bytes of a text. -/
structure Fills (buffer : List UInt8) (offset : ℕ) (text : List UInt8) : Prop where
  le : offset ≤ buffer.length
  eq : buffer.take offset = text.take offset

theorem length_resize (buffer : List UInt8) (n : ℕ) : (resize buffer n).length = n := by
  unfold resize
  simp
  omega

namespace Fills

variable {buffer text : List UInt8} {offset n : ℕ}

theorem resize (h : Fills buffer offset text) (hn : offset ≤ n) :
    Fills (Http2.resize buffer n) offset text := by
  refine ⟨by rw [length_resize]; exact hn, ?_⟩
  have hle := h.le
  unfold Http2.resize
  rw [take_append_of_le_length (by rw [length_take]; omega), take_take,
    Nat.min_eq_left hn, h.eq]

theorem overwrite (h : Fills buffer offset text) {available : ℕ}
    (hle : offset + ((text.drop offset).take available).length ≤ buffer.length) :
    Fills (Http2.overwrite buffer offset ((text.drop offset).take available))
      (offset + ((text.drop offset).take available).length) text ∧
    (Http2.overwrite buffer offset ((text.drop offset).take available)).length = buffer.length := by
  have hbefore := h.le
  have htake : (buffer.take offset).length = offset := length_take_of_le hbefore
  have hlength : (Http2.overwrite buffer offset ((text.drop offset).take available)).length =
      buffer.length := by
    unfold Http2.overwrite
    rw [length_append, length_append, htake, length_drop]
    omega
  refine ⟨⟨by rw [hlength]; exact hle, ?_⟩, hlength⟩
  have hall : (buffer.take offset ++ (text.drop offset).take available).length =
      offset + ((text.drop offset).take available).length := by
    rw [length_append, htake]
  unfold Http2.overwrite
  rw [take_append_of_le_length (Nat.le_of_eq hall.symm),
    take_of_length_le (Nat.le_of_eq hall), take_add, h.eq]
  congr 1
  rw [length_take, ← take_eq_take_min]

end Fills

/-! ## Frames -/

namespace Frame

/-- A frame as it should stand on the wire. -/
structure WellFormed (f : Frame) : Prop where
  complete : f.Complete
  header : f.validateHeader = .goodFrame
  payload : f.validatePayload = .goodFrame

theorem WellFormed.length (h : WellFormed f) : f.buffer.length = 9 + f.payloadSize.toNat :=
  h.complete

theorem WellFormed.length_le (h : WellFormed f) : f.buffer.length ≤ 9 + 0xffffff := by
  rw [h.length]
  exact Nat.add_le_add_left (payloadSize_le h.header) 9

theorem header_congr {f g : Frame} (h : f.buffer.take 9 = g.buffer.take 9) :
    f.payloadSize = g.payloadSize ∧ f.type = g.type ∧ f.validateHeader = g.validateHeader := by
  have hbyte : ∀ i < 9, f.buffer.getD i 0 = g.buffer.getD i 0 := by
    intro i hi
    rw [getD_eq_getElem?_getD, getD_eq_getElem?_getD,
      ← List.getElem?_take_of_lt hi, h, List.getElem?_take_of_lt hi]
  have hsize : f.payloadSize = g.payloadSize := by
    unfold payloadSize
    rw [hbyte 0 (by omega), hbyte 1 (by omega), hbyte 2 (by omega)]
  have htype : f.type = g.type := by
    unfold type
    rw [hbyte 3 (by omega)]
  refine ⟨hsize, htype, ?_⟩
  unfold validateHeader flags
  rw [hsize, htype, hbyte 4 (by omega)]

end Frame

namespace FrameReader

variable {r : FrameReader} {stream : List UInt8} {frames : List Frame} {f : Frame}

/-- The bytes of frames that follow each other. -/
def wire (frames : List Frame) : List UInt8 := frames.flatMap Frame.buffer

/-- The reader has begun with the first of the frames that are still to be read. -/
structure Expects (r : FrameReader) (stream : List UInt8) (frames : List Frame) : Prop where
  wellFormed : ∀ f ∈ frames, f.WellFormed
  stream : stream = (wire frames).drop r.offset.toNat
  fills : Fills r.frame.buffer r.offset.toNat (wire frames)
  started : r.offset.toNat ≠ 0 → ∃ f ∈ frames.head?, r.offset.toNat < f.buffer.length ∧
    (9 ≤ r.offset.toNat → r.frame.buffer.length = f.buffer.length)

theorem wire_cons (f : Frame) (frames : List Frame) :
    wire (f :: frames) = f.buffer ++ wire frames := flatMap_cons

theorem Expects.of_offset (hframes : ∀ f ∈ frames, f.WellFormed) (h : r.offset = 0) :
    Expects r (wire frames) frames := by
  have hzero : r.offset.toNat = 0 := by rw [h]; rfl
  refine ⟨hframes, ?_, ?_, fun hne => absurd hzero hne⟩
  · rw [hzero, drop_zero]
  · rw [hzero]
    exact ⟨zero_le _, by rw [take_zero, take_zero]⟩

theorem toNat_add_length {offset : UInt32} {bytes : List UInt8} {n : ℕ}
    (h : offset.toNat + bytes.length ≤ n) (hn : n < 2 ^ 32) :
    (offset + UInt32.ofNat bytes.length).toNat = offset.toNat + bytes.length := by
  rw [UInt32.toNat_add, UInt32.toNat_ofNat', mod_eq_of_lt (by omega),
    mod_eq_of_lt (by omega)]

/-- The frame has its header, and the buffer has its size. -/
structure Sized (r : FrameReader) (stream : List UInt8) (f : Frame) (frames : List Frame) :
    Prop where
  wellFormed : ∀ g ∈ f :: frames, g.WellFormed
  stream : stream = (wire (f :: frames)).drop r.offset.toNat
  fills : Fills r.frame.buffer r.offset.toNat (wire (f :: frames))
  header : 9 ≤ r.offset.toNat
  length : r.frame.buffer.length = f.buffer.length

/-- How a call ends: the first frame is read, or not yet. -/
def Reads (f : Frame) (frames : List Frame) :
    FrameReader × List UInt8 × FrameStatus → Prop
  | (r, stream, status) =>
    status = .goodFrame ∧ r.offset = 0 ∧ r.frame = f ∧ stream = wire frames ∨
      status = .incompleteFrame ∧ Expects r stream (f :: frames)

theorem Sized.complete (h : Sized r stream f frames) (hfull : r.offset.toNat = f.buffer.length) :
    r.frame = f ∧ stream = wire frames := by
  have hfills := h.fills.eq
  rw [hfull, wire_cons, take_append_of_le_length (Nat.le_refl _),
    take_of_length_le (Nat.le_of_eq h.length), take_length] at hfills
  have hstream := h.stream
  rw [hfull, wire_cons, drop_left] at hstream
  refine ⟨?_, hstream⟩
  cases hr : r.frame
  rw [hr] at hfills
  exact congrArg Frame.mk hfills

theorem Sized.finish (h : Sized r stream f frames) (hfull : r.offset.toNat = f.buffer.length) :
    ∃ res, r.finish stream = .ok res ∧ Reads f frames res ∧ res.2.2 = .goodFrame := by
  obtain ⟨hframe, hstream⟩ := h.complete hfull
  have hf := h.wellFormed f mem_cons_self
  refine ⟨({ r with offset := 0 }, stream, .goodFrame), ?_,
    .inl ⟨rfl, rfl, hframe, hstream⟩, rfl⟩
  unfold FrameReader.finish
  dsimp only
  rw [hframe, qAssert_pos hf.header, ok_bind, qAssert_pos (show f.type = .LAST_FRAME_TYPE ∨
    f.buffer.length = frameHeaderSize + f.payloadSize.toNat from .inr hf.complete), ok_bind,
    hf.payload]
  rfl

theorem Sized.expects (h : Sized r stream f frames) (hlt : r.offset.toNat < f.buffer.length) :
    Expects r stream (f :: frames) :=
  ⟨h.wellFormed, h.stream, h.fills, fun _ => ⟨f, rfl, hlt, fun _ => h.length⟩⟩

theorem append_spec {text buffer : List UInt8} {available n : ℕ}
    (hr : Fills buffer r.offset.toNat text) (hbuffer : r.offset.toNat + n ≤ buffer.length)
    (htext : r.offset.toNat + n ≤ text.length) (hn : r.offset.toNat + n < 2 ^ 32) :
    let got := socketRead (text.drop r.offset.toNat) available n
    (r.append buffer got.1).offset.toNat = r.offset.toNat + min available n ∧
      got.2 = text.drop (r.offset.toNat + min available n) ∧
        Fills (r.append buffer got.1).frame.buffer (r.offset.toNat + min available n) text ∧
          (r.append buffer got.1).frame.buffer.length = buffer.length := by
  intro got
  have hgot : got.1.length = min available n := by
    show ((text.drop r.offset.toNat).take (min available n)).length = min available n
    simp
    omega
  obtain ⟨hfills, hlength⟩ := @Fills.overwrite _ _ _ hr (min available n) (by
    have : ((text.drop r.offset.toNat).take (min available n)).length = min available n := hgot
    omega)
  refine ⟨?_, drop_drop, ?_, hlength⟩
  · rw [← hgot]
    exact toNat_add_length (Nat.le_refl _) (by omega)
  · rw [← hgot]
    exact hfills

theorem Sized.readPayload (h : Sized r stream f frames) (hlt : r.offset.toNat < f.buffer.length)
    (available : ℕ) : ∃ r' stream',
      r.readPayload stream available = .ok (r', stream', r'.offset.toNat == f.buffer.length) ∧
        Sized r' stream' f frames ∧
          r'.offset.toNat = r.offset.toNat + min available (f.buffer.length - r.offset.toNat) := by
  have hlength := (h.wellFormed f mem_cons_self).length_le
  have hheader := h.header
  have htext : f.buffer.length ≤ (wire (f :: frames)).length := by
    rw [wire_cons, length_append]
    exact Nat.le_add_right _ _
  obtain ⟨hoffset, hstream, hfills, hbuffer⟩ := @append_spec r (wire (f :: frames)) r.frame.buffer
    available (f.buffer.length - r.offset.toNat) h.fills (by rw [h.length]; omega) (by omega)
    (by omega)
  rw [h.length] at hbuffer
  refine ⟨_, (socketRead ((wire (f :: frames)).drop r.offset.toNat) available
    (f.buffer.length - r.offset.toNat)).2, ?_, ⟨h.wellFormed, ?_, ?_, ?_, hbuffer⟩, hoffset⟩
  · unfold FrameReader.readPayload
    dsimp only
    rw [h.length, h.stream, qAssert_pos hlt, ok_bind,
      qAssert_pos (show f.buffer.length > frameHeaderSize from Nat.lt_of_le_of_lt hheader hlt),
      ok_bind, hbuffer]
    rfl
  · rw [hoffset]
    exact hstream
  · rw [hoffset]
    exact hfills
  · omega

theorem Sized.readRest (h : Sized r stream f frames) (available : ℕ) :
    ∃ res, r.readRest stream available = .ok res ∧ Reads f frames res ∧
      (f.buffer.length ≤ r.offset.toNat + available → res.2.2 = .goodFrame) := by
  have hle := h.fills.le
  rw [h.length] at hle
  unfold FrameReader.readRest
  rw [h.length]
  by_cases hlt : r.offset.toNat < f.buffer.length
  · obtain ⟨r', stream', hread, hsized, hoffset⟩ := h.readPayload hlt available
    rw [if_pos hlt, hread, ok_bind]
    dsimp only
    by_cases hfull : r'.offset.toNat = f.buffer.length
    · rw [if_pos (beq_iff_eq.mpr hfull)]
      obtain ⟨res, hres, hreads, hgood⟩ := hsized.finish hfull
      exact ⟨res, hres, hreads, fun _ => hgood⟩
    · rw [if_neg (beq_iff_eq.not.mpr hfull)]
      refine ⟨_, rfl, .inr ⟨rfl, hsized.expects (by omega)⟩, fun henough => ?_⟩
      exact absurd (show r'.offset.toNat = f.buffer.length by omega) hfull
  · rw [if_neg hlt]
    obtain ⟨res, hres, hreads, hgood⟩ := h.finish (by omega)
    exact ⟨res, hres, hreads, fun _ => hgood⟩

theorem headerBuffer_fills {buffer text : List UInt8} {offset : ℕ} (h : Fills buffer offset text)
    (hlt : offset < 9) :
    Fills (if buffer.length < 9 then Http2.resize buffer 9 else buffer) offset text ∧
      9 ≤ (if buffer.length < 9 then Http2.resize buffer 9 else buffer).length := by
  split_ifs with hshort
  · exact ⟨h.resize (Nat.le_of_lt hlt), Nat.le_of_eq (length_resize buffer 9).symm⟩
  · exact ⟨h, Nat.not_lt.mp hshort⟩

theorem Expects.readHeader (h : Expects r stream (f :: frames)) (hlt : r.offset.toNat < 9)
    (available : ℕ) : ∃ r' stream',
      r.readHeader stream available = .ok (r', stream', r'.offset.toNat == 9) ∧
        stream' = (wire (f :: frames)).drop r'.offset.toNat ∧
          Fills r'.frame.buffer r'.offset.toNat (wire (f :: frames)) ∧
            r'.offset.toNat = r.offset.toNat + min available (9 - r.offset.toNat) := by
  have hlength := (h.wellFormed f mem_cons_self).length
  have htext : 9 ≤ (wire (f :: frames)).length := by
    rw [wire_cons, length_append]
    omega
  obtain ⟨hbuffer, hnine⟩ := headerBuffer_fills h.fills hlt
  obtain ⟨hoffset, hstream, hfills, -⟩ := @append_spec r (wire (f :: frames)) _ available
    (9 - r.offset.toNat) hbuffer (by omega) (by omega) (by omega)
  refine ⟨_, (socketRead ((wire (f :: frames)).drop r.offset.toNat) available
    (9 - r.offset.toNat)).2, ?_, ?_, ?_, hoffset⟩
  · unfold FrameReader.readHeader
    dsimp only
    rw [h.stream, qAssert_pos (show r.offset.toNat < frameHeaderSize from hlt), ok_bind]
    rfl
  · rw [hoffset]
    exact hstream
  · rw [hoffset]
    exact hfills

theorem sized_of_header (hframes : ∀ g ∈ f :: frames, g.WellFormed)
    (hstream : stream = (wire (f :: frames)).drop r.offset.toNat)
    (hfills : Fills r.frame.buffer r.offset.toNat (wire (f :: frames)))
    (hoffset : r.offset.toNat = 9) :
    r.frame.validateHeader = .goodFrame ∧ r.frame.payloadSize = f.payloadSize ∧
      Sized { r with
        frame := ⟨resize r.frame.buffer (r.frame.payloadSize.toNat + frameHeaderSize)⟩ }
        stream f frames := by
  have hf := hframes f mem_cons_self
  have hlength := hf.length
  have hheader := hfills.eq
  rw [hoffset, wire_cons, take_append_of_le_length (by omega)] at hheader
  obtain ⟨hsize, -, hvalid⟩ := Frame.header_congr hheader
  refine ⟨hvalid.trans hf.header, hsize, hframes, hstream, ?_, Nat.le_of_eq hoffset.symm, ?_⟩
  · exact hfills.resize (by rw [hoffset]; exact Nat.le_add_left 9 _)
  · show (resize r.frame.buffer (r.frame.payloadSize.toNat + frameHeaderSize)).length = _
    rw [length_resize, hsize, hlength]
    exact Nat.add_comm _ 9

/-- A call reads the first frame, or a part of it. -/
theorem Expects.read (h : Expects r stream (f :: frames)) (call : ReadCall) :
    ∃ res, r.read stream call = .ok res ∧ Reads f frames res ∧
      (9 ≤ call.header → f.buffer.length ≤ call.payload → res.2.2 = .goodFrame) := by
  unfold FrameReader.read
  by_cases hlt : r.offset.toNat < frameHeaderSize
  · obtain ⟨r', stream', hread, hstream, hfills, hoffset⟩ := h.readHeader hlt call.header
    rw [if_pos hlt, hread, ok_bind]
    dsimp only
    by_cases hfull : r'.offset.toNat = 9
    · obtain ⟨hvalid, hsize, hsized⟩ := sized_of_header h.wellFormed hstream hfills hfull
      have hle := Frame.payloadSize_le (h.wellFormed f mem_cons_self).header
      rw [if_pos (beq_iff_eq.mpr hfull), if_neg (not_not.mpr hvalid), if_neg (by
        rw [hsize, UInt32.lt_iff_toNat_lt]
        exact Nat.not_lt.mpr hle)]
      obtain ⟨res, hres, hreads, hgood⟩ := hsized.readRest call.payload
      exact ⟨res, hres, hreads, fun _ henough => hgood (by omega)⟩
    · rw [if_neg (beq_iff_eq.not.mpr hfull)]
      have hlength := (h.wellFormed f mem_cons_self).length
      unfold frameHeaderSize at hlt
      refine ⟨_, rfl, .inr ⟨rfl, h.wellFormed, hstream, hfills, fun _ => ⟨f, rfl, ?_, ?_⟩⟩, ?_⟩
      · omega
      · intro hge
        omega
      · intro henough
        omega
  · rw [if_neg hlt]
    have hge : 9 ≤ r.offset.toNat := Nat.not_lt.mp hlt
    obtain ⟨g, hg, hpart, hlength⟩ := h.started (by omega)
    obtain rfl := Option.some.inj hg
    have hsized : Sized r stream f frames :=
      ⟨h.wellFormed, h.stream, h.fills, hge, hlength hge⟩
    obtain ⟨res, hres, hreads, hgood⟩ := hsized.readRest call.payload
    exact ⟨res, hres, hreads, fun _ henough => hgood (by omega)⟩

theorem Expects.read_nil (h : Expects r stream []) (call : ReadCall) :
    ∃ r', r.read stream call = .ok (r', stream, .incompleteFrame) ∧ Expects r' stream [] := by
  have hoffset : r.offset = 0 := by
    by_contra hne
    obtain ⟨f, hf, -⟩ := h.started fun hzero => hne (UInt32.toNat_inj.mp hzero)
    cases hf
  have hstream : stream = [] := by
    rw [h.stream]
    exact drop_nil
  have hgot (n : ℕ) : socketRead [] call.header n = ([], []) := by
    unfold socketRead
    rw [take_nil, drop_nil]
  obtain ⟨buffer, hbuffer⟩ : ∃ buffer, buffer = if r.frame.buffer.length < frameHeaderSize then
    resize r.frame.buffer frameHeaderSize else r.frame.buffer := ⟨_, rfl⟩
  have hzero : (r.append buffer []).offset = 0 := by
    unfold append
    rw [hoffset]
    rfl
  have hlt : r.offset.toNat < frameHeaderSize := by
    rw [hoffset]
    exact succ_pos 8
  have hread : r.readHeader [] call.header = .ok (r.append buffer [], [], false) := by
    unfold FrameReader.readHeader
    dsimp only
    rw [qAssert_pos hlt, ok_bind, hgot, ← hbuffer, hzero]
    rfl
  rw [hstream]
  refine ⟨r.append buffer [], ?_, Expects.of_offset h.wellFormed hzero⟩
  unfold FrameReader.read
  rw [if_pos hlt, hread]
  rfl

/-! ## Runs -/

theorem Expects.moveFrame (h : Expects r stream frames) (call : ReadCall) (status : FrameStatus)
    (hoffset : status = .goodFrame → r.offset = 0) :
    Expects (r.moveFrame call status) stream frames := by
  unfold FrameReader.moveFrame
  split_ifs with hmoved
  · have hzero := hoffset hmoved.1
    have hstream := h.stream
    rw [hzero] at hstream
    rw [hstream]
    exact Expects.of_offset h.wellFormed hzero
  · exact h

/-- One call, whatever is still to be read. -/
theorem Expects.call (h : Expects r stream frames) (call : ReadCall) :
    ∃ r' stream' status frames', r.read stream call = .ok (r', stream', status) ∧
      Expects (r'.moveFrame call status) stream' frames' ∧
        (status = .goodFrame ∧ frames = r'.frame :: frames' ∨
          status = .incompleteFrame ∧ frames' = frames) ∧
          (∀ f ∈ frames.head?, 9 ≤ call.header → f.buffer.length ≤ call.payload →
            status = .goodFrame) := by
  cases frames with
  | nil =>
    obtain ⟨r', hread, h'⟩ := h.read_nil call
    refine ⟨r', stream, .incompleteFrame, [], hread, h'.moveFrame call _ ?_, .inr ⟨rfl, rfl⟩,
      fun f hf => ?_⟩
    · intro hgood
      cases hgood
    · cases hf
  | cons f frames =>
    obtain ⟨⟨r', stream', status⟩, hread, hreads, hgood⟩ := h.read call
    have hwhole : ∀ g ∈ (f :: frames).head?, 9 ≤ call.header → g.buffer.length ≤ call.payload →
        status = .goodFrame := fun g hg => Option.some.inj hg ▸ hgood
    rcases hreads with ⟨hstatus, hoffset, hframe, hstream⟩ | ⟨hstatus, hexpects⟩
    · have h' : Expects r' stream' frames := hstream ▸
        Expects.of_offset (fun g hg => h.wellFormed g (mem_cons_of_mem _ hg)) hoffset
      exact ⟨r', stream', status, frames, hread, h'.moveFrame call status fun _ => hoffset,
        .inl ⟨hstatus, by rw [hframe]⟩, hwhole⟩
    · refine ⟨r', stream', status, f :: frames, hread, hexpects.moveFrame call status ?_,
        .inr ⟨hstatus, rfl⟩, hwhole⟩
      intro hgood
      rw [hstatus] at hgood
      cases hgood

/-- All frames are read when all bytes are. -/
theorem Expects.eq_nil (h : Expects r [] frames) : frames = [] := by
  cases frames with
  | nil => rfl
  | cons f frames =>
    have hlength := (h.wellFormed f mem_cons_self).length
    have hstream := congrArg List.length h.stream
    rw [length_drop, wire_cons, length_append, length_nil] at hstream
    by_cases hzero : r.offset.toNat = 0
    · omega
    · obtain ⟨g, hg, hlt, -⟩ := h.started hzero
      obtain rfl := Option.some.inj hg
      omega

theorem goodFrames_cons (status : FrameStatus) (f : Frame)
    (results : List (FrameStatus × Frame)) : goodFrames ((status, f) :: results) =
      if status = .goodFrame then f :: goodFrames results else goodFrames results := by
  unfold goodFrames
  rw [filter_cons]
  split_ifs with hstatus heq heq
  · rfl
  · exact absurd (beq_iff_eq.mp hstatus) heq
  · exact absurd (beq_iff_eq.mpr heq) hstatus
  · rfl

/-- However the bytes come, the good frames are the first ones, and all when all bytes are read. -/
theorem Expects.reads (h : Expects r stream frames) (calls : List ReadCall) :
    ∃ results stream', FrameReader.reads r stream calls = .ok (results, stream') ∧
      goodFrames results <+: frames ∧ (stream' = [] → goodFrames results = frames) ∧
        ∀ result ∈ results, result.1 = .goodFrame ∨ result.1 = .incompleteFrame := by
  induction calls generalizing r stream frames with
  | nil =>
    refine ⟨[], stream, rfl, nil_prefix, fun hstream => ?_, fun _ hr => by cases hr⟩
    rw [hstream] at h
    exact h.eq_nil.symm
  | cons call calls ih =>
    obtain ⟨r', stream', status, frames', hread, h', hstatus, -⟩ := h.call call
    obtain ⟨results, stream'', hreads, hstart, hall, hends⟩ := ih h'
    refine ⟨(status, r'.frame) :: results, stream'', ?_, ?_, ?_, ?_⟩
    · unfold FrameReader.reads
      rw [hread, ok_bind]
      simp [hreads]
    · rw [goodFrames_cons]
      rcases hstatus with ⟨hgood, hframes⟩ | ⟨hwait, hframes⟩
      · rw [if_pos hgood, hframes]
        exact (prefix_cons_inj _).mpr hstart
      · rw [if_neg (by rw [hwait]; exact FrameStatus.noConfusion), ← hframes]
        exact hstart
    · intro hstream
      rw [goodFrames_cons, hall hstream]
      rcases hstatus with ⟨hgood, hframes⟩ | ⟨hwait, hframes⟩
      · rw [if_pos hgood, hframes]
      · rw [if_neg (by rw [hwait]; exact FrameStatus.noConfusion), ← hframes]
    · intro result hresult
      rcases mem_cons.mp hresult with rfl | hresult
      · exact hstatus.imp (fun hand => hand.1) fun hand => hand.1
      · exact hends result hresult

theorem Expects.reads_whole (h : Expects r stream frames) {calls : List ReadCall}
    (hwhole : ∀ call ∈ calls, 9 ≤ call.header ∧ ∀ f ∈ frames, f.buffer.length ≤ call.payload)
    (hcalls : calls.length = frames.length) :
    ∃ results, FrameReader.reads r stream calls = .ok (results, []) ∧
      goodFrames results = frames := by
  induction calls generalizing r stream frames with
  | nil =>
    obtain rfl := eq_nil_of_length_eq_zero hcalls.symm
    have hstream := h.stream
    rw [show wire [] = [] from rfl, drop_nil] at hstream
    rw [hstream]
    exact ⟨[], rfl, rfl⟩
  | cons call calls ih =>
    cases frames with
    | nil => cases hcalls
    | cons f frames =>
      obtain ⟨hheader, hpayload⟩ := hwhole call mem_cons_self
      obtain ⟨r', stream', status, frames', hread, h', hstatus, henough⟩ := h.call call
      have hgood := henough f rfl hheader (hpayload f mem_cons_self)
      rcases hstatus with ⟨-, hframes⟩ | ⟨hwait, -⟩
      · obtain ⟨rfl, rfl⟩ := List.cons.inj hframes
        obtain ⟨results, hreads, hall⟩ := ih h' (fun call hcall =>
          ⟨(hwhole call (mem_cons_of_mem _ hcall)).1, fun g hg =>
            (hwhole call (mem_cons_of_mem _ hcall)).2 g (mem_cons_of_mem _ hg)⟩)
          (succ.inj hcalls)
        refine ⟨(status, r'.frame) :: results, ?_, ?_⟩
        · unfold FrameReader.reads
          rw [hread, ok_bind]
          simp [hreads]
        · rw [goodFrames_cons, if_pos hgood, hall]
      · rw [hgood] at hwait
        cases hwait

end FrameReader

end Http2

end QtBase
