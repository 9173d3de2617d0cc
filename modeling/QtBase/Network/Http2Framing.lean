import QtBase.Network.Http2FrameReader
import QtBase.Network.Http2FrameWriter

/-! Frames on a connection: a block of headers is written as frames, and frames are read again. -/
namespace QtBase

namespace Http2

/-- However the bytes of frames come, the good frames are those of reading them when all bytes are
there: the first ones, and every one of them if nothing is left to read. -/
def ReadsFrames : Prop := ∀ (frames : List Frame) (buffer : List UInt8),
  (∀ f ∈ frames, f.WellFormed) → ∀ whole : List ReadCall, whole.length = frames.length →
    (∀ call ∈ whole, 9 ≤ call.header ∧ ∀ f ∈ frames, f.buffer.length ≤ call.payload) →
      ∃ expected, FrameReader.reads ⟨0, ⟨buffer⟩⟩ (FrameReader.wire frames) whole =
          .ok (expected, []) ∧ FrameReader.goodFrames expected = frames ∧
        ∀ calls : List ReadCall, ∃ results stream,
          FrameReader.reads ⟨0, ⟨buffer⟩⟩ (FrameReader.wire frames) calls = .ok (results, stream) ∧
            FrameReader.goodFrames results <+: FrameReader.goodFrames expected ∧
              (stream = [] →
                FrameReader.goodFrames results = FrameReader.goodFrames expected) ∧
                ∀ result ∈ results, result.1 = .goodFrame ∨ result.1 = .incompleteFrame

theorem readsFrames : ReadsFrames := by
  intro frames buffer hframes whole hcalls hwhole
  have hexpects : FrameReader.Expects ⟨0, ⟨buffer⟩⟩ (FrameReader.wire frames) frames :=
    FrameReader.Expects.of_offset hframes rfl
  obtain ⟨expected, hreads, hall⟩ := hexpects.reads_whole hwhole hcalls
  refine ⟨expected, hreads, hall, fun calls => ?_⟩
  rw [hall]
  exact hexpects.reads calls

namespace FrameWriter

/-- A block is written as frames, and frames are read however they come, exactly if the buffer of
the writer has fewer than `2 ^ 32` bytes: offsets and sizes are kept in 32 bits. -/
theorem framing_holds_iff (f : Frame) (sizeLimit : UInt32) (htype : f.type = .HEADERS)
    (hheader : frameHeaderSize ≤ f.buffer.length) (hpos : 1 ≤ sizeLimit.toNat) :
    WritesBlock f sizeLimit ∧ ReadsFrames ↔ f.buffer.length < 2 ^ 32 := by
  constructor
  · intro h
    by_contra hlarge
    exact not_writesBlock (Nat.not_lt.mp hlarge) h.1
  · intro hlt
    exact ⟨writesBlock_of_lt htype hheader hpos hlt, readsFrames⟩

/-- A block of three bytes, of which two fit into a frame. -/
theorem framing_holds_iff_three :
    let f : Frame := ⟨[0, 0, 0, 1, 4, 0, 0, 0, 1, 0x82, 0x86, 0x84]⟩
    f.buffer.length < 2 ^ 32 ∧ WritesBlock f 2 ∧ ReadsFrames := by
  intro f
  have hlt : f.buffer.length < 2 ^ 32 := by
    show 12 < 2 ^ 32
    omega
  exact ⟨hlt, (framing_holds_iff f 2 rfl (by decide) (by decide)).mpr hlt⟩

/-- The 32 bits of the size of a block of `2 ^ 32` bytes are 0. -/
theorem large_block_not_written : ∃ f : Frame, f.type = .HEADERS ∧
    f.payload.length = 2 ^ 32 ∧ ¬(WritesBlock f 16384 ∧ ReadsFrames) := by
  obtain ⟨block, hblock⟩ : ∃ block : List UInt8, block.length = 2 ^ 32 :=
    ⟨List.replicate (2 ^ 32) 0, List.length_replicate⟩
  have hpayload : (⟨[0, 0, 0, 1, 4, 0, 0, 0, 1] ++ block⟩ : Frame).payload = block :=
    List.drop_left' rfl
  refine ⟨⟨[0, 0, 0, 1, 4, 0, 0, 0, 1] ++ block⟩, rfl, by rw [hpayload, hblock], fun h => ?_⟩
  refine not_writesBlock ?_ h.1
  simp [hblock]

end FrameWriter

end Http2

end QtBase
