import Mathlib.Data.Int.Notation
import Mathlib.Tactic.Common

/-! HTTP/2 frames as they are read from a socket: nine bytes of header, then the payload. -/
namespace QtBase

open Option UInt32

namespace Http2

inductive FrameType
  | DATA | HEADERS | PRIORITY | RST_STREAM | SETTINGS | PUSH_PROMISE | PING | GOAWAY
  | WINDOW_UPDATE | CONTINUATION | LAST_FRAME_TYPE
  deriving DecidableEq

inductive FrameStatus
  | protocolError | sizeError | incompleteFrame | goodFrame
  deriving DecidableEq

namespace FrameFlag

def ACK : UInt8 := 0x1
def END_STREAM : UInt8 := 0x1
def END_HEADERS : UInt8 := 0x4
def PADDED : UInt8 := 0x8
def PRIORITY : UInt8 := 0x20

end FrameFlag

/-- `QFlags::testFlag`. -/
def testFlag (flags flag : UInt8) : Bool := flags &&& flag == flag

def frameHeaderSize : ℕ := 9

def maxPayloadSize : UInt32 := 0xffffff

/-- `qFromBigEndian<quint32>`. -/
def qFromBigEndian32 : List UInt8 → UInt32
  | a :: b :: c :: d :: _ =>
    a.toUInt32 <<< 24 ||| b.toUInt32 <<< 16 ||| c.toUInt32 <<< 8 ||| d.toUInt32
  | _ => 0

/-- `qFromBigEndian<quint16>`. -/
def qFromBigEndian16 : List UInt8 → UInt16
  | a :: b :: _ => a.toUInt16 <<< 8 ||| b.toUInt16
  | _ => 0

structure Frame where
  buffer : List UInt8
  deriving DecidableEq

namespace Frame

variable (f : Frame)

def type : FrameType := match (f.buffer.getD 3 0).toNat with
  | 0 => .DATA
  | 1 => .HEADERS
  | 2 => .PRIORITY
  | 3 => .RST_STREAM
  | 4 => .SETTINGS
  | 5 => .PUSH_PROMISE
  | 6 => .PING
  | 7 => .GOAWAY
  | 8 => .WINDOW_UPDATE
  | 9 => .CONTINUATION
  | _ => .LAST_FRAME_TYPE

def streamID : UInt32 := qFromBigEndian32 (f.buffer.drop 5)

def flags : UInt8 := f.buffer.getD 4 0

def payloadSize : UInt32 :=
  (f.buffer.getD 0 0).toUInt32 <<< 16 ||| (f.buffer.getD 1 0).toUInt32 <<< 8 |||
    (f.buffer.getD 2 0).toUInt32

/-- The bytes behind the header. -/
def payload : List UInt8 := f.buffer.drop frameHeaderSize

/-- The header is there, and as many bytes behind it as it says. -/
def Complete : Prop := f.buffer.length = frameHeaderSize + f.payloadSize.toNat

def padding : UInt8 :=
  if testFlag f.flags FrameFlag.PADDED then
    match f.type with
    | .DATA => f.payload.headD 0
    | .PUSH_PROMISE => f.payload.headD 0
    | .HEADERS => f.payload.headD 0
    | _ => 0
  else 0

/-- Whether there is a stream dependency and a weight, which `priority` then returns. -/
def priority : Bool :=
  if f.buffer.length ≤ frameHeaderSize then false
  else f.type = .HEADERS && testFlag f.flags FrameFlag.PRIORITY || f.type = .PRIORITY

def validateHeader : FrameStatus :=
  let framePayloadSize := f.payloadSize
  if framePayloadSize > maxPayloadSize then .sizeError
  else match f.type with
    | .SETTINGS =>
      if (if testFlag f.flags FrameFlag.ACK then framePayloadSize else framePayloadSize % 6) ≠ 0 then
        .sizeError
      else .goodFrame
    | .PRIORITY => if framePayloadSize ≠ 5 then .sizeError else .goodFrame
    | .PING => if framePayloadSize ≠ 8 then .sizeError else .goodFrame
    | .GOAWAY => if framePayloadSize < 8 then .sizeError else .goodFrame
    | .RST_STREAM => if framePayloadSize ≠ 4 then .sizeError else .goodFrame
    | .WINDOW_UPDATE => if framePayloadSize ≠ 4 then .sizeError else .goodFrame
    | .PUSH_PROMISE => if framePayloadSize < 4 then .sizeError else .goodFrame
    | _ => .goodFrame

/-- What is left of the payload's size, or nothing if it is too small for the padding. -/
def withoutPadding : Option UInt32 :=
  let size := f.payloadSize
  if testFlag f.flags FrameFlag.PADDED then
    if size = 0 ∨ size < (f.payload.headD 0).toUInt32 then none
    else some (size - (f.payload.headD 0).toUInt32)
  else some size

def validatePayload : FrameStatus := match f.type with
  | .DATA => match f.withoutPadding with
    | none => .sizeError
    | some _ => .goodFrame
  | .HEADERS => match f.withoutPadding with
    | none => .sizeError
    | some size =>
      if testFlag f.flags FrameFlag.PRIORITY && size < 5 then .sizeError else .goodFrame
  | .PUSH_PROMISE => match f.withoutPadding with
    | none => .sizeError
    | some size => if size < 4 then .sizeError else .goodFrame
  | _ => .goodFrame

/-- The payload's bytes without padding and priority. -/
def dataSize : UInt32 :=
  let size := f.payloadSize
  let size := if testFlag f.flags FrameFlag.PADDED then size - (f.padding.toUInt32 + 1) else size
  if f.priority then size - 5 else size

def hpackBlockSize : UInt32 :=
  let size := f.dataSize
  if f.type = .PUSH_PROMISE then size - 4 else size

/-- A position in the payload, or null if that is empty. -/
def dataBegin : Option ℕ :=
  if f.buffer.length ≤ frameHeaderSize then none
  else
    let src := 0
    let src := if testFlag f.flags FrameFlag.PADDED then src + 1 else src
    some (if f.priority then src + 5 else src)

def hpackBlockBegin : Option ℕ :=
  if f.type = .PUSH_PROMISE then f.dataBegin.map (· + 4) else f.dataBegin

/-- The bytes that `dataBegin` and `dataSize` tell. -/
def data : List UInt8 := (f.payload.drop (f.dataBegin.getD 0)).take f.dataSize.toNat

/-- The bytes that `hpackBlockBegin` and `hpackBlockSize` tell. -/
def hpackBlock : List UInt8 := (f.payload.drop (f.hpackBlockBegin.getD 0)).take f.hpackBlockSize.toNat

/-! ## Views of the payload -/

/-- What stands before and behind the data of a frame, padding included. -/
def overhead : ℕ :=
  (if testFlag f.flags FrameFlag.PADDED then f.padding.toNat + 1 else 0) + if f.priority then 5 else 0

def hasHpackBlock : Bool := f.type = .HEADERS || f.type = .PUSH_PROMISE || f.type = .CONTINUATION

def definesPadding : Bool := f.type = .DATA || f.type = .HEADERS || f.type = .PUSH_PROMISE

/-- A size that is not the difference of integers has underflown. -/
structure ViewsInRange : Prop where
  dataSize_eq : (f.dataSize.toNat : ℤ) = f.payloadSize.toNat - f.overhead
  data_le : f.dataBegin.getD 0 + f.dataSize.toNat ≤ f.payload.length
  hpackBlockSize_eq : f.hasHpackBlock = true → (f.hpackBlockSize.toNat : ℤ) =
    f.payloadSize.toNat - f.overhead - if f.type = .PUSH_PROMISE then 4 else 0
  hpackBlock_le : f.hasHpackBlock = true →
    f.hpackBlockBegin.getD 0 + f.hpackBlockSize.toNat ≤ f.payload.length
  data_end : f.definesPadding = true →
    f.dataBegin.getD 0 + f.dataSize.toNat + f.padding.toNat = f.payload.length
  hpackBlock_end : f.type = .HEADERS ∨ f.type = .PUSH_PROMISE →
    f.hpackBlockBegin.getD 0 + f.hpackBlockSize.toNat + f.padding.toNat = f.payload.length
  settings : f.type = .SETTINGS → f.dataSize.toNat % 6 = 0

/-- The padding leaves room for its own length and for the fields of the type. A type that has no
padding has no such length either, but the flag takes one byte from its data. -/
def PaddingFits : Prop := testFlag f.flags FrameFlag.PADDED = true → match f.type with
  | .DATA => f.padding.toNat + 1 ≤ f.payloadSize.toNat
  | .HEADERS => f.padding.toNat + 1 +
      (if testFlag f.flags FrameFlag.PRIORITY then 5 else 0) ≤ f.payloadSize.toNat
  | .PUSH_PROMISE => f.padding.toNat + 1 + 4 ≤ f.payloadSize.toNat
  | .CONTINUATION => 1 ≤ f.payloadSize.toNat
  | .PRIORITY => False
  | .SETTINGS => False
  | _ => True

variable {f}

theorem length_payload (h : f.Complete) : f.payload.length = f.payloadSize.toNat := by
  unfold Complete at h
  unfold payload
  simp [h]

theorem payloadSize_le (h : f.validateHeader = .goodFrame) : f.payloadSize.toNat ≤ 0xffffff := by
  unfold validateHeader at h
  by_cases hsize : f.payloadSize > maxPayloadSize
  · simp only [if_pos hsize] at h
    cases h
  · rw [gt_iff_lt, lt_iff_toNat_lt] at hsize
    exact Nat.le_of_not_lt hsize

theorem settings_size (h : f.validateHeader = .goodFrame) (htype : f.type = .SETTINGS) :
    f.payloadSize.toNat % 6 = 0 := by
  unfold validateHeader at h
  rw [htype] at h
  by_cases hsize : f.payloadSize > maxPayloadSize
  · simp only [if_pos hsize] at h
    cases h
  · simp only [if_neg hsize] at h
    by_cases hack : testFlag f.flags FrameFlag.ACK = true
    · rw [if_pos hack] at h
      by_cases hzero : f.payloadSize = 0
      · rw [hzero]
        rfl
      · rw [if_pos hzero] at h
        cases h
    · rw [if_neg hack] at h
      by_cases hzero : f.payloadSize % 6 = 0
      · have hmod := congrArg UInt32.toNat hzero
        rw [UInt32.toNat_mod] at hmod
        exact hmod
      · rw [if_pos hzero] at h
        cases h

theorem priority_size (h : f.validateHeader = .goodFrame) (htype : f.type = .PRIORITY) :
    f.payloadSize.toNat = 5 := by
  unfold validateHeader at h
  rw [htype] at h
  by_cases hsize : f.payloadSize > maxPayloadSize
  · simp only [if_pos hsize] at h
    cases h
  · simp only [if_neg hsize] at h
    by_cases hfive : f.payloadSize = 5
    · rw [hfive]
      rfl
    · rw [if_pos hfive] at h
      cases h

theorem control_size (h : f.validateHeader = .goodFrame) (htype : f.type = .RST_STREAM ∨
    f.type = .PING ∨ f.type = .GOAWAY ∨ f.type = .WINDOW_UPDATE) : 4 ≤ f.payloadSize.toNat := by
  unfold validateHeader at h
  by_cases hsize : f.payloadSize > maxPayloadSize
  · simp only [if_pos hsize] at h
    cases h
  · simp only [if_neg hsize] at h
    by_contra hlt
    rcases htype with htype | htype | htype | htype
    · rw [htype] at h
      have hne : f.payloadSize ≠ 4 := fun heq => hlt (by rw [heq]; decide)
      simp only [if_pos hne] at h
      cases h
    · rw [htype] at h
      have hne : f.payloadSize ≠ 8 := fun heq => hlt (by rw [heq]; decide)
      simp only [if_pos hne] at h
      cases h
    · rw [htype] at h
      have hless : f.payloadSize < 8 := by
        rw [lt_iff_toNat_lt]
        show _ < 8
        omega
      simp only [if_pos hless] at h
      cases h
    · rw [htype] at h
      have hne : f.payloadSize ≠ 4 := fun heq => hlt (by rw [heq]; decide)
      simp only [if_pos hne] at h
      cases h

theorem dataSize_of_le (h : f.overhead ≤ f.payloadSize.toNat) :
    f.dataSize.toNat = f.payloadSize.toNat - f.overhead := by
  have hpad := f.padding.toNat_lt
  unfold overhead at h ⊢
  unfold dataSize
  simp only
  by_cases hpadded : testFlag f.flags FrameFlag.PADDED = true
  · by_cases hpriority : f.priority = true
    · simp only [if_pos hpadded, if_pos hpriority, UInt32.toNat_sub, UInt32.toNat_add,
        UInt8.toNat_toUInt32, UInt32.toNat_ofNat] at h ⊢
      have hlt := f.payloadSize.toNat_lt
      omega
    · simp only [if_pos hpadded, if_neg hpriority, UInt32.toNat_sub, UInt32.toNat_add,
        UInt8.toNat_toUInt32, UInt32.toNat_ofNat] at h ⊢
      have hlt := f.payloadSize.toNat_lt
      omega
  · by_cases hpriority : f.priority = true
    · simp only [if_neg hpadded, if_pos hpriority, UInt32.toNat_sub, UInt32.toNat_ofNat] at h ⊢
      have hlt := f.payloadSize.toNat_lt
      omega
    · simp [hpadded, hpriority]

theorem padding_eq_zero (h : ¬ testFlag f.flags FrameFlag.PADDED = true) : f.padding = 0 := by
  unfold padding
  rw [if_neg h]

theorem dataBegin_eq (hcomplete : f.Complete) (h : f.overhead ≤ f.payloadSize.toNat) :
    f.dataBegin.getD 0 = f.overhead - f.padding.toNat := by
  unfold Complete at hcomplete
  unfold dataBegin overhead at *
  by_cases hempty : f.buffer.length ≤ frameHeaderSize
  · rw [if_pos hempty]
    show 0 = _
    omega
  · rw [if_neg hempty, getD_some]
    by_cases hpadded : testFlag f.flags FrameFlag.PADDED = true
    · rw [if_pos hpadded, if_pos hpadded]
      split <;> omega
    · rw [if_neg hpadded, if_neg hpadded, padding_eq_zero hpadded]
      show _ = _ - 0
      split <;> omega

theorem padding_le_overhead : f.padding.toNat ≤ f.overhead := by
  unfold overhead
  by_cases hpadded : testFlag f.flags FrameFlag.PADDED = true
  · rw [if_pos hpadded]
    omega
  · rw [padding_eq_zero hpadded]
    exact Nat.zero_le _

/-- The promised stream's id before the block of a `PUSH_PROMISE`. -/
def promised (f : Frame) : ℕ := if f.type = .PUSH_PROMISE then 4 else 0

theorem hpackBlockSize_of_le (h : f.overhead + f.promised ≤ f.payloadSize.toNat) :
    f.hpackBlockSize.toNat = f.payloadSize.toNat - f.overhead - f.promised := by
  have hdata := dataSize_of_le (Nat.le_trans (Nat.le_add_right _ _) h)
  unfold hpackBlockSize promised at *
  by_cases hpush : f.type = .PUSH_PROMISE
  · simp only [if_pos hpush] at h ⊢
    rw [UInt32.toNat_sub_of_le _ _ (UInt32.le_iff_toNat_le.mpr (by
      rw [hdata]
      show 4 ≤ _
      omega)), hdata]
    rfl
  · simp [hpush, hdata]

theorem hpackBlockBegin_eq (hcomplete : f.Complete)
    (h : f.overhead + f.promised ≤ f.payloadSize.toNat) :
    f.hpackBlockBegin.getD 0 = f.overhead - f.padding.toNat + f.promised := by
  have hdata := dataBegin_eq hcomplete (Nat.le_trans (Nat.le_add_right _ _) h)
  unfold hpackBlockBegin promised at *
  by_cases hpush : f.type = .PUSH_PROMISE
  · simp only [if_pos hpush] at h ⊢
    unfold Complete at hcomplete
    have hsome : f.dataBegin.isSome = true := by
      unfold dataBegin
      rw [if_neg (by omega)]
      rfl
    have ⟨start, hstart⟩ := isSome_iff_exists.mp hsome
    rw [hstart] at hdata ⊢
    rw [getD_some] at hdata
    rw [map_some, getD_some, hdata]
  · simp [hpush, hdata]

theorem viewsInRange_iff_le (hcomplete : f.Complete) : f.ViewsInRange ↔
    f.overhead + f.promised ≤ f.payloadSize.toNat ∧
      (f.type = .SETTINGS → (f.payloadSize.toNat - f.overhead) % 6 = 0) := by
  have hlen := length_payload hcomplete
  have hpad := @padding_le_overhead f
  constructor
  · intro h
    have hdata := h.dataSize_eq
    have hle : f.overhead ≤ f.payloadSize.toNat := by omega
    constructor
    · by_cases hpush : f.type = .PUSH_PROMISE
      · have hblock := h.hpackBlockSize_eq (by unfold hasHpackBlock; rw [hpush]; rfl)
        unfold promised
        rw [if_pos hpush] at hblock ⊢
        omega
      · unfold promised
        rw [if_neg hpush]
        omega
    · intro hsettings
      rw [← dataSize_of_le hle]
      exact h.settings hsettings
  · intro ⟨h, hsettings⟩
    have hle : f.overhead ≤ f.payloadSize.toNat := by omega
    have hsize := dataSize_of_le hle
    have hbegin := dataBegin_eq hcomplete hle
    have hblockSize := hpackBlockSize_of_le h
    have hblockBegin := hpackBlockBegin_eq hcomplete h
    constructor
    · omega
    · omega
    · intro _
      show _ = _ - _ - _
      have hpromised : ((if f.type = .PUSH_PROMISE then 4 else 0 : ℤ)) = (f.promised : ℤ) := by
        unfold promised
        split <;> rfl
      omega
    · intro _
      omega
    · intro _
      omega
    · intro _
      omega
    · intro htype
      rw [hsize]
      exact hsettings htype

theorem withoutPadding_le {size : UInt32} (h : f.withoutPadding = some size) :
    size.toNat ≤ f.payloadSize.toNat := by
  unfold withoutPadding at h
  simp only at h
  by_cases hpadded : testFlag f.flags FrameFlag.PADDED = true
  · rw [if_pos hpadded] at h
    by_cases hsmall : f.payloadSize = 0 ∨ f.payloadSize < (f.payload.headD 0).toUInt32
    · rw [if_pos hsmall] at h
      cases h
    · rw [if_neg hsmall, some.injEq] at h
      rw [not_or, UInt32.not_lt] at hsmall
      rw [← h, UInt32.toNat_sub_of_le _ _ hsmall.2]
      exact Nat.sub_le _ _
  · rw [if_neg hpadded, some.injEq] at h
    exact Nat.le_of_eq (congrArg UInt32.toNat h.symm)

theorem priority_eq_false (hheaders : f.type ≠ .HEADERS) (hpriority : f.type ≠ .PRIORITY) :
    f.priority = false := by
  unfold priority
  rw [decide_eq_false hheaders, decide_eq_false hpriority]
  split <;> rfl

theorem priority_eq_flag (hcomplete : f.Complete) (hheaders : f.type = .HEADERS)
    (h : testFlag f.flags FrameFlag.PRIORITY = true → 0 < f.payloadSize.toNat) :
    f.priority = testFlag f.flags FrameFlag.PRIORITY := by
  unfold Complete at hcomplete
  unfold priority
  rw [hheaders]
  by_cases hflag : testFlag f.flags FrameFlag.PRIORITY = true
  · have hpos := h hflag
    rw [if_neg (by omega), hflag]
    rfl
  · rw [Bool.not_eq_true] at hflag
    rw [hflag]
    split <;> rfl

theorem priority_eq_true (hcomplete : f.Complete) (hpriority : f.type = .PRIORITY)
    (h : 0 < f.payloadSize.toNat) : f.priority = true := by
  unfold Complete at hcomplete
  unfold priority
  rw [hpriority, if_neg (by omega)]
  rfl

/-- What the fields of the type take from the payload, besides the padding. -/
def fields (f : Frame) : ℕ := match f.type with
  | .HEADERS => if testFlag f.flags FrameFlag.PRIORITY then 5 else 0
  | .PRIORITY => 5
  | .PUSH_PROMISE => 4
  | _ => 0

/-- A payload that has been found good has room for the fields of its type, and for padding behind
them, but not always for the length of the padding. -/
theorem fields_le (hheader : f.validateHeader = .goodFrame) (hpayload : f.validatePayload = .goodFrame) :
    f.fields ≤ f.payloadSize.toNat := by
  unfold fields
  unfold validatePayload at hpayload
  cases htype : f.type with
  | HEADERS =>
    rw [htype] at hpayload
    simp only at hpayload ⊢
    by_cases hflag : testFlag f.flags FrameFlag.PRIORITY = true
    · rw [if_pos hflag]
      cases hsize : f.withoutPadding with
      | none =>
        rw [hsize] at hpayload
        cases hpayload
      | some size =>
        rw [hsize] at hpayload
        simp only [hflag, Bool.true_and, decide_eq_true_iff] at hpayload
        have hfive : ¬ size < 5 := by
          intro hlt
          rw [if_pos hlt] at hpayload
          cases hpayload
        have hle := withoutPadding_le hsize
        rw [lt_iff_toNat_lt] at hfive
        change ¬ size.toNat < 5 at hfive
        omega
    · simp [hflag]
  | PUSH_PROMISE =>
    rw [htype] at hpayload
    simp only at hpayload ⊢
    cases hsize : f.withoutPadding with
    | none =>
      rw [hsize] at hpayload
      cases hpayload
    | some size =>
      rw [hsize] at hpayload
      simp only at hpayload
      have hfour : ¬ size < 4 := by
        intro hlt
        rw [if_pos hlt] at hpayload
        cases hpayload
      have hle := withoutPadding_le hsize
      rw [lt_iff_toNat_lt] at hfour
      change ¬ size.toNat < 4 at hfour
      omega
  | PRIORITY => exact Nat.le_of_eq (priority_size hheader htype).symm
  | DATA => exact Nat.zero_le _
  | RST_STREAM => exact Nat.zero_le _
  | SETTINGS => exact Nat.zero_le _
  | PING => exact Nat.zero_le _
  | GOAWAY => exact Nat.zero_le _
  | WINDOW_UPDATE => exact Nat.zero_le _
  | CONTINUATION => exact Nat.zero_le _
  | LAST_FRAME_TYPE => exact Nat.zero_le _

theorem overhead_add_promised (hcomplete : f.Complete) (h : f.fields ≤ f.payloadSize.toNat) :
    f.overhead + f.promised =
      (if testFlag f.flags FrameFlag.PADDED then f.padding.toNat + 1 else 0) + f.fields := by
  unfold overhead promised
  unfold fields at h ⊢
  by_cases hheaders : f.type = .HEADERS
  · rw [hheaders] at h ⊢
    have hpos : testFlag f.flags FrameFlag.PRIORITY = true → 0 < f.payloadSize.toNat := by
      intro hflag
      simp only [if_pos hflag] at h
      omega
    rw [priority_eq_flag hcomplete hheaders hpos]
    rfl
  · by_cases hpriority : f.type = .PRIORITY
    · rw [hpriority] at h ⊢
      have hpos : 0 < f.payloadSize.toNat := Nat.lt_of_lt_of_le (Nat.succ_pos 4) h
      rw [priority_eq_true hcomplete hpriority hpos]
      rfl
    · rw [priority_eq_false hheaders hpriority]
      cases htype : f.type with
      | HEADERS => exact absurd htype hheaders
      | PRIORITY => exact absurd htype hpriority
      | DATA => rfl
      | RST_STREAM => rfl
      | SETTINGS => rfl
      | PUSH_PROMISE => rfl
      | PING => rfl
      | GOAWAY => rfl
      | WINDOW_UPDATE => rfl
      | CONTINUATION => rfl
      | LAST_FRAME_TYPE => rfl

theorem overhead_settings (htype : f.type = .SETTINGS) :
    f.overhead = if testFlag f.flags FrameFlag.PADDED then 1 else 0 := by
  unfold overhead padding
  rw [htype, priority_eq_false (by rw [htype]; decide) (by rw [htype]; decide)]
  split <;> rfl

theorem padding_of_other (h : f.definesPadding = false) : f.padding.toNat = 0 := by
  unfold definesPadding at h
  unfold padding
  split
  · cases htype : f.type with
    | DATA =>
      rw [htype] at h
      cases h
    | HEADERS =>
      rw [htype] at h
      cases h
    | PUSH_PROMISE =>
      rw [htype] at h
      cases h
    | _ => rfl
  · rfl

/-- The views of a frame that has been found good are in range exactly if its padding fits. -/
theorem viewsInRange_iff (hcomplete : f.Complete) (htype : f.type ≠ .LAST_FRAME_TYPE)
    (hheader : f.validateHeader = .goodFrame) (hpayload : f.validatePayload = .goodFrame) :
    f.ViewsInRange ↔ f.PaddingFits := by
  have hfields := fields_le hheader hpayload
  have hsettings := @overhead_settings f
  have hsize := settings_size hheader
  have hpriority := priority_size hheader
  have hother := @padding_of_other f
  have hcontrol := control_size hheader
  rw [viewsInRange_iff_le hcomplete, overhead_add_promised hcomplete hfields]
  unfold PaddingFits
  by_cases hpadded : testFlag f.flags FrameFlag.PADDED = true
  · rw [if_pos hpadded] at hsettings ⊢
    rw [hpadded, eq_self, true_implies]
    unfold definesPadding at hother
    unfold fields
    cases hcase : f.type with
    | LAST_FRAME_TYPE => exact absurd hcase htype
    | SETTINGS =>
      -- one byte is taken from a multiple of 6
      have hover := hsettings hcase
      have hmod := hsize hcase
      simp only [hover, true_implies, iff_false, not_and]
      omega
    | PRIORITY =>
      have hfive := hpriority hcase
      simp only [iff_false, not_and]
      omega
    | DATA => simp
    | HEADERS => simp
    | PUSH_PROMISE => simp
    | CONTINUATION =>
      rw [hcase] at hother
      simp [hother rfl]
    | RST_STREAM =>
      have hfour := hcontrol (.inl hcase)
      rw [hcase] at hother
      rw [hother rfl]
      simp only [iff_true]
      refine ⟨by omega, fun h => by cases h⟩
    | PING =>
      have hfour := hcontrol (.inr (.inl hcase))
      rw [hcase] at hother
      rw [hother rfl]
      simp only [iff_true]
      refine ⟨by omega, fun h => by cases h⟩
    | GOAWAY =>
      have hfour := hcontrol (.inr (.inr (.inl hcase)))
      rw [hcase] at hother
      rw [hother rfl]
      simp only [iff_true]
      refine ⟨by omega, fun h => by cases h⟩
    | WINDOW_UPDATE =>
      have hfour := hcontrol (.inr (.inr (.inr hcase)))
      rw [hcase] at hother
      rw [hother rfl]
      simp only [iff_true]
      refine ⟨by omega, fun h => by cases h⟩
  · rw [if_neg hpadded] at hsettings ⊢
    constructor
    · intro _ h
      exact absurd h hpadded
    · intro _
      refine ⟨by omega, ?_⟩
      intro htype
      rw [hsettings htype]
      exact hsize htype

/-- `DATA` with four bytes, the last two of them padding. -/
def padded : Frame := ⟨[0, 0, 5, 0x0, 0x8, 0, 0, 0, 1, 2, 0x61, 0x62, 0, 0]⟩

theorem viewsInRange_iff_padded : padded.Complete ∧ padded.type ≠ .LAST_FRAME_TYPE ∧
    padded.validateHeader = .goodFrame ∧ padded.validatePayload = .goodFrame ∧
    (padded.ViewsInRange ↔ padded.PaddingFits) ∧ padded.PaddingFits := by
  have hcomplete : padded.Complete := by
    unfold Complete
    decide
  have hfits : padded.PaddingFits := by
    intro _
    show 2 + 1 ≤ 5
    decide
  exact ⟨hcomplete, by decide, by decide, by decide,
    viewsInRange_iff hcomplete (by decide) (by decide) (by decide), hfits⟩

/-- `DATA` with nothing but the length of a padding that is not there. -/
def onlyPadLength : Frame := ⟨[0, 0, 1, 0x0, 0x8, 0, 0, 0, 1, 1]⟩

/-- The padding's length is as large as the payload, and the size of the data underflows. -/
theorem viewsInRange_onlyPadLength : onlyPadLength.Complete ∧
    onlyPadLength.type ≠ .LAST_FRAME_TYPE ∧ onlyPadLength.validateHeader = .goodFrame ∧
    onlyPadLength.validatePayload = .goodFrame ∧ onlyPadLength.dataSize = 0xffffffff ∧
    ¬ onlyPadLength.ViewsInRange := by
  have hcomplete : onlyPadLength.Complete := by
    unfold Complete
    decide
  refine ⟨hcomplete, by decide, by decide, by decide, by decide, ?_⟩
  intro h
  have hle : 1 + 4294967295 ≤ 1 := h.data_le
  exact absurd hle (by decide)

end Frame

end Http2

end QtBase
