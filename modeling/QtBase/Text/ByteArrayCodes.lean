import QtBase.Lib.Crc
import QtBase.Text.Utf8Char

/-! Checksums and percent-encoding of byte arrays. -/
namespace QtBase.QByteArray

/-! ## `qChecksum` -/

section Checksum

open Crc BitVec Function

inductive ChecksumType where
  | ChecksumIso3309
  | ChecksumItuV41

def crc_tbl : List (BitVec 16) := [
  0x0000, 0x1081, 0x2102, 0x3183,
  0x4204, 0x5285, 0x6306, 0x7387,
  0x8408, 0x9489, 0xa50a, 0xb58b,
  0xc60c, 0xd68d, 0xe70e, 0xf78f]

/-- `crc = ((crc >> 4) & 0x0fff) ^ crc_tbl[((crc ^ c) & 15)]` -/
def fourBits (crc : BitVec 16) (c : UInt8) : BitVec 16 :=
  ((crc >>> 4) &&& 0x0fff) ^^^ crc_tbl.getD ((crc ^^^ c.toBitVec.setWidth 16) &&& 15#16).toNat 0

def initial : ChecksumType → BitVec 16
  | .ChecksumIso3309 => 0xffff
  | .ChecksumItuV41 => 0x6363

def final : ChecksumType → BitVec 16 → BitVec 16
  | .ChecksumIso3309, crc => ~~~crc
  | .ChecksumItuV41, crc => crc

def qChecksum (data : List UInt8) (standard : ChecksumType) : BitVec 16 :=
  final standard
    (data.foldl (fun crc c => fourBits (fourBits crc c) (c >>> 4)) (initial standard)) &&& 0xffff

/-- The polynomial of CRC-16-CCITT, from its least bit. -/
def ccitt : BitVec 16 := 0x8408

theorem crc_tbl_eq : ∀ i < 16, crc_tbl.getD i 0 = (shift ccitt)^[4] (BitVec.ofNat 16 i) := by
  decide

theorem masks : ∀ i < 16, (15#16).getLsbD i = decide (i < 4) ∧
    (0xfff0#16).getLsbD i = !decide (i < 4) ∧
    (0x0fff#16).getLsbD i = (0xfff0#16).getLsbD (4 + i) := by
  decide

theorem fourBits_eq (crc : BitVec 16) (c : UInt8) :
    fourBits crc c = (shift ccitt)^[4] (crc ^^^ (c.toBitVec.setWidth 16 &&& 15#16)) := by
  have hsplit : crc ^^^ (c.toBitVec.setWidth 16 &&& 15#16) =
      (crc &&& 0xfff0#16) ^^^ ((crc ^^^ c.toBitVec.setWidth 16) &&& 15#16) := by
    apply eq_of_getLsbD_eq
    intro i hi
    obtain ⟨hlow, hhigh, -⟩ := masks i hi
    simp only [getLsbD_xor, getLsbD_and, hlow, hhigh]
    cases decide (i < 4) <;> simp
  have hhigh : (shift ccitt)^[4] (crc &&& 0xfff0#16) = (crc >>> 4) &&& 0x0fff#16 := by
    rw [iterate_shift_of_low]
    · apply eq_of_getLsbD_eq
      intro i hi
      simp only [getLsbD_ushiftRight, getLsbD_and, (masks i hi).2.2]
    · intro i hi
      rw [getLsbD_and, (masks i (by omega)).2.1, decide_eq_true hi]
      simp
  have hindex : ((crc ^^^ c.toBitVec.setWidth 16) &&& 15#16).toNat < 16 := by
    rw [BitVec.toNat_and]
    exact Nat.lt_of_le_of_lt Nat.and_le_right (by decide)
  rw [hsplit, iterate_shift_xor, hhigh, fourBits, crc_tbl_eq _ hindex, BitVec.ofNat_toNat,
    BitVec.setWidth_eq]
  rfl

theorem halves (c : UInt8) : ((c.toBitVec.setWidth 16 &&& 15#16) ^^^
      (((c >>> 4).toBitVec.setWidth 16 &&& 15#16) <<< 4) = c.toBitVec.setWidth 16) ∧
    (∀ i < 4, (((c >>> 4).toBitVec.setWidth 16 &&& 15#16) <<< 4).getLsbD i = false) ∧
    (((c >>> 4).toBitVec.setWidth 16 &&& 15#16) <<< 4) >>> 4 =
      (c >>> 4).toBitVec.setWidth 16 &&& 15#16 := by
  revert c
  exact uint8_all (by decide +kernel)

theorem fourBits_fourBits (crc : BitVec 16) (c : UInt8) : fourBits (fourBits crc c) (c >>> 4) =
    (shift ccitt)^[8] (crc ^^^ c.toBitVec.setWidth 16) := by
  obtain ⟨hsum, hlow, hhigh⟩ := halves c
  have hhigh' := (iterate_shift_of_low hlow : (shift ccitt)^[4] _ = _).trans hhigh
  rw [fourBits_eq, fourBits_eq, ← hhigh', ← iterate_shift_xor, ← iterate_add_apply,
    BitVec.xor_assoc, hsum]

theorem qChecksum_remainder (data : List UInt8) (standard : ChecksumType) :
    qChecksum data standard = final standard (remainder ccitt (initial standard) data) := by
  have hones : ∀ x : BitVec 16, x &&& 0xffff = x := fun x => BitVec.and_allOnes
  unfold qChecksum remainder
  rw [hones]
  simp only [fourBits_fourBits]

/-- The table divides as bit by bit, and a message may be cut anywhere. -/
theorem qChecksum_eq (front back : List UInt8) (standard : ChecksumType) :
    qChecksum (front ++ back) standard =
      final standard (remainder ccitt (remainder ccitt (initial standard) front) back) := by
  rw [qChecksum_remainder, remainder, List.foldl_append]
  rfl

theorem final_injective (standard : ChecksumType) : Injective (final standard) := by
  intro x y h
  cases standard with
  | ChecksumIso3309 => exact BitVec.not_inj.1 h
  | ChecksumItuV41 => exact h

theorem eq_of_remainder {crc : BitVec 16} {u v u' v' : UInt8}
    (h : remainder ccitt crc [u, v] = remainder ccitt crc [u', v']) : u = u' ∧ v = v' := by
  have hmsb : ccitt.msb = true := rfl
  have hshifted : ∀ v : UInt8, (shift ccitt)^[8] (v.toBitVec.setWidth 16 <<< 8) =
      v.toBitVec.setWidth 16 := by
    intro v
    rw [iterate_shift_of_low]
    · revert v
      exact uint8_all (by decide +kernel)
    · intro i hi
      rw [getLsbD_shiftLeft, decide_eq_true hi]
      simp
  have hpair : ∀ u v : UInt8, remainder ccitt crc [u, v] = (shift ccitt)^[8] ((shift ccitt)^[8]
      (crc ^^^ (u.toBitVec.setWidth 16 ^^^ (v.toBitVec.setWidth 16 <<< 8)))) := by
    intro u v
    rw [← BitVec.xor_assoc, iterate_shift_xor, hshifted]
    rfl
  rw [hpair, hpair] at h
  have hinj := (shift_injective hmsb).iterate 8
  have hsum := (BitVec.xor_right_inj _).1 (hinj (hinj h))
  have hu : u = u' := UInt8.toBitVec_inj.1 (by simpa using congrArg (BitVec.setWidth 8) hsum)
  rw [hu, BitVec.xor_right_inj] at hsum
  have hwide := congrArg (shift ccitt)^[8] hsum
  rw [hshifted, hshifted] at hwide
  exact ⟨hu, UInt8.toBitVec_inj.1 (by simpa using congrArg (BitVec.setWidth 8) hwide)⟩

/-- Two messages whose checksums agree do not differ in two neighbouring bytes alone. -/
theorem qChecksum_detects (front back : List UInt8) (u v u' v' : UInt8) (standard : ChecksumType) :
    qChecksum (front ++ u :: v :: back) standard = qChecksum (front ++ u' :: v' :: back) standard ↔
      u = u' ∧ v = v' := by
  have hsplit : ∀ crc u v, remainder ccitt crc (front ++ u :: v :: back) =
      remainder ccitt (remainder ccitt (remainder ccitt crc front) [u, v]) back := by
    intro crc u v
    unfold remainder
    rw [List.foldl_append]
    rfl
  rw [qChecksum_remainder, qChecksum_remainder, (final_injective standard).eq_iff, hsplit, hsplit]
  constructor
  · intro h
    exact eq_of_remainder (remainder_injective rfl back h)
  · rintro ⟨rfl, rfl⟩
    rfl

end Checksum

/-! ## Percent-encoding -/

/-- `QtMiscUtils::toHexUpper` -/
def toHexUpper (value : ℕ) : UInt8 :=
  [0x30, 0x31, 0x32, 0x33, 0x34, 0x35, 0x36, 0x37, 0x38, 0x39, 0x41, 0x42, 0x43, 0x44, 0x45,
    0x46].getD (value &&& 0xf) 0

/-- The bytes that are not encoded unless asked for. -/
def isUnreserved (c : UInt8) : Bool :=
  (c ≥ 0x61 && c ≤ 0x7A) || (c ≥ 0x41 && c ≤ 0x5A) || (c ≥ 0x30 && c ≤ 0x39) ||
    c == 0x2D || c == 0x2E || c == 0x5F || c == 0x7E

variable (exclude includes : List UInt8) (percent : UInt8)

def encodeByte (c : UInt8) : List UInt8 :=
  if c ≠ percent ∧ (isUnreserved c ∨ c ∈ exclude) ∧ c ∉ includes then [c]
  else [percent, toHexUpper ((c &&& 0xf0) >>> 4).toNat, toHexUpper (c &&& 0xf).toNat]

/-- Until a byte is encoded, the loop leaves the copy as it is. -/
def toPercentEncoding (data : List UInt8) : List UInt8 :=
  data.flatMap (encodeByte exclude includes percent)

/-- What is not a digit counts as it is. -/
def digitValue (a : UInt8) : UInt8 :=
  if a ≥ 0x30 ∧ a ≤ 0x39 then a - 0x30
  else if a ≥ 0x61 ∧ a ≤ 0x66 then a - 0x61 + 10
  else if a ≥ 0x41 ∧ a ≤ 0x46 then a - 0x41 + 10
  else a

/-- `q_fromPercentEncoding`: an escape that the end cuts short is text. -/
def percentDecoded : List UInt8 → List UInt8
  | [] => []
  | c :: a :: b :: input =>
    if c = percent then (digitValue a <<< 4 ||| digitValue b) :: percentDecoded input
    else c :: percentDecoded (a :: b :: input)
  | c :: input => c :: percentDecoded input

variable {exclude includes percent}

theorem percentDecoded_cons {c : UInt8} (h : c ≠ percent) (input : List UInt8) :
    percentDecoded percent (c :: input) = c :: percentDecoded percent input := by
  rcases input with _ | ⟨a, _ | ⟨b, input⟩⟩
  · rfl
  · rfl
  · rw [percentDecoded, if_neg h]

theorem percentDecoded_encodeByte (c : UInt8) (input : List UInt8) :
    percentDecoded percent (encodeByte exclude includes percent c ++ input) =
      c :: percentDecoded percent input := by
  have hdigits : ∀ c : UInt8, digitValue (toHexUpper ((c &&& 0xf0) >>> 4).toNat) <<< 4 |||
      digitValue (toHexUpper (c &&& 0xf).toNat) = c := uint8_all (by decide +kernel)
  unfold encodeByte
  split
  · rename_i h
    exact percentDecoded_cons h.1 input
  · show percentDecoded percent (percent :: _ :: _ :: input) = _
    rw [percentDecoded, if_pos rfl, hdigits]

/-- No choice of the bytes to encode, or of the escape character, loses a byte. -/
theorem percentDecoded_toPercentEncoding (exclude includes : List UInt8) (percent : UInt8)
    (data : List UInt8) :
    percentDecoded percent (toPercentEncoding exclude includes percent data) = data ∧
      ∀ c ∈ toPercentEncoding exclude includes percent data,
        c = percent ∨ isUnreserved c = true ∨ c ∈ exclude := by
  have hdigit : ∀ c : UInt8, isUnreserved (toHexUpper c.toNat) = true :=
    uint8_all (by decide +kernel)
  unfold toPercentEncoding
  induction data with
  | nil => exact ⟨rfl, by simp⟩
  | cons c data ih =>
    rw [List.flatMap_cons]
    constructor
    · rw [percentDecoded_encodeByte, ih.1]
    · intro d hd
      rcases List.mem_append.1 hd with hd | hd
      · unfold encodeByte at hd
        split at hd
        · rename_i h
          rw [List.mem_singleton.1 hd]
          exact .inr h.2.1
        · simp only [List.mem_cons, List.not_mem_nil, or_false] at hd
          rcases hd with rfl | rfl | rfl
          · exact .inl rfl
          · exact .inr (.inl (hdigit _))
          · exact .inr (.inl (hdigit _))
      · exact ih.2 d hd

end QtBase.QByteArray
