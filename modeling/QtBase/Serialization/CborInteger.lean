import QtBase.Lib.Binary64
import Mathlib.Data.List.Induction

/-! Integers in CBOR: the head of an item, `QCborStreamReader`'s view of it, and the element that
`decodeBasicValueFromCbor` makes of it. -/
namespace QtBase

open List UInt64

namespace CborInteger

open Lib

/-- The types of integers in `QCborStreamReader::Type`. -/
inductive ReaderType
  | UnsignedInteger
  | NegativeInteger
  deriving DecidableEq

/-- What the reader keeps of the current item. -/
structure QCborStreamReader where
  type : ReaderType
  value64 : UInt64

/-- `QtCbor::Element`, with its value by its type. -/
inductive Element
  | Integer (value : ℤ)
  | Double (value : Lib.Double)

/-- `qint64(v)` -/
def qint64 (v : UInt64) : ℤ := (v.toNat : ℤ).bmod (2 ^ 64)

def ofBigEndian (bytes : List UInt8) : ℕ := bytes.foldl (fun n b => n * 256 + b.toNat) 0

/-! ## Reading -/

/-- `preparse_value` and `preparse` for the two types of integers; nothing for other items and at an
early end. -/
def preparse (bytes : List UInt8) : Option QCborStreamReader :=
  match bytes with
  | [] => none
  | b :: rest =>
    let type := b.toNat / 32 * 32
    let descriptor := b.toNat % 32
    if descriptor > 27 then none
    else
      let bytesNeeded := if descriptor < 24 then 0 else 1 <<< (descriptor - 24)
      if rest.length < bytesNeeded then none
      else
        let value :=
          if bytesNeeded = 0 then descriptor else ofBigEndian (rest.take bytesNeeded)
        if type = 0x00 then some ⟨.UnsignedInteger, UInt64.ofNat value⟩
        else if type = 0x20 then some ⟨.NegativeInteger, UInt64.ofNat value⟩
        else none

namespace QCborStreamReader

variable (reader : QCborStreamReader)

def toUnsignedInteger : UInt64 := reader.value64

/-- The absolute value; 0 stands for the number below all others. -/
def toNegativeInteger : UInt64 := reader.value64 + 1

def toInteger : ℤ :=
  let v := qint64 reader.value64
  match reader.type with
  | .NegativeInteger => (-v - 1).bmod (2 ^ 64)
  | .UnsignedInteger => v

end QCborStreamReader

/-- `double(0)`, which stands for "in range". -/
def inRange : Lib.Double := Lib.Double.ofUInt64 0

def integerOutOfRange (reader : QCborStreamReader) : Lib.Double :=
  match reader.type with
  | .UnsignedInteger =>
    let v := reader.toUnsignedInteger
    if qint64 v < 0 then Double.ofUInt64 v else inRange
  | .NegativeInteger =>
    let v := reader.toNegativeInteger
    if qint64 (v - 1) < 0 then (Double.ofUInt64 v).neg else inRange

/-- The branch of the integers. -/
def decodeBasicValueFromCbor (reader : QCborStreamReader) : Element :=
  let d := integerOutOfRange reader
  if ¬ d.IsZero then .Double d else .Integer reader.toInteger

/-! ## What is meant -/

/-- The bytes that may stand for a number: any of the five lengths that can hold it. -/
inductive Head (major : UInt8) : ℕ → List UInt8 → Prop
  | small {n : ℕ} (h : n < 24) : Head major n [major + UInt8.ofNat n]
  | bytes {n : ℕ} (k : ℕ) (hk : k < 4) {digits : List UInt8} (hlength : digits.length = 2 ^ k)
      (h : ofBigEndian digits = n) : Head major n ((major + UInt8.ofNat (24 + k)) :: digits)

/-- The number of a type of integers with an argument. -/
def number (type : ReaderType) (n : ℕ) : ℤ := match type with
  | .UnsignedInteger => n
  | .NegativeInteger => -1 - n

def majorOf : ReaderType → UInt8
  | .UnsignedInteger => 0x00
  | .NegativeInteger => 0x20

def Fits (x : ℤ) : Prop := -2 ^ 63 ≤ x ∧ x < 2 ^ 63

/-- The element is the number if it fits in 64 bits, and the nearest double otherwise. -/
inductive Holds (x : ℤ) : Element → Prop
  | integer (h : Fits x) : Holds x (.Integer x)
  | double {d : Lib.Double} (h : ¬ Fits x) (hrounds : Double.Rounds x d) : Holds x (.Double d)

theorem ofBigEndian_lt (bytes : List UInt8) : ofBigEndian bytes < 256 ^ bytes.length := by
  unfold ofBigEndian
  induction bytes using List.reverseRecOn with
  | nil => exact Nat.one_pos
  | append_singleton bytes b ih =>
    rw [foldl_append, length_append, length_singleton, Nat.pow_succ, foldl_cons,
      foldl_nil]
    have hb := b.toNat_lt
    omega

theorem Head.lt {major : UInt8} {n : ℕ} {bytes : List UInt8} (h : Head major n bytes) :
    n < 2 ^ 64 := by
  cases h with
  | small h => omega
  | bytes k hk hlength h =>
    rename_i digits
    have hlt := ofBigEndian_lt digits
    have hle : 256 ^ digits.length ≤ 256 ^ 8 := by
      refine Nat.pow_le_pow_right (by decide) ?_
      rw [hlength]
      exact Nat.pow_le_pow_right (by decide) (show k ≤ 3 by omega)
    omega

theorem first_toNat (type : ReaderType) {m : ℕ} (hm : m < 32) :
    (majorOf type + UInt8.ofNat m).toNat = (majorOf type).toNat + m := by
  have hmajor : (majorOf type).toNat ≤ 0x20 := by cases type <;> decide
  rw [UInt8.toNat_add, UInt8.toNat_ofNat']
  omega

theorem preparse_head {type : ReaderType} {n : ℕ} {bytes : List UInt8}
    (h : Head (majorOf type) n bytes) (rest : List UInt8) :
    preparse (bytes ++ rest) = some ⟨type, ofNat n⟩ := by
  have hmajor : (majorOf type).toNat = 0x00 ∨ (majorOf type).toNat = 0x20 := by
    cases type <;> decide
  have hresult (value : ℕ) : (if (majorOf type).toNat = 0x00 then
      some (⟨.UnsignedInteger, ofNat value⟩ : QCborStreamReader)
      else if (majorOf type).toNat = 0x20 then some ⟨.NegativeInteger, ofNat value⟩
      else none) = some ⟨type, ofNat value⟩ := by
    cases type <;> rfl
  cases h with
  | small hn =>
    unfold preparse
    dsimp only [cons_append, nil_append]
    have hdescriptor : ((majorOf type).toNat + n) % 32 = n := by omega
    have htype : ((majorOf type).toNat + n) / 32 * 32 = (majorOf type).toNat := by omega
    rw [first_toNat type (by omega), hdescriptor, htype, if_neg (by omega), if_pos hn,
      if_neg (Nat.not_lt_zero _), if_pos rfl]
    exact hresult n
  | bytes k hk hlength hvalue =>
    rename_i digits
    unfold preparse
    dsimp only [cons_append]
    have hdescriptor : ((majorOf type).toNat + (24 + k)) % 32 = 24 + k := by omega
    have htype : ((majorOf type).toNat + (24 + k)) / 32 * 32 = (majorOf type).toNat := by omega
    have hneeded : (if 24 + k < 24 then 0 else 1 <<< (24 + k - 24)) = digits.length := by
      rw [if_neg (by omega), Nat.one_shiftLeft, Nat.add_sub_cancel_left, hlength]
    have hpos : digits.length ≠ 0 := by
      rw [hlength]
      exact Nat.ne_of_gt (Nat.two_pow_pos k)
    rw [first_toNat type (by omega), hdescriptor, htype, if_neg (by omega), hneeded,
      length_append, if_neg (by omega), if_neg hpos, take_left' rfl, hvalue]
    exact hresult n

/-! ## The element -/

theorem qint64_eq (v : UInt64) :
    qint64 v = if v.toNat < 2 ^ 63 then (v.toNat : ℤ) else (v.toNat : ℤ) - 2 ^ 64 := by
  have hv := v.toNat_lt
  unfold qint64
  split_ifs with h
  · exact Int.bmod_eq_of_le (by omega) (by omega)
  · rw [← Int.sub_bmod_right]
    exact Int.bmod_eq_of_le (by omega) (by omega)

theorem qint64_neg_iff (v : UInt64) : qint64 v < 0 ↔ 2 ^ 63 ≤ v.toNat := by
  have hv := v.toNat_lt
  rw [qint64_eq]
  split_ifs with h <;> omega

theorem inRange_isZero : inRange.IsZero := Double.ofUInt64_isZero.2 rfl

theorem toNat_ofNat {n : ℕ} (h : n < 2 ^ 64) : (ofNat n).toNat = n := by
  rw [toNat_ofNat']
  omega

theorem Holds.fits {x y : ℤ} (h : Holds x (.Integer y)) : Fits x := by
  cases h with
  | integer h => exact h

theorem decode_unsigned {n : ℕ} (hn : n < 2 ^ 64) :
    Holds n (decodeBasicValueFromCbor ⟨.UnsignedInteger, ofNat n⟩) := by
  have htoNat := toNat_ofNat hn
  unfold decodeBasicValueFromCbor integerOutOfRange QCborStreamReader.toInteger
    QCborStreamReader.toUnsignedInteger
  dsimp only
  by_cases hbig : 2 ^ 63 ≤ n
  · have hneg := (qint64_neg_iff (ofNat n)).mpr (by omega)
    have hnonzero : ¬ (Double.ofUInt64 (ofNat n)).IsZero := by
      rw [Double.ofUInt64_isZero]
      intro hzero
      have hnone : (0 : UInt64).toNat = 0 := rfl
      rw [hzero, hnone] at htoNat
      omega
    rw [if_pos hneg, if_pos hnonzero]
    refine .double (fun hfits => absurd hfits.2 (by omega)) ?_
    have hrounds := Double.ofUInt64_rounds (ofNat n)
    rw [htoNat] at hrounds
    exact_mod_cast hrounds
  · have hneg : ¬ qint64 (ofNat n) < 0 := by
      rw [qint64_neg_iff]
      omega
    rw [if_neg hneg, if_neg (not_not.mpr inRange_isZero), qint64_eq, htoNat, if_pos (by omega)]
    exact .integer ⟨by omega, by omega⟩

theorem decode_negative {n : ℕ} (hn : n < 2 ^ 64) :
    Holds (-1 - n) (decodeBasicValueFromCbor ⟨.NegativeInteger, UInt64.ofNat n⟩) ↔
      n ≠ 2 ^ 64 - 1 := by
  have htoNat := toNat_ofNat hn
  have hsub : UInt64.ofNat n + 1 - 1 = UInt64.ofNat n := by
    exact UInt64.add_sub_cancel _ _
  unfold decodeBasicValueFromCbor integerOutOfRange QCborStreamReader.toInteger
    QCborStreamReader.toNegativeInteger
  dsimp only
  rw [hsub]
  by_cases hbig : 2 ^ 63 ≤ n
  · rw [if_pos ((qint64_neg_iff (UInt64.ofNat n)).mpr (by omega))]
    have hfits : ¬ Fits (-1 - n) := fun hfits => absurd hfits.1 (by omega)
    by_cases hlast : n = 2 ^ 64 - 1
    · have hzero : (Double.ofUInt64 (UInt64.ofNat n + 1)).neg.IsZero := by
        rw [Double.neg_isZero, Double.ofUInt64_isZero, hlast]
        decide
      rw [if_neg (not_not.mpr hzero)]
      exact iff_of_false (fun h => hfits h.fits) (not_not.mpr hlast)
    · have hnext : (UInt64.ofNat n + 1).toNat = n + 1 := by
        rw [UInt64.toNat_add, htoNat]
        exact Nat.mod_eq_of_lt (show n + 1 < 2 ^ 64 by omega)
      have hnonzero : ¬ (Double.ofUInt64 (UInt64.ofNat n + 1)).neg.IsZero := by
        rw [Double.neg_isZero, Double.ofUInt64_isZero]
        intro hzero
        rw [hzero] at hnext
        exact absurd hnext (Nat.succ_ne_zero n).symm
      rw [if_pos hnonzero]
      refine iff_of_true (.double hfits ?_) hlast
      have hrounds := (Double.ofUInt64_rounds (UInt64.ofNat n + 1)).neg
      rw [hnext] at hrounds
      have heq : ((-1 - (n : ℤ) : ℤ) : ℚ) = -((n + 1 : ℕ) : ℚ) := by
        push_cast
        ring
      rwa [heq]
  · have hneg : ¬ qint64 (UInt64.ofNat n) < 0 := by
      rw [qint64_neg_iff]
      omega
    rw [if_neg hneg, if_neg (not_not.mpr inRange_isZero), qint64_eq, htoNat, if_pos (by omega),
      Int.bmod_eq_of_le (by omega) (by omega), show -(n : ℤ) - 1 = -1 - n by omega]
    exact iff_of_true (.integer ⟨by omega, by omega⟩) (by omega)

/-- The element holds the number, unless this is the smallest one. -/
theorem decode_holds_iff {type : ReaderType} {n : ℕ} {bytes : List UInt8}
    (h : Head (majorOf type) n bytes) (rest : List UInt8) :
    (∃ reader, preparse (bytes ++ rest) = some reader ∧
      Holds (number type n) (decodeBasicValueFromCbor reader)) ↔
        ¬ (type = .NegativeInteger ∧ n = 2 ^ 64 - 1) := by
  have hread : (∃ reader, preparse (bytes ++ rest) = some reader ∧
      Holds (number type n) (decodeBasicValueFromCbor reader)) ↔
        Holds (number type n) (decodeBasicValueFromCbor ⟨type, ofNat n⟩) := by
    rw [preparse_head h rest]
    constructor
    · rintro ⟨reader, heq, hholds⟩
      rwa [Option.some.inj heq]
    · exact fun hholds => ⟨_, rfl, hholds⟩
  rw [hread]
  cases type with
  | UnsignedInteger =>
    refine iff_of_true (decode_unsigned h.lt) ?_
    rintro ⟨hno, -⟩
    cases hno
  | NegativeInteger =>
    rw [show number .NegativeInteger n = -1 - n from rfl, decode_negative h.lt]
    exact ⟨fun hn hno => hn hno.2, fun hno hn => hno ⟨rfl, hn⟩⟩

/-- `-2 ^ 63 - 1` in nine bytes. -/
theorem decode_holds_iff_below :
    (∃ reader, preparse ([0x3b, 0x80, 0, 0, 0, 0, 0, 0, 0] ++ []) = some reader ∧
      Holds (number .NegativeInteger (2 ^ 63)) (decodeBasicValueFromCbor reader)) ↔
        ¬ (ReaderType.NegativeInteger = .NegativeInteger ∧ 2 ^ 63 = 2 ^ 64 - 1) :=
  @decode_holds_iff .NegativeInteger _ _
    (@Head.bytes 0x20 (2 ^ 63) 3 (by decide) [0x80, 0, 0, 0, 0, 0, 0, 0] rfl rfl) []

/-- `-2 ^ 64` becomes 0. -/
theorem decode_smallest :
    ¬ ∃ reader,
      preparse ([0x3b, 0xff, 0xff, 0xff, 0xff, 0xff, 0xff, 0xff, 0xff] ++ []) = some reader ∧
      Holds (number .NegativeInteger (2 ^ 64 - 1)) (decodeBasicValueFromCbor reader) := by
  rintro ⟨reader, heq, hholds⟩
  have hhead : Head (majorOf .NegativeInteger) (2 ^ 64 - 1)
      [0x3b, 0xff, 0xff, 0xff, 0xff, 0xff, 0xff, 0xff, 0xff] :=
    @Head.bytes 0x20 (2 ^ 64 - 1) 3 (by decide) [0xff, 0xff, 0xff, 0xff, 0xff, 0xff, 0xff, 0xff]
      rfl rfl
  rw [preparse_head hhead] at heq
  rw [← Option.some.inj heq] at hholds
  exact (decode_negative (by omega)).mp hholds rfl

end CborInteger

end QtBase
