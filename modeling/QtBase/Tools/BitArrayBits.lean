import QtBase.Tools.BitArray
import Mathlib.Data.Nat.Bitwise

/-! A bit array stands for a list of bits. -/
namespace QtBase

open List UInt8

namespace QBitArray

/-! ## Bytes -/

theorem testBit_lowMask {k i : ℕ} (hk : k ≤ 8) :
    (lowMask k).toNat.testBit i = decide (i < k) := by
  have hpos := Nat.two_pow_pos k
  have hle : 2 ^ k ≤ 2 ^ 8 := Nat.pow_le_pow_right (by decide) hk
  unfold lowMask
  rw [toNat_ofNat', Nat.one_shiftLeft, Nat.mod_eq_of_lt (by omega),
    Nat.testBit_two_pow_sub_one]

theorem testBit_and (x y : UInt8) (i : ℕ) :
    (x &&& y).toNat.testBit i = (x.toNat.testBit i && y.toNat.testBit i) := by
  rw [UInt8.toNat_and, Nat.testBit_and]

theorem testBit_or (x y : UInt8) (i : ℕ) :
    (x ||| y).toNat.testBit i = (x.toNat.testBit i || y.toNat.testBit i) := by
  rw [UInt8.toNat_or, Nat.testBit_or]

theorem testBit_xor (x y : UInt8) (i : ℕ) :
    (x ^^^ y).toNat.testBit i = (x.toNat.testBit i ^^ y.toNat.testBit i) := by
  rw [UInt8.toNat_xor, Nat.testBit_xor]

theorem testBit_not (x : UInt8) {i : ℕ} (hi : i < 8) :
    (~~~x).toNat.testBit i = !x.toNat.testBit i := by
  have hx := x.toNat_lt
  rw [toNat_not]
  show (2 ^ 8 - 1 - x.toNat).testBit i = _
  rw [Nat.sub_sub, Nat.add_comm, Nat.testBit_two_pow_sub_succ hx, decide_eq_true hi, Bool.true_and]

theorem testBit_bitMask {k i : ℕ} (hk : k < 8) :
    (ofNat (1 <<< k)).toNat.testBit i = decide (k = i) := by
  have hlt : 2 ^ k < 2 ^ 8 := Nat.pow_lt_pow_right (by decide) hk
  rw [toNat_ofNat', Nat.one_shiftLeft, Nat.mod_eq_of_lt hlt, Nat.testBit_two_pow]

theorem testBit_fill (value : Bool) {i : ℕ} (hi : i < 8) :
    (if value then (0xff : UInt8) else 0).toNat.testBit i = value := by
  have hall : ∀ j < 8, (0xff : UInt8).toNat.testBit j = true := by decide
  cases value with
  | true => exact hall i hi
  | false => exact Nat.zero_testBit i

theorem testBit_zero (i : ℕ) : (0 : UInt8).toNat.testBit i = false := Nat.zero_testBit i

/-! ## Bits -/

/-- The bit `i` behind the header, 0 past the end. -/
def bitAt (d : List UInt8) (i : ℕ) : Bool := (d.getD (1 + i / 8) 0).toNat.testBit (i % 8)

theorem getD_modify (d : List UInt8) (j k : ℕ) (f : UInt8 → UInt8) :
    (d.modify j f).getD k 0 = if j = k ∧ k < d.length then f (d.getD k 0) else d.getD k 0 := by
  rw [getD_eq_getElem?_getD, getD_eq_getElem?_getD, getElem?_modify]
  by_cases hk : k < d.length
  · rw [getElem?_eq_getElem hk]
    by_cases hj : j = k
    · simp [hj, hk]
    · simp [hj]
  · rw [getElem?_eq_none (Nat.not_lt.mp hk), if_neg (fun h => hk h.2)]
    rfl

theorem bitAt_modify (d : List UInt8) (j i : ℕ) (f : UInt8 → UInt8) :
    bitAt (d.modify (1 + j) f) i =
      if i / 8 = j ∧ 1 + j < d.length then (f (d.getD (1 + j) 0)).toNat.testBit (i % 8)
      else bitAt d i := by
  unfold bitAt
  rw [getD_modify]
  by_cases h : i / 8 = j ∧ 1 + j < d.length
  · rw [if_pos h, if_pos ⟨by omega, by omega⟩, h.1]
  · rw [if_neg h, if_neg (fun h' => h ⟨by omega, by omega⟩)]

theorem getD_set_zero (d : List UInt8) (h : UInt8) (k : ℕ) :
    (d.set 0 h).getD (1 + k) 0 = d.getD (1 + k) 0 := by
  rw [getD_eq_getElem?_getD, getD_eq_getElem?_getD, getElem?_set_ne (by omega)]

theorem bitAt_set_zero (d : List UInt8) (h : UInt8) (i : ℕ) : bitAt (d.set 0 h) i = bitAt d i := by
  unfold bitAt
  rw [getD_set_zero]

variable {d : List UInt8}

theorem bitAt_mask {n : ℕ} (hn : n % 8 ≠ 0) (hlen : d.length = 1 + (n + 7) / 8)
    (i : ℕ) : bitAt (d.modify (1 + n / 8) (· &&& lowMask (n % 8))) i =
      (decide (i < n) && bitAt d i) := by
  rw [bitAt_modify]
  by_cases h : i / 8 = n / 8
  · rw [if_pos ⟨h, by omega⟩, testBit_and, testBit_lowMask (by omega)]
    have hiff : (i % 8 < n % 8) = (i < n) := by
      rw [eq_iff_iff]
      omega
    simp only [hiff]
    rw [Bool.and_comm]
    unfold bitAt
    rw [h]
  · rw [if_neg (fun h' => h h'.1)]
    by_cases hlt : i < n
    · rw [decide_eq_true hlt, Bool.true_and]
    · have hout : d.length ≤ 1 + i / 8 := by omega
      rw [decide_eq_false hlt, Bool.false_and]
      unfold bitAt
      rw [getD_eq_default _ _ hout, testBit_zero]

/-! ## The list of bits -/

/-- The first `n` values of `f`. -/
def bitsOf (n : ℕ) (f : ℕ → Bool) : List Bool := (List.range n).map f

@[simp] theorem length_bitsOf (n : ℕ) (f : ℕ → Bool) : (bitsOf n f).length = n := by
  unfold bitsOf
  rw [length_map, length_range]

theorem getD_bitsOf (n : ℕ) (f : ℕ → Bool) (i : ℕ) :
    (bitsOf n f).getD i false = (decide (i < n) && f i) := by
  unfold bitsOf
  rw [getD_eq_getElem?_getD, getElem?_map]
  by_cases hi : i < n
  · rw [getElem?_range hi, decide_eq_true hi]
    rfl
  · rw [getElem?_eq_none (by rw [length_range]; omega), decide_eq_false hi]
    rfl

/-- The array holds exactly these bits: the header tells their number, and the unused ones are 0. -/
structure Holds (a : QBitArray) (bits : List Bool) : Prop where
  length : a.d.length = if bits.length = 0 then 0 else 1 + (bits.length + 7) / 8
  header : bits.length ≠ 0 → (a.d.getD 0 0).toNat = a.d.length * 8 - bits.length
  bit : ∀ i, bitAt a.d i = bits.getD i false

variable {a b : QBitArray} {bits bits' : List Bool}

theorem Holds.size (h : Holds a bits) : a.size = bits.length := by
  have hlen := h.length
  unfold QBitArray.size
  by_cases hz : bits.length = 0
  · rw [if_pos hz] at hlen
    omega
  · rw [if_neg hz] at hlen
    rw [h.header hz]
    omega

theorem holds_nil : Holds ⟨[]⟩ [] where
  length := rfl
  header h := absurd rfl h
  bit _ := testBit_zero _

theorem holds_of_header {n : ℕ} (hn : n ≠ 0) (hlen : d.length = 1 + (n + 7) / 8)
    (hhead : d.getD 0 0 = ofNat (d.length * 8 - n)) (f : ℕ → Bool)
    (hbit : ∀ i, bitAt d i = (decide (i < n) && f i)) : Holds ⟨d⟩ (bitsOf n f) where
  length := by rw [length_bitsOf, if_neg hn, hlen]
  header _ := by
    rw [length_bitsOf, hhead, toNat_ofNat']
    exact Nat.mod_eq_of_lt (by omega)
  bit i := by rw [hbit, getD_bitsOf]

theorem getD_set_header (hd : d ≠ []) (h : UInt8) : (d.set 0 h).getD 0 0 = h := by
  have hpos := length_pos_iff.mpr hd
  rw [getD_eq_getElem?_getD, getElem?_set_self hpos, Option.getD_some]

theorem holds_set_header {n : ℕ} (hn : n ≠ 0) (hlen : d.length = 1 + (n + 7) / 8) (f : ℕ → Bool)
    (hbit : ∀ i, bitAt d i = (decide (i < n) && f i)) :
    Holds ⟨d.set 0 (ofNat (d.length * 8 - n))⟩ (bitsOf n f) := by
  have hd : d ≠ [] := ne_nil_of_length_pos (by omega)
  apply holds_of_header hn
  · rw [length_set, hlen]
  · rw [getD_set_header hd, length_set]
  · intro i
    rw [bitAt_set_zero, hbit]

/-! ## Resizing and filling -/

theorem memset_ok {pos n : ℕ} (h : pos + n ≤ d.length) (value : UInt8) :
    ∃ d', memset d pos value n = .ok d' ∧ d'.length = d.length ∧
      ∀ k, d'.getD k 0 = if pos ≤ k ∧ k < pos + n then value else d.getD k 0 := by
  have htake : (d.take pos).length = pos := length_take_of_le (by omega)
  refine ⟨_, if_pos h, ?_, ?_⟩
  · simp
    omega
  · intro k
    simp only [getD_eq_getElem?_getD]
    rw [append_assoc, getElem?_append, htake]
    by_cases hlow : k < pos
    · rw [if_pos hlow, if_neg (by omega), getElem?_take_of_lt hlow]
    · rw [if_neg hlow, getElem?_append, length_replicate]
      by_cases hmid : k - pos < n
      · rw [if_pos hmid, if_pos (by omega), getElem?_replicate_of_lt hmid]
        rfl
      · have hidx : pos + n + (k - pos - n) = k := by omega
        rw [if_neg hmid, if_neg (by omega), getElem?_drop, hidx]

theorem length_resize (d : List UInt8) (n : ℕ) (added : ℕ → UInt8) :
    (QByteArrayData.resize d n added).length = n := by
  unfold QByteArrayData.resize
  simp
  omega

theorem getD_resize (d : List UInt8) {n k : ℕ} (hk : k < n) (hle : k ≤ d.length)
    (added : ℕ → UInt8) : (QByteArrayData.resize d n added).getD k 0 = d.getD k 0 := by
  unfold QByteArrayData.resize
  rw [getD_eq_getElem?_getD, getD_eq_getElem?_getD, getElem?_take_of_lt hk,
    getElem?_append]
  by_cases hlt : k < d.length
  · rw [if_pos hlt]
  · have heq : k = d.length := by omega
    rw [if_neg hlt, heq, Nat.sub_self, getElem?_eq_none (Nat.le_refl d.length)]
    rfl

theorem Holds.getD_of_le (h : Holds a bits) {i : ℕ} (hi : a.d.length ≤ 1 + i / 8) :
    bits.getD i false = false := by
  rw [← h.bit]
  unfold bitAt
  rw [getD_eq_default _ _ hi, testBit_zero]

theorem Holds.resize (h : Holds a bits) (n : ℕ) (added : ℕ → UInt8) :
    ∃ a', a.resize n added = .ok a' ∧ Holds a' (bitsOf n (bits.getD · false)) := by
  unfold QBitArray.resize
  by_cases hn : n = 0
  · subst hn
    rw [if_pos rfl]
    refine ⟨_, rfl, ?_⟩
    unfold QByteArrayData.resize
    rw [take_zero]
    exact holds_nil
  rw [if_neg hn]
  have hlen := length_resize a.d (1 + (n + 7) / 8) added
  have hold : ∀ k, k < 1 + (n + 7) / 8 → k ≤ a.d.length →
      (QByteArrayData.resize a.d (1 + (n + 7) / 8) added).getD k 0 = a.d.getD k 0 :=
    fun k hk hle => getD_resize a.d hk hle added
  generalize QByteArrayData.resize a.d (1 + (n + 7) / 8) added = d at hlen hold ⊢
  simp only
  by_cases hgt : n > a.d.length * 8
  · -- the new bytes are cleared
    have hroom : a.d.length + (d.length - a.d.length) ≤ d.length := by omega
    have ⟨d', hmem, hlen', hget⟩ := memset_ok hroom 0
    rw [if_pos hgt, hmem, ok_bind]
    refine ⟨_, rfl, holds_set_header hn (hlen'.trans hlen) _ ?_⟩
    intro i
    have hbit : bitAt d' i = bits.getD i false := by
      rw [← h.bit]
      unfold bitAt
      rw [hget]
      by_cases hi : 1 + i / 8 < a.d.length
      · rw [if_neg (by omega), hold _ (by omega) (by omega)]
      · rw [getD_eq_default a.d _ (by omega)]
        split
        · rfl
        · rw [getD_eq_default d _ (by omega)]
    rw [hbit]
    by_cases hi : i < n
    · rw [decide_eq_true hi, Bool.true_and]
    · rw [decide_eq_false hi, Bool.false_and, h.getD_of_le (by omega)]
  · -- at most the NUL behind the old bytes has become a data byte
    have hbit : ∀ i, 1 + i / 8 < d.length → bitAt d i = bits.getD i false := by
      intro i hi
      rw [← h.bit]
      unfold bitAt
      rw [hold _ (by omega) (by omega)]
    rw [if_neg hgt]
    by_cases hmod : n % 8 ≠ 0
    · rw [if_pos hmod, pure_eq_ok, ok_bind]
      have hlen' : (d.modify (1 + n / 8) (· &&& lowMask (n % 8))).length = 1 + (n + 7) / 8 := by
        rw [length_modify, hlen]
      refine ⟨_, rfl, holds_set_header hn hlen' _ ?_⟩
      intro i
      rw [bitAt_mask hmod hlen]
      by_cases hi : i < n
      · rw [hbit i (by omega)]
      · rw [decide_eq_false hi, Bool.false_and, Bool.false_and]
    · rw [if_neg hmod, pure_eq_ok, ok_bind]
      refine ⟨_, rfl, holds_set_header hn hlen _ ?_⟩
      intro i
      by_cases hi : i < n
      · rw [decide_eq_true hi, Bool.true_and, hbit i (by omega)]
      · rw [decide_eq_false hi, Bool.false_and]
        unfold bitAt
        rw [getD_eq_default _ _ (by omega), testBit_zero]

theorem holds_ofSize (n : ℕ) (value : Bool) (added : ℕ → UInt8) :
    ∃ a, ofSize n value added = .ok a ∧ Holds a (bitsOf n fun _ => value) := by
  unfold ofSize
  by_cases hn : n = 0
  · subst hn
    exact ⟨_, if_pos rfl, holds_nil⟩
  rw [if_neg hn]
  have hlen : (QByteArrayData.uninitialized (1 + (n + 7) / 8) added).length = 1 + (n + 7) / 8 := by
    unfold QByteArrayData.uninitialized
    rw [length_map, length_range]
  generalize QByteArrayData.uninitialized (1 + (n + 7) / 8) added = d at hlen
  simp only
  have hroom : 1 + (d.length - 1) ≤ d.length := by omega
  have ⟨d', hmem, hlen', hget⟩ := memset_ok hroom (if value then 0xff else 0)
  rw [hmem, ok_bind]
  have hfull : d'.length = 1 + (n + 7) / 8 := hlen'.trans hlen
  have hd : d' ≠ [] := ne_nil_of_length_pos (by omega)
  have hbit : ∀ i, i < n → bitAt d' i = value := by
    intro i hi
    unfold bitAt
    rw [hget, if_pos (by omega), testBit_fill value (by omega)]
  have hset : (d'.set 0 (ofNat (d'.length * 8 - n))).length = 1 + (n + 7) / 8 := by
    rw [length_set, hfull]
  cases hmask : (value && n % 8 != 0) with
  | true =>
    rw [Bool.and_eq_true, bne_iff_ne] at hmask
    rw [if_pos rfl]
    refine ⟨_, rfl, holds_of_header hn ?_ ?_ _ ?_⟩
    · rw [length_modify, hset]
    · rw [getD_modify, if_neg (by omega), getD_set_header hd, length_modify, length_set]
    · intro i
      rw [bitAt_mask hmask.2 hset, bitAt_set_zero]
      by_cases hi : i < n
      · rw [hbit i hi]
      · rw [decide_eq_false hi, Bool.false_and, Bool.false_and]
  | false =>
    rw [if_neg Bool.false_ne_true]
    refine ⟨_, rfl, holds_set_header hn hfull _ ?_⟩
    intro i
    by_cases hi : i < n
    · rw [decide_eq_true hi, Bool.true_and, hbit i hi]
    · rw [decide_eq_false hi, Bool.false_and]
      unfold bitAt
      by_cases hout : 1 + i / 8 < d'.length
      · -- the bits behind the last one of a byte are 0 only because the value is
        have hvalue : value = false := by
          cases value with
          | true => simp at hmask; omega
          | false => rfl
        rw [hget, if_pos (by omega), testBit_fill value (by omega), hvalue]
      · rw [getD_eq_default _ _ (by omega), testBit_zero]

end QBitArray

end QtBase
