import QtBase.Lib.Bits
import Mathlib.Data.List.Basic
import Mathlib.Data.List.ModifyLast
import Mathlib.Data.Nat.Bitwise

/-! `BitOStream` and `BitIStream`, which HPACK writes to and reads from bit by bit. -/
namespace QtBase

open List UInt8 Nat

namespace HPack

open Lib

/-- The buffer, and how many bits of it are set. -/
structure BitOStream where
  buffer : List UInt8
  bitsSet : ℕ

namespace BitOStream

/-- The constructor: all data packed before. -/
def make (b : List UInt8) : BitOStream := ⟨b, 8 * b.length⟩

/-- `writeBits(bits, bitLength)` -/
def writeBits (s : BitOStream) (bits : UInt8) (bitLength : ℕ) : BitOStream :=
  let count := s.bitsSet % 8
  let bits := UInt8.ofNat (bits.toNat <<< (8 - bitLength))
  let buffer :=
    if count ≠ 0 then s.buffer.modifyLast fun b => b ||| UInt8.ofNat (bits.toNat >>> count)
    else s.buffer
  let count := if count ≠ 0 then 8 - count else 0
  { buffer := if bitLength > count then buffer ++ [UInt8.ofNat (bits.toNat <<< count)] else buffer
    bitsSet := s.bitsSet + bitLength }

/-- `push_back` on the byte boundary. -/
def pushByte (s : BitOStream) (b : UInt8) : BitOStream := ⟨s.buffer ++ [b], s.bitsSet + 8⟩

/-- `while (src >= 128)` and the last octet; there are at most five of them. -/
def pushOctets : ℕ → ℕ → BitOStream → BitOStream
  | 0, _, s => s
  | k + 1, src, s =>
    if src ≥ 128 then pushOctets k (src / 128) (s.pushByte (UInt8.ofNat (src % 128 + 128)))
    else s.pushByte (UInt8.ofNat src)

/-- `write(quint32 src)` -/
def write (s : BitOStream) (src : UInt32) : BitOStream :=
  let prefixLen := 8 - s.bitsSet % 8
  let fullPrefix := 1 <<< prefixLen - 1
  if src.toNat < fullPrefix then s.writeBits (UInt8.ofNat src.toNat) prefixLen
  else pushOctets 5 (src.toNat - fullPrefix) (s.writeBits (UInt8.ofNat fullPrefix) prefixLen)

end BitOStream

inductive StreamError
  | NoError
  | NotEnoughData
  | CompressionError
  | InvalidInteger
  deriving DecidableEq

structure BitIStream where
  bytes : List UInt8
  offset : ℕ
  streamError : StreamError

namespace BitIStream

def make (bytes : List UInt8) : BitIStream := ⟨bytes, 0, .NoError⟩

variable (s : BitIStream)

def bitLength : ℕ := s.bytes.length * 8

def hasMoreBits : Bool := decide (s.offset < s.bitLength)

/-- What `skipBits(nBits)` returns. -/
def canSkip (nBits : ℕ) : Bool := decide (nBits ≤ s.bitLength ∧ s.offset ≤ s.bitLength - nBits)

def skipBits (nBits : ℕ) : BitIStream :=
  if s.canSkip nBits then { s with offset := s.offset + nBits } else s

/-- `while (bitsToRead > 8)` and the last, incomplete byte. `dst` has `w` bits. -/
def peekBytes (w : ℕ) : List UInt8 → ℕ → ℕ → ℕ
  | [], _, dst => dst
  | srcByte :: rest, bitsToRead, dst =>
    if bitsToRead > 8 then
      peekBytes w rest (bitsToRead - 8) ((dst <<< 8 ||| srcByte.toNat) % 2 ^ w)
    else (dst <<< bitsToRead) % 2 ^ w ||| srcByte.toNat >>> (8 - bitsToRead)

/-- `peekBits(from, length, dstPtr)`: the number of bits that were read and the bits, the first one
on top, of a type of `w` bits. -/
def peekBits (w start length : ℕ) : ℕ × ℕ :=
  if start ≥ s.bitLength ∨ length = 0 then (0, 0)
  else
    let length := min length (s.bitLength - start)
    let dst := peekBytes w (s.bytes.drop (start / 8)) (length + start % 8) 0
    (length, (dst <<< (w - length)) % 2 ^ w)

/-- `while (true)`, which ends at the fifth octet: the sum and the new offset, kept in 32 bits. -/
def readOctets : ℕ → ℕ → ℕ → ℕ → Except StreamError (ℕ × ℕ)
  | 0, _, _, _ => .error .InvalidInteger
  | k + 1, newOffset, val, octetPower =>
    if newOffset ≥ s.bitLength then .error .NotEnoughData
    else
      let octet := s.bytes.getD (newOffset / 8) 0
      if octetPower = 28 ∧ octet > 15 then .error .InvalidInteger
      else
        let val := val + (octet.toNat % 128) <<< octetPower
        let newOffset := (newOffset + 8) % 2 ^ 32
        if octet.toNat < 128 then .ok (val, newOffset)
        else readOctets k newOffset val (octetPower + 7)

/-- `read(quint32 *dstPtr)`: the stream afterwards, and the integer if the read was successful. -/
def read : BitIStream × Option UInt32 :=
  if s.offset ≥ s.bitLength then ({ s with streamError := .NotEnoughData }, none)
  else
    let s := { s with streamError := .NoError }
    let prefixLen := 8 - s.offset % 8
    let fullPrefix := 1 <<< prefixLen - 1
    let prefix' := (s.bytes.getD (s.offset / 8) 0).toNat % 2 ^ prefixLen
    if prefix' < fullPrefix then
      ({ s with offset := s.offset + prefixLen }, some (UInt32.ofNat prefix'))
    else
      match s.readOctets 5 ((s.offset + prefixLen) % 2 ^ 32) prefix' 0 with
      | .error e => ({ s with streamError := e }, none)
      | .ok (val, newOffset) => ({ s with offset := newOffset }, some (UInt32.ofNat val))

end BitIStream

/-! ## What is written -/

/-- The last byte, if it is not full. -/
def partByte (t : List Bool) : List UInt8 :=
  if t = [] then [] else [UInt8.ofNat (Bits.toNat t * 2 ^ (8 - t.length))]

namespace BitOStream

/-- The stream holds a list of bits: full bytes, and a part of a byte with zeros behind it. -/
def Holds (s : BitOStream) (l : List Bool) : Prop :=
  ∃ front t, t.length < 8 ∧ l = Bits.ofBytes front ++ t ∧ s.buffer = front ++ partByte t ∧
    s.bitsSet = l.length

theorem Holds.bitsSet_eq {s : BitOStream} {l : List Bool} (h : s.Holds l) :
    s.bitsSet = l.length := by
  obtain ⟨_, _, _, _, _, hset⟩ := h
  exact hset

theorem holds_make (b : List UInt8) : (make b).Holds (Bits.ofBytes b) :=
  ⟨b, [], succ_pos 7, (append_nil _).symm, (append_nil _).symm,
    (Bits.length_ofBytes b).symm⟩

theorem ofBytes_full {t : List Bool} (ht : t.length = 8) :
    Bits.ofBytes [ofNat (Bits.toNat t * 2 ^ (8 - t.length))] = t := by
  have hlt := Bits.toNat_lt t
  rw [ht] at hlt
  rw [Bits.ofBytes_cons, Bits.ofBytes_nil, append_nil, ht, Nat.sub_self, Nat.pow_zero,
    Nat.mul_one, toNat_ofNat', ← ht]
  refine Bits.ofNat_eq_of_toNat rfl ?_
  rw [ht, Nat.mod_eq_of_lt (b := 2 ^ 8) hlt, Nat.mod_eq_of_lt hlt]

theorem holds_of_part {front : List UInt8} {t : List Bool} {b : UInt8} {k : ℕ} (ht : t.length ≤ 8)
    (hne : t ≠ []) (hb : b = ofNat (Bits.toNat t * 2 ^ (8 - t.length)))
    (hk : k = 8 * front.length + t.length) :
    Holds ⟨front ++ [b], k⟩ (Bits.ofBytes front ++ t) := by
  have hlength : k = (Bits.ofBytes front ++ t).length := by
    rw [length_append, Bits.length_ofBytes, hk]
  rcases lt_or_ge t.length 8 with hlt | hge
  · refine ⟨front, t, hlt, rfl, ?_, hlength⟩
    unfold partByte
    rw [if_neg hne, hb]
  · refine ⟨front ++ [b], [], succ_pos 7, ?_, (append_nil _).symm, hlength⟩
    rw [Bits.ofBytes_append, hb, ofBytes_full (le_antisymm ht hge), append_nil]

theorem shifted_toNat (bits : UInt8) {n : ℕ} (hn : n ≤ 8) :
    (ofNat (bits.toNat <<< (8 - n))).toNat =
      Bits.toNat (Bits.ofNat n bits.toNat) * 2 ^ (8 - n) := by
  have hpow : (2 : ℕ) ^ 8 = 2 ^ n * 2 ^ (8 - n) := by
    rw [← pow_add]
    congr 1
    omega
  rw [toNat_ofNat', shiftLeft_eq, Bits.toNat_ofNat, hpow, mul_mod_mul_right]

theorem partByte_or {t d : List Bool} (h : t.length + d.length ≤ 8) :
    ofNat (Bits.toNat t * 2 ^ (8 - t.length)) |||
        ofNat (Bits.toNat d * 2 ^ (8 - (t ++ d).length)) =
      ofNat (Bits.toNat (t ++ d) * 2 ^ (8 - (t ++ d).length)) := by
  have hd := Bits.toNat_lt d
  have hpow : (2 : ℕ) ^ (8 - t.length) = 2 ^ d.length * 2 ^ (8 - (t ++ d).length) := by
    rw [← Nat.pow_add, length_append]
    congr 1
    omega
  have hlt : Bits.toNat d * 2 ^ (8 - (t ++ d).length) < 2 ^ (8 - t.length) := by
    rw [hpow]
    exact Nat.mul_lt_mul_of_pos_right hd (Nat.two_pow_pos _)
  rw [← ofNat_or, Nat.mul_comm (Bits.toNat t), ← Nat.two_pow_add_eq_or_of_lt hlt,
    Bits.toNat_append, hpow]
  congr 1
  ring

theorem writeBits_holds {s : BitOStream} {l : List Bool} (h : s.Holds l) (bits : UInt8) {n : ℕ}
    (hn : n ≤ 8) : (s.writeBits bits n).Holds (l ++ Bits.ofNat n bits.toNat) := by
  obtain ⟨front, t, ht, rfl, hbuffer, hset⟩ := h
  rw [length_append, Bits.length_ofBytes] at hset
  have hcount : s.bitsSet % 8 = t.length := by omega
  have hshift := shifted_toNat bits hn
  have hlength := Bits.length_ofNat n bits.toNat
  unfold writeBits
  dsimp only
  rw [hcount, hbuffer, hset, append_assoc]
  generalize Bits.ofNat n bits.toNat = d at hshift hlength ⊢
  generalize UInt8.ofNat (bits.toNat <<< (8 - n)) = x at hshift ⊢
  by_cases hempty : t = []
  · subst hempty
    rw [length_nil, if_neg (not_not.mpr rfl), if_neg (not_not.mpr rfl), nil_append]
    unfold partByte
    rw [if_pos rfl, append_nil, Nat.add_zero]
    by_cases hzero : n > 0
    · have hne : d ≠ [] := ne_nil_of_length_pos (by omega)
      rw [if_pos hzero, Nat.shiftLeft_zero]
      refine holds_of_part (by omega) hne ?_ (by rw [hlength])
      rw [UInt8.ofNat_toNat, ← UInt8.toNat_inj, hlength, ← hshift, UInt8.ofNat_toNat]
    · have hnil : d = [] := eq_nil_of_length_eq_zero (by omega)
      rw [if_neg hzero, hnil]
      refine ⟨front, [], Nat.succ_pos 7, rfl, (append_nil _).symm, ?_⟩
      rw [append_nil, Bits.length_ofBytes]
      show 8 * front.length + n = 8 * front.length
      omega
  · have hpos : t.length ≠ 0 := fun heq => hempty (eq_nil_of_length_eq_zero heq)
    rw [if_pos hpos, if_pos hpos]
    unfold partByte
    rw [if_neg hempty, modifyLast_concat]
    by_cases hfits : n > 8 - t.length
    · -- the byte is filled, and the rest goes into a new one
      obtain ⟨d₁, d₂, rfl, hd₁⟩ : ∃ d₁ d₂, d = d₁ ++ d₂ ∧ d₁.length = 8 - t.length :=
        ⟨d.take (8 - t.length), d.drop (8 - t.length), (take_append_drop _ _).symm,
          length_take_of_le (by omega)⟩
      rw [length_append] at hlength
      have hfull : (t ++ d₁).length = 8 := by
        simp
        omega
      have hpow : (2 : ℕ) ^ t.length = 2 ^ d₂.length * 2 ^ (8 - n) := by
        rw [← Nat.pow_add]
        congr 1
        omega
      have hlow : x.toNat >>> t.length = Bits.toNat d₁ * 2 ^ (8 - (t ++ d₁).length) := by
        have hd₂ := Bits.toNat_lt d₂
        rw [hshift, Nat.shiftRight_eq_div_pow, hfull, Nat.sub_self, Nat.pow_zero, Nat.mul_one, hpow,
          Nat.mul_div_mul_right _ _ (Nat.two_pow_pos _), Bits.toNat_append, Nat.mul_comm,
          Nat.mul_add_div (Nat.two_pow_pos _), Nat.div_eq_of_lt hd₂, Nat.add_zero]
      have hhigh : UInt8.ofNat (x.toNat <<< (8 - t.length)) =
          UInt8.ofNat (Bits.toNat d₂ * 2 ^ (8 - d₂.length)) := by
        have hpow' : (2 : ℕ) ^ (8 - n) * 2 ^ (8 - t.length) = 2 ^ (8 - d₂.length) := by
          rw [← Nat.pow_add]
          congr 1
          omega
        have hpow'' : (2 : ℕ) ^ d₂.length * 2 ^ (8 - d₂.length) = 2 ^ 8 := by
          rw [← Nat.pow_add]
          congr 1
          omega
        rw [← UInt8.toNat_inj, UInt8.toNat_ofNat', UInt8.toNat_ofNat', Nat.shiftLeft_eq, hshift,
          Nat.mul_assoc, hpow', Bits.toNat_append, Nat.add_mul, Nat.mul_assoc, hpow'',
          Nat.mul_add_mod_self_right]
      rw [if_pos hfits, hlow, partByte_or (Nat.le_of_eq (by rw [← hfull, length_append])),
        hhigh, ← append_assoc t, ← append_assoc (Bits.ofBytes front)]
      conv => arg 2; rw [← ofBytes_full hfull, ← Bits.ofBytes_append]
      refine holds_of_part (by omega) (ne_nil_of_length_pos (by omega)) rfl ?_
      simp
      omega
    · have hlow : x.toNat >>> t.length = Bits.toNat d * 2 ^ (8 - (t ++ d).length) := by
        have hpow : (2 : ℕ) ^ (8 - n) = 2 ^ (8 - (t.length + n)) * 2 ^ t.length := by
          rw [← Nat.pow_add]
          congr 1
          omega
        rw [hshift, Nat.shiftRight_eq_div_pow, length_append, hlength, hpow, ← Nat.mul_assoc,
          Nat.mul_div_cancel _ (Nat.two_pow_pos _)]
      rw [if_neg hfits, hlow, partByte_or (by omega)]
      refine holds_of_part (by rw [length_append]; omega)
        (fun heq => hempty (append_eq_nil_iff.mp heq).1) rfl ?_
      rw [length_append, hlength, Nat.add_assoc]

theorem Holds.buffer_eq {s : BitOStream} {l : List Bool} (h : s.Holds l) (hl : l.length % 8 = 0) :
    Bits.ofBytes s.buffer = l ∧ s.bitsSet = l.length := by
  obtain ⟨front, t, ht, rfl, hbuffer, hset⟩ := h
  refine ⟨?_, hset⟩
  rw [length_append, Bits.length_ofBytes] at hl
  obtain rfl : t = [] := eq_nil_of_length_eq_zero (by omega)
  rw [hbuffer]
  unfold partByte
  rw [if_pos rfl, append_nil, append_nil]

end BitOStream

/-! ## What is read -/

namespace BitIStream

/-- The bits that are left. -/
def rest (s : BitIStream) : List Bool := (Bits.ofBytes s.bytes).drop s.offset

theorem rest_make (bytes : List UInt8) : (make bytes).rest = Bits.ofBytes bytes :=
  drop_zero

theorem length_rest (s : BitIStream) : s.rest.length = s.bitLength - s.offset := by
  unfold rest bitLength
  rw [length_drop, Bits.length_ofBytes, mul_comm]

theorem peekBytes_mod {w n : ℕ} (hw : 8 ≤ w) {bytes : List UInt8} (hn : 0 < n)
    (hlength : n ≤ 8 * bytes.length) (dst : ℕ) :
    peekBytes w bytes n dst % 2 ^ w =
      (dst * 2 ^ n + Bits.toNat ((Bits.ofBytes bytes).take n)) % 2 ^ w := by
  induction bytes generalizing n dst with
  | nil =>
    rw [length_nil] at hlength
    omega
  | cons b bytes ih =>
    have hb := b.toNat_lt
    rw [length_cons] at hlength
    unfold peekBytes
    rw [Bits.ofBytes_cons]
    split_ifs with hmore
    · have hor : dst <<< 8 ||| b.toNat = dst * 2 ^ 8 + b.toNat := by
        rw [Nat.shiftLeft_eq, Nat.mul_comm]
        exact (Nat.two_pow_add_eq_or_of_lt hb dst).symm
      have hpow : (2 : ℕ) ^ n = 2 ^ 8 * 2 ^ (n - 8) := by
        rw [← Nat.pow_add]
        congr 1
        omega
      have hbyte : (Bits.ofNat 8 b.toNat).take n = Bits.ofNat 8 b.toNat := by
        refine take_of_length_le ?_
        rw [Bits.length_ofNat]
        omega
      have htail : ((Bits.ofBytes bytes).take (n - 8)).length = n - 8 := by
        refine length_take_of_le ?_
        rw [Bits.length_ofBytes]
        omega
      rw [ih (by omega) (by omega), hor, take_append, Bits.length_ofNat, hbyte,
        Bits.toNat_append, Bits.toNat_byte, htail, hpow, Nat.add_mod, Nat.mod_mul_mod,
        ← Nat.add_mod]
      congr 1
      ring
    · have hsplit := Bits.ofNat_append n (8 - n) b.toNat
      rw [Nat.add_sub_cancel' (by omega)] at hsplit
      have hhigh : b.toNat >>> (8 - n) < 2 ^ n := by
        have hpow : (2 : ℕ) ^ 8 = 2 ^ (8 - n) * 2 ^ n := by
          rw [← Nat.pow_add]
          congr 1
          omega
        rw [Nat.shiftRight_eq_div_pow]
        exact Nat.div_lt_of_lt_mul (by omega)
      have hmultiple : (dst <<< n) % 2 ^ w = 2 ^ n * (dst % 2 ^ (w - n)) := by
        have hpow : (2 : ℕ) ^ w = 2 ^ n * 2 ^ (w - n) := by
          rw [← Nat.pow_add]
          congr 1
          omega
        rw [Nat.shiftLeft_eq, hpow, Nat.mul_comm dst, Nat.mul_mod_mul_left]
      rw [hmultiple, ← Nat.two_pow_add_eq_or_of_lt hhigh, ← hmultiple, Nat.shiftLeft_eq,
        Nat.mod_add_mod, ← hsplit, append_assoc, take_left' (Bits.length_ofNat _ _),
        Bits.toNat_ofNat, ← Nat.shiftRight_eq_div_pow, Nat.mod_eq_of_lt hhigh]

theorem peekBits_eq {w n : ℕ} (s : BitIStream) (hw : 8 ≤ w) (hn : n ≤ w) :
    s.peekBits w s.offset n =
      ((s.rest.take n).length,
        Bits.toNat (s.rest.take n) * 2 ^ (w - (s.rest.take n).length)) := by
  have hrest := s.length_rest
  unfold peekBits
  split_ifs with hnone
  · have hnil : s.rest.take n = [] := by
      refine eq_nil_of_length_eq_zero ?_
      rw [length_take]
      omega
    rw [hnil]
    exact Prod.ext rfl (Nat.zero_mul _).symm
  · push Not at hnone
    dsimp only
    have hlength : (s.rest.take n).length = min n (s.bitLength - s.offset) := by
      rw [length_take, hrest]
    rw [← hlength]
    have hpos : 0 < (s.rest.take n).length := by omega
    have hle : (s.rest.take n).length ≤ w := by omega
    have hbits : Bits.toNat ((Bits.ofBytes (s.bytes.drop (s.offset / 8))).take
        ((s.rest.take n).length + s.offset % 8)) % 2 ^ (s.rest.take n).length =
        Bits.toNat (s.rest.take n) := by
      have hbytes := Bits.ofBytes_drop s.bytes (s.offset / 8)
      have hskip : (Bits.ofBytes (s.bytes.drop (s.offset / 8))).drop (s.offset % 8) = s.rest := by
        unfold rest
        rw [hbytes, drop_drop, Nat.div_add_mod]
      have hroom := congrArg List.length hskip
      rw [length_drop] at hroom
      have htake := length_take_of_le (i := (s.rest.take n).length + s.offset % 8)
        (l := Bits.ofBytes (s.bytes.drop (s.offset / 8))) (by omega)
      rw [← Bits.toNat_drop (k := s.offset % 8) (by omega) (by rw [htake, Nat.add_comm]),
        drop_take, hskip, Nat.add_sub_cancel]
      congr 1
      rw [length_take]
      exact (take_eq_take_min).symm
    have hpow : (2 : ℕ) ^ w = 2 ^ (s.rest.take n).length * 2 ^ (w - (s.rest.take n).length) := by
      rw [← Nat.pow_add]
      congr 1
      omega
    have hdst := @peekBytes_mod w ((s.rest.take n).length + s.offset % 8) hw
      (s.bytes.drop (s.offset / 8)) (by omega) (by
        unfold bitLength at hlength
        rw [length_drop]
        omega) 0
    rw [Nat.zero_mul, Nat.zero_add] at hdst
    have hlow := congrArg (fun x => x % 2 ^ (s.rest.take n).length) hdst
    rw [Nat.mod_mod_of_dvd _ (Nat.pow_dvd_pow 2 hle), Nat.mod_mod_of_dvd _ (Nat.pow_dvd_pow 2 hle),
      hbits] at hlow
    rw [Nat.shiftLeft_eq, hpow, Nat.mul_mod_mul_right, hlow]

theorem skipBits_rest (s : BitIStream) {n : ℕ} (hn : n ≤ s.rest.length) :
    (s.skipBits n).rest = s.rest.drop n := by
  have hrest := s.length_rest
  unfold skipBits
  split_ifs with hskip
  · unfold rest
    rw [drop_drop]
  · unfold canSkip at hskip
    rw [decide_eq_true_iff] at hskip
    obtain rfl : n = 0 := by omega
    exact drop_zero.symm

end BitIStream

end HPack

end QtBase
