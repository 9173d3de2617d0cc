import QtBase.Io.IPAddressNumbers
import Mathlib.Data.List.GetD

/-! IPv4 addresses: what is printed is parsed. -/
namespace QtBase

open List Nat

namespace QIPAddressUtils

/-- The four octets of an address, as text in the buffer. -/
def dotted (a b c d : UInt8) : List UInt8 :=
  decimal a ++ 0x2e :: (decimal b ++ 0x2e :: (decimal c ++ 0x2e :: decimal d))

theorem at'_append {ds rest : List UInt8} (i : ℕ) : at' (ds ++ rest) (ds.length + i) = at' rest i := by
  rw [at', at', getD_append_right _ _ _ _ (by omega), Nat.add_sub_cancel_left]

theorem decimal_ne_zero {v c : UInt8} (h : c ∈ decimal v) : c ≠ 0 :=
  (digit_no_sign c (digitValue_decimal h).2).2.2.2.1

theorem takeWhile_terminator {ds rest : List UInt8} (h : ∀ c ∈ ds, c ≠ 0) :
    (ds ++ 0 :: rest).takeWhile (· ≠ 0) = ds := by
  rw [takeWhile_append_of_pos (by simpa using h)]
  simp

theorem decimal_no_leading_zero (v : UInt8) {rest : List UInt8}
    (hr : ∃ c cs, rest = c :: cs ∧ (c = 0 ∨ c = 0x2e)) :
    (at' (decimal v ++ rest) 0 == 0x30 && at' (decimal v ++ rest) 1 != 0x2e &&
      at' (decimal v ++ rest) 1 != 0) = false := by
  obtain h | ⟨-, h⟩ := decimal_zero v
  · obtain ⟨c, cs, hd⟩ := decimal_cons v
    have hc : c ≠ 0x30 := by
      intro hc
      rw [hd, hc] at h
      simp at h
    rw [hd]
    simp [at', hc]
  · obtain ⟨c, cs, hr, hc⟩ := hr
    rw [h, hr]
    obtain hc | hc := hc <;> rw [hc] <;> rfl

theorem byte_fits (v : UInt8) : v.toUInt32 &&& ~~~0xff = 0 ∧
    v.toUInt64.toUInt32 = v.toUInt32 ∧ v.toUInt64 = v.toUInt32.toUInt64 := by
  revert v
  apply forall_octet
  decide +kernel

theorem parseIp4Loop_eq {acceptLeadingZero : Bool} {rounds dotCount used : ℕ} {ptr : List UInt8}
    {ll : UInt64} {address : UInt32}
    (hz : (at' ptr 0 == 0x30 && at' ptr 1 != 0x2e && at' ptr 1 != 0) = false)
    (hq : qstrntoull (ptr.takeWhile (· ≠ 0)) 0 = (ll, used)) (hu : used ≠ 0)
    (hll : ll = ll.toUInt32.toUInt64) (hx : ll.toUInt32 &&& ~~~0xff = 0)
    (hbyte : at' ptr used = 0x2e ∨ dotCount = 3) :
    parseIp4Loop acceptLeadingZero (rounds + 1) dotCount ptr address =
      if dotCount = 3 ∨ at' ptr used = 0 then
        (address <<< 8 ||| ll.toUInt32, at' ptr used == 0)
      else parseIp4Loop acceptLeadingZero rounds (dotCount + 1) (ptr.drop (used + 1))
        (address <<< 8 ||| ll.toUInt32) := by
  have hz' : (!acceptLeadingZero && at' ptr 0 == 0x30 && at' ptr 1 != 0x2e && at' ptr 1 != 0) =
      false := by
    cases acceptLeadingZero with
    | true => rfl
    | false => exact hz
  rw [parseIp4Loop, hz', hq]
  have hu' : ¬(used = 0 ∨ ll ≠ ll.toUInt32.toUInt64) := by
    rintro (h | h)
    · exact hu h
    · exact h hll
  simp only [Bool.false_eq_true, if_false, if_neg hu', hbyte, true_and, if_true, not_true,
    false_and, hx, ne_eq]
  by_cases h3 : dotCount = 3
  · simp [h3]
  · have hdot : at' ptr used = 0x2e := hbyte.resolve_right h3
    simp [h3, hdot]

theorem parseIp4Loop_byte {acceptLeadingZero : Bool} {rounds dotCount : ℕ} {v c : UInt8}
    {rest : List UInt8} {address : UInt32} (hc : c = 0x2e ∨ (c = 0 ∧ dotCount = 3)) :
    parseIp4Loop acceptLeadingZero (rounds + 1) dotCount (decimal v ++ c :: rest) address =
      if dotCount = 3 ∨ c = 0 then (address <<< 8 ||| v.toUInt32, c == 0)
      else parseIp4Loop acceptLeadingZero rounds (dotCount + 1) rest
        (address <<< 8 ||| v.toUInt32) := by
  have hcs : c = 0 ∨ c = 0x2e := by
    obtain hc | hc := hc
    · exact .inr hc
    · exact .inl hc.1
  have hz := decimal_no_leading_zero v ⟨c, rest, rfl, hcs⟩
  have htake : (decimal v ++ c :: rest).takeWhile (· ≠ 0) =
      decimal v ++ (c :: rest).takeWhile (· ≠ 0) := by
    apply takeWhile_append_of_pos
    intro x hx
    simpa using decimal_ne_zero hx
  have hends : (c :: rest).takeWhile (· ≠ 0) = [] ∨
      ∃ cs, (c :: rest).takeWhile (· ≠ 0) = 0x2e :: cs := by
    obtain hc | hc := hcs
    · left
      simp [hc]
    · right
      simp [hc]
  have hq := qstrntoull_decimal v hends
  rw [← htake] at hq
  have hnext : at' (decimal v ++ c :: rest) (decimal v).length = c :=
    @at'_append (decimal v) (c :: rest) 0
  have hdrop : (decimal v ++ c :: rest).drop ((decimal v).length + 1) = rest := by
    rw [← drop_drop, drop_left]
    rfl
  have hl : (decimal v).length ≠ 0 := by
    have := decimal_length v
    omega
  obtain ⟨hand, h32, h64⟩ := byte_fits v
  have hbyte : c = 0x2e ∨ dotCount = 3 := hc.imp_right fun h => h.2
  rw [parseIp4Loop_eq hz hq hl (by rw [h32, h64]) (by rw [h32, hand]) (by rw [hnext]; exact hbyte),
    hnext, h32, hdrop]

/-- The number that four rounds make up. -/
def fromOctets (a b c d : UInt8) : UInt32 :=
  ((((0 : UInt32) <<< 8 ||| a.toUInt32) <<< 8 ||| b.toUInt32) <<< 8 ||| c.toUInt32) <<< 8 |||
    d.toUInt32

theorem parseIp4Internal_dotted (acceptLeadingZero : Bool) (a b c d : UInt8) :
    parseIp4Internal (dotted a b c d ++ [0]) acceptLeadingZero =
      (fromOctets a b c d, true) := by
  have hdot : ¬((0x2e : UInt8) = 0) := by decide
  rw [parseIp4Internal, dotted]
  simp only [append_assoc, cons_append]
  rw [parseIp4Loop_byte (.inl rfl), if_neg (by simp [hdot])]
  rw [parseIp4Loop_byte (.inl rfl), if_neg (by simp [hdot])]
  rw [parseIp4Loop_byte (.inl rfl), if_neg (by simp [hdot])]
  rw [parseIp4Loop_byte (.inr ⟨rfl, rfl⟩), if_pos (.inl rfl)]
  rfl

/-! ## The number of an address -/

theorem toNat_shift_or {x : UInt32} {v : UInt8} (h : x.toNat < 2 ^ 24) :
    (x <<< 8 ||| v.toUInt32).toNat = x.toNat * 256 + v.toNat := by
  have hv := v.toNat_lt
  rw [UInt32.toNat_or, UInt32.toNat_shiftLeft, UInt8.toNat_toUInt32]
  have h8 : (8 : UInt32).toNat % 32 = 8 := by decide
  rw [h8, shiftLeft_eq, mod_eq_of_lt (by omega), ← shiftLeft_eq,
    ← shiftLeft_add_eq_or_of_lt (by omega), shiftLeft_eq]

theorem toNat_octets (a b c d : UInt8) :
    (fromOctets a b c d).toNat = ((a.toNat * 256 + b.toNat) * 256 + c.toNat) * 256 + d.toNat := by
  have ha := a.toNat_lt
  have hb := b.toNat_lt
  have hc := c.toNat_lt
  have h1 : ((0 : UInt32) <<< 8 ||| a.toUInt32).toNat = a.toNat := by
    rw [toNat_shift_or (by decide)]
    simp
  have h2 := @toNat_shift_or ((0 : UInt32) <<< 8 ||| a.toUInt32) b (by omega)
  rw [h1] at h2
  have h3 := @toNat_shift_or (((0 : UInt32) <<< 8 ||| a.toUInt32) <<< 8 ||| b.toUInt32) c (by omega)
  rw [h2] at h3
  rw [fromOctets, toNat_shift_or (by omega), h3]

theorem toNat_shift_octet (x : UInt32) (k : UInt32) (hk : k.toNat < 32) :
    (x >>> k).toUInt8.toNat = x.toNat / 2 ^ k.toNat % 256 := by
  rw [UInt32.toNat_toUInt8, UInt32.toNat_shiftRight, mod_eq_of_lt hk, shiftRight_eq_div_pow]

theorem octets_eq (x : UInt32) :
    fromOctets (x >>> 24).toUInt8 (x >>> 16).toUInt8 (x >>> 8).toUInt8 x.toUInt8 = x := by
  apply UInt32.toNat_inj.mp
  have hx := x.toNat_lt
  have h24 := toNat_shift_octet x 24 (by decide)
  have h16 := toNat_shift_octet x 16 (by decide)
  have h8 := toNat_shift_octet x 8 (by decide)
  have h0 : x.toUInt8.toNat = x.toNat % 256 := UInt32.toNat_toUInt8 x
  rw [toNat_octets, h24, h16, h8, h0]
  change ((x.toNat / 2 ^ 24 % 256 * 256 + x.toNat / 2 ^ 16 % 256) * 256 + x.toNat / 2 ^ 8 % 256) *
    256 + x.toNat % 256 = x.toNat
  omega

/-! ## The round trip -/

theorem checkedToAscii_eq {text : List UInt16} (h : text.all (· < 0x7f) = true) :
    checkedToAscii text = .ok (text.map UInt16.toUInt8 ++ [0]) := by
  rw [checkedToAscii, if_pos h]

/-- The four octets of an address, as text. -/
def dottedText (x : UInt32) : List UInt16 :=
  number (x >>> 24).toUInt8 ++ dot ++ number (x >>> 16).toUInt8 ++ dot ++
    number (x >>> 8).toUInt8 ++ dot ++ number x.toUInt8

theorem dottedText_ascii (x : UInt32) : (dottedText x).all (· < 0x7f) = true := by
  have hdot : dot.all (· < 0x7f) = true := by decide
  simp only [dottedText, all_append, number_ascii, hdot, Bool.and_true]

theorem dottedText_buffer (x : UInt32) : (dottedText x).map UInt16.toUInt8 =
    dotted (x >>> 24).toUInt8 (x >>> 16).toUInt8 (x >>> 8).toUInt8 x.toUInt8 := by
  have hdot : dot.map UInt16.toUInt8 = [0x2e] := rfl
  simp only [dottedText, map_append, hdot, dotted, decimal, append_assoc,
    singleton_append]

theorem parseIp4_toString4 (x : UInt32) : parseIp4 (toString4 [] x) = (x, true) := by
  have ht : toString4 [] x = dottedText x := rfl
  rw [ht, parseIp4, checkedToAscii_eq (dottedText_ascii x), dottedText_buffer]
  exact (parseIp4Internal_dotted true _ _ _ _).trans (by rw [octets_eq])

end QIPAddressUtils

end QtBase
