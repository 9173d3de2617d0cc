import QtBase.Text.Utf8Functions
import Mathlib.Algebra.Order.Ring.Int

/-! `toUtf8` and `fromUtf8` agree with the encoding forms of the scalar values. -/
namespace QtBase

open Unicode QUtf8Functions List UInt16 Nat

/-! ## Numbers -/

theorem uint8_all {P : UInt8 → Prop} (h : ∀ n < 256, P (UInt8.ofNat n)) (b : UInt8) : P b := by
  have hb := h b.toNat b.toNat_lt
  rwa [UInt8.ofNat_toNat] at hb

variable {b : UInt8}

theorem eq_ofNat {n : ℕ} (h : b.toNat = n) : b = UInt8.ofNat n := by
  rw [← h, UInt8.ofNat_toNat]

theorem toNat_marked : ∀ b : UInt8,
    ((0x80 : UInt8) ||| (b &&& 0x3f)).toNat = 0x80 + b.toNat % 64 ∧
    (b.toNat < 32 → ((0xc0 : UInt8) ||| b).toNat = 0xc0 + b.toNat) ∧
    (b.toNat < 16 → ((0xe0 : UInt8) ||| b).toNat = 0xe0 + b.toNat) ∧
    ((0xf0 : UInt8) ||| (b &&& 0xf)).toNat = 0xf0 + b.toNat % 16 :=
  uint8_all (by decide +kernel)

theorem toNat_middle (b : UInt8) : ((0x80 : UInt8) ||| (b &&& 0x3f)).toNat = 0x80 + b.toNat % 64 :=
  (toNat_marked b).1

theorem toNat_two (b : UInt8) : b.toNat < 32 → ((0xc0 : UInt8) ||| b).toNat = 0xc0 + b.toNat :=
  (toNat_marked b).2.1

theorem toNat_three (b : UInt8) : b.toNat < 16 → ((0xe0 : UInt8) ||| b).toNat = 0xe0 + b.toNat :=
  (toNat_marked b).2.2.1

theorem toNat_four (b : UInt8) : ((0xf0 : UInt8) ||| (b &&& 0xf)).toNat = 0xf0 + b.toNat % 16 :=
  (toNat_marked b).2.2.2

theorem toNat_last (u : UInt16) :
    ((0x80 : UInt16) ||| (u &&& 0x3f)).toUInt8.toNat = 0x80 + u.toNat % 64 := by
  have hand : u.toNat &&& 63 = u.toNat % 64 := and_two_pow_sub_one_eq_mod u.toNat 6
  have hor : 128 + u.toNat % 64 = 128 ||| u.toNat % 64 :=
    two_pow_add_eq_or_of_lt (i := 7) (by omega) 1
  rw [UInt16.toNat_toUInt8, UInt16.toNat_or, UInt16.toNat_and]
  show (128 ||| (u.toNat &&& 63)) % 256 = _
  rw [hand, ← hor]
  omega

theorem toNat_appendBits {uc : UInt32} (h : uc.toNat < 2 ^ 26) (b : UInt8) :
    (appendBits uc b).toNat = uc.toNat * 64 + b.toNat % 64 := by
  have hand : b.toNat &&& 63 = b.toNat % 64 := Nat.and_two_pow_sub_one_eq_mod b.toNat 6
  have hor : 2 ^ 6 * uc.toNat + b.toNat % 64 = 2 ^ 6 * uc.toNat ||| b.toNat % 64 :=
    Nat.two_pow_add_eq_or_of_lt (by omega) _
  unfold appendBits
  rw [UInt32.toNat_or, UInt32.toNat_shiftLeft, UInt8.toNat_toUInt32, UInt8.toNat_and]
  show (uc.toNat <<< 6) % 2 ^ 32 ||| (b.toNat &&& 63) = _
  rw [hand, Nat.shiftLeft_eq, Nat.mod_eq_of_lt (by omega), Nat.mul_comm, ← hor]

theorem and_fffffc00 {x : ℕ} (h : x < 2 ^ 32) : x &&& 0xfffffc00 = x / 1024 * 1024 := by
  apply Nat.eq_of_testBit_eq
  intro i
  have hmask : (0xfffffc00 : ℕ).testBit i = (decide (10 ≤ i) && decide (i < 32)) := by
    rw [show (0xfffffc00 : ℕ) = (2 ^ 22 - 1) * 2 ^ 10 from rfl, Nat.testBit_mul_two_pow,
      Nat.testBit_two_pow_sub_one]
    by_cases hi : 10 ≤ i
    · simp [hi]
      omega
    · simp [hi]
  rw [Nat.testBit_and, hmask, show (1024 : ℕ) = 2 ^ 10 from rfl, Nat.testBit_mul_two_pow,
    Nat.testBit_div_two_pow]
  by_cases hi : 10 ≤ i
  · rw [Nat.sub_add_cancel hi]
    by_cases hlt : i < 32
    · simp [hi, hlt]
    · have hbit : x.testBit i = false :=
        Nat.testBit_lt_two_pow (Nat.lt_of_lt_of_le h (Nat.pow_le_pow_right (by decide) (by omega)))
      simp [hbit]
  · simp [hi]

theorem isHighSurrogate_iff (u : UInt16) : QChar.isHighSurrogate u.toUInt32 = true ↔ High u := by
  have hlt := u.toNat_lt
  unfold QChar.isHighSurrogate High
  rw [beq_iff_eq, ← UInt32.toNat_inj, UInt32.toNat_and, toNat_toUInt32]
  show u.toNat &&& 0xfffffc00 = 0xd800 ↔ _
  rw [and_fffffc00 (by omega)]
  omega

theorem isLowSurrogate_iff (u : UInt16) : QChar.isLowSurrogate u.toUInt32 = true ↔ Low u := by
  have hlt := u.toNat_lt
  unfold QChar.isLowSurrogate Low
  rw [beq_iff_eq, ← UInt32.toNat_inj, UInt32.toNat_and, toNat_toUInt32]
  show u.toNat &&& 0xfffffc00 = 0xdc00 ↔ _
  rw [and_fffffc00 (by omega)]
  omega

theorem isSurrogate_iff (x : UInt32) :
    QChar.isSurrogate x = true ↔ 0xd800 ≤ x.toNat ∧ x.toNat < 0xe000 := by
  have hlt := x.toNat_lt
  unfold QChar.isSurrogate
  rw [decide_eq_true_iff, UInt32.lt_iff_toNat_lt, UInt32.toNat_sub]
  show (2 ^ 32 - 0xd800 + x.toNat) % 2 ^ 32 < 2048 ↔ _
  omega

theorem isSurrogate_iff_high_or_low (u : UInt16) :
    QChar.isSurrogate u.toUInt32 = true ↔ High u ∨ Low u := by
  rw [isSurrogate_iff, toNat_toUInt32]
  unfold High Low
  omega

variable {u : UInt16}

theorem toNat_surrogateToUcs4 {v : UInt16} (hu : High u) (hv : Low v) :
    (QChar.surrogateToUcs4 u v).toNat =
      0x10000 + (u.toNat - 0xd800) * 1024 + (v.toNat - 0xdc00) := by
  unfold High at hu
  unfold Low at hv
  unfold QChar.surrogateToUcs4
  rw [UInt32.toNat_sub, UInt32.toNat_add, UInt32.toNat_shiftLeft, toNat_toUInt32,
    toNat_toUInt32]
  show (2 ^ 32 - 0x35fdc00 + ((u.toNat <<< 10) % 2 ^ 32 + v.toNat) % 2 ^ 32) % 2 ^ 32 = _
  omega

/-! ## UTF-16 to UTF-8 -/

theorem toUtf8_singleton {c : Char} (hc : utf16EncodeChar c = [u])
    (src : List UInt16) : toUtf8 u src = .ok (String.utf8EncodeChar c) src := by
  have hle : c.val.toNat ≤ 0xffff := by
    by_contra hlt
    obtain ⟨_, _, henc, -⟩ := utf16EncodeChar_of_lt (c := c) (by omega)
    rw [hc] at henc
    cases henc
  obtain ⟨u', henc, hnat, hh, hl⟩ := utf16EncodeChar_of_le hle
  rw [hc, List.cons.injEq] at henc
  obtain ⟨rfl, -⟩ := henc
  have hns : QChar.isSurrogate u.toUInt32 = false := by
    rw [← Bool.not_eq_true, isSurrogate_iff_high_or_low]
    exact not_or_intro hh hl
  have h6 : (u >>> 6).toUInt8.toNat = c.val.toNat / 64 % 256 := by
    rw [UInt16.toNat_toUInt8, UInt16.toNat_shiftRight, hnat]
    show c.val.toNat >>> 6 % 256 = _
    rw [shiftRight_eq_div_pow]
  have h12 : (u >>> 12).toUInt8.toNat = c.val.toNat / 4096 % 256 := by
    rw [UInt16.toNat_toUInt8, UInt16.toNat_shiftRight, hnat]
    show c.val.toNat >>> 12 % 256 = _
    rw [shiftRight_eq_div_pow]
  have hlast := toNat_last u
  rw [hnat] at hlast
  unfold toUtf8 String.utf8EncodeChar
  simp only [UInt16.lt_iff_toNat_lt, hnat, UInt16.reduceToNat]
  by_cases h1 : c.val.toNat ≤ 0x7f
  · have hb : u.toUInt8 = UInt8.ofNat c.val.toNat := by
      apply eq_ofNat
      rw [UInt16.toNat_toUInt8, hnat]
      omega
    rw [if_pos (by omega), if_pos h1, hb]
  have hend : ((0x80 : UInt16) ||| (u &&& 0x3f)).toUInt8 =
      UInt8.ofNat (c.val.toNat % 0x40 + 0x80) := by
    apply eq_ofNat
    omega
  rw [if_neg (by omega), if_neg h1, hend]
  by_cases h2 : c.val.toNat ≤ 0x7ff
  · have hb : (0xc0 : UInt8) ||| (u >>> 6).toUInt8 =
        UInt8.ofNat (c.val.toNat / 64 % 0x20 + 0xc0) := by
      apply eq_ofNat
      rw [toNat_two _ (by omega), h6]
      omega
    rw [if_pos (by omega), if_pos h2, hb]
  · have hb : (0xe0 : UInt8) ||| (u >>> 12).toUInt8 =
        UInt8.ofNat (c.val.toNat / 4096 % 0x10 + 0xe0) := by
      apply eq_ofNat
      rw [toNat_three _ (by omega), h12]
      omega
    have hm : (0x80 : UInt8) ||| ((u >>> 6).toUInt8 &&& 0x3f) =
        UInt8.ofNat (c.val.toNat / 64 % 0x40 + 0x80) := by
      apply eq_ofNat
      rw [toNat_middle, h6]
      omega
    rw [if_neg (by omega), if_neg h2, hns, if_pos hle, hb, hm]
    rfl

theorem toUtf8_pair {v : UInt16} {c : Char} (hc : utf16EncodeChar c = [u, v])
    (src : List UInt16) : toUtf8 u (v :: src) = .ok (String.utf8EncodeChar c) src := by
  have hlt := val_lt c
  have hgt : 0xffff < c.val.toNat := by
    by_contra hle
    obtain ⟨_, henc, -⟩ := utf16EncodeChar_of_le (c := c) (by omega)
    rw [hc] at henc
    cases henc
  obtain ⟨u', v', henc, hu, hv, hnat⟩ := utf16EncodeChar_of_lt hgt
  rw [hc, List.cons.injEq, List.cons.injEq] at henc
  obtain ⟨rfl, rfl, -⟩ := henc
  have hucs := toNat_surrogateToUcs4 hu hv
  rw [← hnat] at hucs
  have hs : QChar.isSurrogate u.toUInt32 = true := (isSurrogate_iff_high_or_low u).mpr (.inl hu)
  have hhigh := (isHighSurrogate_iff u).mpr hu
  have hlow := (isLowSurrogate_iff v).mpr hv
  have hge : ¬ u < 0x80 ∧ ¬ u < 0x800 := by
    unfold High at hu
    simp only [UInt16.lt_iff_toNat_lt, UInt16.reduceToNat]
    omega
  unfold toUtf8 String.utf8EncodeChar
  rw [if_neg hge.1, if_neg hge.2, hs, hhigh]
  simp only [hlow, Bool.not_true, Bool.false_eq_true, if_false]
  generalize QChar.surrogateToUcs4 u v = ucs4 at hucs
  rw [if_neg (by omega), if_neg (by omega), if_neg (by omega)]
  have h18 : (ucs4 >>> 18).toUInt8.toNat = c.val.toNat / 262144 % 256 := by
    rw [UInt32.toNat_toUInt8, UInt32.toNat_shiftRight, hucs]
    show c.val.toNat >>> 18 % 256 = _
    rw [shiftRight_eq_div_pow]
  have h12 : (ucs4 >>> 12).toUInt8.toNat = c.val.toNat / 4096 % 256 := by
    rw [UInt32.toNat_toUInt8, UInt32.toNat_shiftRight, hucs]
    show c.val.toNat >>> 12 % 256 = _
    rw [shiftRight_eq_div_pow]
  have h6 : (ucs4.toUInt16 >>> 6).toUInt8.toNat = c.val.toNat / 64 % 256 := by
    rw [UInt16.toNat_toUInt8, UInt16.toNat_shiftRight, UInt32.toNat_toUInt16, hucs]
    show (c.val.toNat % 65536) >>> 6 % 256 = _
    omega
  have hlast := toNat_last ucs4.toUInt16
  rw [UInt32.toNat_toUInt16, hucs] at hlast
  have hb : (0xf0 : UInt8) ||| ((ucs4 >>> 18).toUInt8 &&& 0xf) =
      UInt8.ofNat (c.val.toNat / 262144 % 0x08 + 0xf0) := by
    apply eq_ofNat
    rw [toNat_four, h18]
    omega
  have hm : (0x80 : UInt8) ||| ((ucs4 >>> 12).toUInt8 &&& 0x3f) =
      UInt8.ofNat (c.val.toNat / 4096 % 0x40 + 0x80) := by
    apply eq_ofNat
    rw [toNat_middle, h12]
    omega
  have hm' : (0x80 : UInt8) ||| ((ucs4.toUInt16 >>> 6).toUInt8 &&& 0x3f) =
      UInt8.ofNat (c.val.toNat / 64 % 0x40 + 0x80) := by
    apply eq_ofNat
    rw [toNat_middle, h6]
    omega
  have hend : ((0x80 : UInt16) ||| (ucs4.toUInt16 &&& 0x3f)).toUInt8 =
      UInt8.ofNat (c.val.toNat % 0x40 + 0x80) := by
    apply eq_ofNat
    omega
  rw [hb, hm, hm', hend]

theorem toUtf8_nil (h : High u ∨ Low u) : toUtf8 u [] = .endOfString := by
  have hge : ¬ u < 0x80 ∧ ¬ u < 0x800 := by
    unfold High Low at h
    simp only [lt_iff_toNat_lt, reduceToNat]
    omega
  unfold toUtf8
  rw [if_neg hge.1, if_neg hge.2, (isSurrogate_iff_high_or_low u).mpr h]
  rfl

theorem toUtf8_error {v : UInt16} (h : High u ∨ Low u) (huv : ¬ (High u ∧ Low v))
    (src : List UInt16) : toUtf8 u (v :: src) = .error := by
  have hge : ¬ u < 0x80 ∧ ¬ u < 0x800 := by
    unfold High Low at h
    simp only [lt_iff_toNat_lt, reduceToNat]
    omega
  unfold toUtf8
  rw [if_neg hge.1, if_neg hge.2, (isSurrogate_iff_high_or_low u).mpr h]
  simp only [Bool.not_true, Bool.false_eq_true, if_false]
  by_cases hu : High u
  · have hv : QChar.isLowSurrogate v.toUInt32 = false := by
      rw [← Bool.not_eq_true, isLowSurrogate_iff]
      exact fun hv => huv ⟨hu, hv⟩
    rw [(isHighSurrogate_iff u).mpr hu, hv]
    rfl
  · have hh : QChar.isHighSurrogate u.toUInt32 = false := by
      rwa [← Bool.not_eq_true, isHighSurrogate_iff]
    rw [hh]
    rfl

/-! ## UTF-8 to UTF-16 -/

theorem toNat_masked : ∀ b : UInt8,
    (isContinuationByte b = true ↔ 0x80 ≤ b.toNat ∧ b.toNat < 0xc0) ∧
    (b &&& 0x1f).toUInt32.toNat = b.toNat % 32 ∧ (b &&& 0x0f).toUInt32.toNat = b.toNat % 16 ∧
    (b &&& 0x07).toUInt32.toNat = b.toNat % 8 :=
  uint8_all (by decide +kernel)

theorem isContinuationByte_iff (b : UInt8) :
    isContinuationByte b = true ↔ 0x80 ≤ b.toNat ∧ b.toNat < 0xc0 :=
  (toNat_masked b).1

theorem toNat_and_1f (b : UInt8) : (b &&& 0x1f).toUInt32.toNat = b.toNat % 32 :=
  (toNat_masked b).2.1

theorem toNat_and_0f (b : UInt8) : (b &&& 0x0f).toUInt32.toNat = b.toNat % 16 :=
  (toNat_masked b).2.2.1

theorem toNat_and_07 (b : UInt8) : (b &&& 0x07).toUInt32.toNat = b.toNat % 8 :=
  (toNat_masked b).2.2.2

theorem leadByte_cases (b : UInt8) :
    ((b.toNat < 0xc2 ∨ 0xf5 ≤ b.toNat) ∧ leadByte b = none) ∨
    ((0xc2 ≤ b.toNat ∧ b.toNat < 0xe0) ∧
      ∃ uc : UInt32, leadByte b = some (2, 0x80, uc) ∧ uc.toNat = b.toNat - 0xc0) ∨
    ((0xe0 ≤ b.toNat ∧ b.toNat < 0xf0) ∧
      ∃ uc : UInt32, leadByte b = some (3, 0x800, uc) ∧ uc.toNat = b.toNat - 0xe0) ∨
    (0xf0 ≤ b.toNat ∧ b.toNat < 0xf5) ∧
      ∃ uc : UInt32, leadByte b = some (4, 0x10000, uc) ∧ uc.toNat = b.toNat - 0xf0 := by
  have h1f := toNat_and_1f b
  have h0f := toNat_and_0f b
  have h07 := toNat_and_07 b
  unfold leadByte
  simp only [UInt8.le_iff_toNat_le, UInt8.lt_iff_toNat_lt, UInt8.reduceToNat]
  by_cases h1 : b.toNat ≤ 193
  · left
    exact ⟨by omega, if_pos h1⟩
  rw [if_neg h1]
  by_cases h2 : b.toNat < 224
  · right; left
    exact ⟨by omega, _, if_pos h2, by omega⟩
  rw [if_neg h2]
  by_cases h3 : b.toNat < 240
  · right; right; left
    exact ⟨by omega, _, if_pos h3, by omega⟩
  rw [if_neg h3]
  by_cases h4 : b.toNat < 245
  · right; right; right
    exact ⟨by omega, _, if_pos h4, by omega⟩
  · left
    exact ⟨by omega, if_neg h4⟩

theorem continuations_eq {n : ℕ} (hn : n = 2 ∨ n = 3 ∨ n = 4) (m uc : UInt32) (src : List UInt8) :
    continuations n m uc src =
      if (src.take (n - 1)).all isContinuationByte then
        if src.length < n - 1 then .endOfString
        else checked n m ((src.take (n - 1)).foldl appendBits uc)
      else .error := by
  unfold continuations
  rcases hn with rfl | rfl | rfl <;> rcases src with _ | ⟨x, _ | ⟨y, _ | ⟨z, src⟩⟩⟩ <;>
    grind

/-- A sequence the text may go on with: a first byte, and fewer continuation bytes than it needs. -/
def Unfinished : List UInt8 → Prop
  | [] => False
  | b :: src => ∃ n m uc, leadByte b = some (n, m, uc) ∧ src.length < n - 1 ∧
      src.all isContinuationByte

theorem checked_char {n : ℕ} {m : UInt32} {c : Char} (hm : m ≤ c.val) :
    checked n m c.val = .ok (utf16EncodeChar c) n := by
  have hlt := val_lt c
  have hns := not_surrogate c
  have hs : QChar.isSurrogate c.val = false := by
    rw [← Bool.not_eq_true, isSurrogate_iff]
    omega
  have hlast : ¬ c.val > QChar.LastValidCodePoint := by
    unfold QChar.LastValidCodePoint
    rw [gt_iff_lt, UInt32.lt_iff_toNat_lt]
    show ¬ 0x10ffff < _
    omega
  have hreq : QChar.requiresSurrogates c.val = true ↔ ¬ c.val.toNat ≤ 0xffff := by
    unfold QChar.requiresSurrogates
    rw [decide_eq_true_iff, ge_iff_le, UInt32.le_iff_toNat_le]
    show 0x10000 ≤ _ ↔ _
    omega
  unfold checked utf16EncodeChar
  rw [if_neg (UInt32.not_lt.mpr hm), hs]
  simp only [hlast, decide_false, Bool.or_false, Bool.false_eq_true, if_false]
  by_cases hle : c.val.toNat ≤ 0xffff
  · have hr : QChar.requiresSurrogates c.val = false := by
      rw [← Bool.not_eq_true, hreq]
      exact not_not_intro hle
    have hu : c.val.toUInt16 = UInt16.ofNat c.val.toNat := by
      apply UInt16.toNat_inj.mp
      rw [UInt32.toNat_toUInt16, UInt16.toNat_ofNat']
    rw [hr, if_pos hle, hu]
    rfl
  · have hh : QChar.highSurrogate c.val = .ofNat ((c.val.toNat - 0x10000) / 1024 + 0xd800) := by
      apply UInt16.toNat_inj.mp
      unfold QChar.highSurrogate
      rw [UInt32.toNat_toUInt16, UInt16.toNat_ofNat', UInt32.toNat_add, UInt32.toNat_shiftRight]
      show (c.val.toNat >>> 10 + 0xd7c0) % 2 ^ 32 % 2 ^ 16 = _
      omega
    have hl : QChar.lowSurrogate c.val = .ofNat ((c.val.toNat - 0x10000) % 1024 + 0xdc00) := by
      apply UInt16.toNat_inj.mp
      unfold QChar.lowSurrogate
      rw [UInt32.toNat_toUInt16, UInt16.toNat_ofNat', UInt32.toNat_add, UInt32.toNat_mod]
      show (c.val.toNat % 0x400 + 0xdc00) % 2 ^ 32 % 2 ^ 16 = _
      omega
    rw [hreq.mpr hle, if_neg hle, hh, hl]
    rfl

variable {units : List UInt16}

theorem checked_ok_iff {n k : ℕ} {m uc : UInt32} :
    checked n m uc = .ok units k ↔
      k = n ∧ m ≤ uc ∧ ∃ c : Char, c.val = uc ∧ utf16EncodeChar c = units := by
  constructor
  · intro h
    have hm : m ≤ uc := by
      by_contra hlt
      unfold checked at h
      rw [if_pos (UInt32.not_le.mp hlt)] at h
      cases h
    have hv : ¬ (QChar.isSurrogate uc || uc > QChar.LastValidCodePoint) = true := by
      intro hs
      unfold checked at h
      rw [if_neg (UInt32.not_lt.mpr hm), if_pos hs] at h
      cases h
    rw [Bool.or_eq_true, isSurrogate_iff, decide_eq_true_iff, gt_iff_lt,
      UInt32.lt_iff_toNat_lt] at hv
    unfold QChar.LastValidCodePoint at hv
    simp only [UInt32.reduceToNat] at hv
    obtain ⟨c, hc⟩ := exists_char (v := uc.toNat) (by omega) (by omega)
    have hcu := UInt32.toNat_inj.mp hc
    rw [← hcu] at h hm
    rw [checked_char hm, FromUtf8.ok.injEq] at h
    exact ⟨h.2.symm, hcu ▸ hm, c, hcu, h.1⟩
  · rintro ⟨rfl, hm, c, rfl, rfl⟩
    exact checked_char hm

theorem checked_ne_endOfString (n : ℕ) (m uc : UInt32) : checked n m uc ≠ .endOfString := by
  unfold checked
  split <;> [skip; split <;> [skip; split]] <;> simp

theorem fromUtf8_ascii (hb : b.toNat < 0x80) (src : List UInt8) :
    fromUtf8 false b src = .ok [b.toUInt16] 1 := by
  have hlt : decide (b < 0x80) = true := decide_eq_true (UInt8.lt_iff_toNat_lt.mpr hb)
  unfold fromUtf8
  rw [hlt]
  rfl

theorem fromUtf8_of_ge (hb : 0x80 ≤ b.toNat) (skipAsciiHandling : Bool)
    (src : List UInt8) : fromUtf8 skipAsciiHandling b src =
      match leadByte b with
      | none => .error
      | some (n, m, uc) => continuations n m uc src := by
  have hlt : decide (b < 0x80) = false := by
    rw [decide_eq_false_iff_not, UInt8.lt_iff_toNat_lt]
    exact Nat.not_lt.mpr hb
  unfold fromUtf8
  rw [hlt, Bool.and_false]
  rfl

variable {src : List UInt8}

theorem fromUtf8_encodeChar {c : Char} {rest : List UInt8}
    (h : b :: src = String.utf8EncodeChar c ++ rest) :
    fromUtf8 false b src = .ok (utf16EncodeChar c) (String.utf8EncodeChar c).length := by
  rcases utf8EncodeChar_cases c with ⟨b', hc, hb, hv⟩ | ⟨b', x, hc, hb, hx, hv⟩ |
    ⟨b', x, y, hc, hb, hx, hy, hv, hmin⟩ | ⟨b', x, y, z, hc, hb, hx, hy, hz, hv, hmin⟩ <;>
    rw [hc, cons_append, List.cons.injEq] at h <;>
    obtain ⟨rfl, rfl⟩ := h <;> rw [hc]
  · obtain ⟨u, henc, hu, -⟩ := utf16EncodeChar_of_le (c := c) (by omega)
    have hbu : b.toUInt16 = u := by
      apply UInt16.toNat_inj.mp
      rw [UInt8.toNat_toUInt16]
      omega
    rw [fromUtf8_ascii hb, henc, hbu]
    rfl
  · obtain ⟨h, -⟩ | ⟨-, uc, hl, huc⟩ | ⟨h, -⟩ | ⟨h, -⟩ := leadByte_cases b
    · omega
    · have hval : appendBits uc x = c.val := by
        apply UInt32.toNat_inj.mp
        rw [toNat_appendBits (by omega)]
        omega
      have hm : (0x80 : UInt32) ≤ c.val := by
        rw [UInt32.le_iff_toNat_le]
        show 0x80 ≤ _
        omega
      rw [fromUtf8_of_ge (by omega), hl]
      show continuations 2 0x80 uc (x :: rest) = _
      rw [continuations_eq (by omega)]
      simp only [take_succ_cons, take_zero, all_cons, all_nil,
        (isContinuationByte_iff x).mpr hx, foldl_cons, foldl_nil, hval, checked_char hm,
        length_cons]
      rw [if_pos (by rfl), if_neg (by omega)]
      rfl
    · omega
    · omega
  · obtain ⟨h, -⟩ | ⟨h, -⟩ | ⟨-, uc, hl, huc⟩ | ⟨h, -⟩ := leadByte_cases b
    · omega
    · omega
    · have huc' : uc.toNat < 2 ^ 26 := by omega
      have hx' := toNat_appendBits huc' x
      have hval : appendBits (appendBits uc x) y = c.val := by
        apply UInt32.toNat_inj.mp
        rw [toNat_appendBits (by omega)]
        omega
      have hm : (0x800 : UInt32) ≤ c.val := by
        rw [UInt32.le_iff_toNat_le]
        exact hmin
      rw [fromUtf8_of_ge (by omega), hl]
      show continuations 3 0x800 uc (x :: y :: rest) = _
      rw [continuations_eq (by omega)]
      simp only [take_succ_cons, take_zero, all_cons, all_nil,
        (isContinuationByte_iff x).mpr hx, (isContinuationByte_iff y).mpr hy, foldl_cons,
        foldl_nil, hval, checked_char hm, length_cons]
      rw [if_pos (by rfl), if_neg (by omega)]
      rfl
    · omega
  · obtain ⟨h, -⟩ | ⟨h, -⟩ | ⟨h, -⟩ | ⟨-, uc, hl, huc⟩ := leadByte_cases b
    · omega
    · omega
    · omega
    · have huc' : uc.toNat < 2 ^ 26 := by omega
      have hx' := toNat_appendBits huc' x
      have hxlt : (appendBits uc x).toNat < 2 ^ 26 := by omega
      have hy' := toNat_appendBits hxlt y
      have hval : appendBits (appendBits (appendBits uc x) y) z = c.val := by
        apply UInt32.toNat_inj.mp
        rw [toNat_appendBits (by omega)]
        omega
      have hm : (0x10000 : UInt32) ≤ c.val := by
        rw [UInt32.le_iff_toNat_le]
        exact hmin
      rw [fromUtf8_of_ge (by omega), hl]
      show continuations 4 0x10000 uc (x :: y :: z :: rest) = _
      rw [continuations_eq (by omega)]
      simp only [take_succ_cons, take_zero, all_cons, all_nil,
        (isContinuationByte_iff x).mpr hx, (isContinuationByte_iff y).mpr hy,
        (isContinuationByte_iff z).mpr hz, foldl_cons, foldl_nil, hval, checked_char hm,
        length_cons]
      rw [if_pos (by rfl), if_neg (by omega)]
      rfl

theorem continuations_ok {n k : ℕ} (hn : n = 2 ∨ n = 3 ∨ n = 4) {m uc : UInt32}
    (h : continuations n m uc src = .ok units k) :
    n - 1 ≤ src.length ∧ (src.take (n - 1)).all isContinuationByte ∧
      checked n m ((src.take (n - 1)).foldl appendBits uc) = .ok units k := by
  rw [continuations_eq hn] at h
  by_cases hall : (src.take (n - 1)).all isContinuationByte
  · rw [if_pos hall] at h
    by_cases hlen : src.length < n - 1
    · rw [if_pos hlen] at h
      cases h
    · rw [if_neg hlen] at h
      exact ⟨by omega, hall, h⟩
  · rw [if_neg hall] at h
    cases h

theorem exists_of_fromUtf8_ok {k : ℕ} (h : fromUtf8 false b src = .ok units k) :
    ∃ c rest, b :: src = String.utf8EncodeChar c ++ rest := by
  rcases Nat.lt_or_ge b.toNat 0x80 with hb | hb
  · obtain ⟨c, hc⟩ := exists_char (v := b.toNat) (by omega) (by omega)
    exact ⟨c, src, by rw [utf8EncodeChar_one hb hc]; rfl⟩
  rw [fromUtf8_of_ge hb] at h
  obtain ⟨-, hl⟩ | ⟨hb, uc, hl, huc⟩ | ⟨hb, uc, hl, huc⟩ | ⟨hb, uc, hl, huc⟩ := leadByte_cases b
  · rw [hl] at h
    cases h
  · rw [hl] at h
    obtain ⟨hlen, hall, hchk⟩ := continuations_ok (by omega) h
    obtain ⟨-, -, c, hval, -⟩ := checked_ok_iff.1 hchk
    rcases src with _ | ⟨x, rest⟩
    · simp at hlen
    simp only [take_succ_cons, take_zero, all_cons, all_nil, Bool.and_true,
      isContinuationByte_iff] at hall
    have huc' : uc.toNat < 2 ^ 26 := by omega
    have hnat := toNat_appendBits huc' x
    have hc : c.val.toNat = (b.toNat - 0xc0) * 64 + (x.toNat - 0x80) := by
      rw [hval]
      show (appendBits uc x).toNat = _
      omega
    exact ⟨c, rest, by rw [utf8EncodeChar_two hb hall hc]; rfl⟩
  · rw [hl] at h
    obtain ⟨hlen, hall, hchk⟩ := continuations_ok (by omega) h
    obtain ⟨-, hm, c, hval, -⟩ := checked_ok_iff.1 hchk
    rcases src with _ | ⟨x, _ | ⟨y, rest⟩⟩
    · simp at hlen
    · simp at hlen
    simp only [take_succ_cons, take_zero, all_cons, all_nil, Bool.and_true,
      Bool.and_eq_true, isContinuationByte_iff] at hall
    have huc' : uc.toNat < 2 ^ 26 := by omega
    have hx := toNat_appendBits huc' x
    have hxlt : (appendBits uc x).toNat < 2 ^ 26 := by omega
    have hy := toNat_appendBits hxlt y
    have hc : c.val.toNat =
        ((b.toNat - 0xe0) * 64 + (x.toNat - 0x80)) * 64 + (y.toNat - 0x80) := by
      rw [hval]
      show (appendBits (appendBits uc x) y).toNat = _
      omega
    rw [← hval, UInt32.le_iff_toNat_le] at hm
    exact ⟨c, rest, by rw [utf8EncodeChar_three hb hall.1 hall.2 hc hm]; rfl⟩
  · rw [hl] at h
    obtain ⟨hlen, hall, hchk⟩ := continuations_ok (by omega) h
    obtain ⟨-, hm, c, hval, -⟩ := checked_ok_iff.1 hchk
    rcases src with _ | ⟨x, _ | ⟨y, _ | ⟨z, rest⟩⟩⟩
    · simp at hlen
    · simp at hlen
    · simp at hlen
    simp only [take_succ_cons, take_zero, all_cons, all_nil, Bool.and_true,
      Bool.and_eq_true, isContinuationByte_iff] at hall
    have huc' : uc.toNat < 2 ^ 26 := by omega
    have hx := toNat_appendBits huc' x
    have hxlt : (appendBits uc x).toNat < 2 ^ 26 := by omega
    have hy := toNat_appendBits hxlt y
    have hylt : (appendBits (appendBits uc x) y).toNat < 2 ^ 26 := by omega
    have hz := toNat_appendBits hylt z
    have hc : c.val.toNat = (((b.toNat - 0xf0) * 64 + (x.toNat - 0x80)) * 64 +
        (y.toNat - 0x80)) * 64 + (z.toNat - 0x80) := by
      rw [hval]
      show (appendBits (appendBits (appendBits uc x) y) z).toNat = _
      omega
    rw [← hval, UInt32.le_iff_toNat_le] at hm
    exact ⟨c, rest, by rw [utf8EncodeChar_four hb hall.1 hall.2.1 hall.2.2 hc hm]; rfl⟩

theorem fromUtf8_ok_iff {k : ℕ} :
    fromUtf8 false b src = .ok units k ↔
      ∃ c rest, b :: src = String.utf8EncodeChar c ++ rest ∧ units = utf16EncodeChar c ∧
        k = (String.utf8EncodeChar c).length := by
  constructor
  · intro h
    obtain ⟨c, rest, hc⟩ := exists_of_fromUtf8_ok h
    rw [fromUtf8_encodeChar hc, FromUtf8.ok.injEq] at h
    exact ⟨c, rest, hc, h.1.symm, h.2.symm⟩
  · rintro ⟨c, rest, hc, rfl, rfl⟩
    exact fromUtf8_encodeChar hc

theorem leadByte_length {n : ℕ} {m uc : UInt32} (h : leadByte b = some (n, m, uc)) :
    (n = 2 ∨ n = 3 ∨ n = 4) ∧ 0x80 ≤ b.toNat := by
  obtain ⟨-, hl⟩ | ⟨hb, uc, hl, -⟩ | ⟨hb, uc, hl, -⟩ | ⟨hb, uc, hl, -⟩ := leadByte_cases b <;>
    rw [hl] at h <;> cases h
  · exact ⟨.inl rfl, by omega⟩
  · exact ⟨.inr (.inl rfl), by omega⟩
  · exact ⟨.inr (.inr rfl), by omega⟩

theorem fromUtf8_endOfString_iff :
    fromUtf8 false b src = .endOfString ↔ Unfinished (b :: src) := by
  constructor
  · intro h
    have hb : 0x80 ≤ b.toNat := by
      by_contra hlt
      rw [fromUtf8_ascii (by omega)] at h
      cases h
    rw [fromUtf8_of_ge hb] at h
    cases hl : leadByte b with
    | none =>
      rw [hl] at h
      cases h
    | some p =>
      obtain ⟨n, m, uc⟩ := p
      rw [hl] at h
      change continuations n m uc src = .endOfString at h
      rw [continuations_eq (leadByte_length hl).1] at h
      by_cases hall : (src.take (n - 1)).all isContinuationByte
      · rw [if_pos hall] at h
        by_cases hlen : src.length < n - 1
        · rw [take_of_length_le (by omega)] at hall
          exact ⟨n, m, uc, hl, hlen, hall⟩
        · rw [if_neg hlen] at h
          exact absurd h (checked_ne_endOfString _ _ _)
      · rw [if_neg hall] at h
        cases h
  · rintro ⟨n, m, uc, hl, hlen, hall⟩
    obtain ⟨hn, hb⟩ := leadByte_length hl
    rw [fromUtf8_of_ge hb, hl]
    show continuations n m uc src = _
    rw [continuations_eq hn, take_of_length_le (by omega), if_pos hall, if_pos hlen]

theorem fromUtf8_append (h : ¬ Unfinished (b :: src))
    (more : List UInt8) : fromUtf8 false b (src ++ more) = fromUtf8 false b src := by
  rcases Nat.lt_or_ge b.toNat 0x80 with hb | hb
  · rw [fromUtf8_ascii hb, fromUtf8_ascii hb]
  rw [fromUtf8_of_ge hb, fromUtf8_of_ge hb]
  cases hl : leadByte b with
  | none => rfl
  | some p =>
    obtain ⟨n, m, uc⟩ := p
    show continuations n m uc (src ++ more) = continuations n m uc src
    have hn := (leadByte_length hl).1
    rw [continuations_eq hn, continuations_eq hn]
    by_cases hlen : n - 1 ≤ src.length
    · have hshort : ¬ src.length < n - 1 := by omega
      have hshort' : ¬ src.length + more.length < n - 1 := by omega
      rw [take_append_of_le_length hlen, length_append, if_neg hshort, if_neg hshort']
    · have hall : ¬ src.all isContinuationByte :=
        fun hall => h ⟨n, m, uc, hl, by omega, hall⟩
      have htake : src.take (n - 1) = src := take_of_length_le (by omega)
      have hall' : ¬ ((src ++ more).take (n - 1)).all isContinuationByte := by
        rw [take_append, htake, all_append, Bool.and_eq_true]
        exact fun h => hall h.1
      rw [if_neg hall', htake, if_neg hall]

theorem Unfinished.length_lt {r : List UInt8} (h : Unfinished r) : 0 < r.length ∧ r.length < 4 := by
  cases r with
  | nil => exact h.elim
  | cons b src =>
    obtain ⟨n, m, uc, hl, hlen, -⟩ := h
    have hn := (leadByte_length hl).1
    simp
    omega

end QtBase
