import QtBase.Io.Punycode
import QtBase.Lib.Bootstring

/-! Thresholds, biases and deltas as numbers. The `uint` arithmetic agrees as long as they are small
enough, which those of a label are. -/
namespace QtBase

open UInt32

namespace Punycode

open Bootstring

/-! ## Thresholds -/

/-- The threshold of the digit at a place. -/
def limit (bias place : ℕ) : ℕ :=
  if 36 * (place + 1) ≤ bias then 1
  else if bias + 26 ≤ 36 * (place + 1) then 26
  else 36 * (place + 1) - bias

theorem limit_pos (bias place : ℕ) : 0 < limit bias place ∧ limit bias place < 36 := by
  unfold limit
  split
  · omega
  · split <;> omega

theorem limit_le (bias place : ℕ) : limit bias place ≤ 26 := by
  unfold limit
  split
  · omega
  · split <;> omega

theorem threshold_ofNat {bias place : ℕ} (hbias : bias < 2 ^ 16) (hplace : place < 2 ^ 16) :
    threshold (.ofNat (36 * (place + 1))) (.ofNat bias) = pure (ofNat (limit bias place)) := by
  have htop : uAdd (ofNat bias) tmax = pure (ofNat (bias + 26)) :=
    @uAdd_ofNat bias 26 (by omega)
  unfold threshold limit
  simp only [ofNat_le (show 36 * (place + 1) < 2 ^ 32 by omega) (show bias < 2 ^ 32 by omega)]
  by_cases hk : 36 * (place + 1) ≤ bias
  · rw [if_pos hk, if_pos hk]
    rfl
  · rw [if_neg hk, if_neg hk, htop, Wraps.pure_bind]
    simp only [ge_iff_le, ofNat_le (show bias + 26 < 2 ^ 32 by omega)
      (show 36 * (place + 1) < 2 ^ 32 by omega)]
    by_cases hk' : bias + 26 ≤ 36 * (place + 1)
    · rw [if_pos hk', if_pos hk']
      rfl
    · rw [if_neg hk', if_neg hk']
      exact uSub_ofNat (by omega) (by omega)

/-! ## Biases -/

def adaptLoopNat : ℕ → ℕ → ℕ → ℕ × ℕ
  | 0, k, delta => (k, delta)
  | rounds + 1, k, delta =>
    if delta > 455 then adaptLoopNat rounds (k + 36) (delta / 35) else (k, delta)

def adaptNat (delta numpoints : ℕ) (firsttime : Bool) : ℕ :=
  let delta := delta / (if firsttime then 700 else 2)
  let (k, delta) := adaptLoopNat 32 0 (delta + delta / numpoints)
  k + 36 * delta / (delta + 38)

theorem adaptLoop_ofNat {rounds k delta : ℕ} (hk : k + 36 * rounds < 2 ^ 32)
    (hdelta : delta < 2 ^ 32) : adaptLoop rounds (.ofNat k) (.ofNat delta) =
      pure (ofNat (adaptLoopNat rounds k delta).1,
        ofNat (adaptLoopNat rounds k delta).2) := by
  induction rounds generalizing k delta with
  | zero => rfl
  | succ rounds ih =>
    have hbound : (base - tmin) * tmax / 2 = ofNat 455 := rfl
    have hadd : uAdd (ofNat k) base = pure (ofNat (k + 36)) :=
      @uAdd_ofNat k 36 (by omega)
    have hdiv : ofNat delta / (base - tmin) = ofNat (delta / 35) :=
      ofNat_div hdelta (show 35 < 2 ^ 32 by omega)
    have hle := Nat.div_le_self delta 35
    unfold adaptLoop adaptLoopNat
    simp only [hbound, gt_iff_lt, ofNat_lt (show 455 < 2 ^ 32 by omega) hdelta]
    by_cases h : 455 < delta
    · rw [if_pos h, if_pos h, hadd, Wraps.pure_bind, hdiv]
      exact ih (by omega) (by omega)
    · rw [if_neg h, if_neg h]

theorem adaptLoopNat_snd {rounds k delta : ℕ} (h : delta < 2 ^ rounds) :
    (adaptLoopNat rounds k delta).2 ≤ 455 := by
  induction rounds generalizing k delta with
  | zero =>
    show delta ≤ 455
    omega
  | succ rounds ih =>
    rw [Nat.pow_succ] at h
    unfold adaptLoopNat
    by_cases hlt : delta > 455
    · rw [if_pos hlt]
      exact ih (by omega)
    · simp [hlt]
      omega

theorem adaptLoopNat_fst {rounds k delta n : ℕ} (h : delta < 456 * 35 ^ n) :
    (adaptLoopNat rounds k delta).1 ≤ k + 36 * n := by
  induction rounds generalizing k delta n with
  | zero => exact Nat.le_add_right _ _
  | succ rounds ih =>
    unfold adaptLoopNat
    by_cases hlt : delta > 455
    · rw [if_pos hlt]
      cases n with
      | zero => omega
      | succ n =>
        rw [Nat.pow_succ] at h
        have hle := @ih (k + 36) (delta / 35) n (by omega)
        omega
    · simp [hlt]

theorem adaptNat_le {delta n : ℕ} (numpoints : ℕ) (firsttime : Bool) (h : delta < 456 * 35 ^ n)
    (hdelta : delta < 2 ^ 32) :
    adaptNat delta numpoints firsttime ≤ 36 * n + 35 := by
  have hdiv : delta / (if firsttime then 700 else 2) ≤ delta / 2 := by
    cases firsttime with
    | true => exact Nat.div_le_div_left (by decide) (by decide)
    | false => exact Nat.le_refl _
  unfold adaptNat
  simp only
  generalize delta / (if firsttime then 700 else 2) = d at hdiv ⊢
  have hle := Nat.div_le_self d numpoints
  have hsmall : d + d / numpoints < 2 ^ 32 := by omega
  have hfst := @adaptLoopNat_fst 32 0 (d + d / numpoints) n (by omega)
  have hsnd := @adaptLoopNat_snd 32 0 (d + d / numpoints) hsmall
  generalize adaptLoopNat 32 0 (d + d / numpoints) = r at hfst hsnd ⊢
  obtain ⟨k, r⟩ := r
  have hquot : 36 * r / (r + 38) ≤ 35 := by
    apply Nat.le_of_lt_succ
    rw [Nat.div_lt_iff_lt_mul (Nat.succ_pos _)]
    omega
  exact Nat.add_le_add (by omega) hquot

theorem adapt_ofNat {delta numpoints : ℕ} (firsttime : Bool) (hdelta : delta < 2 ^ 32)
    (hpoints : numpoints < 2 ^ 32) :
    adapt (.ofNat delta) (.ofNat numpoints) firsttime =
      pure (ofNat (adaptNat delta numpoints firsttime)) := by
  have hdiv : delta / (if firsttime then 700 else 2) ≤ delta / 2 := by
    cases firsttime with
    | true => exact Nat.div_le_div_left (by decide) (by decide)
    | false => exact Nat.le_refl _
  have hfirst : ofNat delta / (if firsttime then damp else 2) =
      ofNat (delta / (if firsttime then 700 else 2)) := by
    cases firsttime with
    | true => exact ofNat_div hdelta (show 700 < 2 ^ 32 by omega)
    | false => exact ofNat_div hdelta (show 2 < 2 ^ 32 by omega)
  unfold adapt adaptNat
  simp only
  rw [hfirst]
  generalize delta / (if firsttime then 700 else 2) = d at hdiv ⊢
  have hle := Nat.div_le_self d numpoints
  have hsmall : d + d / numpoints < 2 ^ 32 := by omega
  have hfst := @adaptLoopNat_fst 32 0 (d + d / numpoints) 32
    (Nat.lt_of_lt_of_le hsmall (by decide))
  have hsnd := @adaptLoopNat_snd 32 0 (d + d / numpoints) hsmall
  have hloop := @adaptLoop_ofNat 32 0 (d + d / numpoints) (by omega) hsmall
  rw [@ofNat_div d numpoints (by omega) hpoints, uAdd_ofNat hsmall, Wraps.pure_bind]
  change adaptLoop 32 0 _ = _ at hloop
  rw [hloop, Wraps.pure_bind]
  generalize adaptLoopNat 32 0 (d + d / numpoints) = r at hfst hsnd ⊢
  obtain ⟨k, r⟩ := r
  simp only at hfst hsnd ⊢
  have hmul : uMul (base - tmin + 1) (ofNat r) = pure (ofNat (36 * r)) :=
    @uMul_ofNat 36 r (by omega) (by omega) (by omega)
  have hadd : uAdd (ofNat r) skew = pure (ofNat (r + 38)) :=
    @uAdd_ofNat r 38 (by omega)
  have hquot := Nat.div_le_self (36 * r) (r + 38)
  rw [hmul, Wraps.pure_bind, hadd, Wraps.pure_bind, @ofNat_div (36 * r) (r + 38) (by omega) (by omega)]
  exact uAdd_ofNat (by omega)

/-! ## Digits -/

def digitUnit (digit : ℕ) : UInt16 := .ofNat (digit + 22 + if digit < 26 then 75 else 0)

theorem encodeDigit_ofNat {digit : ℕ} (h : digit < 36) :
    ∃ unit, encodeDigit (.ofNat digit) = pure unit ∧ unit.toUInt16 = digitUnit digit := by
  have hall : ∀ digit ∈ List.range 36, (encodeDigit (.ofNat digit)).wrapped = false ∧
      (encodeDigit (.ofNat digit)).value.toUInt16 = digitUnit digit := by decide
  have ⟨hw, hv⟩ := hall digit (List.mem_range.mpr h)
  exact ⟨_, Wraps.eq_pure rfl hw, hv⟩

theorem decodeDigit_digitUnit {digit : ℕ} (h : digit < 36) :
    decodeDigit (digitUnit digit).toUInt32 = pure (ofNat digit) := by
  have hall : ∀ digit ∈ List.range 36, (decodeDigit (digitUnit digit).toUInt32).wrapped = false ∧
      (decodeDigit (digitUnit digit).toUInt32).value = ofNat digit := by decide
  have ⟨hw, hv⟩ := hall digit (List.mem_range.mpr h)
  exact Wraps.eq_pure hv hw

theorem digitUnit_ne_delimiter {digit : ℕ} (h : digit < 36) : digitUnit digit ≠ 0x2d := by
  have hall : ∀ digit ∈ List.range 36, digitUnit digit ≠ 0x2d := by decide
  exact hall digit (List.mem_range.mpr h)

/-- The characters of a delta that is spelled for a bias. -/
def spell (bias delta : ℕ) : List UInt16 := (digits 36 (limit bias) 0 delta).map digitUnit

theorem appendDigits_ofNat {rounds q bias place : ℕ} (hq : q < 2 ^ rounds) (hrounds : rounds ≤ 32)
    (hbias : bias < 2 ^ 16) (hplace : place + rounds < 2 ^ 16) (output : List UInt16) :
    appendDigits rounds (.ofNat q) (.ofNat (36 * (place + 1))) (.ofNat bias) output =
      pure (output ++ (digits 36 (limit bias) place q).map digitUnit) := by
  induction rounds generalizing q place output with
  | zero =>
    have hq' : q = 0 := Nat.lt_one_iff.mp hq
    have hdigits := @digits_of_lt 36 (limit bias) place q (by rw [hq']; exact (limit_pos _ _).1)
    have ⟨unit, hencode, hunit⟩ := encodeDigit_ofNat (show q < 36 by omega)
    unfold appendDigits
    rw [hencode, Wraps.pure_bind, hunit, hdigits]
    rfl
  | succ rounds ih =>
    have hpow : 2 ^ (rounds + 1) ≤ 2 ^ 32 := Nat.pow_le_pow_right (by decide) hrounds
    have hlimit := limit_le bias place
    have hlimit' := limit_pos bias place
    unfold appendDigits
    rw [threshold_ofNat hbias (by omega), Wraps.pure_bind]
    simp only [ofNat_lt (show q < 2 ^ 32 by omega) (show limit bias place < 2 ^ 32 by omega)]
    by_cases hlt : q < limit bias place
    · have ⟨unit, hencode, hunit⟩ := encodeDigit_ofNat (show q < 36 by omega)
      rw [if_pos hlt, hencode, Wraps.pure_bind, hunit, digits_of_lt hlt]
      rfl
    · have hspan : uSub base (ofNat (limit bias place)) =
          pure (ofNat (36 - limit bias place)) := @uSub_ofNat 36 _ (by omega) (by omega)
      have hk : uAdd (ofNat (36 * (place + 1))) base =
          pure (ofNat (36 * (place + 1 + 1))) := @uAdd_ofNat (36 * (place + 1)) 36 (by omega)
      have hmod := Nat.mod_lt (q - limit bias place) (show 0 < 36 - limit bias place by omega)
      have hdiv : (q - limit bias place) / (36 - limit bias place) ≤ (q - limit bias place) / 2 :=
        Nat.div_le_div_left (by omega) (by decide)
      have ⟨unit, hencode, hunit⟩ := encodeDigit_ofNat
        (show limit bias place + (q - limit bias place) % (36 - limit bias place) < 36 by omega)
      rw [Nat.pow_succ] at hq
      rw [if_neg hlt, uSub_ofNat (by omega) (Nat.not_lt.mp hlt), Wraps.pure_bind, hspan,
        Wraps.pure_bind, ofNat_mod (by omega) (by omega), uAdd_ofNat (by omega), Wraps.pure_bind,
        hencode, Wraps.pure_bind, hk, Wraps.pure_bind, ofNat_div (by omega) (by omega),
        ih (by omega) (by omega) (by omega), hunit,
        digits_of_le (limit_pos bias) (Nat.not_lt.mp hlt), List.append_assoc]
      rfl

theorem appendEncode_ofNat {delta bias : ℕ} (hdelta : delta < 2 ^ 32) (hbias : bias < 2 ^ 16)
    (output : List UInt16) :
    appendEncode output (.ofNat delta) (.ofNat bias) = pure (output ++ spell bias delta) :=
  @appendDigits_ofNat 32 delta bias 0 hdelta (Nat.le_refl _) hbias (by decide) output

theorem weight_lt {bias place w q : ℕ} (hbias : bias < 180) (hw : w ≤ 35 ^ place)
    (hq : limit bias place ≤ q) (hsum : w * q ≤ 150000000) :
    w * (36 - limit bias place) < 2 ^ 32 := by
  have hpos := (limit_pos bias place).1
  rcases Nat.eq_or_lt_of_le hpos with hone | hmore
  · -- the threshold is 1 up to the bias only
    have hplace : place ≤ 4 := by
      unfold limit at hone
      split at hone
      · omega
      · split at hone <;> omega
    have hpow : 35 ^ place ≤ 35 ^ 4 := Nat.pow_le_pow_right (by decide) hplace
    have hmul : w * (36 - limit bias place) ≤ 35 ^ 4 * 35 :=
      Nat.mul_le_mul (Nat.le_trans hw hpow) (by omega)
    exact Nat.lt_of_le_of_lt hmul (by decide)
  · have htwo : w * 2 ≤ w * q := Nat.mul_le_mul_left w (by omega)
    have hmul : w * (36 - limit bias place) ≤ w * 34 := Nat.mul_le_mul_left w (by omega)
    omega

theorem readDelta_cons {digit bias place w i : ℕ} (hdigit : digit < 36) (hbias : bias < 2 ^ 16)
    (hplace : place + 1 < 2 ^ 16) (hw : w < 2 ^ 32) (hi : i < 2 ^ 32) (pc : List UInt16) :
    readDelta (.ofNat bias) (digitUnit digit :: pc) (.ofNat (36 * (place + 1))) (.ofNat w) (.ofNat i) =
      if digit * w < 2 ^ 32 ∧ i + digit * w < 2 ^ 32 then
        if digit < limit bias place then pure (some (ofNat (i + digit * w), pc))
        else if w * (36 - limit bias place) < 2 ^ 32 then
          readDelta (.ofNat bias) pc (.ofNat (36 * (place + 1 + 1)))
            (.ofNat (w * (36 - limit bias place))) (.ofNat (i + digit * w))
        else pure none
      else pure none := by
  have hlimit := limit_pos bias place
  have hbase : ¬ofNat digit ≥ base := by
    show ¬ofNat 36 ≤ ofNat digit
    rw [ofNat_le (by omega) (by omega)]
    omega
  have hspan : uSub base (ofNat (limit bias place)) =
      pure (ofNat (36 - limit bias place)) := @uSub_ofNat 36 _ (by omega) (by omega)
  have hk : uAdd (ofNat (36 * (place + 1))) base =
      pure (ofNat (36 * (place + 1 + 1))) := @uAdd_ofNat (36 * (place + 1)) 36 (by omega)
  rw [readDelta, decodeDigit_digitUnit hdigit, Wraps.pure_bind, if_neg hbase,
    qMulOverflow_ofNat (by omega) hw]
  by_cases hmul : digit * w < 2 ^ 32
  · rw [if_pos hmul]
    simp only
    rw [qAddOverflow_ofNat hi hmul]
    by_cases hadd : i + digit * w < 2 ^ 32
    · rw [if_pos hadd, if_pos ⟨hmul, hadd⟩]
      simp only
      rw [threshold_ofNat hbias (by omega), Wraps.pure_bind]
      simp only [ofNat_lt (show digit < 2 ^ 32 by omega) (show limit bias place < 2 ^ 32 by omega)]
      by_cases hlt : digit < limit bias place
      · rw [if_pos hlt, if_pos hlt]
      · rw [if_neg hlt, if_neg hlt, hspan, Wraps.pure_bind, qMulOverflow_ofNat hw (by omega)]
        by_cases hweight : w * (36 - limit bias place) < 2 ^ 32
        · rw [if_pos hweight, if_pos hweight]
          simp only
          rw [hk, Wraps.pure_bind]
        · rw [if_neg hweight, if_neg hweight]
    · rw [if_neg hadd, if_neg (fun h => hadd h.2)]
  · rw [if_neg hmul, if_neg (fun h => hmul h.1)]

theorem readDelta_digits {rounds q bias place w i : ℕ} (hq : q < 2 ^ rounds)
    (hplace : place + rounds + 1 < 2 ^ 16) (hbias : bias < 180) (hw : w ≤ 35 ^ place)
    (hsum : i + w * q ≤ 150000000) (hw' : w < 2 ^ 32) (rest : List UInt16) :
    readDelta (.ofNat bias) ((digits 36 (limit bias) place q).map digitUnit ++ rest)
        (.ofNat (36 * (place + 1))) (.ofNat w) (.ofNat i) =
      pure (some (ofNat (i + w * q), rest)) := by
  induction rounds generalizing q place w i with
  | zero =>
    have hq' : q = 0 := Nat.lt_one_iff.mp hq
    have hlt : q < limit bias place := hq' ▸ (limit_pos _ _).1
    have hmul : q * w = w * q := Nat.mul_comm _ _
    rw [digits_of_lt hlt]
    show readDelta _ (digitUnit q :: rest) _ _ _ = _
    rw [readDelta_cons (by omega) (by omega) (by omega) hw' (by omega), hmul,
      if_pos (by omega), if_pos hlt]
  | succ rounds ih =>
    have hlimit := limit_pos bias place
    by_cases hlt : q < limit bias place
    · have hmul : q * w = w * q := Nat.mul_comm _ _
      rw [digits_of_lt hlt]
      show readDelta _ (digitUnit q :: rest) _ _ _ = _
      rw [readDelta_cons (by omega) (by omega) (by omega) hw' (by omega), hmul,
        if_pos (by omega), if_pos hlt]
    · have hweight := weight_lt hbias hw (Nat.not_lt.mp hlt) (by omega)
      have hmod := Nat.mod_lt (q - limit bias place) (show 0 < 36 - limit bias place by omega)
      have hsplit := Nat.mod_add_div (q - limit bias place) (36 - limit bias place)
      have hdiv : (q - limit bias place) / (36 - limit bias place) ≤ (q - limit bias place) / 2 :=
        Nat.div_le_div_left (by have := limit_le bias place; omega) (by decide)
      generalize hd : limit bias place + (q - limit bias place) % (36 - limit bias place) = digit
      generalize hq' : (q - limit bias place) / (36 - limit bias place) = q' at hdiv hsplit
      have hvalue : digit + (36 - limit bias place) * q' = q := by omega
      have hsum' : digit * w + w * (36 - limit bias place) * q' = w * q := by
        rw [← hvalue, Nat.mul_add, Nat.mul_assoc, Nat.mul_comm digit w]
      have hpow : w * (36 - limit bias place) ≤ 35 ^ (place + 1) := by
        rw [Nat.pow_succ]
        exact Nat.mul_le_mul hw (by omega)
      rw [Nat.pow_succ] at hq
      rw [digits_of_le (limit_pos bias) (Nat.not_lt.mp hlt), hd, hq']
      show readDelta _ (digitUnit digit :: ((digits _ _ _ q').map digitUnit ++ rest)) _ _ _ = _
      rw [readDelta_cons (by omega) (by omega) (by omega) hw' (by omega), if_pos (by omega),
        if_neg (by omega), if_pos hweight,
        ih (by omega) (by omega) hpow (by omega) hweight, Nat.add_assoc, hsum']

theorem readDelta_spell {delta bias i : ℕ} (hbias : bias < 180) (hsum : i + delta ≤ 150000000)
    (rest : List UInt16) : readDelta (.ofNat bias) (spell bias delta ++ rest) base 1 (.ofNat i) =
      pure (some (ofNat (i + delta), rest)) := by
  have hread := @readDelta_digits 32 delta bias 0 1 i (by omega) (by decide) hbias (Nat.le_refl 1)
    (by omega) (by decide) rest
  rw [Nat.one_mul] at hread
  exact hread

end Punycode

end QtBase
