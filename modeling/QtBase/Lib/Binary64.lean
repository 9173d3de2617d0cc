import Mathlib.Algebra.Order.Field.Power
import Mathlib.Data.Nat.Size
import Mathlib.Data.Rat.Cast.Order
import Mathlib.Tactic.Linarith
import Mathlib.Tactic.Positivity
import Mathlib.Tactic.Ring
import Mathlib.Tactic.NormNum
import Mathlib.Tactic.Push

/-! Finite double-precision numbers, and the nearest of them to an unsigned 64-bit integer. -/
namespace QtBase.Lib

/-- The significand has 53 bits, but for the smallest exponent. -/
structure Double where
  negative : Bool
  significand : ℕ
  exponent : ℤ
  significand_lt : significand < 2 ^ 53
  exponent_ge : -1074 ≤ exponent
  exponent_le : exponent ≤ 971
  normal : 2 ^ 52 ≤ significand ∨ exponent = -1074

namespace Double

def magnitude (d : Double) : ℚ := d.significand * (2 : ℚ) ^ d.exponent

def value (d : Double) : ℚ := if d.negative then -d.magnitude else d.magnitude

/-- Equal to 0, of either sign. -/
def IsZero (d : Double) : Prop := d.significand = 0

instance (d : Double) : Decidable d.IsZero := inferInstanceAs (Decidable (d.significand = 0))

def neg (d : Double) : Double := { d with negative := !d.negative }

/-- The number is the nearest one, and has an even significand if there is another as near. -/
structure Rounds (x : ℚ) (d : Double) : Prop where
  nearest : ∀ d' : Double, |d.value - x| ≤ |d'.value - x|
  even : ∀ d' : Double, |d'.value - x| = |d.value - x| → d'.value ≠ d.value →
    d.significand % 2 = 0

@[simp] theorem value_neg (d : Double) : d.neg.value = -d.value := by
  unfold neg value magnitude
  cases d.negative with
  | true => exact (neg_neg _).symm
  | false => rfl

theorem neg_neg_value (d : Double) : d.neg.neg.value = d.value := by
  rw [value_neg, value_neg, neg_neg]

variable {d : Double}

theorem Rounds.neg {x : ℚ} (h : Rounds x d) : Rounds (-x) d.neg := by
  have hmirror (d : Double) : |d.neg.value - -x| = |d.value - x| := by
    rw [value_neg, ← abs_neg]
    congr 1
    ring
  constructor
  · intro d'
    rw [hmirror, ← neg_neg_value d', hmirror]
    exact h.nearest d'.neg
  · intro d' heq hne
    rw [hmirror, ← neg_neg_value d', hmirror] at heq
    refine h.even d'.neg heq fun hsame => hne ?_
    rw [← neg_neg_value d', value_neg, hsame, value_neg]

/-! ## Integers -/

/-- `v / 2 ^ e`, to the nearest integer, to the even one at a midpoint. -/
def roundEven (v e : ℕ) : ℕ :=
  let q := v / 2 ^ e
  let r := v % 2 ^ e
  if 2 * r < 2 ^ e ∨ (2 * r = 2 ^ e ∧ q % 2 = 0) then q else q + 1

theorem roundEven_nearest (v e : ℕ) (k : ℤ) :
    |(roundEven v e : ℤ) * 2 ^ e - v| ≤ |k * 2 ^ e - v| ∧
      (|k * 2 ^ e - v| = |(roundEven v e : ℤ) * 2 ^ e - v| → k ≠ roundEven v e →
        roundEven v e % 2 = 0) := by
  have hcast : (2 : ℤ) ^ e = ((2 ^ e : ℕ) : ℤ) := by push_cast; rfl
  have hpos := Nat.two_pow_pos e
  have hdiv := Nat.div_add_mod v (2 ^ e)
  have hmod := Nat.mod_lt v hpos
  unfold roundEven
  dsimp only
  rw [hcast]
  generalize v / 2 ^ e = q at *
  generalize v % 2 ^ e = r at *
  generalize 2 ^ e = U at *
  have hv : (v : ℤ) = U * q + r := by exact_mod_cast hdiv.symm
  have hr : (r : ℤ) < U := by exact_mod_cast hmod
  have hr0 : (0 : ℤ) ≤ r := Int.natCast_nonneg r
  -- the multiples at or below `v`, and those above
  have hlow (j : ℤ) (hj : j ≤ q) : |j * U - v| = (r : ℤ) + (q - j) * U := by
    have hnonneg : 0 ≤ (q - j) * U := mul_nonneg (by omega) (Int.natCast_nonneg U)
    rw [abs_sub_comm, abs_of_nonneg (by rw [hv]; nlinarith), hv]
    ring
  have hhigh (j : ℤ) (hj : q < j) : |j * U - v| = (j - q) * U - r := by
    have hge : U ≤ (j - q) * U := by nlinarith
    rw [abs_of_nonneg (by rw [hv]; nlinarith), hv]
    ring
  by_cases hdown : 2 * r < U ∨ (2 * r = U ∧ q % 2 = 0)
  · rw [if_pos hdown, hlow q (le_refl _)]
    by_cases hk : k ≤ q
    · rw [hlow k hk]
      have hnonneg : 0 ≤ (q - k) * U := mul_nonneg (by omega) (Int.natCast_nonneg U)
      refine ⟨by linarith, fun heq hne => absurd ?_ hne⟩
      have hzero : (q - k) * U = 0 := by linarith
      rcases mul_eq_zero.mp hzero with h | h
      · omega
      · omega
    · rw [hhigh k (by omega)]
      have hge : U ≤ (k - q) * U := by nlinarith
      refine ⟨by rcases hdown with h | h <;> omega, fun heq _ => ?_⟩
      rcases hdown with h | h
      · omega
      · exact h.2
  · rw [if_neg hdown]
    push Not at hdown
    obtain ⟨hhalf, hodd⟩ := hdown
    push_cast
    rw [hhigh (q + 1) (by omega)]
    by_cases hk : k ≤ q
    · rw [hlow k hk]
      have hnonneg : 0 ≤ (q - k) * U := mul_nonneg (by omega) (Int.natCast_nonneg U)
      refine ⟨by linarith, fun heq _ => ?_⟩
      have hne := hodd (by omega)
      omega
    · rw [hhigh k (by omega)]
      have hge : U ≤ (k - q) * U := by nlinarith
      refine ⟨by linarith, fun heq hne => absurd ?_ hne⟩
      have hzero : (k - q - 1) * U = 0 := by linarith
      rcases mul_eq_zero.mp hzero with h | h
      · omega
      · omega

theorem roundEven_le {v e n : ℕ} (h : v < 2 ^ (n + e)) : roundEven v e ≤ 2 ^ n := by
  have hq : v / 2 ^ e < 2 ^ n := Nat.div_lt_of_lt_mul (by rwa [Nat.mul_comm, ← Nat.pow_add])
  unfold roundEven
  dsimp only
  split_ifs <;> omega

theorem le_roundEven {v e n : ℕ} (h : 2 ^ (n + e) ≤ v) : 2 ^ n ≤ roundEven v e := by
  have hq : 2 ^ n ≤ v / 2 ^ e := (Nat.le_div_iff_mul_le (Nat.two_pow_pos e)).mpr
    (by rwa [← Nat.pow_add])
  unfold roundEven
  dsimp only
  split_ifs <;> omega

theorem magnitude_nonneg (d : Double) : 0 ≤ d.magnitude := by
  unfold magnitude
  positivity

theorem abs_value (d : Double) : |d.value| = d.magnitude := by
  unfold value
  split_ifs
  · rw [abs_neg, abs_of_nonneg d.magnitude_nonneg]
  · exact abs_of_nonneg d.magnitude_nonneg

theorem exists_multiple {e : ℕ} (h : (e : ℤ) ≤ d.exponent) :
    ∃ j : ℤ, d.value = j * (2 : ℚ) ^ e := by
  obtain ⟨n, hn⟩ := Int.eq_ofNat_of_zero_le (sub_nonneg.mpr h)
  have hexp : d.exponent = (n : ℤ) + (e : ℤ) := by omega
  have hmag : d.magnitude = ((d.significand * 2 ^ n : ℕ) : ℚ) * (2 : ℚ) ^ e := by
    unfold magnitude
    rw [hexp, zpow_add₀ (by norm_num), zpow_natCast, zpow_natCast]
    push_cast
    ring
  unfold value
  rw [hmag]
  split_ifs
  · exact ⟨-((d.significand * 2 ^ n : ℕ) : ℤ), by push_cast; ring⟩
  · exact ⟨((d.significand * 2 ^ n : ℕ) : ℤ), by push_cast; ring⟩

theorem abs_value_lt {e : ℕ} (h : d.exponent < e) :
    |d.value| < (2 : ℚ) ^ 52 * (2 : ℚ) ^ e := by
  have hsig : (d.significand : ℚ) < (2 : ℚ) ^ 53 := by exact_mod_cast d.significand_lt
  have hpow : (2 : ℚ) ^ d.exponent ≤ (2 : ℚ) ^ ((e : ℤ) - 1) :=
    zpow_le_zpow_right₀ (by norm_num) (by omega)
  have hpos : (0 : ℚ) < (2 : ℚ) ^ ((e : ℤ) - 1) := by positivity
  have hhalf : (2 : ℚ) ^ e = 2 * (2 : ℚ) ^ ((e : ℤ) - 1) := by
    rw [zpow_sub₀ (by norm_num), zpow_natCast, zpow_one]
    ring
  rw [abs_value]
  unfold magnitude
  calc (d.significand : ℚ) * (2 : ℚ) ^ d.exponent
      ≤ d.significand * (2 : ℚ) ^ ((e : ℤ) - 1) :=
        mul_le_mul_of_nonneg_left hpow (Nat.cast_nonneg _)
    _ < (2 : ℚ) ^ 53 * (2 : ℚ) ^ ((e : ℤ) - 1) := mul_lt_mul_of_pos_right hsig hpos
    _ = (2 : ℚ) ^ 52 * (2 : ℚ) ^ e := by
        rw [hhalf]
        ring

/-- An exact number is the nearest one. -/
theorem Rounds.exact {x : ℚ} (h : d.value = x) : Rounds x d := by
  constructor
  · intro d'
    rw [h, sub_self, abs_zero]
    exact abs_nonneg _
  · intro d' heq hne
    rw [h, sub_self, abs_zero, abs_eq_zero, sub_eq_zero] at heq
    exact absurd (heq.trans h.symm) hne

theorem Rounds.of_roundEven {v e : ℕ} (h : 2 ^ (52 + e) ≤ v)
    (hvalue : d.value = (roundEven v e : ℚ) * (2 : ℚ) ^ e)
    (heven : roundEven v e % 2 = 0 → d.significand % 2 = 0) : Rounds v d := by
  have hlattice (j : ℤ) :
      |(roundEven v e : ℚ) * (2 : ℚ) ^ e - v| ≤ |(j : ℚ) * (2 : ℚ) ^ e - v| := by
    exact_mod_cast (roundEven_nearest v e j).1
  have hsmall (d' : Double) (hd' : d'.exponent < e) :
      |d.value - v| < |d'.value - v| := by
    have hlt := abs_value_lt hd'
    have hle := le_abs_self d'.value
    have hv : (2 : ℚ) ^ 52 * (2 : ℚ) ^ e ≤ v := by
      rw [← pow_add]
      exact_mod_cast h
    have hbound := hlattice (2 ^ 52)
    rw [hvalue]
    refine lt_of_le_of_lt hbound ?_
    push_cast
    rw [abs_sub_comm, abs_of_nonneg (by linarith), abs_sub_comm, abs_of_nonneg (by linarith)]
    linarith
  constructor
  · intro d'
    rcases lt_or_ge d'.exponent (e : ℤ) with hd' | hd'
    · exact le_of_lt (hsmall d' hd')
    · obtain ⟨j, hj⟩ := exists_multiple hd'
      rw [hvalue, hj]
      exact hlattice j
  · intro d' heq hne
    rcases lt_or_ge d'.exponent (e : ℤ) with hd' | hd'
    · exact absurd heq (ne_of_gt (hsmall d' hd'))
    · obtain ⟨j, hj⟩ := exists_multiple hd'
      rw [hvalue, hj] at heq hne
      refine heven ((roundEven_nearest v e j).2 ?_ fun hsame => hne ?_)
      · exact_mod_cast heq
      · rw [hsame]
        push_cast
        rfl

theorem log2_toNat_lt (v : UInt64) : v.toNat.log2 < 64 := by
  by_cases hv : v.toNat = 0
  · rw [hv]
    decide
  · exact (Nat.log2_lt hv).mpr v.toNat_lt

theorem shifted_bounds {v : ℕ} (hv : v ≠ 0) (hk : v.log2 ≤ 52) :
    2 ^ 52 ≤ v * 2 ^ (52 - v.log2) ∧ v * 2 ^ (52 - v.log2) < 2 ^ 53 := by
  have hlow := Nat.log2_self_le hv
  have hhigh := @Nat.lt_log2_self v
  have hpos := Nat.two_pow_pos (52 - v.log2)
  have hpow : 2 ^ v.log2 * 2 ^ (52 - v.log2) = 2 ^ 52 := by
    rw [← Nat.pow_add]
    congr 1
    omega
  have hpow' : 2 ^ (v.log2 + 1) * 2 ^ (52 - v.log2) = 2 ^ 53 := by
    rw [← Nat.pow_add]
    congr 1
    omega
  rw [← hpow, ← hpow']
  exact ⟨Nat.mul_le_mul_right _ hlow, Nat.mul_lt_mul_of_pos_right hhigh hpos⟩

theorem rounded_bounds {v : ℕ} (hv : v ≠ 0) (hk : ¬ v.log2 ≤ 52) :
    2 ^ 52 ≤ roundEven v (v.log2 - 52) ∧ roundEven v (v.log2 - 52) ≤ 2 ^ 53 := by
  have hlow : 2 ^ (52 + (v.log2 - 52)) ≤ v := by
    have := Nat.log2_self_le hv
    rwa [show 52 + (v.log2 - 52) = v.log2 by omega]
  have hhigh : v < 2 ^ (53 + (v.log2 - 52)) := by
    have := @Nat.lt_log2_self v
    rwa [show 53 + (v.log2 - 52) = v.log2 + 1 by omega]
  exact ⟨le_roundEven hlow, roundEven_le hhigh⟩

/-- The conversion of an unsigned 64-bit integer. -/
def ofUInt64 (v : UInt64) : Double :=
  if hzero : v.toNat = 0 then
    ⟨false, 0, -1074, by norm_num, by norm_num, by norm_num, Or.inr rfl⟩
  else if hsmall : v.toNat.log2 ≤ 52 then
    ⟨false, v.toNat * 2 ^ (52 - v.toNat.log2), v.toNat.log2 - 52,
      (shifted_bounds hzero hsmall).2, by omega, by omega, Or.inl (shifted_bounds hzero hsmall).1⟩
  else
    have hlog := log2_toNat_lt v
    if hcarry : roundEven v.toNat (v.toNat.log2 - 52) = 2 ^ 53 then
      ⟨false, 2 ^ 52, v.toNat.log2 - 51, by norm_num, by omega, by omega, Or.inl (le_refl _)⟩
    else
      ⟨false, roundEven v.toNat (v.toNat.log2 - 52), v.toNat.log2 - 52,
        lt_of_le_of_ne (rounded_bounds hzero hsmall).2 hcarry, by omega, by omega,
        Or.inl (rounded_bounds hzero hsmall).1⟩

theorem ofUInt64_rounds (v : UInt64) : Rounds v.toNat (ofUInt64 v) := by
  unfold ofUInt64
  by_cases hzero : v.toNat = 0
  · rw [dif_pos hzero, hzero]
    refine Rounds.exact ?_
    unfold value magnitude
    norm_num
  rw [dif_neg hzero]
  by_cases hsmall : v.toNat.log2 ≤ 52
  · rw [dif_pos hsmall]
    refine Rounds.exact ?_
    unfold value magnitude
    dsimp only
    have hexp : ((v.toNat.log2 : ℤ) - 52) = -((52 - v.toNat.log2 : ℕ) : ℤ) := by omega
    rw [if_neg Bool.false_ne_true, hexp, zpow_neg, zpow_natCast]
    push_cast
    rw [mul_assoc, mul_inv_cancel₀ (by positivity), mul_one]
  rw [dif_neg hsmall]
  have hlow : 2 ^ (52 + (v.toNat.log2 - 52)) ≤ v.toNat := by
    have := Nat.log2_self_le hzero
    rwa [show 52 + (v.toNat.log2 - 52) = v.toNat.log2 by omega]
  by_cases hcarry : roundEven v.toNat (v.toNat.log2 - 52) = 2 ^ 53
  · rw [dif_pos hcarry]
    refine Rounds.of_roundEven hlow ?_ fun _ => by norm_num
    unfold value magnitude
    dsimp only
    have hexp : ((v.toNat.log2 : ℤ) - 51) = ((v.toNat.log2 - 52 : ℕ) : ℤ) + 1 := by omega
    rw [if_neg Bool.false_ne_true, hcarry, hexp, zpow_add₀ (by norm_num), zpow_natCast, zpow_one]
    push_cast
    ring
  · rw [dif_neg hcarry]
    refine Rounds.of_roundEven hlow ?_ id
    unfold value magnitude
    dsimp only
    have hexp : ((v.toNat.log2 : ℤ) - 52) = ((v.toNat.log2 - 52 : ℕ) : ℤ) := by omega
    rw [if_neg Bool.false_ne_true, hexp, zpow_natCast]

theorem ofUInt64_isZero {v : UInt64} : (ofUInt64 v).IsZero ↔ v = 0 := by
  unfold IsZero ofUInt64
  by_cases hzero : v.toNat = 0
  · rw [dif_pos hzero]
    exact ⟨fun _ => UInt64.toNat_inj.mp hzero, fun _ => rfl⟩
  rw [dif_neg hzero]
  refine iff_of_false (fun h => ?_) fun h => hzero (h ▸ rfl)
  by_cases hsmall : v.toNat.log2 ≤ 52
  · rw [dif_pos hsmall] at h
    have := (shifted_bounds hzero hsmall).1
    dsimp only at h
    omega
  rw [dif_neg hsmall] at h
  have := (rounded_bounds hzero hsmall).1
  by_cases hcarry : roundEven v.toNat (v.toNat.log2 - 52) = 2 ^ 53
  · rw [dif_pos hcarry] at h
    norm_num at h
  · rw [dif_neg hcarry] at h
    dsimp only at h
    omega

theorem neg_isZero : d.neg.IsZero ↔ d.IsZero := Iff.rfl

end Double

end QtBase.Lib
