import QtBase.Core.Exec
import QtBase.Core.Unsigned
import QtBase.Gui.FragmentMap

/-! The sizes of the memory blocks of containers, for any word size. -/
namespace QtBase

open Int

/-- The number of bits of `size_t`. `quint64` holds every `size_t`. -/
structure WordSize where
  bits : ℕ
  pos : 0 < bits
  le : bits ≤ 64

namespace WordSize

variable (w : WordSize)

/-- `a` is a value of `qsizetype`. -/
def Fits (a : ℤ) : Prop := -2 ^ (w.bits - 1) ≤ a ∧ a < 2 ^ (w.bits - 1)

instance (a : ℤ) : Decidable (w.Fits a) := inferInstanceAs (Decidable (_ ∧ _))

/-- `size_t(a)` -/
def size_t (a : ℤ) : ℕ := (a % 2 ^ w.bits).toNat

/-- `qsizetype(n)` -/
def qsizetype (n : ℤ) : ℤ := n.bmod (2 ^ w.bits)

/-- A result computed in `size_t`, with a note whether it has wrapped around. -/
def unsigned (a : ℤ) : Wraps ℕ := ⟨w.size_t a, decide (¬ (0 ≤ a ∧ a < 2 ^ w.bits))⟩

/-- A result computed in `qsizetype`, with a note whether it has overflowed. -/
def signed (a : ℤ) : Wraps ℤ := ⟨w.qsizetype a, decide (¬ w.Fits a)⟩

/-- `qMulOverflow` and `qAddOverflow`: nothing if the exact result `n` overflows. -/
def checked (n : ℕ) : Option ℕ := if n < 2 ^ w.bits then some n else none

def qCalculateBlockSize (elementCount elementSize headerSize : ℤ) : Exec ℤ := do
  qAssert (elementSize ≠ 0)
  match w.checked (w.size_t elementSize * w.size_t elementCount) with
  | none => return -1
  | some bytes =>
    match w.checked (bytes + w.size_t headerSize) with
    | none => return -1
    | some bytes => if w.qsizetype bytes < 0 then return -1 else return w.qsizetype bytes

/-- The growth of `bytes` towards `morebytes`. -/
def more (bytes : ℤ) (morebytes : ℕ) : Wraps ℤ :=
  if w.qsizetype morebytes < 0 then do
    -- the sum is computed in size_t and stored in a qsizetype
    let difference ← w.unsigned (morebytes - w.size_t bytes)
    let sum ← w.unsigned (w.size_t bytes + difference / 2)
    w.signed sum
  else pure (w.qsizetype morebytes)

/-- The rest of `qCalculateGrowingBlockSize` for a block of `bytes`. -/
def grow (bytes elementSize headerSize : ℤ) : Wraps CalculateGrowingBlockSizeResult := do
  let morebytes ← w.unsigned (qNextPowerOfTwo bytes.toNat)
  let bytes ← w.more bytes morebytes
  let room ← w.signed (bytes - headerSize)
  let elementCount := room.tdiv elementSize
  let product ← w.signed (elementCount * elementSize)
  let size ← w.signed (product + headerSize)
  return { size := size, elementCount := elementCount }

def qCalculateGrowingBlockSize (elementCount elementSize headerSize : ℤ) :
    Exec (Wraps CalculateGrowingBlockSizeResult) := do
  let bytes ← w.qCalculateBlockSize elementCount elementSize headerSize
  if bytes < 0 then return pure { size := -1, elementCount := -1 }
  -- asserted by qNextPowerOfTwo
  qAssert (bytes < 2 ^ 63)
  return w.grow bytes elementSize headerSize

variable {w} {n bytes count size header : ℕ}

theorem two_pow_bits : 2 ^ w.bits = 2 * 2 ^ (w.bits - 1) := by
  rw [← Nat.pow_succ', Nat.succ_eq_add_one, Nat.sub_add_cancel w.pos]

theorem size_t_of_lt (h : n < 2 ^ w.bits) : w.size_t n = n := by
  unfold size_t
  rw [emod_eq_of_lt (by omega) (by exact_mod_cast h), toNat_natCast]

theorem qsizetype_of_fits {a : ℤ} (h : w.Fits a) : w.qsizetype a = a := by
  have hbits := two_pow_bits (w := w)
  obtain ⟨hlo, hhi⟩ := h
  have hcast : ((2 ^ (w.bits - 1) : ℕ) : ℤ) = 2 ^ (w.bits - 1) := by push_cast; rfl
  rw [← hcast] at hlo hhi
  exact bmod_eq_of_le (by omega) (by omega)

/-- The values with the highest bit set are negative. -/
theorem qsizetype_neg_iff (h : n < 2 ^ w.bits) :
    w.qsizetype n < 0 ↔ 2 ^ (w.bits - 1) ≤ n := by
  have hbits := two_pow_bits (w := w)
  unfold qsizetype
  rw [bmod_def, emod_eq_of_lt (by omega) (by exact_mod_cast h)]
  split <;> omega

theorem fits_natCast : w.Fits n ↔ n < 2 ^ (w.bits - 1) := by
  have hcast : ((2 ^ (w.bits - 1) : ℕ) : ℤ) = 2 ^ (w.bits - 1) := by push_cast; rfl
  unfold Fits
  rw [← hcast]
  omega

theorem unsigned_natCast (h : n < 2 ^ w.bits) : w.unsigned n = pure n := by
  apply Wraps.eq_pure (size_t_of_lt h)
  apply decide_eq_false
  have : (n : ℤ) < 2 ^ w.bits := by exact_mod_cast h
  omega

theorem signed_of_fits {a : ℤ} (h : w.Fits a) : w.signed a = pure a :=
  Wraps.eq_pure (qsizetype_of_fits h) (decide_eq_false (not_not.mpr h))

theorem qCalculateBlockSize_eq (hsize : 0 < size) (hcount : count < 2 ^ (w.bits - 1))
    (hlt : size < 2 ^ (w.bits - 1)) (hheader : header < 2 ^ (w.bits - 1)) :
    w.qCalculateBlockSize count size header =
      .ok (if count * size + header < 2 ^ (w.bits - 1) then ((count * size + header : ℕ) : ℤ)
        else -1) := by
  have hbits := two_pow_bits (w := w)
  have hne : (size : ℤ) ≠ 0 := by omega
  unfold qCalculateBlockSize checked
  rw [qAssert_pos hne, ok_bind, size_t_of_lt (by omega), size_t_of_lt (by omega),
    size_t_of_lt (by omega), Nat.mul_comm size]
  by_cases hmul : count * size < 2 ^ w.bits
  · rw [if_pos hmul]
    dsimp only
    by_cases hadd : count * size + header < 2 ^ w.bits
    · rw [if_pos hadd]
      dsimp only
      have hneg := qsizetype_neg_iff hadd
      by_cases hfit : count * size + header < 2 ^ (w.bits - 1)
      · rw [if_pos hfit, if_neg (by omega), qsizetype_of_fits (fits_natCast.mpr hfit)]
        rfl
      · rw [if_neg hfit, if_pos (by omega)]
        rfl
    · rw [if_neg hadd, if_neg (by omega)]
      rfl
  · rw [if_neg hmul, if_neg (by omega)]
    rfl

theorem qNextPowerOfTwo_le {k : ℕ} (h : n < 2 ^ k) : qNextPowerOfTwo n ≤ 2 ^ k := by
  unfold qNextPowerOfTwo
  split
  · exact Nat.one_le_two_pow
  · rename_i hne
    exact Nat.pow_le_pow_right (by decide) ((Nat.log2_lt hne).mpr h)

/-- The elements that fit into a grown block, none of whose sizes overflows. -/
theorem grown {grownBytes : ℕ} (hsize : 0 < size) (hle : count * size + header ≤ grownBytes)
    (hfit : grownBytes < 2 ^ (w.bits - 1)) :
    ∃ c : ℕ, ((grownBytes : ℤ) - header).tdiv size = c ∧ count ≤ c ∧ w.Fits (c * size) ∧
      w.Fits ((grownBytes : ℤ) - header) ∧ w.Fits (c * size + header) := by
  have hsub : (grownBytes : ℤ) - header = (grownBytes - header : ℕ) := by omega
  have hmul : (grownBytes - header) / size * size ≤ grownBytes - header := Nat.div_mul_le_self ..
  have hroom : count * size ≤ grownBytes - header := by omega
  refine ⟨(grownBytes - header) / size, ?_, (Nat.le_div_iff_mul_le hsize).mpr hroom, ?_, ?_, ?_⟩
  · rw [hsub, tdiv_eq_ediv_of_nonneg (by omega)]
    norm_cast
  · exact_mod_cast fits_natCast.mpr (by omega)
  · rw [hsub]
    exact fits_natCast.mpr (by omega)
  · exact_mod_cast fits_natCast.mpr (by omega)

theorem more_spec {morebytes : ℕ} (hlt : bytes < morebytes)
    (hle : morebytes ≤ 2 ^ (w.bits - 1)) :
    ∃ grownBytes : ℕ, w.more bytes morebytes = pure (grownBytes : ℤ) ∧ bytes ≤ grownBytes ∧
      grownBytes < 2 ^ (w.bits - 1) := by
  have hbits := two_pow_bits (w := w)
  have hneg := qsizetype_neg_iff (w := w) (n := morebytes) (by omega)
  unfold more
  by_cases hhigh : 2 ^ (w.bits - 1) ≤ morebytes
  · refine ⟨bytes + (morebytes - bytes) / 2, ?_, by omega, by omega⟩
    have hdifference : (morebytes : ℤ) - bytes = (morebytes - bytes : ℕ) := by omega
    have hsum : (bytes : ℤ) + ((morebytes - bytes : ℕ) : ℤ) / 2 =
        (bytes + (morebytes - bytes) / 2 : ℕ) := by omega
    rw [if_pos (hneg.mpr hhigh), size_t_of_lt (by omega), hdifference,
      unsigned_natCast (by omega), Wraps.pure_bind, hsum, unsigned_natCast (by omega),
      Wraps.pure_bind, signed_of_fits (fits_natCast.mpr (by omega))]
  · refine ⟨morebytes, ?_, hlt.le, by omega⟩
    rw [if_neg (mt hneg.mp hhigh), qsizetype_of_fits (fits_natCast.mpr (by omega))]

theorem grow_spec (hsize : 0 < size) (hfit : count * size + header < 2 ^ (w.bits - 1)) :
    ∃ c : ℕ, w.grow (count * size + header : ℕ) size header =
        pure { size := c * size + header, elementCount := c } ∧
      count ≤ c ∧ w.Fits (c * size + header) := by
  have hbits := two_pow_bits (w := w)
  have hmore := QFragmentMapData.lt_qNextPowerOfTwo (count * size + header)
  have hpow := qNextPowerOfTwo_le hfit
  obtain ⟨grownBytes, hgrown, hle, hlt⟩ := more_spec hmore hpow
  obtain ⟨c, hc, hcount, hproduct, hroom, hfits⟩ := grown hsize hle hlt
  refine ⟨c, ?_, hcount, hfits⟩
  unfold grow
  rw [toNat_natCast, unsigned_natCast (by omega), Wraps.pure_bind, hgrown, Wraps.pure_bind,
    signed_of_fits hroom, Wraps.pure_bind, hc]
  dsimp only
  rw [signed_of_fits hproduct, Wraps.pure_bind, signed_of_fits hfits, Wraps.pure_bind]

/-- No assertion fails and no result overflows. The size is -1 exactly if that of the elements
asked for is no `qsizetype`; else it is that of at least as many elements. -/
theorem qCalculateGrowingBlockSize_spec (w : WordSize) (elementCount elementSize headerSize : ℕ)
    (hsize : 0 < elementSize) (hcount : w.Fits elementCount) (hfits : w.Fits elementSize)
    (hheader : w.Fits headerSize) :
    ∃ r, w.qCalculateGrowingBlockSize elementCount elementSize headerSize =
        .ok ⟨r, false⟩ ∧
      ((r.size = -1 ∧ ¬ w.Fits (elementCount * elementSize + headerSize)) ∨
        (0 ≤ r.size ∧ w.Fits r.size ∧ (elementCount : ℤ) ≤ r.elementCount ∧
          r.size = r.elementCount * elementSize + headerSize)) := by
  have hblock := qCalculateBlockSize_eq hsize (fits_natCast.mp hcount) (fits_natCast.mp hfits)
    (fits_natCast.mp hheader)
  unfold qCalculateGrowingBlockSize
  rw [hblock, ok_bind]
  by_cases hfit : elementCount * elementSize + headerSize < 2 ^ (w.bits - 1)
  · obtain ⟨c, hc, hle, hfits⟩ := grow_spec (w := w) hsize hfit
    have h63 : ((elementCount * elementSize + headerSize : ℕ) : ℤ) < 2 ^ 63 := by
      have hpow : 2 ^ (w.bits - 1) ≤ 2 ^ 63 :=
        Nat.pow_le_pow_right (by decide) (by have := w.le; omega)
      exact_mod_cast hfit.trans_le hpow
    rw [if_pos hfit, if_neg (by omega), qAssert_pos h63, ok_bind, hc]
    have hnonneg : (0 : ℤ) ≤ c * elementSize + headerSize := by exact_mod_cast Nat.zero_le _
    exact ⟨_, rfl, Or.inr ⟨hnonneg, hfits, Int.ofNat_le.mpr hle, rfl⟩⟩
  · rw [if_neg hfit, if_pos (by decide)]
    refine ⟨_, rfl, Or.inl ⟨rfl, fun hbad => hfit ?_⟩⟩
    exact fits_natCast.mp (by exact_mod_cast hbad)

/-- Just below the limit the next power of two is negative as a `qsizetype`. -/
theorem qCalculateGrowingBlockSize_spec_limit :
    ∃ r, (WordSize.mk 32 (by decide) (by decide)).qCalculateGrowingBlockSize (2 ^ 30) 1 5 =
        .ok ⟨r, false⟩ ∧
      ((r.size = -1 ∧ ¬ (WordSize.mk 32 (by decide) (by decide)).Fits (2 ^ 30 * 1 + 5)) ∨
        (0 ≤ r.size ∧ (WordSize.mk 32 (by decide) (by decide)).Fits r.size ∧
          2 ^ 30 ≤ r.elementCount ∧ r.size = r.elementCount * 1 + 5)) :=
  qCalculateGrowingBlockSize_spec ⟨32, by decide, by decide⟩ (2 ^ 30) 1 5 (by decide) (by decide)
    (by decide) (by decide)

end WordSize

end QtBase
