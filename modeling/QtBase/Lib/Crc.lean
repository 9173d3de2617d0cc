import Mathlib.Logic.Function.Iterate

/-! Cyclic redundancy checks that take the least bit first. -/
namespace Crc

open BitVec Function

variable {w : ℕ}

/-- One bit of the division by the polynomial. -/
def shift (poly x : BitVec w) : BitVec w := (x >>> 1) ^^^ if x.getLsbD 0 then poly else 0

/-- The remainder after a message, bit by bit. -/
def remainder (poly crc : BitVec w) (data : List UInt8) : BitVec w :=
  data.foldl (fun crc c => (shift poly)^[8] (crc ^^^ c.toBitVec.setWidth w)) crc

variable {poly x y : BitVec w}

theorem shift_xor (x y : BitVec w) : shift poly (x ^^^ y) = shift poly x ^^^ shift poly y := by
  have hswap : ∀ p q : BitVec w, (x >>> 1) ^^^ (y >>> 1) ^^^ (p ^^^ q) =
      (x >>> 1) ^^^ p ^^^ ((y >>> 1) ^^^ q) := fun p q => by ac_rfl
  unfold shift
  rw [← hswap, getLsbD_xor, ushiftRight_xor_distrib]
  cases x.getLsbD 0 <;> cases y.getLsbD 0 <;> simp

theorem iterate_shift_xor (n : ℕ) (x y : BitVec w) :
    (shift poly)^[n] (x ^^^ y) = (shift poly)^[n] x ^^^ (shift poly)^[n] y :=
  Semiconj₂.iterate (f := shift poly) shift_xor n x y

/-- Only bits that are divided use the polynomial. -/
theorem iterate_shift_of_low {n : ℕ} (h : ∀ i < n, x.getLsbD i = false) :
    (shift poly)^[n] x = x >>> n := by
  induction n with
  | zero => simp
  | succ n ih =>
    rw [iterate_succ_apply', ih fun i hi => h i (by omega), shift, getLsbD_ushiftRight,
      Nat.add_zero, h n (by omega), shiftRight_add]
    simp

theorem shift_injective (hpoly : poly.msb = true) : Injective (shift poly) := by
  intro x y h
  have hzero : shift poly (x ^^^ y) = 0 := by
    rw [shift_xor, h, BitVec.xor_self]
    rfl
  rw [← xor_eq_zero_iff]
  generalize x ^^^ y = d at hzero
  unfold shift at hzero
  cases hd : d.getLsbD 0 with
  | true =>
    rw [hd, if_pos rfl] at hzero
    have hmsb := congrArg BitVec.msb hzero
    rw [msb_xor, hpoly, msb_ushiftRight] at hmsb
    simp at hmsb
  | false =>
    rw [hd] at hzero
    apply eq_of_getLsbD_eq
    intro i hi
    cases i with
    | zero => simpa using hd
    | succ i =>
      have hbit := congrArg (fun v => v.getLsbD i) hzero
      rw [Nat.add_comm] at hi ⊢
      simpa using hbit

theorem remainder_injective (hpoly : poly.msb = true) (data : List UInt8)
    {crc crc' : BitVec w} (h : remainder poly crc data = remainder poly crc' data) : crc = crc' := by
  induction data generalizing crc crc' with
  | nil => exact h
  | cons c data ih => exact (xor_left_inj _).1 ((shift_injective hpoly).iterate 8 (ih h))

end Crc
