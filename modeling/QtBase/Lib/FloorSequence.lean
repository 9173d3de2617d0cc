import Mathlib.Data.Int.Order.Basic
import Mathlib.Order.GaloisConnection.Basic
import Mathlib.Order.Monotone.Basic
import Mathlib.Algebra.Order.Ring.Int
import Mathlib.Data.Int.ConditionallyCompleteOrder
import Mathlib.Order.ConditionallyCompleteLattice.Basic

/-! Integer sequences that grow by a rational step, and the intervals such starts cut. -/
namespace QtBase.Lib

open Int

/-- The `n`-th start when the average step is `a / b` and the phase `c / b`. -/
def floorSeq (a b c n : ℤ) : ℤ := (a * n + c) / b

/-- The last `n` whose start is not after `k`. -/
def floorInv (a b c k : ℤ) : ℤ := (b * k + (b - 1 - c)) / a

theorem floorSeq_zero (a b n : ℤ) : floorSeq a b 0 n = a * n / b := by
  rw [floorSeq, add_zero]

section FloorSeq

variable {a b c : ℤ}

theorem floorSeq_galois (ha : 0 < a) (hb : 0 < b) :
    GaloisConnection (floorSeq a b c) (floorInv a b c) := by
  intro n k
  have hlt : floorSeq a b c n < k + 1 ↔ a * n + c < (k + 1) * b := Int.ediv_lt_iff_lt_mul hb
  have hle : n ≤ floorInv a b c k ↔ n * a ≤ b * k + (b - 1 - c) := Int.le_ediv_iff_mul_le ha
  have hna : n * a = a * n := Int.mul_comm n a
  have hkb : (k + 1) * b = b * k + b := by rw [Int.add_mul, Int.one_mul, Int.mul_comm]
  omega

theorem floorSeq_floorInv_le (ha : 0 < a) (hb : 0 < b) (k : ℤ) :
    floorSeq a b c (floorInv a b c k) ≤ k :=
  (floorSeq_galois ha hb).l_u_le k

theorem lt_floorSeq_floorInv_add_one (ha : 0 < a) (hb : 0 < b) (k : ℤ) :
    k < floorSeq a b c (floorInv a b c k + 1) := by
  have hiff := floorSeq_galois (c := c) ha hb (floorInv a b c k + 1) k
  omega

theorem sub_floorSeq_floorInv (hb : 0 < b) (k : ℤ) :
    k - floorSeq a b c (floorInv a b c k) = (b * k + (b - 1 - c)) % a / b := by
  have hdiv := mul_ediv_add_emod (b * k + (b - 1 - c)) a
  have hnum : a * floorInv a b c k + c = b * k + (b - 1 - (b * k + (b - 1 - c)) % a) := by
    show a * ((b * k + (b - 1 - c)) / a) + c = _
    omega
  unfold floorSeq
  rw [hnum, mul_add_ediv_left _ _ (by omega)]
  generalize (b * k + (b - 1 - c)) % a = r
  have hr := mul_ediv_add_emod r b
  have hr0 := emod_nonneg r (ne_of_gt hb)
  have hr1 := emod_lt_of_pos r hb
  have hup : b - 1 - r = b * -(r / b) + (b - 1 - r % b) := by
    simp
    omega
  have hzero : (b - 1 - r % b) / b = 0 := ediv_eq_zero_of_lt (by omega) (by omega)
  rw [hup, mul_add_ediv_left _ _ (by omega), hzero]
  omega

end FloorSeq

/-- The starts of consecutive non-empty intervals. -/
def Tiling (start : ℤ → ℤ) : Prop := ∀ n, start n < start (n + 1)

namespace Tiling

variable {start : ℤ → ℤ}

theorem strictMono (ht : Tiling start) : StrictMono start := strictMono_int_of_lt_succ ht

theorem eq_of_between (ht : Tiling start) {n m k : ℤ} (hn : start n ≤ k) (hn' : k < start (n + 1))
    (hm : start m ≤ k) (hm' : k < start (m + 1)) : n = m := by
  have h1 : n < m + 1 := ht.strictMono.lt_iff_lt.mp (lt_of_le_of_lt hn hm')
  have h2 : m < n + 1 := ht.strictMono.lt_iff_lt.mp (lt_of_le_of_lt hm hn')
  omega

end Tiling

end QtBase.Lib
