import Mathlib.Data.Nat.Notation
import Mathlib.Tactic.Common
import Mathlib.Algebra.Order.Ring.Int

/-! `uint` arithmetic that keeps a note whether a result has wrapped around. -/
namespace QtBase

open UInt32

structure Wraps (α : Type) where
  value : α
  wrapped : Bool

namespace Wraps

instance : Monad Wraps where
  pure a := ⟨a, false⟩
  bind x f := ⟨(f x.value).value, x.wrapped || (f x.value).wrapped⟩

variable {α β : Type}

@[simp] theorem value_bind (x : Wraps α) (f : α → Wraps β) :
    (x >>= f).value = (f x.value).value := rfl

@[simp] theorem pure_bind (a : α) (f : α → Wraps β) : (pure a >>= f) = f a := rfl

theorem eq_pure {x : Wraps α} {a : α} (hv : x.value = a) (hw : x.wrapped = false) : x = pure a := by
  obtain ⟨v, w⟩ := x
  change v = a at hv
  change w = false at hw
  rw [hv, hw]
  rfl

end Wraps

def uAdd (a b : UInt32) : Wraps UInt32 := ⟨a + b, decide (2 ^ 32 ≤ a.toNat + b.toNat)⟩

def uSub (a b : UInt32) : Wraps UInt32 := ⟨a - b, decide (a.toNat < b.toNat)⟩

def uMul (a b : UInt32) : Wraps UInt32 := ⟨a * b, decide (2 ^ 32 ≤ a.toNat * b.toNat)⟩

/-- `qAddOverflow`: nothing if the sum overflows. -/
def qAddOverflow (a b : UInt32) : Option UInt32 :=
  if a.toNat + b.toNat < 2 ^ 32 then some (a + b) else none

/-- `qMulOverflow`: nothing if the product overflows. -/
def qMulOverflow (a b : UInt32) : Option UInt32 :=
  if a.toNat * b.toNat < 2 ^ 32 then some (a * b) else none

/-! ## On numbers -/

section Numbers

variable {a b : ℕ}

theorem toNat_ofNat (h : a < 2 ^ 32) : (ofNat a).toNat = a := by
  rw [toNat_ofNat']
  exact Nat.mod_eq_of_lt h

theorem ofNat_lt (ha : a < 2 ^ 32) (hb : b < 2 ^ 32) :
    ofNat a < ofNat b ↔ a < b := by
  rw [lt_iff_toNat_lt, toNat_ofNat ha, toNat_ofNat hb]

theorem ofNat_le (ha : a < 2 ^ 32) (hb : b < 2 ^ 32) :
    ofNat a ≤ ofNat b ↔ a ≤ b := by
  rw [le_iff_toNat_le, toNat_ofNat ha, toNat_ofNat hb]

theorem ofNat_inj (ha : a < 2 ^ 32) (hb : b < 2 ^ 32) :
    UInt32.ofNat a = UInt32.ofNat b ↔ a = b := by
  rw [← UInt32.toNat_inj, toNat_ofNat ha, toNat_ofNat hb]

theorem ofNat_div (ha : a < 2 ^ 32) (hb : b < 2 ^ 32) :
    UInt32.ofNat a / UInt32.ofNat b = UInt32.ofNat (a / b) := by
  have hdiv := Nat.div_le_self a b
  apply UInt32.toNat_inj.mp
  rw [UInt32.toNat_div, toNat_ofNat ha, toNat_ofNat hb, toNat_ofNat (by omega)]

theorem ofNat_mod (ha : a < 2 ^ 32) (hb : b < 2 ^ 32) :
    UInt32.ofNat a % UInt32.ofNat b = UInt32.ofNat (a % b) := by
  have hmod := Nat.mod_le a b
  apply UInt32.toNat_inj.mp
  rw [UInt32.toNat_mod, toNat_ofNat ha, toNat_ofNat hb, toNat_ofNat (by omega)]

theorem uAdd_ofNat (h : a + b < 2 ^ 32) :
    uAdd (.ofNat a) (.ofNat b) = pure (ofNat (a + b)) := by
  apply Wraps.eq_pure
  · exact (ofNat_add a b).symm
  · apply decide_eq_false
    rw [toNat_ofNat (by omega), toNat_ofNat (by omega)]
    omega

theorem uSub_ofNat (ha : a < 2 ^ 32) (h : b ≤ a) :
    uSub (.ofNat a) (.ofNat b) = pure (UInt32.ofNat (a - b)) := by
  have hb : b < 2 ^ 32 := by omega
  have hle := (ofNat_le hb ha).mpr h
  apply Wraps.eq_pure
  · apply UInt32.toNat_inj.mp
    show (UInt32.ofNat a - UInt32.ofNat b).toNat = _
    rw [UInt32.toNat_sub_of_le _ _ hle, toNat_ofNat ha, toNat_ofNat hb, toNat_ofNat (by omega)]
  · apply decide_eq_false
    rw [toNat_ofNat ha, toNat_ofNat hb]
    omega

theorem uMul_ofNat (ha : a < 2 ^ 32) (hb : b < 2 ^ 32) (h : a * b < 2 ^ 32) :
    uMul (.ofNat a) (.ofNat b) = pure (ofNat (a * b)) := by
  apply Wraps.eq_pure
  · exact (ofNat_mul a b).symm
  · apply decide_eq_false
    rw [toNat_ofNat ha, toNat_ofNat hb]
    omega

theorem qAddOverflow_ofNat (ha : a < 2 ^ 32) (hb : b < 2 ^ 32) :
    qAddOverflow (.ofNat a) (.ofNat b) =
      if a + b < 2 ^ 32 then some (.ofNat (a + b)) else none := by
  unfold qAddOverflow
  rw [toNat_ofNat ha, toNat_ofNat hb, ofNat_add]

theorem qMulOverflow_ofNat (ha : a < 2 ^ 32) (hb : b < 2 ^ 32) :
    qMulOverflow (.ofNat a) (.ofNat b) =
      if a * b < 2 ^ 32 then some (.ofNat (a * b)) else none := by
  unfold qMulOverflow
  rw [toNat_ofNat ha, toNat_ofNat hb, ofNat_mul]

end Numbers

end QtBase
