import Mathlib.Data.Int.Notation
import QtBase.Core.Exec

/-! Arithmetic of signed integers, where a result out of range is undefined. -/
namespace QtBase

/-- `a` is a value of `int`. -/
def FitsInt (a : ℤ) : Prop := -2147483648 ≤ a ∧ a ≤ 2147483647

/-- `a` is a value of `qint64`. -/
def FitsQint64 (a : ℤ) : Prop := -9223372036854775808 ≤ a ∧ a ≤ 9223372036854775807

instance (a : ℤ) : Decidable (FitsInt a) := inferInstanceAs (Decidable (_ ∧ _))

instance (a : ℤ) : Decidable (FitsQint64 a) := inferInstanceAs (Decidable (_ ∧ _))

/-- A sum, a difference or a product computed in `int`. -/
def checkedInt (a : ℤ) : Exec ℤ := if FitsInt a then .ok a else .error .undefined

/-- A sum, a difference or a product computed in `qint64`. -/
def checkedQint64 (a : ℤ) : Exec ℤ := if FitsQint64 a then .ok a else .error .undefined

variable {a b : ℤ}

theorem checkedInt_of_fits (h : FitsInt a) : checkedInt a = .ok a := if_pos h

theorem checkedQint64_of_fits (h : FitsQint64 a) : checkedQint64 a = .ok a := if_pos h

theorem checkedInt_eq_ok (h : checkedInt a = .ok b) : FitsInt a ∧ b = a := by
  unfold checkedInt at h
  split at h
  · rename_i hfits
    exact ⟨hfits, (Except.ok.inj h).symm⟩
  · cases h

theorem checkedQint64_eq_ok (h : checkedQint64 a = .ok b) : FitsQint64 a ∧ b = a := by
  unfold checkedQint64 at h
  split at h
  · rename_i hfits
    exact ⟨hfits, (Except.ok.inj h).symm⟩
  · cases h

end QtBase
