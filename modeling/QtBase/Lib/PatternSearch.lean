import Mathlib.Data.Int.Notation
import Mathlib.Data.Nat.Notation

/-! The first place where a pattern stands, and tables that say how far a search may skip. -/
namespace PatternSearch

/-- `r` is the first place from `start` on where `P` holds, or -1 when there is none. -/
def FirstAt (P : ℤ → Prop) (start r : ℤ) : Prop :=
  (start ≤ r ∧ P r ∧ ∀ i, start ≤ i → i < r → ¬ P i) ∨ (r = -1 ∧ ∀ i, start ≤ i → ¬ P i)

namespace FirstAt

variable {P Q : ℤ → Prop} {start r s : ℤ}

theorem here (h : P start) : FirstAt P start start :=
  .inl ⟨Int.le_refl _, h, fun _ _ _ => by omega⟩

theorem none (h : ∀ i, start ≤ i → ¬ P i) : FirstAt P start (-1) := .inr ⟨rfl, h⟩

/-- Places without `P` may be passed over. -/
theorem skip {k : ℤ} (hk : 0 ≤ k) (h : FirstAt P (start + k) r)
    (hno : ∀ i, start ≤ i → i < start + k → ¬ P i) : FirstAt P start r := by
  rcases h with ⟨hle, hP, hbefore⟩ | ⟨hr, hnone⟩
  · refine .inl ⟨by omega, hP, fun i hi hir => ?_⟩
    by_cases h : i < start + k
    · exact hno i hi h
    · exact hbefore i (by omega) hir
  · refine .inr ⟨hr, fun i hi => ?_⟩
    by_cases h : i < start + k
    · exact hno i hi h
    · exact hnone i (by omega)

theorem congr (h : ∀ i, start ≤ i → (P i ↔ Q i)) : FirstAt P start r ↔ FirstAt Q start r := by
  constructor
  · rintro (⟨hle, hP, hbefore⟩ | ⟨hr, hnone⟩)
    · exact .inl ⟨hle, (h r hle).mp hP, fun i hi hir hQ => hbefore i hi hir ((h i hi).mpr hQ)⟩
    · exact .inr ⟨hr, fun i hi hQ => hnone i hi ((h i hi).mpr hQ)⟩
  · rintro (⟨hle, hQ, hbefore⟩ | ⟨hr, hnone⟩)
    · exact .inl ⟨hle, (h r hle).mpr hQ, fun i hi hir hP => hbefore i hi hir ((h i hi).mp hP)⟩
    · exact .inr ⟨hr, fun i hi hP => hnone i hi ((h i hi).mp hP)⟩

theorem unique (hr : FirstAt P start r) (hs : FirstAt P start s) : r = s := by
  rcases hr with ⟨hr, hPr, hbr⟩ | ⟨rfl, hnr⟩ <;> rcases hs with ⟨hs, hPs, hbs⟩ | ⟨rfl, hns⟩
  · rcases Int.lt_trichotomy r s with h | h | h
    · exact absurd hPr (hbs r hr h)
    · exact h
    · exact absurd hPs (hbr s hs h)
  · exact absurd hPr (hns r hr)
  · exact absurd hPs (hnr s hs)
  · rfl

end FirstAt

/-- The `m` keys of the pattern stand at `i` and after it. -/
def Occurs (key : ℤ → ℕ) (pat : ℕ → ℕ) (m : ℕ) (i : ℤ) : Prop :=
  ∀ t : ℕ, t < m → key (i + t) = pat t

/-- The last `table b` keys of the pattern have another hash than `b`. -/
structure Skips (hash : ℕ → ℕ) (pat : ℕ → ℕ) (m : ℕ) (table : ℕ → ℕ) : Prop where
  le : ∀ b, table b ≤ m
  ne : ∀ b s, s < table b → hash (pat (m - 1 - s)) ≠ b

/-- The key `k` places before the end of the window keeps the pattern from standing `s` places
further on. -/
theorem Skips.not_occurs {hash : ℕ → ℕ} {pat table : ℕ → ℕ} {m : ℕ}
    (h : Skips hash pat m table) {key : ℤ → ℕ} {current : ℤ} {k s : ℕ}
    (hs : k + s < table (hash (key (current - k)))) :
    ¬ Occurs key pat m (current - (m - 1) + s) := by
  intro hoccurs
  have hle := h.le (hash (key (current - k)))
  have hat := hoccurs (m - 1 - (k + s)) (by omega)
  have hplace : current - (m - 1) + s + ((m - 1 - (k + s) : ℕ) : ℤ) = current - k := by omega
  rw [hplace] at hat
  exact h.ne _ _ hs (congrArg hash hat.symm)

end PatternSearch
