import Mathlib.Data.List.Basic

/-! How a call ends. Calls that return give `.ok`; the other outcomes are told apart, so that
"never fails an assertion" and "always terminates" can be stated. -/
namespace QtBase

open List

inductive Stop
  /-- A failed `Q_ASSERT`, or an access the C++ rules leave undefined. -/
  | undefined
  /-- `std::bad_alloc` or a failed `Q_CHECK_PTR`. -/
  | badAlloc
  /-- A loop that never ends. -/
  | diverge
  deriving DecidableEq, Repr

abbrev Exec := Except Stop

def qAssert (p : Prop) [Decidable p] : Exec Unit := if p then .ok () else .error .undefined

@[simp] theorem qAssert_pos {p : Prop} [Decidable p] (h : p) : qAssert p = .ok () := if_pos h

@[simp] theorem qAssert_neg {p : Prop} [Decidable p] (h : ¬ p) :
    qAssert p = .error .undefined := if_neg h

@[simp] theorem ok_bind {α β : Type} (a : α) (f : α → Exec β) :
    ((.ok a : Exec α) >>= f) = f a := rfl

@[simp] theorem error_bind {α β : Type} (e : Stop) (f : α → Exec β) :
    ((.error e : Exec α) >>= f) = .error e := rfl

@[simp] theorem pure_eq_ok {α : Type} (a : α) : (pure a : Exec α) = .ok a := rfl

theorem bind_eq_ok {α β : Type} {x : Exec α} {f : α → Exec β} {b : β}
    (h : (x >>= f) = .ok b) : ∃ a, x = .ok a ∧ f a = .ok b := by
  cases x with
  | ok a => exact ⟨a, rfl, h⟩
  | error e => cases h

/-- `x` returns a result with `P`, or throws `std::bad_alloc`, which takes `oom`. -/
def Ends {α : Type} (x : Exec α) (oom : Prop) (P : α → Prop) : Prop :=
  (∃ a, x = .ok a ∧ P a) ∨ (x = .error .badAlloc ∧ oom)

namespace Ends

variable {α β : Type} {x : Exec α} {oom : Prop} {P : α → Prop}

theorem ok {a : α} (h : P a) : Ends (.ok a) oom P := .inl ⟨a, rfl, h⟩

theorem bind {f : α → Exec β} {Q : β → Prop} (h : Ends x oom P)
    (hf : ∀ a, P a → Ends (f a) oom Q) : Ends (x >>= f) oom Q := by
  rcases h with ⟨a, rfl, ha⟩ | ⟨rfl, hoom⟩
  · exact hf a ha
  · exact .inr ⟨rfl, hoom⟩

theorem mono {Q : α → Prop} {oom' : Prop} (h : Ends x oom P) (hoom : oom → oom')
    (hPQ : ∀ a, P a → Q a) : Ends x oom' Q :=
  h.imp (fun ⟨a, ha, hp⟩ => ⟨a, ha, hPQ a hp⟩) fun ⟨hx, h⟩ => ⟨hx, hoom h⟩

theorem of_ok (h : Ends x oom P) {a : α} (hx : x = .ok a) : P a := by
  rcases h with ⟨a', ha', hP⟩ | ⟨herr, -⟩
  · rw [ha', Except.ok.injEq] at hx
    exact hx ▸ hP
  · rw [herr] at hx
    cases hx

end Ends

theorem foldlM_range {σ : Type} {f : σ → ℕ → Exec σ} (I : ℕ → σ → Prop) {n : ℕ} {s : σ}
    (h0 : I 0 s) (hstep : ∀ i < n, ∀ s, I i s → ∃ s', f s i = .ok s' ∧ I (i + 1) s') :
    ∃ s', (List.range n).foldlM f s = .ok s' ∧ I n s' := by
  induction n with
  | zero => exact ⟨s, rfl, h0⟩
  | succ n ih =>
    obtain ⟨s₁, h₁, hI⟩ := ih fun i hi => hstep i (by omega)
    obtain ⟨s₂, h₂, hI₂⟩ := hstep n (by omega) s₁ hI
    exact ⟨s₂, by simp [range_succ, foldlM_append, h₁, h₂], hI₂⟩

end QtBase
