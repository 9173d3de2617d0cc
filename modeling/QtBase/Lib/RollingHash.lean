import Mathlib.Tactic.Ring

/-! The binary polynomial of a window of keys, and how it moves on by one place. -/
namespace RollingHash

/-- `2 ^ (n - 1) * key i + … + key (i + n - 1)` -/
def window (key : ℤ → ℕ) : ℕ → ℤ → ℤ
  | 0, _ => 0
  | n + 1, i => 2 * window key n i + key (i + n)

variable {key key' : ℤ → ℕ} {i j : ℤ}

theorem window_succ (n : ℕ) (i : ℤ) :
    window key (n + 1) i = 2 * window key n i + key (i + n) := rfl

theorem window_cons (n : ℕ) (i : ℤ) :
    window key (n + 1) i = key i * 2 ^ n + window key n (i + 1) := by
  induction n with
  | zero => simp [window]
  | succ n ih =>
    have hplace : i + ((n + 1 : ℕ) : ℤ) = i + 1 + n := by omega
    calc window key (n + 1 + 1) i
        = 2 * (key i * 2 ^ n + window key n (i + 1)) + key (i + 1 + n) := by
          rw [window_succ, ih, hplace]
      _ = key i * 2 ^ (n + 1) + (2 * window key n (i + 1) + key (i + 1 + n)) := by ring
      _ = key i * 2 ^ (n + 1) + window key (n + 1) (i + 1) := by rw [window_succ]

theorem window_congr {n : ℕ} (h : ∀ t : ℕ, t < n → key (i + t) = key' (j + t)) :
    window key n i = window key' n j := by
  induction n with
  | zero => rfl
  | succ n ih =>
    rw [window_succ, window_succ, ih fun t ht => h t (by omega), h n (by omega)]

theorem window_roll (n : ℕ) (i : ℤ) :
    window key n (i + 1) = window key (n + 1) i - key i * 2 ^ n := by
  rw [window_cons]
  ring

end RollingHash
