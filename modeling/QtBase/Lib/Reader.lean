import Mathlib.Data.List.Basic
import Mathlib.Data.Nat.Notation

/-! Incremental conversion. Items are read off the front of the input, and an unfinished one waits
until more of the input has come. -/
namespace Incremental

open List

variable {α β : Type}

/-- An item: its output, the errors it counts for, and how many elements follow its first one. -/
structure Item (β : Type) where
  out : List β
  errors : ℕ
  more : ℕ

/-- A reader of items. What it has read stays so when more input follows. -/
structure Reader (α β : Type) where
  next : α → List α → Option (Item β)
  more_le : ∀ {a src it}, next a src = some it → it.more ≤ src.length
  next_append : ∀ {a src it}, next a src = some it → ∀ rest, next a (src ++ rest) = some it

/-- What reading yields, and the unfinished item. -/
@[ext] structure Result (α β : Type) where
  out : List β
  errors : ℕ
  pending : List α

namespace Result

def after (r : Result α β) (out : List β) (errors : ℕ) : Result α β :=
  ⟨out ++ r.out, errors + r.errors, r.pending⟩

@[simp] theorem after_out (r : Result α β) (out : List β) (n : ℕ) :
    (r.after out n).out = out ++ r.out := rfl

@[simp] theorem after_errors (r : Result α β) (out : List β) (n : ℕ) :
    (r.after out n).errors = n + r.errors := rfl

@[simp] theorem after_pending (r : Result α β) (out : List β) (n : ℕ) :
    (r.after out n).pending = r.pending := rfl

@[simp] theorem after_nil (r : Result α β) : r.after [] 0 = r := by
  unfold after
  rw [nil_append, Nat.zero_add]

@[simp] theorem after_after (r : Result α β) (out out' : List β) (n n' : ℕ) :
    (r.after out n).after out' n' = r.after (out' ++ out) (n' + n) := by
  unfold after
  rw [append_assoc, Nat.add_assoc]

end Result

namespace Reader

variable (R : Reader α β)

def read : List α → Result α β
  | [] => ⟨[], 0, []⟩
  | a :: src =>
    match R.next a src with
    | none => ⟨[], 0, a :: src⟩
    | some it => (read (src.drop it.more)).after it.out it.errors
termination_by src => src.length
decreasing_by
  simp only [length_drop, length_cons]
  omega

@[simp] theorem read_nil : R.read [] = ⟨[], 0, []⟩ := by
  unfold read
  rfl

variable {R}

theorem read_unfinished {a : α} {src : List α} (h : R.next a src = none) :
    R.read (a :: src) = ⟨[], 0, a :: src⟩ := by
  unfold read
  rw [h]

theorem read_item {a : α} {src : List α} {it : Item β} (h : R.next a src = some it) :
    R.read (a :: src) = (R.read (src.drop it.more)).after it.out it.errors := by
  conv_lhs => unfold read
  rw [h]

theorem pending_eq_nil_or : ∀ xs : List α, (R.read xs).pending = [] ∨
    ∃ a src done, (R.read xs).pending = a :: src ∧ R.next a src = none ∧ xs = done ++ a :: src
  | [] => .inl (by rw [read_nil])
  | a :: src => by
    cases h : R.next a src with
    | none => exact .inr ⟨a, src, [], by rw [read_unfinished h], h, rfl⟩
    | some it =>
      rw [read_item h]
      have hlt : (src.drop it.more).length < (a :: src).length := by
        simp only [length_drop, length_cons]
        omega
      rcases pending_eq_nil_or (src.drop it.more) with hp | ⟨b, rest, done, hp, hb, heq⟩
      · exact .inl hp
      · refine .inr ⟨b, rest, a :: src.take it.more ++ done, hp, hb, ?_⟩
        rw [append_assoc, ← heq, cons_append, take_append_drop]
termination_by xs => xs.length

theorem read_append : ∀ xs ys : List α, R.read (xs ++ ys) =
    (R.read ((R.read xs).pending ++ ys)).after (R.read xs).out (R.read xs).errors
  | [], ys => by rw [read_nil, nil_append, Result.after_nil]
  | a :: src, ys => by
    cases h : R.next a src with
    | none => rw [read_unfinished h, Result.after_nil]
    | some it =>
      have hlt : (src.drop it.more).length < (a :: src).length := by
        simp only [length_drop, length_cons]
        omega
      have ih := read_append (src.drop it.more) ys
      rw [read_item h, cons_append, read_item (R.next_append h ys),
        drop_append_of_le_length (R.more_le h), ih, Result.after_after]
      rfl
termination_by xs => xs.length

end Reader

end Incremental
