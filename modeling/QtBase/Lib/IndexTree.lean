import Mathlib.Data.Nat.Notation
import Mathlib.Tactic.Common

/-! Functions of a number that are changed at single places, as binary trees: to look up a value
takes as many steps as the number has bits. -/
namespace QtBase.Lib

open Nat

inductive IndexTree (α : Type)
  | leaf
  | node (value : α) (odd even : IndexTree α)

namespace IndexTree

variable {α : Type} (dflt : α)

/-- The value at 0 stands at the root, those at odd and at even numbers below it. -/
def get : IndexTree α → ℕ → α
  | leaf, _ => dflt
  | node value _ _, 0 => value
  | node _ odd even, i + 1 => bif Nat.beq (i % 2) 0 then odd.get (i / 2) else even.get (i / 2)

/-- Set a value, in no more steps than given. -/
def set : ℕ → IndexTree α → ℕ → α → IndexTree α
  | 0, t, _, _ => t
  | _ + 1, leaf, 0, v => node v leaf leaf
  | _ + 1, node _ odd even, 0, v => node v odd even
  | n + 1, leaf, i + 1, v =>
    bif Nat.beq (i % 2) 0 then node dflt (set n leaf (i / 2) v) leaf
    else node dflt leaf (set n leaf (i / 2) v)
  | n + 1, node value odd even, i + 1, v =>
    bif Nat.beq (i % 2) 0 then node value (set n odd (i / 2) v) even
    else node value odd (set n even (i / 2) v)

variable {dflt} {t : IndexTree α} {n i j : ℕ} {v : α}

theorem get_node_succ (value : α) (odd even : IndexTree α) (i : ℕ) :
    (node value odd even).get dflt (i + 1) =
      if i % 2 = 0 then odd.get dflt (i / 2) else even.get dflt (i / 2) := by
  show (bif beq (i % 2) 0 then _ else _) = _
  by_cases heven : i % 2 = 0
  · rw [heven, if_pos rfl]
    rfl
  · rw [Bool.eq_false_iff.mpr fun h => heven (eq_of_beq_eq_true h), if_neg heven]
    rfl

theorem set_leaf_succ : set dflt (n + 1) leaf i v = set dflt (n + 1) (node dflt leaf leaf) i v := by
  cases i with
  | zero => rfl
  | succ i => rfl

theorem get_set (h : i < n) : (set dflt n t i v).get dflt j = if j = i then v else t.get dflt j := by
  induction n generalizing t i j with
  | zero => omega
  | succ n ih =>
    suffices hnode : ∀ value odd even, (set dflt (n + 1) (node value odd even) i v).get dflt j =
        if j = i then v else (node value odd even).get dflt j by
      cases t with
      | leaf =>
        rw [set_leaf_succ, hnode]
        cases j with
        | zero => rfl
        | succ j =>
          rw [get_node_succ]
          split_ifs <;> rfl
      | node value odd even => exact hnode value odd even
    intro value odd even
    cases i with
    | zero =>
      cases j with
      | zero => rfl
      | succ j => rw [if_neg (succ_ne_zero j)]; rfl
    | succ i =>
      show (bif beq (i % 2) 0 then _ else _ : IndexTree α).get dflt j = _
      by_cases heven : i % 2 = 0
      · rw [heven, show beq 0 0 = true from rfl, cond_true]
        cases j with
        | zero => rw [if_neg (succ_ne_zero i).symm]; rfl
        | succ j =>
          rw [get_node_succ, get_node_succ, ih (by omega)]
          split_ifs <;> first | rfl | omega
      · rw [Bool.eq_false_iff.mpr fun h => heven (eq_of_beq_eq_true h), cond_false]
        cases j with
        | zero => rw [if_neg (succ_ne_zero i).symm]; rfl
        | succ j =>
          rw [get_node_succ, get_node_succ, ih (by omega)]
          split_ifs <;> first | rfl | omega

/-- Set the values of a list, from an index on. -/
def setFrom : IndexTree (Option α) → ℕ → List α → IndexTree (Option α)
  | t, _, [] => t
  | t, i, a :: l => setFrom (t.set none (i + 1) i (some a)) (i + 1) l

/-- The tree of a list. -/
def ofList (l : List α) : IndexTree (Option α) := setFrom leaf 0 l

theorem get_setFrom (t : IndexTree (Option α)) (i j : ℕ) (l : List α) :
    (setFrom t i l).get none j =
      if i ≤ j ∧ j < i + l.length then l[j - i]? else t.get none j := by
  induction l generalizing t i with
  | nil =>
    rw [if_neg (by rw [List.length_nil]; omega)]
    rfl
  | cons a l ih =>
    unfold setFrom
    rw [ih, get_set (Nat.lt_succ_self i), List.length_cons]
    by_cases heq : j = i
    · rw [if_neg (by omega), if_pos heq, if_pos (by omega), heq, Nat.sub_self]
      rfl
    · by_cases hin : i + 1 ≤ j ∧ j < i + 1 + l.length
      · rw [if_pos hin, if_pos (by omega), show j - i = j - (i + 1) + 1 by omega,
          List.getElem?_cons_succ]
      · rw [if_neg hin, if_neg heq, if_neg (by omega)]

theorem get_ofList (l : List α) (j : ℕ) : (ofList l).get none j = l[j]? := by
  unfold ofList
  rw [get_setFrom]
  split_ifs with hin
  · rfl
  · rw [List.getElem?_eq_none (by omega)]
    rfl

end IndexTree

end QtBase.Lib
