import Mathlib.Algebra.Order.Ring.Int
import Mathlib.Logic.Function.Iterate
import Mathlib.Tactic.Common
import QtBase.Gui.UndoStack

/-! `QUndoStack::setIndex` against repeated `undo()` and `redo()`, for commands of any kind. -/
namespace QtBase.Gui

open List Function Nat

/-- Commands that may do anything: `redo()` and `undo()` change the document and the command, its
obsolete flag included. -/
structure CommandCalls (D C : Type) where
  redo : C → D → C × D
  undo : C → D → C × D
  isObsolete : C → Bool

/-- A call of a command, as it was before. -/
inductive CommandCall (C : Type) where
  | redo (cmd : C)
  | undo (cmd : C)

/-- `QUndoStackPrivate`, with the document and the calls that commands got so far. -/
structure RecordedStack (D C : Type) where
  document : D
  calls : List (CommandCall C)
  command_list : List C
  macro_stack : ℕ
  index : ℤ
  clean_index : ℤ

namespace RecordedStack

variable {D C : Type} (k : CommandCalls D C) (s : RecordedStack D C)

def count : ℤ := s.command_list.length

/-- `command_list.at(i)` -/
def at' (i : ℤ) : Option C := if i < 0 then none else s.command_list[i.toNat]?

def resetClean : RecordedStack D C := { s with clean_index := -1 }

/-- `cmd->redo()` for the command at `i` -/
def callRedo (i : ℤ) (cmd : C) : RecordedStack D C :=
  { s with
    document := (k.redo cmd s.document).2
    calls := s.calls ++ [.redo cmd]
    command_list := s.command_list.set i.toNat (k.redo cmd s.document).1 }

/-- `cmd->undo()` for the command at `i` -/
def callUndo (i : ℤ) (cmd : C) : RecordedStack D C :=
  { s with
    document := (k.undo cmd s.document).2
    calls := s.calls ++ [.undo cmd]
    command_list := s.command_list.set i.toNat (k.undo cmd s.document).1 }

/-- `isObsolete()` of the command at `i`, as it is now -/
def obsoleteAt (i : ℤ) : Bool := (s.at' i).any k.isObsolete

/-- The command at `i` is deleted. -/
def takeAt (i : ℤ) : RecordedStack D C :=
  let s := { s with command_list := s.command_list.eraseIdx i.toNat }
  if s.clean_index > i then s.resetClean else s

def undo : RecordedStack D C :=
  if s.index = 0 then s
  else if s.macro_stack ≠ 0 then s
  else
    let idx := s.index - 1
    match s.at' idx with
    | none => s
    | some cmd =>
      let s := if k.isObsolete cmd then s else callUndo k s idx cmd
      let s := if obsoleteAt k s idx then s.takeAt idx else s
      { s with index := idx }

def redo : RecordedStack D C :=
  if s.index = s.count then s
  else if s.macro_stack ≠ 0 then s
  else
    let idx := s.index
    match s.at' idx with
    | none => s
    | some cmd =>
      let s := if k.isObsolete cmd then s else callRedo k s idx cmd
      if obsoleteAt k s idx then s.takeAt idx else { s with index := s.index + 1 }

/-- The first loop of `setIndex`, which goes up to `idx`; a deleted command brings `idx` down. -/
def redoLoop : ℕ → RecordedStack D C → ℤ → ℤ → RecordedStack D C × ℤ × ℤ
  | 0, s, i, idx => (s, i, idx)
  | steps + 1, s, i, idx =>
    if i < idx then
      match s.at' i with
      | none => (s, i, idx)
      | some cmd =>
        let s := if k.isObsolete cmd then s else callRedo k s i cmd
        if obsoleteAt k s i then redoLoop steps (s.takeAt i) i (idx - 1)
        else redoLoop steps s (i + 1) idx
    else (s, i, idx)

/-- The second loop of `setIndex`, which goes down to `idx`. -/
def undoLoop : ℕ → RecordedStack D C → ℤ → ℤ → RecordedStack D C
  | 0, s, _, _ => s
  | steps + 1, s, i, idx =>
    if i > idx then
      let i := i - 1
      match s.at' i with
      | none => s
      | some cmd =>
        let s := callUndo k s i cmd
        undoLoop steps (if obsoleteAt k s i then s.takeAt i else s) i idx
    else s

/-- The index that `setIndex` is to reach. -/
def target (idx : ℤ) : ℤ := if idx < 0 then 0 else if idx > s.count then s.count else idx

def setIndex (idx : ℤ) : RecordedStack D C :=
  if s.macro_stack ≠ 0 then s
  else
    let idx := s.target idx
    let up := redoLoop k (idx - s.index).toNat s s.index idx
    let s := undoLoop k (up.2.1 - up.2.2).toNat up.1 up.2.1 up.2.2
    { s with index := up.2.2 }

/-- `redo()` or `undo()` until as many commands as the index is away from are stepped over or
removed, each call doing so with one. -/
def stepTo (idx : ℤ) : RecordedStack D C :=
  if s.index ≤ s.target idx then (redo k)^[(s.target idx - s.index).toNat] s
  else (undo k)^[(s.index - s.target idx).toNat] s

/-! ## What a step leaves alone -/

section Steps

variable {k} {s} {i j : ℤ} {cmd : C}

theorem at'_eq (h : 0 ≤ i) : s.at' i = s.command_list[i.toNat]? := if_neg (by omega)

theorem exists_at' (h : 0 ≤ i) (h' : i < s.count) : ∃ cmd, s.at' i = some cmd := by
  unfold count at h'
  rw [at'_eq h]
  exact ⟨_, getElem?_eq_getElem (by omega)⟩

theorem at'_callUndo_of_lt (h : 0 ≤ j) (hlt : j < i) :
    (callUndo k s i cmd).at' j = s.at' j := by
  rw [at'_eq h, at'_eq h]
  exact getElem?_set_ne (by omega)

theorem at'_takeAt_of_lt (h : 0 ≤ j) (hlt : j < i) : (s.takeAt i).at' j = s.at' j := by
  have hkept : (s.takeAt i).command_list = s.command_list.eraseIdx i.toNat := by
    unfold takeAt
    dsimp only
    split <;> rfl
  rw [at'_eq h, at'_eq h, hkept]
  exact getElem?_eraseIdx_of_lt (by omega)

theorem takeAt_index (i index : ℤ) :
    ({ s with index := index } : RecordedStack D C).takeAt i =
      { s.takeAt i with index := index } := by
  unfold takeAt
  dsimp only
  split <;> rfl

theorem count_takeAt (h : 0 ≤ i) (h' : i < s.count) : (s.takeAt i).count = s.count - 1 := by
  unfold count at h' ⊢
  have hkept : (s.takeAt i).command_list = s.command_list.eraseIdx i.toNat := by
    unfold takeAt
    dsimp only
    split <;> rfl
  rw [hkept, length_eraseIdx, if_pos (by omega)]
  omega

theorem takeAt_fields (i : ℤ) : (s.takeAt i).macro_stack = s.macro_stack ∧
    (s.takeAt i).calls = s.calls ∧ (s.takeAt i).index = s.index := by
  unfold takeAt
  dsimp only
  split <;> exact ⟨rfl, rfl, rfl⟩

theorem redo_step (hs : s.macro_stack = 0) (hcmd : s.at' i = some cmd) (hi : i < s.count) :
    redo k { s with index := i } =
      let t := if k.isObsolete cmd then s else callRedo k s i cmd
      if obsoleteAt k t i then { t.takeAt i with index := i } else { t with index := i + 1 } := by
  have hne : ({ s with index := i } : RecordedStack D C).index ≠
      ({ s with index := i } : RecordedStack D C).count := Int.ne_of_lt hi
  have hat : ({ s with index := i } : RecordedStack D C).at' i = some cmd := hcmd
  unfold redo
  rw [if_neg hne, if_neg (not_not.2 hs)]
  dsimp only
  rw [hat]
  by_cases hobs : k.isObsolete cmd = true
  · simp only [if_pos hobs]
    rw [takeAt_index]
    rfl
  · simp only [if_neg hobs]
    have hcall : callRedo k { s with index := i } i cmd =
        { callRedo k s i cmd with index := i } := rfl
    rw [hcall, takeAt_index]
    rfl

theorem undo_step (hs : s.macro_stack = 0) (hi : 0 ≤ i) (hcmd : s.at' i = some cmd) :
    undo k { s with index := i + 1 } =
      let t := if k.isObsolete cmd then s else callUndo k s i cmd
      { if obsoleteAt k t i then t.takeAt i else t with index := i } := by
  have hne : ({ s with index := i + 1 } : RecordedStack D C).index ≠ 0 := by
    show i + 1 ≠ 0
    omega
  have hat : ({ s with index := i + 1 } : RecordedStack D C).at' (i + 1 - 1) = some cmd := by
    rw [Int.add_sub_cancel]
    exact hcmd
  unfold undo
  rw [if_neg hne, if_neg (not_not.2 hs)]
  dsimp only
  rw [hat]
  dsimp only
  rw [Int.add_sub_cancel]
  by_cases hobs : k.isObsolete cmd = true
  · simp only [if_pos hobs]
    rw [takeAt_index]
    have hnow : obsoleteAt k { s with index := i + 1 } i = obsoleteAt k s i := rfl
    rw [hnow]
    split <;> rfl
  · simp only [if_neg hobs]
    have hcall : callUndo k { s with index := i + 1 } i cmd =
        { callUndo k s i cmd with index := i + 1 } := rfl
    have hnow : obsoleteAt k { callUndo k s i cmd with index := i + 1 } i =
        obsoleteAt k (callUndo k s i cmd) i := rfl
    rw [hcall, takeAt_index, hnow]
    split <;> rfl

end Steps

/-! ## The loops -/

section Loops

variable {k}

theorem redoLoop_eq {n : ℕ} {s : RecordedStack D C} {i idx : ℤ} (hs : s.macro_stack = 0)
    (hi : 0 ≤ i) (hidx : idx = i + n) (hle : idx ≤ s.count) :
    redoLoop k n s i idx =
      ({ (redo k)^[n] { s with index := i } with index := s.index },
        ((redo k)^[n] { s with index := i }).index,
        ((redo k)^[n] { s with index := i }).index) := by
  induction n generalizing s i idx with
  | zero =>
    rw [hidx, cast_zero, Int.add_zero]
    rfl
  | succ n ih =>
    rw [cast_succ] at hidx
    obtain ⟨cmd, hcmd⟩ := exists_at' (s := s) hi (by omega)
    rw [iterate_succ_apply, redo_step hs hcmd (by omega), redoLoop, if_pos (by omega),
      hcmd]
    dsimp only
    obtain ⟨t, ht⟩ : ∃ t, t = if k.isObsolete cmd then s else callRedo k s i cmd := ⟨_, rfl⟩
    have hfields : t.macro_stack = 0 ∧ t.index = s.index ∧ t.count = s.count := by
      rw [ht]
      split
      · exact ⟨hs, rfl, rfl⟩
      · refine ⟨hs, rfl, ?_⟩
        unfold count callRedo
        rw [length_set]
    obtain ⟨hidle, hindex, hcount⟩ := hfields
    rw [← ht]
    by_cases hobs : obsoleteAt k t i = true
    · rw [if_pos hobs, if_pos hobs]
      obtain ⟨hidle', -, hindex'⟩ := takeAt_fields (s := t) i
      have hcount' := count_takeAt (s := t) hi (by omega)
      rw [ih (hidle'.trans hidle) hi (by omega) (by omega), hindex', hindex]
    · rw [if_neg hobs, if_neg hobs, ih hidle (by omega) (by omega) (by omega), hindex]

theorem undoLoop_eq {n : ℕ} {s : RecordedStack D C} {i idx : ℤ} (hs : s.macro_stack = 0)
    (hidx : 0 ≤ idx) (hi : i = idx + n) (hle : i ≤ s.count)
    (hfresh : ∀ j, idx ≤ j → j < i → obsoleteAt k s j = false) :
    ({ undoLoop k n s i idx with index := idx } : RecordedStack D C) =
      (undo k)^[n] { s with index := i } := by
  induction n generalizing s i with
  | zero =>
    rw [hi, cast_zero, Int.add_zero]
    rfl
  | succ n ih =>
    rw [cast_succ] at hi
    obtain ⟨i, rfl⟩ : ∃ p, i = p + 1 := ⟨i - 1, by omega⟩
    obtain ⟨cmd, hcmd⟩ := exists_at' (s := s) (i := i) (by omega) (by omega)
    have hnot : k.isObsolete cmd = false := by
      have hobs := hfresh i (by omega) (by omega)
      unfold obsoleteAt at hobs
      rw [hcmd] at hobs
      exact hobs
    rw [iterate_succ_apply, undo_step hs (by omega) hcmd, undoLoop, if_pos (by omega)]
    dsimp only
    rw [Int.add_sub_cancel, hcmd, hnot, if_neg Bool.false_ne_true]
    dsimp only
    have hcountUndo : (callUndo k s i cmd).count = s.count := by
      unfold count callUndo
      rw [length_set]
    by_cases hobs : obsoleteAt k (callUndo k s i cmd) i = true
    · rw [if_pos hobs]
      obtain ⟨hidle, -, -⟩ := takeAt_fields (s := callUndo k s i cmd) i
      have hcount := count_takeAt (s := callUndo k s i cmd) (i := i) (by omega) (by omega)
      refine ih (hidle.trans hs) (by omega) (by omega) fun j hj hj' => ?_
      unfold obsoleteAt
      rw [at'_takeAt_of_lt (by omega) hj', at'_callUndo_of_lt (by omega) hj']
      exact hfresh j hj (by omega)
    · rw [if_neg hobs]
      refine ih hs (by omega) (by omega) fun j hj hj' => ?_
      unfold obsoleteAt
      rw [at'_callUndo_of_lt (by omega) hj']
      exact hfresh j hj (by omega)

theorem calls_undoLoop {n : ℕ} {s : RecordedStack D C} {i idx : ℤ} (hidx : 0 ≤ idx)
    (hi : i = idx + n) (hle : i ≤ s.count) :
    (undoLoop k n s i idx).calls.length = s.calls.length + n := by
  induction n generalizing s i with
  | zero => rfl
  | succ n ih =>
    rw [cast_succ] at hi
    obtain ⟨i, rfl⟩ : ∃ p, i = p + 1 := ⟨i - 1, by omega⟩
    obtain ⟨cmd, hcmd⟩ := exists_at' (s := s) (i := i) (by omega) (by omega)
    have hcount : (callUndo k s i cmd).count = s.count := by
      unfold count callUndo
      rw [length_set]
    have hcalls : (callUndo k s i cmd).calls.length = s.calls.length + 1 := length_append
    rw [undoLoop, if_pos (by omega)]
    dsimp only
    rw [Int.add_sub_cancel, hcmd]
    dsimp only
    by_cases hobs : obsoleteAt k (callUndo k s i cmd) i = true
    · have hcount' := count_takeAt (s := callUndo k s i cmd) (i := i) (by omega) (by omega)
      obtain ⟨-, hsame, -⟩ := takeAt_fields (s := callUndo k s i cmd) i
      rw [if_pos hobs, ih (by omega) (by omega), hsame, hcalls]
      omega
    · rw [if_neg hobs, ih (by omega) (by omega), hcalls]
      omega

theorem calls_undo {n : ℕ} {s : RecordedStack D C} {i idx : ℤ} (hs : s.macro_stack = 0)
    (hidx : 0 ≤ idx) (hi : i = idx + n) (hle : i ≤ s.count) :
    ((undo k)^[n] { s with index := i }).calls.length ≤ s.calls.length + n ∧
      ((∃ j, idx ≤ j ∧ j < i ∧ obsoleteAt k s j = true) →
        ((undo k)^[n] { s with index := i }).calls.length < s.calls.length + n) := by
  induction n generalizing s i with
  | zero =>
    refine ⟨le_refl _, ?_⟩
    rintro ⟨j, hj, hj', -⟩
    rw [hi, cast_zero] at hj'
    omega
  | succ n ih =>
    rw [cast_succ] at hi
    obtain ⟨i, rfl⟩ : ∃ p, i = p + 1 := ⟨i - 1, by omega⟩
    obtain ⟨cmd, hcmd⟩ := exists_at' (s := s) (i := i) (by omega) (by omega)
    rw [iterate_succ_apply, undo_step hs (by omega) hcmd]
    dsimp only
    obtain ⟨t, ht⟩ : ∃ t, t = if k.isObsolete cmd then s else callUndo k s i cmd := ⟨_, rfl⟩
    obtain ⟨u, hu⟩ : ∃ u, u = if obsoleteAt k t i then t.takeAt i else t := ⟨_, rfl⟩
    rw [← ht, ← hu]
    have htCount : t.count = s.count := by
      rw [ht]
      split
      · rfl
      · unfold count callUndo
        rw [length_set]
    have htMacro : t.macro_stack = 0 := by
      rw [ht]
      split <;> exact hs
    have huFields : u.macro_stack = 0 ∧ u.calls = t.calls ∧ i ≤ u.count := by
      have hcount := count_takeAt (s := t) (i := i) (by omega) (by omega)
      obtain ⟨hidle, hcalls, -⟩ := takeAt_fields (s := t) i
      rw [hu]
      split
      · exact ⟨hidle.trans htMacro, hcalls, by omega⟩
      · exact ⟨htMacro, rfl, by omega⟩
    have hbelow : ∀ j, 0 ≤ j → j < i → obsoleteAt k u j = obsoleteAt k s j := by
      intro j hj hj'
      have htAt : t.at' j = s.at' j := by
        rw [ht]
        split
        · rfl
        · exact at'_callUndo_of_lt hj hj'
      unfold obsoleteAt
      rw [hu]
      split
      · rw [at'_takeAt_of_lt hj hj', htAt]
      · rw [htAt]
    obtain ⟨huMacro, huCalls, huCount⟩ := huFields
    obtain ⟨hle', hlt'⟩ := ih huMacro (by omega) huCount
    have huLength : u.calls.length = t.calls.length := by rw [huCalls]
    have htCalls : t.calls.length = s.calls.length + if k.isObsolete cmd then 0 else 1 := by
      rw [ht]
      split
      · rfl
      · exact length_append
    have hobs : obsoleteAt k s i = k.isObsolete cmd := by
      unfold obsoleteAt
      rw [hcmd]
      rfl
    constructor
    · split at htCalls <;> omega
    · rintro ⟨j, hj, hj', hjObs⟩
      by_cases hji : j = i
      · subst hji
        rw [hobs] at hjObs
        rw [if_pos hjObs] at htCalls
        omega
      · have hlt := hlt' ⟨j, hj, by omega, by rw [hbelow j (by omega) (by omega)]; exact hjObs⟩
        split at htCalls <;> omega

end Loops

/-! ## The calls left out -/

section Forget

variable (k : UndoCommands D C) (undo_limit : ℤ)

/-- Invertible commands and macros as commands of any kind. -/
def ofUndoCommands : CommandCalls D (QUndoCommand C) where
  redo := QUndoCommand.redo k
  undo := QUndoCommand.undo k
  isObsolete := QUndoCommand.isObsolete k

/-- The stack without its record of calls. -/
def forget (s : RecordedStack D (QUndoCommand C)) : QUndoStack D C where
  document := s.document
  command_list := s.command_list
  macro_stack := s.macro_stack
  index := s.index
  clean_index := s.clean_index
  undo_limit := undo_limit

variable {k} {undo_limit}

theorem forget_takeAt (s : RecordedStack D (QUndoCommand C)) (i : ℤ) :
    forget undo_limit (s.takeAt i) = (forget undo_limit s).takeAt i := by
  unfold takeAt QUndoStack.takeAt
  dsimp only
  change forget _ (if s.clean_index > i then _ else _) = if s.clean_index > i then _ else _
  split <;> rfl

theorem forget_redoCall (s : RecordedStack D (QUndoCommand C)) (i : ℤ) (cmd : QUndoCommand C) :
    forget undo_limit (if (ofUndoCommands k).isObsolete cmd then s
      else callRedo (ofUndoCommands k) s i cmd) = (forget undo_limit s).redoAt k cmd i := by
  unfold QUndoStack.redoAt
  change forget _ (if QUndoCommand.isObsolete k cmd then _ else _) = _
  split <;> rfl

theorem forget_redoLoop (n : ℕ) (s : RecordedStack D (QUndoCommand C)) (i idx : ℤ) :
    (forget undo_limit (redoLoop (ofUndoCommands k) n s i idx).1,
      (redoLoop (ofUndoCommands k) n s i idx).2) =
      (forget undo_limit s).redoLoop k n i idx := by
  induction n generalizing s i idx with
  | zero => rfl
  | succ n ih =>
    unfold redoLoop QUndoStack.redoLoop
    by_cases hlt : i < idx
    · rw [if_pos hlt, if_pos hlt]
      have hat : (forget undo_limit s).at' i = s.at' i := rfl
      rw [hat]
      cases s.at' i with
      | none => rfl
      | some cmd =>
        dsimp only
        rw [← @forget_redoCall _ _ k undo_limit s i cmd]
        generalize (if (ofUndoCommands k).isObsolete cmd then s
          else callRedo (ofUndoCommands k) s i cmd) = t
        have hobs : (forget undo_limit t).obsoleteAt k i =
          obsoleteAt (ofUndoCommands k) t i := rfl
        rw [hobs, ← forget_takeAt]
        split
        · exact ih _ _ _
        · exact ih _ _ _
    · rw [if_neg hlt, if_neg hlt]

theorem forget_undoLoop (n : ℕ) (s : RecordedStack D (QUndoCommand C)) (i idx : ℤ) :
    forget undo_limit (undoLoop (ofUndoCommands k) n s i idx) =
      (forget undo_limit s).undoLoop k n i idx := by
  induction n generalizing s i with
  | zero => rfl
  | succ n ih =>
    unfold undoLoop QUndoStack.undoLoop
    by_cases hlt : i > idx
    · rw [if_pos hlt, if_pos hlt]
      dsimp only
      have hat : (forget undo_limit s).at' (i - 1) = s.at' (i - 1) := rfl
      rw [hat]
      cases s.at' (i - 1) with
      | none => rfl
      | some cmd =>
        dsimp only
        have hcall : (forget undo_limit s).undoAt k cmd (i - 1) =
          forget undo_limit (callUndo (ofUndoCommands k) s (i - 1) cmd) := rfl
        rw [hcall, ← forget_takeAt, ih]
        congr 1
        exact apply_ite _ _ _ _
    · rw [if_neg hlt, if_neg hlt]

theorem forget_setIndex (s : RecordedStack D (QUndoCommand C)) (idx : ℤ) :
    forget undo_limit (setIndex (ofUndoCommands k) s idx) =
      (forget undo_limit s).setIndex k idx := by
  have hidle : (forget undo_limit s).macro_stack = s.macro_stack := rfl
  have htarget : (if idx < 0 then 0
      else if idx > (forget undo_limit s).count then (forget undo_limit s).count else idx) =
      s.target idx := rfl
  have hindex : (forget undo_limit s).index = s.index := rfl
  unfold setIndex QUndoStack.setIndex
  rw [hidle, htarget, hindex]
  split
  · rfl
  · dsimp only
    rw [← forget_redoLoop]
    dsimp only
    rw [← forget_undoLoop]
    rfl

end Forget

/-! ## `setIndex` -/

/-- Between calls, outside a macro. -/
structure Between (s : RecordedStack D C) : Prop where
  macro_eq : s.macro_stack = 0
  nonneg : 0 ≤ s.index
  le_count : s.index ≤ s.count

theorem target_range (idx : ℤ) : 0 ≤ s.target idx ∧ s.target idx ≤ s.count := by
  have hcount : 0 ≤ s.count := Int.natCast_nonneg _
  unfold target
  split
  · omega
  · split <;> omega

/-- Commands that add to a number, with their obsolete flag. -/
def addCommands : CommandCalls ℤ (ℤ × Bool) where
  redo c d := (c, d + c.1)
  undo c d := (c, d - c.1)
  isObsolete c := c.2

/-- `push(add 5)`, and `setObsolete(true)` for this command -/
def obsoleteDone : RecordedStack ℤ (ℤ × Bool) where
  document := 5
  calls := [.redo (5, false)]
  command_list := [(5, true)]
  macro_stack := 0
  index := 1
  clean_index := 0

end RecordedStack

end QtBase.Gui
