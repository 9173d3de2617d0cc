import Mathlib.Logic.Equiv.Defs
import Mathlib.Data.Int.Notation
import Mathlib.Tactic.Common

/-! `QUndoStack`: commands, macros and the clean index. -/
namespace QtBase.Gui

/-! ## Commands -/

/-- The commands of an application: `redo()` changes the document by `effect`, `undo()` by its
inverse. Either may change the command, to mark it obsolete for instance, but not its effect. -/
structure UndoCommands (D C : Type) where
  effect : C → Equiv.Perm D
  afterRedo : C → D → C
  afterUndo : C → D → C
  /-- the merged command, nothing if `mergeWith()` returns `false` -/
  mergeWith : C → C → Option C
  isObsolete : C → Bool
  id : C → ℤ
  effect_afterRedo : ∀ c d, effect (afterRedo c d) = effect c
  effect_afterUndo : ∀ c d, effect (afterUndo c d) = effect c
  effect_mergeWith : ∀ c cmd merged, mergeWith c cmd = some merged →
    effect merged = (effect c).trans (effect cmd)
  effect_obsolete : ∀ c, isObsolete c = true → effect c = Equiv.refl D

/-- `QUndoCommand`: one of the application's, or a macro with its `child_list`. -/
inductive QUndoCommand (C : Type) where
  | leaf (c : C)
  | parent (child_list : List (QUndoCommand C))

namespace QUndoCommand

variable {D C : Type} (k : UndoCommands D C)

def isObsolete : QUndoCommand C → Bool
  | leaf c => k.isObsolete c
  | parent _ => false

mutual

/-- What a command does to a document. -/
def effect : QUndoCommand C → Equiv.Perm D
  | leaf c => k.effect c
  | parent child_list => effects child_list

/-- What the commands of a list do to a document, the first one first. -/
def effects : List (QUndoCommand C) → Equiv.Perm D
  | [] => Equiv.refl D
  | c :: cs => (effect c).trans (effects cs)

end

mutual

/-- `QUndoCommand::redo`, and the document it leaves -/
def redo : QUndoCommand C → D → QUndoCommand C × D
  | leaf c, document => (leaf (k.afterRedo c document), k.effect c document)
  | parent child_list, document =>
    (parent (redoChildren child_list document).1, (redoChildren child_list document).2)

def redoChildren : List (QUndoCommand C) → D → List (QUndoCommand C) × D
  | [], document => ([], document)
  | c :: cs, document =>
    ((redo c document).1 :: (redoChildren cs (redo c document).2).1,
      (redoChildren cs (redo c document).2).2)

end

mutual

/-- `QUndoCommand::undo`, the children from the last one to the first -/
def undo : QUndoCommand C → D → QUndoCommand C × D
  | leaf c, document => (leaf (k.afterUndo c document), (k.effect c).symm document)
  | parent child_list, document =>
    (parent (undoChildren child_list document).1, (undoChildren child_list document).2)

def undoChildren : List (QUndoCommand C) → D → List (QUndoCommand C) × D
  | [], document => ([], document)
  | c :: cs, document =>
    ((undo c (undoChildren cs document).2).1 :: (undoChildren cs document).1,
      (undo c (undoChildren cs document).2).2)

end

mutual

theorem redo_eq (c : QUndoCommand C) (document : D) :
    effect k (redo k c document).1 = effect k c ∧ (redo k c document).2 = effect k c document := by
  cases c with
  | leaf c => exact ⟨k.effect_afterRedo c document, rfl⟩
  | parent child_list => exact redoChildren_eq child_list document

theorem redoChildren_eq (cs : List (QUndoCommand C)) (document : D) :
    effects k (redoChildren k cs document).1 = effects k cs ∧
      (redoChildren k cs document).2 = effects k cs document := by
  cases cs with
  | nil => exact ⟨rfl, rfl⟩
  | cons c cs =>
    obtain ⟨hc, hd⟩ := redo_eq c document
    obtain ⟨hcs, hds⟩ := redoChildren_eq cs (redo k c document).2
    constructor
    · show (effect k _).trans (effects k _) = _
      rw [hc, hcs, effects]
    · show (redoChildren k cs (redo k c document).2).2 = _
      rw [hds, hd, effects]
      rfl

end

mutual

theorem undo_eq (c : QUndoCommand C) (document : D) :
    effect k (undo k c document).1 = effect k c ∧
      (undo k c document).2 = (effect k c).symm document := by
  cases c with
  | leaf c => exact ⟨k.effect_afterUndo c document, rfl⟩
  | parent child_list => exact undoChildren_eq child_list document

theorem undoChildren_eq (cs : List (QUndoCommand C)) (document : D) :
    effects k (undoChildren k cs document).1 = effects k cs ∧
      (undoChildren k cs document).2 = (effects k cs).symm document := by
  cases cs with
  | nil => exact ⟨rfl, rfl⟩
  | cons c cs =>
    obtain ⟨hcs, hds⟩ := undoChildren_eq cs document
    obtain ⟨hc, hd⟩ := undo_eq c (undoChildren k cs document).2
    constructor
    · show (effect k _).trans (effects k _) = _
      rw [hc, hcs, effects]
    · show (undo k c (undoChildren k cs document).2).2 = _
      rw [hd, hds, effects]
      rfl

end

theorem effect_of_isObsolete {c : QUndoCommand C} (h : isObsolete k c = true) :
    effect k c = Equiv.refl D := by
  cases c with
  | leaf c => exact k.effect_obsolete c h
  | parent child_list => cases h

theorem effects_append (cs cs' : List (QUndoCommand C)) :
    effects k (cs ++ cs') = (effects k cs).trans (effects k cs') := by
  induction cs with
  | nil => rfl
  | cons c cs ih =>
    show (effect k c).trans (effects k (cs ++ cs')) = _
    rw [ih, ← Equiv.trans_assoc]
    rfl

theorem effects_concat (cs : List (QUndoCommand C)) (c : QUndoCommand C) :
    effects k (cs ++ [c]) = (effects k cs).trans (effect k c) := by
  rw [effects_append]
  rfl

end QUndoCommand

/-! ## The stack -/

/-- `QUndoStackPrivate`, with the document its commands change. The first open macro is the last
command of `command_list`, each further one the last child of the one before it, so `macro_stack` is
their number. -/
structure QUndoStack (D C : Type) where
  document : D
  command_list : List (QUndoCommand C)
  macro_stack : ℕ
  index : ℤ
  clean_index : ℤ
  undo_limit : ℤ

namespace QUndoStack

open QUndoCommand

variable {D C : Type} (k : UndoCommands D C) (s : QUndoStack D C)

/-- `QUndoStack()`, with its undo limit set -/
def construct (document : D) (undo_limit : ℤ) : QUndoStack D C where
  document := document
  command_list := []
  macro_stack := 0
  index := 0
  clean_index := 0
  undo_limit := undo_limit

def count : ℤ := s.command_list.length

def isClean : Bool := if s.macro_stack ≠ 0 then false else s.clean_index == s.index

def canUndo : Bool := if s.macro_stack ≠ 0 then false else decide (s.index > 0)

/-- `command_list.at(i)` -/
def at' (i : ℤ) : Option (QUndoCommand C) := if i < 0 then none else s.command_list[i.toNat]?

/-- `QUndoStackPrivate::setIndex` -/
def setIndexTo (idx : ℤ) (clean : Bool) : QUndoStack D C :=
  let s := { s with index := idx }
  if clean then { s with clean_index := s.index } else s

def checkUndoLimit : QUndoStack D C :=
  if s.undo_limit ≤ 0 ∨ s.macro_stack ≠ 0 ∨ s.undo_limit ≥ s.count then s
  else
    let del_count := s.count - s.undo_limit
    { s with
      command_list := s.command_list.drop del_count.toNat
      index := s.index - del_count
      clean_index :=
        if s.clean_index ≠ -1 then
          if s.clean_index < del_count then -1 else s.clean_index - del_count
        else s.clean_index }

def resetClean : QUndoStack D C := { s with clean_index := -1 }

def clear : QUndoStack D C :=
  if s.command_list = [] then s
  else { s with macro_stack := 0, command_list := [], index := 0, clean_index := 0 }

def setClean : QUndoStack D C := if s.macro_stack ≠ 0 then s else s.setIndexTo s.index true

/-- The commands above the index are deleted, with the clean state if it was among them. -/
def deleteUndone : QUndoStack D C :=
  { s with
    command_list := s.command_list.take s.index.toNat
    clean_index := if s.clean_index > s.index then -1 else s.clean_index }

/-- `child_list` of the last of `n` open macros, the first one being the last of `cs` -/
def openChildren : ℕ → List (QUndoCommand C) → List (QUndoCommand C)
  | 0, cs => cs
  | n + 1, cs =>
    match cs.getLast? with
    | some (.parent child_list) => openChildren n child_list
    | _ => []

/-- `f` applied to that `child_list` -/
def updateOpen (f : List (QUndoCommand C) → List (QUndoCommand C)) :
    ℕ → List (QUndoCommand C) → List (QUndoCommand C)
  | 0, cs => f cs
  | n + 1, cs =>
    match cs.getLast? with
    | some (.parent child_list) => cs.dropLast ++ [.parent (updateOpen f n child_list)]
    | _ => cs

/-- `cur->mergeWith(cmd)` if `push` tries it -/
def tryMerge (cur : Option (QUndoCommand C)) (cmd : C) (mayMerge : Bool) : Option C :=
  match cur with
  | some (.leaf c) => if k.id c ≠ -1 ∧ k.id c = k.id cmd ∧ mayMerge then k.mergeWith c cmd else none
  | _ => none

def push (cmd : C) : QUndoStack D C :=
  let document := if k.isObsolete cmd then s.document else k.effect cmd s.document
  let cmd := if k.isObsolete cmd then cmd else k.afterRedo cmd s.document
  let s := { s with document := document }
  if s.macro_stack ≠ 0 then
    let cur := (openChildren s.macro_stack s.command_list).getLast?
    match tryMerge k cur cmd true with
    | some merged =>
      let f := fun child_list : List (QUndoCommand C) =>
        if k.isObsolete merged then child_list.dropLast else child_list.dropLast ++ [.leaf merged]
      { s with command_list := updateOpen f s.macro_stack s.command_list }
    | none =>
      if k.isObsolete cmd then s
      else
        { s with command_list := updateOpen (· ++ [QUndoCommand.leaf cmd]) s.macro_stack s.command_list }
  else
    let cur := if s.index > 0 then s.at' (s.index - 1) else none
    let s := s.deleteUndone
    match tryMerge k cur cmd (s.index != s.clean_index) with
    | some merged =>
      if k.isObsolete merged then
        { s with command_list := s.command_list.dropLast }.setIndexTo (s.index - 1) false
      else { s with command_list := s.command_list.dropLast ++ [.leaf merged] }
    | none =>
      if k.isObsolete cmd then s
      else
        let s := { s with command_list := s.command_list ++ [QUndoCommand.leaf cmd] }.checkUndoLimit
        s.setIndexTo (s.index + 1) false

/-- The command at `i` has become obsolete: it is deleted. -/
def takeAt (i : ℤ) : QUndoStack D C :=
  let s := { s with command_list := s.command_list.eraseIdx i.toNat }
  if s.clean_index > i then s.resetClean else s

/-- `cmd->redo()` for the command at `i`, or no change if it is obsolete -/
def redoAt (cmd : QUndoCommand C) (i : ℤ) : QUndoStack D C :=
  if isObsolete k cmd then s
  else
    { s with
      document := (redo k cmd s.document).2
      command_list := s.command_list.set i.toNat (redo k cmd s.document).1 }

/-- `cmd->undo()` for the command at `i` -/
def undoAt (cmd : QUndoCommand C) (i : ℤ) : QUndoStack D C :=
  { s with
    document := (undo k cmd s.document).2
    command_list := s.command_list.set i.toNat (undo k cmd s.document).1 }

/-- `isObsolete()` of the command at `i`, as it is now -/
def obsoleteAt (i : ℤ) : Bool := (s.at' i).any (isObsolete k)

def undo : QUndoStack D C :=
  if s.index = 0 then s
  else if s.macro_stack ≠ 0 then s
  else
    let idx := s.index - 1
    match s.at' idx with
    | none => s
    | some cmd =>
      let s := if isObsolete k cmd then s else undoAt k s cmd idx
      let s := if obsoleteAt k s idx then s.takeAt idx else s
      s.setIndexTo idx false

def redo : QUndoStack D C :=
  if s.index = s.count then s
  else if s.macro_stack ≠ 0 then s
  else
    let idx := s.index
    match s.at' idx with
    | none => s
    | some cmd =>
      let s := redoAt k s cmd idx
      if obsoleteAt k s idx then s.takeAt idx else s.setIndexTo (s.index + 1) false

/-- The first loop of `setIndex`, which goes up to `idx`; a deleted command brings `idx` down. -/
def redoLoop : ℕ → QUndoStack D C → ℤ → ℤ → QUndoStack D C × ℤ × ℤ
  | 0, s, i, idx => (s, i, idx)
  | steps + 1, s, i, idx =>
    if i < idx then
      match s.at' i with
      | none => (s, i, idx)
      | some cmd =>
        let s := redoAt k s cmd i
        if obsoleteAt k s i then redoLoop steps (s.takeAt i) i (idx - 1)
        else redoLoop steps s (i + 1) idx
    else (s, i, idx)

/-- The second loop of `setIndex`, which goes down to `idx`. -/
def undoLoop : ℕ → QUndoStack D C → ℤ → ℤ → QUndoStack D C
  | 0, s, _, _ => s
  | steps + 1, s, i, idx =>
    if i > idx then
      let i := i - 1
      match s.at' i with
      | none => s
      | some cmd =>
        let s := undoAt k s cmd i
        undoLoop steps (if obsoleteAt k s i then s.takeAt i else s) i idx
    else s

def setIndex (idx : ℤ) : QUndoStack D C :=
  if s.macro_stack ≠ 0 then s
  else
    let idx := if idx < 0 then 0 else if idx > s.count then s.count else idx
    let up := redoLoop k (idx - s.index).toNat s s.index idx
    let s := undoLoop k (up.2.1 - up.2.2).toNat up.1 up.2.1 up.2.2
    s.setIndexTo up.2.2 false

def beginMacro : QUndoStack D C :=
  let cmd : QUndoCommand C := .parent []
  let s :=
    if s.macro_stack = 0 then
      let s := s.deleteUndone
      { s with command_list := s.command_list ++ [cmd] }
    else { s with command_list := updateOpen (· ++ [cmd]) s.macro_stack s.command_list }
  { s with macro_stack := s.macro_stack + 1 }

def endMacro : QUndoStack D C :=
  if s.macro_stack = 0 then s
  else
    let s := { s with macro_stack := s.macro_stack - 1 }
    if s.macro_stack = 0 then
      let s := s.checkUndoLimit
      s.setIndexTo (s.index + 1) false
    else s

end QUndoStack

end QtBase.Gui
