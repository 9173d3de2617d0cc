import QtBase.Gui.UndoStackTracks
import Mathlib.Logic.Function.Iterate

/-! Over whole runs the clean index of a `QUndoStack` marks the document it was set at. -/
namespace QtBase.Gui

open QUndoCommand List Function Int Nat QUndoStack

variable {D C : Type} {k : UndoCommands D C} {base reference : D} {s : QUndoStack D C}

/-! ## The invariant -/

variable (k) in
/-- While a macro is open the document is ahead of the index by that macro. -/
structure Inv (reference : D) (s : QUndoStack D C) : Prop where
  closed : s.macro_stack = 0 → ∃ base, Tracks k base reference s s.index
  index_succ : s.macro_stack ≠ 0 → s.index + 1 = s.count
  openMacros : OpenMacros s.macro_stack s.command_list
  opened : s.macro_stack ≠ 0 →
    ∃ base, Tracks k base reference s s.count ∧ s.clean_index ≤ s.index

namespace Inv

theorem of_closed {i : ℤ} (hs : s.macro_stack = 0) (hi : s.index = i)
    (h : ∃ base, Tracks k base reference s i) : Inv k reference s where
  closed _ := hi ▸ h
  index_succ hne := absurd hs hne
  openMacros := by
    rw [hs]
    trivial
  opened hne := absurd hs hne

theorem index_range (h : Inv k reference s) : 0 ≤ s.index ∧ s.index ≤ s.count := by
  by_cases hs : s.macro_stack = 0
  · obtain ⟨base, ht⟩ := h.closed hs
    exact ⟨ht.nonneg, ht.le⟩
  · have hsucc := h.index_succ hs
    obtain ⟨n, hn⟩ : ∃ n, s.macro_stack = n + 1 := exists_eq_succ_of_ne_zero hs
    have hopen := h.openMacros
    rw [hn] at hopen
    obtain ⟨rest, children, hlist, _⟩ := hopen
    unfold QUndoStack.count at hsucc ⊢
    rw [hlist, length_append, natCast_add] at hsucc ⊢
    have hone : (([QUndoCommand.parent children] : List (QUndoCommand C)).length : ℤ) = 1 := rfl
    omega

theorem clean_range (h : Inv k reference s) : -1 ≤ s.clean_index ∧ s.clean_index ≤ s.count := by
  by_cases hs : s.macro_stack = 0
  · obtain ⟨base, ht⟩ := h.closed hs
    exact ⟨ht.clean_ge, ht.clean_le⟩
  · obtain ⟨base, ht, _⟩ := h.opened hs
    exact ⟨ht.clean_ge, ht.clean_le⟩

theorem document_of_isClean (h : Inv k reference s) (hc : s.isClean = true) :
    s.document = reference := by
  unfold isClean at hc
  by_cases hs : s.macro_stack = 0
  · rw [if_neg (not_not.mpr hs), beq_iff_eq] at hc
    obtain ⟨base, ht⟩ := h.closed hs
    have hi := ht.nonneg
    rw [ht.clean_eq (by omega), ht.document_eq, hc]
  · rw [if_pos hs] at hc
    cases hc

theorem construct (document : D) (limit : ℤ) :
    Inv k document (construct document limit : QUndoStack D C) := by
  apply of_closed rfl rfl
  refine ⟨document, Int.le_refl _, Int.le_refl _, rfl, ?_, Int.le_refl _, fun _ => rfl⟩
  show (-1 : ℤ) ≤ 0
  decide

theorem setClean (h : Inv k reference s) :
    Inv k (if s.macro_stack ≠ 0 then reference else s.document) s.setClean := by
  unfold QUndoStack.setClean
  by_cases hs : s.macro_stack = 0
  · obtain ⟨base, ht⟩ := h.closed hs
    have hi := ht.nonneg
    have hclosed : (s.setIndexTo s.index true).macro_stack = 0 := hs
    rw [if_neg (not_not.mpr hs), if_neg (not_not.mpr hs)]
    apply of_closed hclosed rfl
    refine ⟨base, ht.nonneg, ht.le, ht.document_eq, ?_, ht.le, fun _ => ht.document_eq⟩
    show -1 ≤ s.index
    omega
  · simp [hs, h]

theorem resetClean (h : Inv k reference s) : Inv k reference s.resetClean where
  closed hs := by
    obtain ⟨base, ht⟩ := h.closed hs
    have hi := ht.nonneg
    have hle := ht.le
    refine ⟨base, hi, hle, ht.document_eq, Int.le_refl _, ?_, fun hne => absurd rfl hne⟩
    show -1 ≤ s.count
    omega
  index_succ := h.index_succ
  openMacros := h.openMacros
  opened hs := by
    have hrange := h.index_range
    obtain ⟨base, ht, _⟩ := h.opened hs
    refine ⟨base, ⟨ht.nonneg, ht.le, ht.document_eq, Int.le_refl _, ?_, fun hne => absurd rfl hne⟩, ?_⟩
    · show -1 ≤ s.count
      omega
    · show -1 ≤ s.index
      omega

/-- Whatever was clean before, the document that is left counts from now on. -/
theorem clear (h : Inv k reference s) : Inv k s.document s.clear := by
  unfold QUndoStack.clear
  by_cases hempty : s.command_list = []
  · have hrange := h.index_range
    have hclean := h.clean_range
    have hcount : s.count = 0 := by
      unfold QUndoStack.count
      rw [hempty]
      rfl
    have hs : s.macro_stack = 0 := by
      by_contra hs
      have hsucc := h.index_succ hs
      omega
    obtain ⟨base, ht⟩ := h.closed hs
    rw [if_pos hempty]
    apply of_closed hs rfl
    refine ⟨base, ht.nonneg, ht.le, ht.document_eq, ht.clean_ge, ht.clean_le, fun hne => ?_⟩
    have hdoc := ht.document_eq
    rw [show s.index = s.clean_index by omega] at hdoc
    exact hdoc
  · rw [if_neg hempty]
    apply of_closed rfl rfl
    refine ⟨s.document, Int.le_refl _, Int.le_refl _, rfl, ?_, Int.le_refl _, fun _ => rfl⟩
    show (-1 : ℤ) ≤ 0
    decide

end Inv

/-! ## One command undone or redone -/

variable (k) in
/-- The last `j` commands start from the same document as before. -/
def SameTop (base : D) (j : ℕ) (s s' : QUndoStack D C) : Prop :=
  documentAt k base s'.command_list (s'.command_list.length - j) =
    documentAt k base s.command_list (s.command_list.length - j)

section OneCommand

variable {i : ℤ} {cmd : QUndoCommand C} {j : ℕ}

theorem exists_obsolete (h : obsoleteAt k s i = true) :
    ∃ cmd, s.at' i = some cmd ∧ effect k cmd = Equiv.refl D := by
  unfold obsoleteAt at h
  cases hcmd : s.at' i with
  | none =>
    rw [hcmd] at h
    cases h
  | some cmd =>
    rw [hcmd] at h
    exact ⟨cmd, rfl, effect_of_isObsolete k h⟩

theorem Tracks.back (h : Tracks k base reference s (i + 1)) (hcmd : s.at' i = some cmd)
    (he : effect k cmd = Equiv.refl D) : Tracks k base reference s i := by
  obtain ⟨hi, hlt, hget⟩ := at'_eq_some hcmd
  have hdoc := h.document_eq
  rw [toNat_add hi (by decide)] at hdoc
  have hsucc := @documentAt_succ D C k base s.command_list i.toNat cmd hget
  rw [he] at hsucc
  exact h.move hi (by omega) (hdoc.trans hsucc)

theorem sameTop_set (hcmd : s.at' i = some cmd) {cmd' : QUndoCommand C}
    (he : effect k cmd' = effect k cmd) :
    SameTop k base j s { s with command_list := s.command_list.set i.toNat cmd' } := by
  obtain ⟨_, _, hget⟩ := at'_eq_some hcmd
  show documentAt k base (s.command_list.set i.toNat cmd')
    ((s.command_list.set i.toNat cmd').length - j) = _
  rw [length_set]
  exact documentAt_set hget he _

theorem sameTop_redoAt (hcmd : s.at' i = some cmd) :
    SameTop k base j s (redoAt k s cmd i) := by
  unfold redoAt
  split
  · rfl
  · exact sameTop_set hcmd (redo_eq k cmd s.document).1

theorem sameTop_undoAt (hcmd : s.at' i = some cmd) :
    SameTop k base j s (undoAt k s cmd i) :=
  sameTop_set hcmd (undo_eq k cmd s.document).1

theorem count_redoAt : (redoAt k s cmd i).count = s.count := by
  unfold redoAt
  split
  · rfl
  · show ((s.command_list.set _ _).length : ℤ) = _
    rw [length_set]
    rfl

theorem count_undoAt : (undoAt k s cmd i).count = s.count := by
  show ((s.command_list.set _ _).length : ℤ) = _
  rw [length_set]
  rfl

theorem takeAt_fields (s : QUndoStack D C) (i : ℤ) :
    (s.takeAt i).command_list = s.command_list.eraseIdx i.toNat ∧
      (s.takeAt i).macro_stack = s.macro_stack ∧ (s.takeAt i).index = s.index := by
  unfold takeAt
  dsimp only
  split <;> exact ⟨rfl, rfl, rfl⟩

theorem count_takeAt (hcmd : s.at' i = some cmd) : (s.takeAt i).count = s.count - 1 := by
  obtain ⟨hi, hlt, _⟩ := at'_eq_some hcmd
  unfold QUndoStack.count at hlt ⊢
  rw [(takeAt_fields s i).1, length_eraseIdx, if_pos (by omega)]
  omega

theorem sameTop_takeAt (hcmd : s.at' i = some cmd) (he : effect k cmd = Equiv.refl D)
    (hj : (j : ℤ) ≤ s.count - (i + 1)) : SameTop k base j s (s.takeAt i) := by
  obtain ⟨hi, hlt, hget⟩ := at'_eq_some hcmd
  unfold QUndoStack.count at hlt hj
  have hlen : (s.command_list.eraseIdx i.toNat).length = s.command_list.length - 1 := by
    rw [length_eraseIdx, if_pos (by omega)]
  unfold SameTop
  rw [(takeAt_fields s i).1, hlen, documentAt_eraseIdx hget he (by omega)]
  congr 1
  omega

theorem redo_spec (hs : s.macro_stack = 0) (ht : Tracks k base reference s s.index)
    (hlt : s.index < s.count) : Tracks k base reference (QUndoStack.redo k s)
      (QUndoStack.redo k s).index ∧ (QUndoStack.redo k s).macro_stack = 0 ∧
      (QUndoStack.redo k s).count - (QUndoStack.redo k s).index = s.count - s.index - 1 ∧
      ∀ j : ℕ, (j : ℤ) ≤ s.count - (s.index + 1) → SameTop k base j s (QUndoStack.redo k s) := by
  obtain ⟨cmd, hcmd⟩ := exists_at' ht.nonneg hlt
  have hredo := ht.redoAt hcmd
  have hcount := @count_redoAt D C k s s.index cmd
  have htop := fun j => @sameTop_redoAt D C k base s s.index cmd j hcmd
  have hdone : (QUndoStack.redoAt k s cmd s.index).macro_stack = 0 ∧
      (QUndoStack.redoAt k s cmd s.index).index = s.index := by
    unfold QUndoStack.redoAt
    split <;> exact ⟨hs, rfl⟩
  unfold QUndoStack.redo
  rw [if_neg (Int.ne_of_lt hlt), if_neg (not_not.mpr hs)]
  dsimp only
  rw [hcmd]
  dsimp only
  generalize QUndoStack.redoAt k s cmd s.index = s₁ at *
  by_cases hobs : QUndoStack.obsoleteAt k s₁ s.index = true
  · obtain ⟨cmd', hcmd', he⟩ := exists_obsolete hobs
    obtain ⟨_, hm, hindex⟩ := takeAt_fields s₁ s.index
    have htake := count_takeAt hcmd'
    have hback := (hredo.back hcmd' he).takeAt hcmd'
    rw [if_pos hobs, hindex, hm, hdone.2, htake, hcount]
    refine ⟨hback, hdone.1, by omega, fun j hj => ?_⟩
    exact (sameTop_takeAt hcmd' he (by omega)).trans (htop j)
  · rw [if_neg hobs]
    refine ⟨?_, hdone.1, ?_, fun j _ => htop j⟩
    · show Tracks k base reference _ (s₁.index + 1)
      rw [hdone.2]
      exact hredo.setIndexTo _
    · show s₁.count - (s₁.index + 1) = _
      omega

theorem undo_spec (hs : s.macro_stack = 0) (ht : Tracks k base reference s s.index)
    (hpos : 0 < s.index) : Tracks k base reference (QUndoStack.undo k s)
      (QUndoStack.undo k s).index ∧ (QUndoStack.undo k s).macro_stack = 0 ∧
      (QUndoStack.undo k s).index = s.index - 1 ∧
      s.count - s.index ≤ (QUndoStack.undo k s).count - (QUndoStack.undo k s).index ∧
      ∀ j : ℕ, (j : ℤ) ≤ s.count - s.index → SameTop k base j s (QUndoStack.undo k s) := by
  have hle := ht.le
  obtain ⟨cmd, hcmd⟩ := @exists_at' D C s (s.index - 1) (by omega) (by omega)
  have hprev : Tracks k base reference s (s.index - 1 + 1) := by
    simp [ht]
  obtain ⟨s₁, hs₁, htr, hm₁, hc₁, htop⟩ : ∃ s₁,
      s₁ = (if isObsolete k cmd then s else QUndoStack.undoAt k s cmd (s.index - 1)) ∧
      Tracks k base reference s₁ (s.index - 1) ∧ s₁.macro_stack = 0 ∧ s₁.count = s.count ∧
      ∀ j, SameTop k base j s s₁ := by
    by_cases hobs : isObsolete k cmd = true
    · exact ⟨s, (if_pos hobs).symm, hprev.back hcmd (effect_of_isObsolete k hobs), hs, rfl,
        fun _ => rfl⟩
    · exact ⟨_, (if_neg hobs).symm, hprev.undoAt hcmd, hs, count_undoAt,
        fun _ => sameTop_undoAt hcmd⟩
  unfold QUndoStack.undo
  rw [if_neg (Int.ne_of_gt hpos), if_neg (not_not.mpr hs)]
  dsimp only
  rw [hcmd]
  dsimp only
  rw [← hs₁]
  by_cases hobs : QUndoStack.obsoleteAt k s₁ (s.index - 1) = true
  · obtain ⟨cmd', hcmd', he⟩ := exists_obsolete hobs
    obtain ⟨_, hm, _⟩ := takeAt_fields s₁ (s.index - 1)
    have htake := htr.takeAt hcmd'
    rw [if_pos hobs]
    have hcount := count_takeAt hcmd'
    refine ⟨htake.setIndexTo _, hm.trans hm₁, rfl, ?_, fun j hj => ?_⟩
    · show _ ≤ (s₁.takeAt (s.index - 1)).count - (s.index - 1)
      omega
    exact (sameTop_takeAt hcmd' he (by omega)).trans (htop j)
  · rw [if_neg hobs]
    refine ⟨htr.setIndexTo _, hm₁, rfl, ?_, fun j _ => htop j⟩
    show _ ≤ s₁.count - (s.index - 1)
    omega

end OneCommand

/-! ## The operations keep the invariant -/

namespace Inv

theorem redo (h : Inv k reference s) : Inv k reference (QUndoStack.redo k s) := by
  have hrange := h.index_range
  by_cases hi : s.index = s.count
  · unfold QUndoStack.redo
    simp [hi, h]
  by_cases hs : s.macro_stack = 0
  · obtain ⟨base, ht⟩ := h.closed hs
    obtain ⟨ht', hs', _⟩ := redo_spec hs ht (by omega)
    exact of_closed hs' rfl ⟨base, ht'⟩
  · unfold QUndoStack.redo
    simp [hi, hs, h]

theorem undo (h : Inv k reference s) : Inv k reference (QUndoStack.undo k s) := by
  have hrange := h.index_range
  by_cases hi : s.index = 0
  · unfold QUndoStack.undo
    simp [hi, h]
  by_cases hs : s.macro_stack = 0
  · obtain ⟨base, ht⟩ := h.closed hs
    obtain ⟨ht', hs', _⟩ := undo_spec hs ht (by omega)
    exact of_closed hs' rfl ⟨base, ht'⟩
  · unfold QUndoStack.undo
    simp [hi, hs, h]

theorem redoLoop (steps : ℕ) {i idx : ℤ} (hs : s.macro_stack = 0)
    (ht : Tracks k base reference s i) (hle : i ≤ idx) (hidx : idx ≤ s.count)
    (hsteps : steps = (idx - i).toNat) :
    (redoLoop k steps s i idx).1.macro_stack = 0 ∧
      Tracks k base reference (redoLoop k steps s i idx).1
        (redoLoop k steps s i idx).2.1 ∧
      (redoLoop k steps s i idx).2.1 = (redoLoop k steps s i idx).2.2 := by
  induction steps generalizing s i idx with
  | zero =>
    exact ⟨hs, ht, show i = idx by omega⟩
  | succ steps ih =>
    obtain ⟨cmd, hcmd⟩ := @exists_at' D C s i ht.nonneg (by omega)
    have hredo := ht.redoAt hcmd
    have hcount := @count_redoAt D C k s i cmd
    have hdone : (redoAt k s cmd i).macro_stack = 0 := by
      unfold redoAt
      split <;> exact hs
    unfold redoLoop
    rw [if_pos (by omega), hcmd]
    dsimp only
    generalize redoAt k s cmd i = s₁ at *
    by_cases hobs : obsoleteAt k s₁ i = true
    · obtain ⟨cmd', hcmd', he⟩ := exists_obsolete hobs
      have htake := count_takeAt hcmd'
      rw [if_pos hobs]
      exact ih ((takeAt_fields s₁ i).2.1.trans hdone) ((hredo.back hcmd' he).takeAt hcmd')
        (by omega) (by omega) (by omega)
    · rw [if_neg hobs]
      exact ih hdone hredo (by omega) (by omega) (by omega)

theorem undoLoop (steps : ℕ) {i idx : ℤ} (hs : s.macro_stack = 0)
    (ht : Tracks k base reference s i) (hidx : 0 ≤ idx) (hle : idx ≤ i)
    (hsteps : steps = (i - idx).toNat) :
    (undoLoop k steps s i idx).macro_stack = 0 ∧
      Tracks k base reference (undoLoop k steps s i idx) idx := by
  induction steps generalizing s i with
  | zero =>
    obtain rfl : i = idx := by omega
    exact ⟨hs, ht⟩
  | succ steps ih =>
    have hcount := ht.le
    obtain ⟨cmd, hcmd⟩ := @exists_at' D C s (i - 1) (by omega) (by omega)
    have hprev : Tracks k base reference s (i - 1 + 1) := by
      simp [ht]
    have hundo := hprev.undoAt hcmd
    have hdone : (undoAt k s cmd (i - 1)).macro_stack = 0 := hs
    unfold undoLoop
    rw [if_pos (by omega)]
    dsimp only
    rw [hcmd]
    dsimp only
    generalize undoAt k s cmd (i - 1) = s₁ at *
    by_cases hobs : obsoleteAt k s₁ (i - 1) = true
    · obtain ⟨cmd', hcmd', _⟩ := exists_obsolete hobs
      rw [if_pos hobs]
      exact ih ((takeAt_fields s₁ (i - 1)).2.1.trans hdone) (hundo.takeAt hcmd') (by omega)
        (by omega)
    · rw [if_neg hobs]
      exact ih hdone hundo (by omega) (by omega)

theorem setIndex (h : Inv k reference s) (idx : ℤ) :
    Inv k reference (QUndoStack.setIndex k s idx) := by
  unfold QUndoStack.setIndex
  by_cases hs : s.macro_stack = 0
  · obtain ⟨base, ht⟩ := h.closed hs
    have hi := ht.nonneg
    have hle := ht.le
    rw [if_neg (not_not.mpr hs)]
    dsimp only
    generalize hto : (if idx < 0 then 0 else if idx > s.count then s.count else idx) = target
    have hrange : 0 ≤ target ∧ target ≤ s.count := by
      split at hto
      · omega
      · split at hto <;> omega
    obtain ⟨hs₁, ht₁, hend⟩ : (QUndoStack.redoLoop k (target - s.index).toNat s s.index target).1.macro_stack
        = 0 ∧ Tracks k base reference (QUndoStack.redoLoop k (target - s.index).toNat s s.index target).1
          (QUndoStack.redoLoop k (target - s.index).toNat s s.index target).2.1 ∧
        0 ≤ (QUndoStack.redoLoop k (target - s.index).toNat s s.index target).2.2 ∧
        (QUndoStack.redoLoop k (target - s.index).toNat s s.index target).2.2 ≤
          (QUndoStack.redoLoop k (target - s.index).toNat s s.index target).2.1 := by
      by_cases hup : s.index ≤ target
      · obtain ⟨hs₁, ht₁, heq⟩ := redoLoop (target - s.index).toNat hs ht hup hrange.2 rfl
        have hnonneg := ht₁.nonneg
        exact ⟨hs₁, ht₁, by omega, by omega⟩
      · have hzero : (target - s.index).toNat = 0 := by omega
        rw [hzero]
        exact ⟨hs, ht, hrange.1, show target ≤ s.index by omega⟩
    generalize QUndoStack.redoLoop k (target - s.index).toNat s s.index target = up at *
    obtain ⟨hs₂, ht₂⟩ := undoLoop (up.2.1 - up.2.2).toNat hs₁ ht₁ hend.1 hend.2 rfl
    exact of_closed (show _ = 0 from hs₂) rfl ⟨base, ht₂.setIndexTo _⟩
  · simp [hs, h]

theorem beginMacro (h : Inv k reference s) : Inv k reference s.beginMacro := by
  unfold QUndoStack.beginMacro
  dsimp only
  by_cases hs : s.macro_stack = 0
  · obtain ⟨base, ht⟩ := h.closed hs
    obtain ⟨htr, hcount, hclean⟩ := ht.deleteUndone
    have hindex : s.deleteUndone.index = s.index := rfl
    have hdone : s.deleteUndone.macro_stack = 0 := hs
    have hwhole : Tracks k base reference s.deleteUndone s.deleteUndone.count := by
      rw [hcount]
      exact htr
    have hadd := @Tracks.concat D C k base reference s.deleteUndone hwhole (.parent [])
      s.deleteUndone.document rfl
    rw [if_pos hs]
    generalize s.deleteUndone = s₁ at *
    have hlen : ((s₁.command_list ++ [QUndoCommand.parent []]).length : ℤ) = s₁.count + 1 := by
      rw [length_append, natCast_add]
      rfl
    constructor
    · intro hzero
      exact absurd hzero (succ_ne_zero _)
    · intro _
      show s₁.index + 1 = ((s₁.command_list ++ [QUndoCommand.parent []]).length : ℤ)
      omega
    · show OpenMacros (s₁.macro_stack + 1) _
      rw [hdone]
      exact ⟨s₁.command_list, [], rfl, trivial⟩
    · intro _
      refine ⟨base, ?_, ?_⟩
      · show Tracks k base reference _ ((s₁.command_list ++ [QUndoCommand.parent []]).length : ℤ)
        rw [hlen]
        exact ⟨hadd.nonneg, hadd.le, hadd.document_eq, hadd.clean_ge, hadd.clean_le, hadd.clean_eq⟩
      · show s₁.clean_index ≤ s₁.index
        omega
  · obtain ⟨base, ht, hclean⟩ := h.opened hs
    have hsucc := h.index_succ hs
    obtain ⟨n, hn⟩ : ∃ n, s.macro_stack = n + 1 := exists_eq_succ_of_ne_zero hs
    have hopen := h.openMacros
    rw [hn] at hopen
    obtain ⟨hadd, hlen⟩ := @Tracks.updateOpen D C k base reference s ht
      (· ++ [QUndoCommand.parent []]) n hopen (by omega) (Equiv.refl D) (by
        rw [effects_concat]
        rfl)
    rw [if_neg hs]
    dsimp only
    rw [hn]
    constructor
    · intro hzero
      exact absurd hzero (succ_ne_zero _)
    · intro _
      show s.index + 1 = ((QUndoStack.updateOpen _ (n + 1) s.command_list).length : ℤ)
      omega
    · exact hopen.beginMacro
    · intro _
      refine ⟨base, ?_, hclean⟩
      show Tracks k base reference _ ((QUndoStack.updateOpen _ (n + 1) s.command_list).length : ℤ)
      rw [hlen]
      exact ⟨hadd.nonneg, hadd.le, hadd.document_eq, hadd.clean_ge, hadd.clean_le, hadd.clean_eq⟩

/-- Once the last macro is closed it is a command like the others. -/
theorem close (ht : Tracks k base reference s s.count) (hi : s.index + 1 = s.count)
    (hs : s.macro_stack = 0) :
    Inv k reference (s.checkUndoLimit.setIndexTo (s.checkUndoLimit.index + 1) false) := by
  obtain ⟨base', ht', hi'⟩ := ht.checkUndoLimit hi
  have hs' : s.checkUndoLimit.macro_stack = 0 := by
    unfold checkUndoLimit
    split <;> exact hs
  have hclosed : (s.checkUndoLimit.setIndexTo (s.checkUndoLimit.index + 1) false).macro_stack = 0 :=
    hs'
  apply of_closed hclosed rfl
  refine ⟨base', ?_⟩
  rw [hi']
  exact ht'.setIndexTo _

theorem endMacro (h : Inv k reference s) : Inv k reference s.endMacro := by
  unfold QUndoStack.endMacro
  by_cases hs : s.macro_stack = 0
  · simp [hs, h]
  obtain ⟨base, ht, hclean⟩ := h.opened hs
  have hsucc := h.index_succ hs
  obtain ⟨n, hn⟩ : ∃ n, s.macro_stack = n + 1 := exists_eq_succ_of_ne_zero hs
  have hopen := h.openMacros
  rw [hn] at hopen
  have ht' : Tracks k base reference { s with macro_stack := s.macro_stack - 1 } s.count :=
    ⟨ht.nonneg, ht.le, ht.document_eq, ht.clean_ge, ht.clean_le, ht.clean_eq⟩
  rw [if_neg hs]
  dsimp only
  by_cases hlast : s.macro_stack - 1 = 0
  · rw [if_pos hlast]
    exact close ht' hsucc hlast
  · rw [if_neg hlast]
    constructor
    · intro hzero
      exact absurd hzero hlast
    · intro _
      exact hsucc
    · show OpenMacros (s.macro_stack - 1) s.command_list
      rw [hn]
      exact hopen.endMacro
    · intro _
      exact ⟨base, ht', hclean⟩

end Inv

/-! ## Pushing a command -/

theorem tryMerge_eq_some {cur : Option (QUndoCommand C)} {cmd merged : C} {mayMerge : Bool}
    (h : tryMerge k cur cmd mayMerge = some merged) : mayMerge = true ∧
      ∃ c, cur = some (.leaf c) ∧ k.effect merged = (k.effect c).trans (k.effect cmd) := by
  unfold tryMerge at h
  split at h
  · next c =>
    split at h
    · next hif => exact ⟨hif.2.2, c, rfl, k.effect_mergeWith c cmd merged h⟩
    · cases h
  · cases h

variable (k) in
/-- The command as it is after `push` has called its `redo`. -/
def pushed (s : QUndoStack D C) (cmd : C) : C :=
  if k.isObsolete cmd then cmd else k.afterRedo cmd s.document

variable (k) in
def pushedDocument (s : QUndoStack D C) (cmd : C) : D :=
  if k.isObsolete cmd then s.document else k.effect cmd s.document

theorem push_eq (s : QUndoStack D C) (cmd : C) : push k s cmd =
    if s.macro_stack ≠ 0 then
      match tryMerge k (openChildren s.macro_stack s.command_list).getLast? (pushed k s cmd) true with
      | some merged => { s with
        document := pushedDocument k s cmd
        command_list := updateOpen (fun child_list =>
          if k.isObsolete merged then child_list.dropLast
          else child_list.dropLast ++ [.leaf merged]) s.macro_stack s.command_list }
      | none =>
        if k.isObsolete (pushed k s cmd) = true then
          { s with document := pushedDocument k s cmd }
        else { s with
          document := pushedDocument k s cmd
          command_list := updateOpen (· ++ [QUndoCommand.leaf (pushed k s cmd)])
            s.macro_stack s.command_list }
    else
      match tryMerge k (if s.index > 0 then s.at' (s.index - 1) else none)
        (pushed k s cmd) (s.index != s.deleteUndone.clean_index) with
      | some merged =>
        if k.isObsolete merged = true then
          ({ s.deleteUndone with
            document := pushedDocument k s cmd
            command_list := s.deleteUndone.command_list.dropLast }.setIndexTo
              (s.index - 1) false)
        else { s.deleteUndone with
          document := pushedDocument k s cmd
          command_list := s.deleteUndone.command_list.dropLast ++ [.leaf merged] }
      | none =>
        if k.isObsolete (pushed k s cmd) = true then
          { s.deleteUndone with document := pushedDocument k s cmd }
        else
          ({ s.deleteUndone with
            document := pushedDocument k s cmd
            command_list := s.deleteUndone.command_list ++
              [QUndoCommand.leaf (pushed k s cmd)] }.checkUndoLimit.setIndexTo
            ({ s.deleteUndone with
              document := pushedDocument k s cmd
              command_list := s.deleteUndone.command_list ++
                [QUndoCommand.leaf (pushed k s cmd)] }.checkUndoLimit.index + 1) false) := rfl

theorem effect_pushed (s : QUndoStack D C) (cmd : C) :
    k.effect (pushed k s cmd) = k.effect cmd := by
  unfold pushed
  split
  · rfl
  · exact k.effect_afterRedo cmd s.document

theorem pushedDocument_eq (s : QUndoStack D C) (cmd : C) :
    pushedDocument k s cmd = k.effect (pushed k s cmd) s.document := by
  rw [effect_pushed]
  unfold pushedDocument
  split
  · next h =>
    rw [k.effect_obsolete cmd h]
    rfl
  · rfl

theorem pushed_of_obsolete {cmd : C} (h : k.isObsolete (pushed k s cmd) = true) :
    pushedDocument k s cmd = s.document := by
  rw [pushedDocument_eq, k.effect_obsolete _ h]
  rfl

namespace Inv

theorem push_opened (h : Inv k reference s) (hs : s.macro_stack ≠ 0) (cmd : C) :
    Inv k reference (push k s cmd) := by
  obtain ⟨base, ht, hclean⟩ := h.opened hs
  have hsucc := h.index_succ hs
  obtain ⟨n, hn⟩ : ∃ n, s.macro_stack = n + 1 := exists_eq_succ_of_ne_zero hs
  have hopen := h.openMacros
  rw [hn] at hopen
  have hkeep : ∀ f : List (QUndoCommand C) → List (QUndoCommand C),
      effects k (f (openChildren s.macro_stack s.command_list)) =
        (effects k (openChildren s.macro_stack s.command_list)).trans
          (k.effect (pushed k s cmd)) →
      Inv k reference { s with
        document := pushedDocument k s cmd
        command_list := updateOpen f s.macro_stack s.command_list } := by
    intro f hf
    rw [hn] at hf
    obtain ⟨htr, hlen⟩ := ht.updateOpen hopen (by omega) _ hf
    rw [← pushedDocument_eq] at htr
    rw [← hn] at hlen
    change Tracks k base reference { s with
      document := pushedDocument k s cmd
      command_list := updateOpen f (n + 1) s.command_list } s.count at htr
    rw [← hn] at htr
    constructor
    · intro hzero
      exact absurd hzero hs
    · intro _
      exact hsucc.trans hlen.symm
    · exact h.openMacros.updateOpen
    · intro _
      refine ⟨base, ?_, hclean⟩
      show Tracks k base reference _
        ((updateOpen f s.macro_stack s.command_list).length : ℤ)
      rw [hlen]
      exact htr
  rw [push_eq, if_pos hs]
  cases hmerge : tryMerge k
      (openChildren s.macro_stack s.command_list).getLast? (pushed k s cmd) true with
  | some merged =>
    obtain ⟨_, c, hlast, heffect⟩ := tryMerge_eq_some hmerge
    obtain ⟨rest, hchildren⟩ := List.getLast?_eq_some_iff.mp hlast
    apply hkeep fun child_list =>
      if k.isObsolete merged then child_list.dropLast
      else child_list.dropLast ++ [QUndoCommand.leaf merged]
    rw [hchildren, dropLast_concat, effects_concat]
    by_cases hobs : k.isObsolete merged = true
    · rw [if_pos hobs]
      rw [k.effect_obsolete merged hobs] at heffect
      show _ = ((effects k rest).trans (k.effect c)).trans _
      rw [Equiv.trans_assoc, ← heffect, Equiv.trans_refl]
    · rw [if_neg hobs, effects_concat]
      show (effects k rest).trans (k.effect merged) = ((effects k rest).trans (k.effect c)).trans _
      rw [heffect, Equiv.trans_assoc]
  | none =>
    dsimp only
    by_cases hobs : k.isObsolete (pushed k s cmd) = true
    · rw [if_pos hobs, pushed_of_obsolete hobs]
      exact h
    · rw [if_neg hobs]
      apply hkeep
      rw [effects_concat]
      rfl

theorem push_closed (h : Inv k reference s) (hs : s.macro_stack = 0) (cmd : C) :
    Inv k reference (push k s cmd) := by
  obtain ⟨base, ht⟩ := h.closed hs
  obtain ⟨htr, hcount, hclean⟩ := ht.deleteUndone
  have hi := ht.nonneg
  have hle := ht.le
  rw [push_eq, if_neg (not_not.mpr hs)]
  have hwhole : Tracks k base reference s.deleteUndone s.deleteUndone.count := by
    rw [hcount]
    exact htr
  have hindex : s.deleteUndone.index = s.index := rfl
  have hdone : s.deleteUndone.macro_stack = 0 := hs
  have hdocument : s.deleteUndone.document = s.document := rfl
  have hlist : s.deleteUndone.command_list = s.command_list.take s.index.toNat := rfl
  generalize s.deleteUndone = s₁ at *
  cases hmerge : tryMerge k (if s.index > 0 then s.at' (s.index - 1) else none)
      (pushed k s cmd) (s.index != s₁.clean_index) with
  | some merged =>
    obtain ⟨hne, c, hcur, heffect⟩ := tryMerge_eq_some hmerge
    rw [bne_iff_ne] at hne
    have hpos : s.index > 0 := by
      by_contra hpos
      rw [if_neg hpos] at hcur
      cases hcur
    rw [if_pos hpos] at hcur
    obtain ⟨_, _, hget⟩ := at'_eq_some hcur
    obtain ⟨m, hm⟩ : ∃ m : ℕ, s.index = m + 1 := ⟨(s.index - 1).toNat, by omega⟩
    have hmsub : (s.index - 1).toNat = m := by omega
    have hmnat : s.index.toNat = m + 1 := by omega
    rw [hmsub] at hget
    rw [hmnat, take_add_one, hget] at hlist
    have hlen : (s.command_list.take m).length = m := by
      rw [length_take, Nat.min_eq_left]
      exact Nat.le_of_lt (List.getElem?_eq_some_iff.mp hget).1
    change s₁.command_list = s.command_list.take m ++ [QUndoCommand.leaf c] at hlist
    have hdoc : pushedDocument k s cmd = k.effect merged (effects k (s.command_list.take m) base) := by
      have heq := hwhole.document_eq
      have hcnt : s₁.count.toNat = s₁.command_list.length := toNat_natCast _
      rw [hcnt, documentAt_length, hlist, effects_concat, hdocument] at heq
      rw [pushedDocument_eq, heq, heffect]
      rfl
    have hbelow : Tracks k base reference { s₁ with
        document := effects k (s.command_list.take m) base
        command_list := s.command_list.take m } m := by
      have hge := hwhole.clean_ge
      have hcle := hwhole.clean_le
      refine ⟨natCast_nonneg m, ?_, ?_, hge, ?_, ?_⟩
      · show (m : ℤ) ≤ ((s.command_list.take m).length : ℤ)
        omega
      · show _ = documentAt k base (s.command_list.take m) (m : ℤ).toNat
        rw [toNat_natCast, ← hlen, hlen, documentAt_take (Nat.le_refl _)]
        rfl
      · show s₁.clean_index ≤ ((s.command_list.take m).length : ℤ)
        omega
      · intro hclean'
        have hold := hwhole.clean_eq hclean'
        rw [hlist, documentAt_append_left (by omega)] at hold
        exact hold
    dsimp only
    rw [hlist, dropLast_concat]
    by_cases hobs : k.isObsolete merged = true
    · rw [if_pos hobs, hdoc, k.effect_obsolete merged hobs]
      refine @of_closed D C k reference _ (m : ℤ) hdone ?_ ⟨base, hbelow.setIndexTo _⟩
      show s.index - 1 = (m : ℤ)
      omega
    · rw [if_neg hobs]
      have hcnt : ({ s₁ with
          document := effects k (s.command_list.take m) base
          command_list := s.command_list.take m } : QUndoStack D C).count = m :=
        congrArg Nat.cast hlen
      have hadd := @Tracks.concat D C k base reference { s₁ with
        document := effects k (s.command_list.take m) base
        command_list := s.command_list.take m } (hcnt ▸ hbelow) (.leaf merged)
        (pushedDocument k s cmd) hdoc
      rw [hcnt] at hadd
      exact of_closed hdone (show s₁.index = (m : ℤ) + 1 by omega) ⟨base, hadd⟩
  | none =>
    dsimp only
    by_cases hobs : k.isObsolete (pushed k s cmd) = true
    · rw [if_pos hobs, pushed_of_obsolete hobs, ← hdocument]
      exact of_closed hdone hindex ⟨base, htr⟩
    · have hadd := @Tracks.concat D C k base reference s₁ hwhole (.leaf (pushed k s cmd))
        (pushedDocument k s cmd) (by
          rw [hdocument]
          exact pushedDocument_eq s cmd)
      have hlen : ((s₁.command_list ++ [QUndoCommand.leaf (pushed k s cmd)]).length : ℤ) =
          s₁.count + 1 := by
        rw [length_append, natCast_add]
        rfl
      rw [if_neg hobs]
      apply @close D C k base reference
      · show Tracks k base reference _ ((s₁.command_list ++ [_]).length : ℤ)
        rw [hlen]
        exact hadd
      · show s₁.index + 1 = ((s₁.command_list ++ [_]).length : ℤ)
        omega
      · exact hdone

theorem push (h : Inv k reference s) (cmd : C) : Inv k reference (push k s cmd) := by
  by_cases hs : s.macro_stack = 0
  · exact h.push_closed hs cmd
  · exact h.push_opened hs cmd

end Inv

/-! ## Runs -/

/-- A call of the public interface. -/
inductive UndoAction (C : Type) where
  | push (cmd : C)
  | undo
  | redo
  | setIndex (idx : ℤ)
  | setClean
  | resetClean
  | beginMacro
  | endMacro
  | clear

/-- The stack, with the document at the most recent of construction, `setClean()` and `clear()`. In
the middle of a macro `setClean()` is refused. -/
structure UndoSession (D C : Type) where
  stack : QUndoStack D C
  cleanDocument : D

namespace UndoSession

def start (document : D) (undo_limit : ℤ) : UndoSession D C where
  stack := QUndoStack.construct document undo_limit
  cleanDocument := document

variable (k) in
def step (x : UndoSession D C) : UndoAction C → UndoSession D C
  | .push cmd => { x with stack := x.stack.push k cmd }
  | .undo => { x with stack := x.stack.undo k }
  | .redo => { x with stack := x.stack.redo k }
  | .setIndex idx => { x with stack := x.stack.setIndex k idx }
  | .setClean =>
    { stack := x.stack.setClean
      cleanDocument := if x.stack.macro_stack ≠ 0 then x.cleanDocument else x.stack.document }
  | .resetClean => { x with stack := x.stack.resetClean }
  | .beginMacro => { x with stack := x.stack.beginMacro }
  | .endMacro => { x with stack := x.stack.endMacro }
  | .clear => { stack := x.stack.clear, cleanDocument := x.stack.document }

variable (k) in
def run (actions : List (UndoAction C)) (document : D) (undo_limit : ℤ) : UndoSession D C :=
  actions.foldl (step k) (start document undo_limit)

theorem inv_step {x : UndoSession D C} (h : Inv k x.cleanDocument x.stack) (a : UndoAction C) :
    Inv k (step k x a).cleanDocument (step k x a).stack := by
  cases a with
  | push cmd => exact h.push cmd
  | undo => exact h.undo
  | redo => exact h.redo
  | setIndex idx => exact h.setIndex idx
  | setClean => exact h.setClean
  | resetClean => exact h.resetClean
  | beginMacro => exact h.beginMacro
  | endMacro => exact h.endMacro
  | clear => exact h.clear

theorem inv_run (actions : List (UndoAction C)) (document : D) (undo_limit : ℤ) :
    Inv k (run k actions document undo_limit).cleanDocument
      (run k actions document undo_limit).stack := by
  have hkeep : ∀ x : UndoSession D C, Inv k x.cleanDocument x.stack →
      Inv k (actions.foldl (step k) x).cleanDocument (actions.foldl (step k) x).stack := by
    induction actions with
    | nil =>
      intro x h
      exact h
    | cons a actions ih =>
      intro x h
      exact ih _ (inv_step h a)
  exact hkeep _ (Inv.construct document undo_limit)

end UndoSession

/-! ## Undoing everything -/

namespace QUndoStack

variable (k) in
/-- Everything that can be undone. -/
def undoAll (s : QUndoStack D C) : QUndoStack D C := (undo k)^[s.index.toNat] s

variable (k) in
/-- Redone again: the commands that were undone and are still there. -/
def undoRedoAll (s : QUndoStack D C) : QUndoStack D C :=
  (redo k)^[((undoAll k s).count - (s.count - s.index)).toNat] (undoAll k s)

theorem undo_iterate (n : ℕ) (hs : s.macro_stack = 0) (ht : Tracks k base reference s s.index)
    (hn : s.index = n) {j : ℕ} (hj : (j : ℤ) ≤ s.count - s.index) :
    ((undo k)^[n] s).macro_stack = 0 ∧ ((undo k)^[n] s).index = 0 ∧
      Tracks k base reference ((undo k)^[n] s) 0 ∧ (j : ℤ) ≤ ((undo k)^[n] s).count ∧
      SameTop k base j s ((undo k)^[n] s) := by
  induction n generalizing s with
  | zero =>
    rw [hn] at ht
    have hcount : (j : ℤ) ≤ s.count := by omega
    exact ⟨hs, hn, ht, hcount, rfl⟩
  | succ n ih =>
    obtain ⟨ht', hs', hindex, hcount, htop⟩ := undo_spec hs ht (by omega)
    obtain ⟨h1, h2, h3, h4, h5⟩ := ih hs' ht' (by omega) (by omega)
    rw [iterate_succ_apply]
    exact ⟨h1, h2, h3, h4, h5.trans (htop j hj)⟩

theorem redo_iterate (n : ℕ) (hs : s.macro_stack = 0) (ht : Tracks k base reference s s.index)
    {j : ℕ} (hj : s.count - s.index = n + j) :
    Tracks k base reference ((redo k)^[n] s) ((redo k)^[n] s).index ∧
      ((redo k)^[n] s).count - ((redo k)^[n] s).index = j ∧
      SameTop k base j s ((redo k)^[n] s) := by
  induction n generalizing s with
  | zero =>
    have hcount : s.count - s.index = j := by omega
    exact ⟨ht, hcount, rfl⟩
  | succ n ih =>
    obtain ⟨ht', hs', hcount, htop⟩ := redo_spec hs ht (by omega)
    obtain ⟨h1, h2, h3⟩ := ih hs' ht' (by omega)
    rw [iterate_succ_apply]
    exact ⟨h1, h2, h3.trans (htop j (by omega))⟩

theorem undo_opened (hs : s.macro_stack ≠ 0) : undo k s = s := by
  unfold undo
  rw [if_pos hs]
  split <;> rfl

theorem redo_opened (hs : s.macro_stack ≠ 0) : redo k s = s := by
  unfold redo
  rw [if_pos hs]
  split <;> rfl

theorem document_undoRedoAll (h : Inv k reference s) :
    (undoRedoAll k s).document = s.document := by
  by_cases hs : s.macro_stack = 0
  · obtain ⟨base, ht⟩ := h.closed hs
    have hi := ht.nonneg
    have hle := ht.le
    obtain ⟨j, hj⟩ : ∃ j : ℕ, (j : ℤ) = s.count - s.index := ⟨(s.count - s.index).toNat, by omega⟩
    obtain ⟨hs₁, hi₁, ht₁, hj₁, htop₁⟩ :=
      undo_iterate s.index.toNat hs ht (by omega) (Int.le_of_eq hj)
    have hindex₁ : Tracks k base reference (undoAll k s) (undoAll k s).index := by
      rw [show (undoAll k s).index = 0 from hi₁]
      exact ht₁
    change (j : ℤ) ≤ (undoAll k s).count at hj₁
    obtain ⟨ht₂, hj₂, htop₂⟩ := redo_iterate ((undoAll k s).count - (s.count - s.index)).toNat hs₁
      hindex₁ (j := j) (by
        show (undoAll k s).count - (undoAll k s).index = _
        rw [show (undoAll k s).index = 0 from hi₁]
        omega)
    change Tracks k base reference (undoRedoAll k s) (undoRedoAll k s).index at ht₂
    change (undoRedoAll k s).count - (undoRedoAll k s).index = j at hj₂
    have htop : SameTop k base j s (undoRedoAll k s) := htop₂.trans htop₁
    have hlen : (undoRedoAll k s).index.toNat = (undoRedoAll k s).command_list.length - j := by
      have hi₂ := ht₂.nonneg
      unfold count at hj₂
      omega
    have hlen' : s.index.toNat = s.command_list.length - j := by
      unfold count at hj
      omega
    rw [ht₂.document_eq, hlen, htop, ← hlen', ht.document_eq]
  · have hundo : ∀ n, (undo k)^[n] s = s := by
      intro n
      exact iterate_fixed (undo_opened hs) n
    have hredo : ∀ n, (redo k)^[n] s = s := by
      intro n
      exact iterate_fixed (redo_opened hs) n
    rw [undoRedoAll, undoAll, hundo, hredo]

theorem isClean_clear_iff (h : Inv k reference s) :
    s.clear.isClean = true ↔ s.command_list ≠ [] ∨ s.clean_index ≠ -1 := by
  unfold clear
  by_cases hempty : s.command_list = []
  · have hrange := h.index_range
    have hclean := h.clean_range
    have hcount : s.count = 0 := by
      unfold count
      rw [hempty]
      rfl
    have hs : s.macro_stack = 0 := by
      by_contra hs
      have hsucc := h.index_succ hs
      omega
    rw [if_pos hempty, isClean, if_neg (not_not.mpr hs), beq_iff_eq]
    constructor
    · intro heq
      right
      omega
    · rintro (hne | hne)
      · exact absurd hempty hne
      · omega
  · rw [if_neg hempty]
    constructor
    · intro _
      exact .inl hempty
    · intro _
      rfl

end QUndoStack

/-- What holds of the clean state after any run, and when `clear()` leaves a clean stack. -/
theorem clean_state_truthful (k : UndoCommands D C) (actions : List (UndoAction C)) (document : D)
    (undo_limit : ℤ) :
    let x := UndoSession.run k actions document undo_limit
    (0 ≤ x.stack.index ∧ x.stack.index ≤ x.stack.count ∧ -1 ≤ x.stack.clean_index ∧
      x.stack.clean_index ≤ x.stack.count ∧
      (undoRedoAll k x.stack).document = x.stack.document ∧
      (x.stack.isClean = true → x.stack.document = x.cleanDocument)) ∧
    (x.stack.clear.isClean = true ↔ x.stack.command_list ≠ [] ∨ x.stack.clean_index ≠ -1) := by
  intro x
  have h := @UndoSession.inv_run D C k actions document undo_limit
  exact ⟨⟨h.index_range.1, h.index_range.2, h.clean_range.1, h.clean_range.2,
    document_undoRedoAll h, h.document_of_isClean⟩, isClean_clear_iff h⟩

/-- Commands that do nothing. -/
def idleCommands : UndoCommands Unit Unit where
  effect _ := Equiv.refl Unit
  afterRedo c _ := c
  afterUndo c _ := c
  mergeWith _ _ := none
  isObsolete _ := false
  id _ := -1
  effect_afterRedo _ _ := rfl
  effect_afterUndo _ _ := rfl
  effect_mergeWith _ _ _ h := nomatch h
  effect_obsolete _ h := nomatch h

/-- A stack without commands that was marked unclean stays so when it is cleared. -/
theorem clear_of_empty_unclean :
    (UndoSession.run idleCommands [.resetClean, .clear] () 0).stack.isClean = false := by
  decide

end QtBase.Gui
