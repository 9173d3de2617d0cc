import QtBase.Gui.UndoStack
import Mathlib.Data.List.InsertIdx

/-! The document of a `QUndoStack` as its commands have made it, from any of its indices. -/
namespace QtBase.Gui

open QUndoCommand List QUndoStack

variable {D C : Type} {k : UndoCommands D C}

/-! ## Documents along a list of commands -/

variable (k) in
/-- The document after the first `n` commands. -/
def documentAt (base : D) (cs : List (QUndoCommand C)) (n : ℕ) : D := effects k (cs.take n) base

section DocumentAt

variable {base : D} {cs : List (QUndoCommand C)}

theorem documentAt_succ {n : ℕ} {c : QUndoCommand C} (h : cs[n]? = some c) :
    documentAt k base cs (n + 1) = effect k c (documentAt k base cs n) := by
  rw [documentAt, take_add_one, h, Option.toList_some, effects_concat]
  rfl

theorem documentAt_length : documentAt k base cs cs.length = effects k cs base := by
  rw [documentAt, take_length]

theorem documentAt_append_left {n : ℕ} (h : n ≤ cs.length) (cs' : List (QUndoCommand C)) :
    documentAt k base (cs ++ cs') n = documentAt k base cs n := by
  rw [documentAt, take_append_of_le_length h, documentAt]

theorem documentAt_take {n m : ℕ} (h : m ≤ n) :
    documentAt k base (cs.take n) m = documentAt k base cs m := by
  rw [documentAt, take_take, Nat.min_eq_left h, documentAt]

theorem documentAt_drop {del n : ℕ} (h : del ≤ n) :
    documentAt k (documentAt k base cs del) (cs.drop del) (n - del) = documentAt k base cs n := by
  unfold documentAt
  rw [← Equiv.trans_apply, ← effects_append, ← drop_take]
  have hsplit := take_append_drop del (cs.take n)
  rw [take_take, Nat.min_eq_left h] at hsplit
  rw [hsplit]

theorem documentAt_set {i : ℕ} {c c' : QUndoCommand C} (h : cs[i]? = some c)
    (hc : effect k c' = effect k c) (n : ℕ) :
    documentAt k base (cs.set i c') n = documentAt k base cs n := by
  induction n with
  | zero => rfl
  | succ n ih =>
    cases hn : cs[n]? with
    | none =>
      have hlen := List.getElem?_eq_none_iff.mp hn
      rw [documentAt, take_of_length_le (by rw [length_set]; omega), documentAt,
        take_of_length_le (by omega)]
      rw [documentAt, take_of_length_le (by rw [length_set]; omega), documentAt,
        take_of_length_le (by omega)] at ih
      exact ih
    | some b =>
      by_cases hi : i = n
      · subst hi
        rw [h, Option.some.injEq] at hn
        subst hn
        have hlen := (List.getElem?_eq_some_iff.mp h).1
        rw [documentAt_succ (List.getElem?_set_self hlen), documentAt_succ h, ih, hc]
      · have hset : (cs.set i c')[n]? = some b := by rw [List.getElem?_set_ne hi, hn]
        rw [documentAt_succ hset, documentAt_succ hn, ih]

theorem documentAt_eraseIdx_of_le {i n : ℕ} (h : n ≤ i) :
    documentAt k base (cs.eraseIdx i) n = documentAt k base cs n := by
  rw [documentAt, take_eraseIdx_eq_take_of_le _ _ _ h, documentAt]

theorem documentAt_eraseIdx {i n : ℕ} {c : QUndoCommand C} (hc : cs[i]? = some c)
    (he : effect k c = Equiv.refl D) (h : i ≤ n) :
    documentAt k base (cs.eraseIdx i) n = documentAt k base cs (n + 1) := by
  induction n with
  | zero =>
    have hi : i = 0 := by omega
    subst hi
    rw [documentAt_succ hc, he]
    rfl
  | succ n ih =>
    by_cases hi : i = n + 1
    · subst hi
      rw [documentAt_eraseIdx_of_le (Nat.le_refl _), documentAt_succ hc, he]
      rfl
    · have hstep : documentAt k base (cs.eraseIdx i) n = documentAt k base cs (n + 1) :=
        ih (by omega)
      have hget : (cs.eraseIdx i)[n]? = cs[n + 1]? := by
        rw [getElem?_eraseIdx, if_neg (by omega)]
      cases hn : cs[n + 1]? with
      | none =>
        have hlen := getElem?_eq_none_iff.mp hn
        rw [hn] at hget
        have hlen' := getElem?_eq_none_iff.mp hget
        rw [documentAt, take_of_length_le hlen', documentAt,
          take_of_length_le hlen] at hstep
        rw [documentAt, take_of_length_le (by omega), documentAt,
          take_of_length_le (by omega)]
        exact hstep
      | some b =>
        rw [hn] at hget
        rw [documentAt_succ hget, documentAt_succ hn, hstep]

end DocumentAt

/-! ## Where the stack stands -/

variable {base reference : D} {s : QUndoStack D C}

variable (k) in
/-- The document is the one after the first `i` commands, `reference` the one after the first
`clean_index`. -/
structure Tracks (base reference : D) (s : QUndoStack D C) (i : ℤ) : Prop where
  nonneg : 0 ≤ i
  le : i ≤ s.count
  document_eq : s.document = documentAt k base s.command_list i.toNat
  clean_ge : -1 ≤ s.clean_index
  clean_le : s.clean_index ≤ s.count
  clean_eq : s.clean_index ≠ -1 →
    reference = documentAt k base s.command_list s.clean_index.toNat

theorem at'_eq_some {i : ℤ} {cmd : QUndoCommand C} (h : s.at' i = some cmd) :
    0 ≤ i ∧ i < s.count ∧ s.command_list[i.toNat]? = some cmd := by
  unfold QUndoStack.at' at h
  split at h
  · cases h
  · have hlen := (List.getElem?_eq_some_iff.mp h).1
    unfold QUndoStack.count
    exact ⟨by omega, by omega, h⟩

theorem exists_at' {i : ℤ} (h : 0 ≤ i) (h' : i < s.count) : ∃ cmd, s.at' i = some cmd := by
  unfold QUndoStack.count at h'
  unfold QUndoStack.at'
  rw [if_neg (by omega)]
  exact ⟨_, getElem?_eq_getElem (by omega)⟩

namespace Tracks

variable {i : ℤ} {cmd : QUndoCommand C}

theorem document_succ (h : Tracks k base reference s i) (hcmd : s.at' i = some cmd) :
    documentAt k base s.command_list (i + 1).toNat = effect k cmd s.document := by
  obtain ⟨hi, _, hget⟩ := at'_eq_some hcmd
  rw [Int.toNat_add hi (by decide), h.document_eq]
  exact documentAt_succ hget

/-- The command at `i` is replaced by one of the same effect. -/
theorem set (h : Tracks k base reference s i) {j : ℤ} (hcmd : s.at' j = some cmd)
    {cmd' : QUndoCommand C} (he : effect k cmd' = effect k cmd) :
    Tracks k base reference { s with command_list := s.command_list.set j.toNat cmd' } i := by
  obtain ⟨_, _, hget⟩ := at'_eq_some hcmd
  constructor
  · exact h.nonneg
  · show i ≤ (s.command_list.set j.toNat cmd').length
    rw [length_set]
    exact h.le
  · exact h.document_eq.trans (documentAt_set hget he _).symm
  · exact h.clean_ge
  · show s.clean_index ≤ (s.command_list.set j.toNat cmd').length
    rw [length_set]
    exact h.clean_le
  · intro hclean
    exact (h.clean_eq hclean).trans (documentAt_set hget he _).symm

theorem takeAt (h : Tracks k base reference s i) (hcmd : s.at' i = some cmd) :
    Tracks k base reference (s.takeAt i) i := by
  obtain ⟨hi, hlt, _⟩ := at'_eq_some hcmd
  have hclean := h.clean_ge
  unfold QUndoStack.count at hlt
  have hlen : (s.command_list.eraseIdx i.toNat).length = s.command_list.length - 1 := by
    rw [length_eraseIdx, if_pos (by omega)]
  have hdoc : s.document = documentAt k base (s.command_list.eraseIdx i.toNat) i.toNat := by
    rw [documentAt_eraseIdx_of_le (Nat.le_refl _)]
    exact h.document_eq
  unfold QUndoStack.takeAt
  by_cases hgt : s.clean_index > i
  · simp only [if_pos hgt]
    refine ⟨hi, ?_, hdoc, Int.le_refl _, ?_, fun hne => absurd rfl hne⟩
    · show i ≤ ((s.command_list.eraseIdx i.toNat).length : ℤ)
      omega
    · show -1 ≤ ((s.command_list.eraseIdx i.toNat).length : ℤ)
      omega
  · simp only [if_neg hgt]
    refine ⟨hi, ?_, hdoc, hclean, ?_, ?_⟩
    · show i ≤ ((s.command_list.eraseIdx i.toNat).length : ℤ)
      omega
    · show s.clean_index ≤ ((s.command_list.eraseIdx i.toNat).length : ℤ)
      omega
    · intro hne
      show _ = documentAt k base (s.command_list.eraseIdx i.toNat) s.clean_index.toNat
      rw [documentAt_eraseIdx_of_le (by omega)]
      exact h.clean_eq hne

/-- The index and the document change together. -/
theorem move (h : Tracks k base reference s i) {j : ℤ} {document : D} (hj : 0 ≤ j)
    (hj' : j ≤ s.count) (hdoc : document = documentAt k base s.command_list j.toNat) :
    Tracks k base reference { s with document := document } j where
  nonneg := hj
  le := hj'
  document_eq := hdoc
  clean_ge := h.clean_ge
  clean_le := h.clean_le
  clean_eq := h.clean_eq

theorem setIndexTo (h : Tracks k base reference s i) (idx : ℤ) :
    Tracks k base reference (s.setIndexTo idx false) i where
  nonneg := h.nonneg
  le := h.le
  document_eq := h.document_eq
  clean_ge := h.clean_ge
  clean_le := h.clean_le
  clean_eq := h.clean_eq

theorem redoAt (h : Tracks k base reference s i) (hcmd : s.at' i = some cmd) :
    Tracks k base reference (QUndoStack.redoAt k s cmd i) (i + 1) := by
  obtain ⟨hi, hlt, _⟩ := at'_eq_some hcmd
  have hnext := h.document_succ hcmd
  unfold QUndoStack.redoAt
  by_cases hobs : isObsolete k cmd = true
  · rw [if_pos hobs]
    rw [effect_of_isObsolete k hobs] at hnext
    exact h.move (by omega) (by omega) hnext.symm
  · rw [if_neg hobs]
    have hredo := redo_eq k cmd s.document
    exact (h.move (by omega) (by omega) (hredo.2.trans hnext.symm)).set hcmd hredo.1

theorem undoAt (h : Tracks k base reference s (i + 1)) (hcmd : s.at' i = some cmd) :
    Tracks k base reference (undoAt k s cmd i) i := by
  obtain ⟨hi, hlt, hget⟩ := at'_eq_some hcmd
  have hundo := undo_eq k cmd s.document
  have hdoc : (undo k cmd s.document).2 = documentAt k base s.command_list i.toNat := by
    rw [hundo.2, h.document_eq, Int.toNat_add hi (by decide)]
    show (effect k cmd).symm (documentAt k base s.command_list (i.toNat + 1)) = _
    rw [documentAt_succ hget, Equiv.symm_apply_apply]
  exact (h.move hi (by omega) hdoc).set hcmd hundo.1

end Tracks

/-! ## The limit, and the commands that are deleted -/

namespace Tracks

variable {i : ℤ}

theorem deleteUndone (h : Tracks k base reference s s.index) :
    Tracks k base reference s.deleteUndone s.index ∧ s.deleteUndone.count = s.index ∧
      s.deleteUndone.clean_index ≤ s.index := by
  have hi := h.nonneg
  have hle := h.le
  have hge := h.clean_ge
  unfold QUndoStack.count at hle
  have hlen : ((s.command_list.take s.index.toNat).length : ℤ) = s.index := by
    rw [length_take, Nat.min_eq_left (by omega)]
    omega
  have hdoc : s.document =
      documentAt k base (s.command_list.take s.index.toNat) s.index.toNat := by
    rw [documentAt_take (Nat.le_refl _)]
    exact h.document_eq
  unfold QUndoStack.deleteUndone
  by_cases hgt : s.clean_index > s.index
  · simp only [if_pos hgt]
    refine ⟨⟨hi, Int.le_of_eq hlen.symm, hdoc, Int.le_refl _, ?_, fun hne => absurd rfl hne⟩,
      hlen, by omega⟩
    show -1 ≤ ((s.command_list.take s.index.toNat).length : ℤ)
    omega
  · simp only [if_neg hgt]
    refine ⟨⟨hi, Int.le_of_eq hlen.symm, hdoc, hge, ?_, ?_⟩, hlen, by omega⟩
    · show s.clean_index ≤ ((s.command_list.take s.index.toNat).length : ℤ)
      omega
    · intro hne
      show _ = documentAt k base (s.command_list.take s.index.toNat) s.clean_index.toNat
      rw [documentAt_take (by omega)]
      exact h.clean_eq hne

theorem checkUndoLimit (h : Tracks k base reference s s.count) (hi : s.index + 1 = s.count) :
    ∃ base, Tracks k base reference s.checkUndoLimit s.checkUndoLimit.count ∧
      s.checkUndoLimit.index + 1 = s.checkUndoLimit.count := by
  unfold QUndoStack.checkUndoLimit
  by_cases hno : s.undo_limit ≤ 0 ∨ s.macro_stack ≠ 0 ∨ s.undo_limit ≥ s.count
  · rw [if_pos hno]
    exact ⟨base, h, hi⟩
  have hge := h.clean_ge
  have hle := h.clean_le
  obtain ⟨del, hdel⟩ : ∃ del : ℕ, (del : ℤ) = s.count - s.undo_limit :=
    ⟨(s.count - s.undo_limit).toNat, by omega⟩
  have hcount : (s.command_list.length : ℤ) = s.count := rfl
  have hlen : ((s.command_list.drop del).length : ℤ) = s.count - del := by
    simp
    omega
  rw [if_neg hno, ← hdel]
  simp only [Int.toNat_natCast]
  refine ⟨documentAt k base s.command_list del, ⟨?_, Int.le_refl _, ?_, ?_, ?_, ?_⟩, ?_⟩
  · show 0 ≤ ((s.command_list.drop del).length : ℤ)
    omega
  · show s.document = documentAt k (documentAt k base s.command_list del)
      (s.command_list.drop del) ((s.command_list.drop del).length : ℤ).toNat
    have hdoc := @documentAt_drop D C k base s.command_list del s.command_list.length (by omega)
    rw [Int.toNat_natCast, length_drop, hdoc, h.document_eq]
    rfl
  · show -1 ≤ if s.clean_index ≠ -1 then _ else _
    split
    · split <;> omega
    · omega
  · show (if s.clean_index ≠ -1 then _ else _) ≤ ((s.command_list.drop del).length : ℤ)
    split
    · split <;> omega
    · omega
  · intro hne
    change (if s.clean_index ≠ -1 then _ else _) ≠ (-1 : ℤ) at hne
    show reference = documentAt k _ (s.command_list.drop del)
      (if s.clean_index ≠ -1 then _ else _ : ℤ).toNat
    by_cases hclean : s.clean_index ≠ -1
    · rw [if_pos hclean] at hne ⊢
      by_cases hlt : s.clean_index < del
      · rw [if_pos hlt] at hne
        exact absurd rfl hne
      · have hsub : (s.clean_index - del).toNat = s.clean_index.toNat - del := by omega
        have hdoc := @documentAt_drop D C k base s.command_list del s.clean_index.toNat (by omega)
        rw [if_neg hlt, hsub, hdoc]
        exact h.clean_eq hclean
    · rw [if_neg hclean] at hne
      omega
  · show s.index - del + 1 = ((s.command_list.drop del).length : ℤ)
    omega

/-- One more command on top. -/
theorem concat (h : Tracks k base reference s s.count) (c : QUndoCommand C) {document : D}
    (hdoc : document = effect k c s.document) : Tracks k base reference
      { s with document := document, command_list := s.command_list ++ [c] }
      (s.count + 1) := by
  have hnonneg := h.nonneg
  have hge := h.clean_ge
  have hle := h.clean_le
  have hcount : s.count.toNat = s.command_list.length := Int.toNat_natCast _
  have hlen : ((s.command_list ++ [c]).length : ℤ) = s.count + 1 := by
    simp
    omega
  refine ⟨by omega, Int.le_of_eq hlen.symm, ?_, hge, ?_, ?_⟩
  · show document = documentAt k base (s.command_list ++ [c]) (s.count + 1).toNat
    rw [Int.toNat_add hnonneg (by decide), hcount]
    show document = documentAt k base (s.command_list ++ [c]) (s.command_list.length + 1)
    rw [documentAt_succ getElem?_concat_length,
      documentAt_append_left (Nat.le_refl _), hdoc, h.document_eq, hcount]
  · show s.clean_index ≤ ((s.command_list ++ [c]).length : ℤ)
    omega
  · intro hne
    show _ = documentAt k base (s.command_list ++ [c]) s.clean_index.toNat
    unfold QUndoStack.count at hle
    rw [documentAt_append_left (by omega)]
    exact h.clean_eq hne

end Tracks

/-! ## Open macros -/

/-- `n` macros are open in the last command of `cs`. -/
def OpenMacros : ℕ → List (QUndoCommand C) → Prop
  | 0, _ => True
  | n + 1, cs => ∃ rest children, cs = rest ++ [.parent children] ∧ OpenMacros n children

theorem updateOpen_concat (f : List (QUndoCommand C) → List (QUndoCommand C)) (n : ℕ)
    (rest children : List (QUndoCommand C)) :
    updateOpen f (n + 1) (rest ++ [.parent children]) =
      rest ++ [.parent (updateOpen f n children)] := by
  rw [updateOpen, getLast?_concat, dropLast_concat]

theorem openChildren_concat (n : ℕ) (rest children : List (QUndoCommand C)) :
    openChildren (n + 1) (rest ++ [.parent children]) =
      openChildren n children := by
  rw [openChildren, getLast?_concat]

theorem OpenMacros.updateOpen {f : List (QUndoCommand C) → List (QUndoCommand C)} {n : ℕ}
    {cs : List (QUndoCommand C)} (h : OpenMacros n cs) :
    OpenMacros n (updateOpen f n cs) := by
  induction n generalizing cs with
  | zero => trivial
  | succ n ih =>
    obtain ⟨rest, children, rfl, hopen⟩ := h
    rw [updateOpen_concat]
    exact ⟨rest, _, rfl, ih hopen⟩

theorem OpenMacros.beginMacro {n : ℕ} {cs : List (QUndoCommand C)} (h : OpenMacros n cs) :
    OpenMacros (n + 1) (QUndoStack.updateOpen (· ++ [.parent []]) n cs) := by
  induction n generalizing cs with
  | zero => exact ⟨cs, [], rfl, trivial⟩
  | succ n ih =>
    obtain ⟨rest, children, rfl, hopen⟩ := h
    rw [updateOpen_concat]
    exact ⟨rest, _, rfl, ih hopen⟩

theorem OpenMacros.endMacro {n : ℕ} {cs : List (QUndoCommand C)} (h : OpenMacros (n + 1) cs) :
    OpenMacros n cs := by
  induction n generalizing cs with
  | zero => trivial
  | succ n ih =>
    obtain ⟨rest, children, rfl, hopen⟩ := h
    exact ⟨rest, children, rfl, ih hopen⟩

theorem effects_updateOpen {f : List (QUndoCommand C) → List (QUndoCommand C)} {n : ℕ}
    {cs : List (QUndoCommand C)} (h : OpenMacros n cs) (g : Equiv.Perm D)
    (hf : effects k (f (openChildren n cs)) =
      (effects k (openChildren n cs)).trans g) :
    effects k (updateOpen f n cs) = (effects k cs).trans g := by
  induction n generalizing cs with
  | zero => exact hf
  | succ n ih =>
    obtain ⟨rest, children, rfl, hopen⟩ := h
    rw [openChildren_concat] at hf
    rw [updateOpen_concat, effects_concat, effects_concat, Equiv.trans_assoc]
    congr 1
    exact ih hopen hf

theorem Tracks.updateOpen (h : Tracks k base reference s s.count)
    {f : List (QUndoCommand C) → List (QUndoCommand C)} {n : ℕ}
    (hopen : OpenMacros (n + 1) s.command_list) (hclean : s.clean_index < s.count)
    (g : Equiv.Perm D) (hf : effects k (f (QUndoStack.openChildren (n + 1) s.command_list)) =
      (effects k (QUndoStack.openChildren (n + 1) s.command_list)).trans g) :
    Tracks k base reference { s with
      document := g s.document
      command_list := QUndoStack.updateOpen f (n + 1) s.command_list } s.count ∧
    ((QUndoStack.updateOpen f (n + 1) s.command_list).length : ℤ) = s.count := by
  have heffects := effects_updateOpen hopen g hf
  obtain ⟨rest, children, hlist, hchildren⟩ := hopen
  rw [hlist, updateOpen_concat] at heffects ⊢
  have hcount : s.count = rest.length + 1 := by
    unfold QUndoStack.count
    simp [hlist]
  have hlen : ((rest ++ [QUndoCommand.parent (QUndoStack.updateOpen f n children)]).length : ℤ) =
      s.count := by
    simp [hcount]
  have hlast : s.count.toNat = s.command_list.length := Int.toNat_natCast _
  refine ⟨⟨h.nonneg, Int.le_of_eq hlen.symm, ?_, h.clean_ge, ?_, ?_⟩, hlen⟩
  · show g s.document = documentAt k base (rest ++ [_]) s.count.toNat
    have hwhole : s.count.toNat =
        (rest ++ [QUndoCommand.parent (QUndoStack.updateOpen f n children)]).length := by omega
    rw [hwhole, documentAt_length, heffects, h.document_eq, hlast, documentAt_length, hlist]
    rfl
  · show s.clean_index ≤ ((rest ++ [_]).length : ℤ)
    omega
  · intro hne
    have hge := h.clean_ge
    have hdoc := h.clean_eq hne
    rw [hlist, documentAt_append_left (by omega)] at hdoc
    show _ = documentAt k base (rest ++ [_]) s.clean_index.toNat
    rw [documentAt_append_left (by omega)]
    exact hdoc

end QtBase.Gui
