import Mathlib.Data.List.Induction
import Mathlib.Data.List.Nodup
import Mathlib.Logic.Function.Basic
import Mathlib.Tactic.Common

/-! Rings of nodes that are doubly linked through a sentinel, and what happens to them when nodes are
taken out, put in front or moved to other places. -/
namespace QtBase.Lib

open List Function

variable {P : Type} [DecidableEq P]

/-- The links of all nodes. -/
structure Links (P : Type) where
  next : P → P
  prev : P → P

namespace Links

variable (l : Links P)

def setNext (p q : P) : Links P := { l with next := Function.update l.next p q }

def setPrev (p q : P) : Links P := { l with prev := Function.update l.prev p q }

/-- The neighbours of `n` are linked with each other. -/
def unlink (n : P) : Links P :=
  let l := l.setNext (l.prev n) (l.next n)
  l.setPrev (l.next n) (l.prev n)

/-- `n` is linked in behind the sentinel. -/
def pushFront (sentinel n : P) : Links P :=
  let l := l.setPrev n sentinel
  let l := l.setNext n (l.next sentinel)
  let l := l.setPrev (l.next sentinel) n
  l.setNext sentinel n

/-- The links of `src` are copied to `dst`, whose neighbours are linked with it from then on. -/
def relocate (src dst : P) : Links P :=
  let l := l.setPrev dst (l.prev src)
  let l := l.setNext dst (l.next src)
  let l := l.setNext (l.prev dst) dst
  l.setPrev (l.next dst) dst

/-- The nodes of `L` lie between `a` and `z`, linked in both directions. -/
def Path : P → List P → P → Prop
  | a, [], z => l.next a = z ∧ l.prev z = a
  | a, b :: L, z => l.next a = b ∧ l.prev b = a ∧ Path b L z

/-- The nodes of `L` and the sentinel form a ring. -/
structure Ring (sentinel : P) (L : List P) : Prop where
  path : l.Path sentinel L sentinel
  nodup : (sentinel :: L).Nodup

/-- The nodes that `step` leads to before `stop`. -/
def walk (step : P → P) (stop : P) : ℕ → P → List P
  | 0, _ => []
  | steps + 1, p => if p = stop then [] else p :: walk step stop steps (step p)

/-! ## Paths -/

section Path

variable {l l' : Links P} {a x y z s : P} {A B L : List P}

omit [DecidableEq P] in
theorem path_append : l.Path a (A ++ x :: B) z ↔ l.Path a A x ∧ l.Path x B z := by
  induction A generalizing a with
  | nil => exact (and_assoc (a := l.next a = x)).symm
  | cons b A ih =>
    show l.next a = b ∧ l.prev b = a ∧ l.Path b (A ++ x :: B) z ↔
      (l.next a = b ∧ l.prev b = a ∧ l.Path b A x) ∧ l.Path x B z
    rw [ih, and_assoc, and_assoc]

omit [DecidableEq P] in
theorem Path.congr (h : l.Path a L z) (hnext : ∀ p ∈ a :: L, l'.next p = l.next p)
    (hprev : ∀ p ∈ L ++ [z], l'.prev p = l.prev p) : l'.Path a L z := by
  induction L generalizing a with
  | nil =>
    obtain ⟨h1, h2⟩ := h
    exact ⟨(hnext a mem_cons_self).trans h1, (hprev z mem_cons_self).trans h2⟩
  | cons b L ih =>
    obtain ⟨h1, h2, h3⟩ := h
    refine ⟨(hnext a mem_cons_self).trans h1, (hprev b mem_cons_self).trans h2, ?_⟩
    exact ih h3 (fun p hp => hnext p (mem_cons_of_mem _ hp))
      fun p hp => hprev p (mem_cons_of_mem _ hp)

omit [DecidableEq P] in
theorem Path.prev_mem (h : l.Path a A x) : l.prev x ∈ a :: A := by
  induction A generalizing a with
  | nil => exact mem_singleton.mpr h.2
  | cons b A ih => exact mem_cons_of_mem _ (ih h.2.2)

omit [DecidableEq P] in
theorem Path.next_mem (h : l.Path x B z) : l.next x ∈ B ++ [z] := by
  cases B with
  | nil => exact mem_singleton.mpr h.1
  | cons b B =>
    rw [h.1]
    exact mem_cons_self

omit [DecidableEq P] in
theorem Path.replace_end (h : l.Path a A x) (hnodup : (a :: A).Nodup)
    (hlast : l'.next (l.prev x) = z) (hz : l'.prev z = l.prev x)
    (hnext : ∀ p ∈ a :: A, p ≠ l.prev x → l'.next p = l.next p)
    (hprev : ∀ p ∈ A, l'.prev p = l.prev p) : l'.Path a A z := by
  induction A generalizing a with
  | nil =>
    obtain ⟨_, h2⟩ := h
    rw [h2] at hlast hz
    exact ⟨hlast, hz⟩
  | cons b A ih =>
    obtain ⟨h1, h2, h3⟩ := h
    obtain ⟨hab, hnodup'⟩ := nodup_cons.mp hnodup
    have hne : a ≠ l.prev x := by
      rintro rfl
      exact hab h3.prev_mem
    refine ⟨(hnext a mem_cons_self hne).trans h1, (hprev b mem_cons_self).trans h2, ?_⟩
    exact ih h3 hnodup' (fun p hp => hnext p (mem_cons_of_mem _ hp))
      fun p hp => hprev p (mem_cons_of_mem _ hp)

omit [DecidableEq P] in
theorem Path.replace_start (h : l.Path x B z) (hnodup : (B ++ [z]).Nodup)
    (hfirst : l'.next y = l.next x) (hy : l'.prev (l.next x) = y)
    (hnext : ∀ p ∈ B, l'.next p = l.next p)
    (hprev : ∀ p ∈ B ++ [z], p ≠ l.next x → l'.prev p = l.prev p) : l'.Path y B z := by
  cases B with
  | nil =>
    obtain ⟨h1, _⟩ := h
    rw [h1] at hfirst hy
    exact ⟨hfirst, hy⟩
  | cons b B =>
    obtain ⟨h1, _, h3⟩ := h
    obtain ⟨hb, _⟩ := nodup_cons.mp hnodup
    rw [h1] at hfirst hy hprev
    refine ⟨hfirst, hy, h3.congr hnext ?_⟩
    intro p hp
    apply hprev p (mem_cons_of_mem _ hp)
    rintro rfl
    exact hb hp

theorem Path.walk_next (h : l.Path a L z) (hz : z ∉ L) (steps : ℕ) (hsteps : L.length ≤ steps) :
    walk l.next z steps (l.next a) = L := by
  induction L generalizing a steps with
  | nil =>
    rw [h.1]
    cases steps with
    | zero => rfl
    | succ steps => exact if_pos rfl
  | cons b L ih =>
    obtain ⟨h1, _, h3⟩ := h
    obtain ⟨k, rfl⟩ : ∃ k, steps = k + 1 :=
      Nat.exists_eq_succ_of_ne_zero (by rw [length_cons] at hsteps; omega)
    have hb : b ≠ z := by
      rintro rfl
      exact hz mem_cons_self
    rw [h1, walk, if_neg hb, ih h3 (fun hmem => hz (mem_cons_of_mem _ hmem)) k
      (Nat.le_of_succ_le_succ hsteps)]

theorem Path.walk_prev (h : l.Path a L z) (ha : a ∉ L) (steps : ℕ) (hsteps : L.length ≤ steps) :
    walk l.prev a steps (l.prev z) = L.reverse := by
  induction L using List.reverseRecOn generalizing z steps with
  | nil =>
    rw [h.2]
    cases steps with
    | zero => rfl
    | succ steps => exact if_pos rfl
  | append_singleton L b ih =>
    obtain ⟨h1, _, h3⟩ := path_append.1 h
    rw [length_append, length_singleton] at hsteps
    obtain ⟨k, rfl⟩ : ∃ k, steps = k + 1 := Nat.exists_eq_succ_of_ne_zero (by omega)
    have hb : b ≠ a := by
      rintro rfl
      exact ha (mem_append_right _ (mem_singleton_self _))
    rw [h3, walk, if_neg hb, ih h1 (fun hmem => ha (mem_append_left _ hmem)) k (by omega),
      reverse_append]
    rfl

end Path

/-! ## Rings -/

namespace Ring

variable {l : Links P} {s n src dst : P} {A B L : List P}

omit [DecidableEq P] in
theorem empty (h : l.next s = s) (h' : l.prev s = s) : l.Ring s [] :=
  ⟨⟨h, h'⟩, nodup_singleton s⟩

omit [DecidableEq P] in
/-- The neighbours of a node, and what is on both sides of it. -/
theorem split (h : l.Ring s (A ++ n :: B)) : l.Path s A n ∧ l.Path n B s ∧ (s :: A).Nodup ∧
    (B ++ [s]).Nodup ∧ n ∉ s :: A ∧ n ∉ B ++ [s] ∧ ∀ p ∈ A, p ∉ B ++ [s] := by
  obtain ⟨hA, hB⟩ := path_append.1 h.path
  obtain ⟨hs, hnodup⟩ := nodup_cons.mp h.nodup
  obtain ⟨hnA, hnB, hdisj⟩ := nodup_append.mp hnodup
  obtain ⟨hnB', hB'⟩ := nodup_cons.mp hnB
  rw [mem_append, mem_cons] at hs
  have hsA : s ∉ A := fun hmem => hs (.inl hmem)
  have hsn : s ≠ n := fun heq => hs (.inr (.inl heq))
  have hsB : s ∉ B := fun hmem => hs (.inr (.inr hmem))
  refine ⟨hA, hB, nodup_cons.mpr ⟨hsA, hnA⟩, ?_, ?_, ?_, ?_⟩
  · rw [nodup_append]
    refine ⟨hB', nodup_singleton s, ?_⟩
    rintro p hp q hq rfl
    rw [mem_singleton.mp hq] at hp
    exact hsB hp
  · rintro (_ | ⟨_, hmem⟩)
    · exact hsn rfl
    · exact hdisj n hmem n mem_cons_self rfl
  · intro hmem
    obtain hmem | hmem := mem_append.mp hmem
    · exact hnB' hmem
    · exact hsn (mem_singleton.mp hmem).symm
  · intro p hp hmem
    obtain hmem | hmem := mem_append.mp hmem
    · exact hdisj p hp p (mem_cons_of_mem _ hmem) rfl
    · rw [mem_singleton.mp hmem] at hp
      exact hsA hp

/-- A node is taken out. -/
theorem unlink (h : l.Ring s (A ++ n :: B)) : (l.unlink n).Ring s (A ++ B) := by
  obtain ⟨hA, hB, hsA, hBs, hnA, hnB, hAB⟩ := h.split
  have hp := hA.prev_mem
  have hnodup : (s :: (A ++ B)).Nodup := by
    exact List.Nodup.sublist (((sublist_cons_self n B).append_left A).cons_cons s) h.nodup
  have hpn : l.prev n ≠ n := fun heq => hnA (heq ▸ hp)
  have hnext : ∀ p, (l.unlink n).next p = if p = l.prev n then l.next n else l.next p :=
    fun p => update_apply _ _ _ _
  have hprev : ∀ p, (l.unlink n).prev p = if p = l.next n then l.prev n else l.prev p := by
    intro p
    show update l.prev (update l.next (l.prev n) (l.next n) n) (l.prev n) p = _
    rw [update_of_ne hpn.symm, update_apply]
  refine ⟨?_, hnodup⟩
  cases B with
  | nil =>
    obtain ⟨h1, h2⟩ := hB
    rw [append_nil]
    apply hA.replace_end hsA
    · rw [hnext, if_pos rfl, h1]
    · rw [hprev, if_pos h1.symm]
    · intro p _ hne
      rw [hnext, if_neg hne]
    · intro p hpA
      rw [hprev, if_neg]
      rintro rfl
      exact hAB _ hpA (mem_singleton.mpr h1)
  | cons b B =>
    obtain ⟨h1, h2, h3⟩ := hB
    obtain ⟨hb, hBs'⟩ := nodup_cons.mp hBs
    have hpB : ∀ p ∈ b :: B, p ≠ l.prev n := by
      rintro p hpB rfl
      obtain heq | hmem := mem_cons.mp hp
      · rw [heq] at hpB
        have hsB := (nodup_append.mp hBs).2.2 s hpB s (mem_singleton_self s)
        exact hsB rfl
      · exact hAB _ hmem (mem_append_left _ hpB)
    apply path_append.2
    constructor
    · apply hA.replace_end hsA
      · rw [hnext, if_pos rfl, h1]
      · rw [hprev, if_pos h1.symm]
      · intro p _ hne
        rw [hnext, if_neg hne]
      · intro p hpA
        rw [hprev, if_neg]
        rintro rfl
        exact hAB _ hpA (h1 ▸ mem_cons_self)
    · apply h3.congr
      · intro p hpB'
        rw [hnext, if_neg (hpB p hpB')]
      · intro p hpB'
        rw [hprev, if_neg]
        rintro rfl
        exact hb (h1 ▸ hpB')

theorem pushFront (h : l.Ring s L) (hn : n ∉ s :: L) : (l.pushFront s n).Ring s (n :: L) := by
  obtain ⟨hs, hL⟩ := nodup_cons.mp h.nodup
  have hns : n ≠ s := fun heq => hn (heq ▸ mem_cons_self)
  have hfirst := h.path.next_mem
  have hnfirst : n ≠ l.next s := by
    rintro rfl
    obtain hmem | hmem := mem_append.mp hfirst
    · exact hn (mem_cons_of_mem _ hmem)
    · exact hns (mem_singleton.mp hmem)
  have hnext : ∀ p, (l.pushFront s n).next p =
      if p = s then n else if p = n then l.next s else l.next p := by
    intro p
    show update (update l.next n (l.next s)) s n p = _
    rw [update_apply, update_apply]
  have hprev : ∀ p, (l.pushFront s n).prev p =
      if p = l.next s then n else if p = n then s else l.prev p := by
    intro p
    show update (update l.prev n s) (update l.next n (l.next s) s) n p = _
    rw [update_of_ne hns.symm, update_apply, update_apply]
  constructor
  · refine ⟨?_, ?_, ?_⟩
    · rw [hnext, if_pos rfl]
    · rw [hprev, if_neg hnfirst, if_pos rfl]
    · apply h.path.replace_start
      · rw [nodup_append]
        refine ⟨hL, nodup_singleton s, ?_⟩
        rintro p hp q hq rfl
        rw [mem_singleton.mp hq] at hp
        exact hs hp
      · rw [hnext, if_neg hns, if_pos rfl]
      · rw [hprev, if_pos rfl]
      · intro p hp
        rw [hnext, if_neg, if_neg]
        · rintro rfl
          exact hn (mem_cons_of_mem _ hp)
        · rintro rfl
          exact hs hp
      · intro p hp hne
        rw [hprev, if_neg hne, if_neg]
        rintro rfl
        obtain hmem | hmem := mem_append.mp hp
        · exact hn (mem_cons_of_mem _ hmem)
        · exact hns (mem_singleton.mp hmem)
  · apply nodup_cons.mpr
    constructor
    · intro hmem
      obtain heq | hmem := mem_cons.mp hmem
      · exact hns heq.symm
      · exact hs hmem
    · exact nodup_cons.mpr ⟨fun hmem => hn (mem_cons_of_mem _ hmem), hL⟩

theorem relocate (h : l.Ring s (A ++ src :: B)) (hdst : dst ∉ s :: (A ++ src :: B)) :
    (l.relocate src dst).Ring s (A ++ dst :: B) := by
  obtain ⟨hA, hB, hsA, hBs, hnA, hnB, hAB⟩ := h.split
  have hmemA : ∀ p ∈ s :: A, p ∈ s :: (A ++ src :: B) := by
    intro p hp
    obtain rfl | hp := mem_cons.mp hp
    · exact mem_cons_self
    · exact mem_cons_of_mem _ (mem_append_left _ hp)
  have hmemB : ∀ p ∈ B ++ [s], p ∈ s :: (A ++ src :: B) := by
    intro p hp
    obtain hp | hp := mem_append.mp hp
    · exact mem_cons_of_mem _ (mem_append_right _ (mem_cons_of_mem _ hp))
    · rw [mem_singleton.mp hp]
      exact mem_cons_self
  have hne : ∀ p ∈ s :: (A ++ src :: B), dst ≠ p := by
    rintro p hp rfl
    exact hdst hp
  have hp := hA.prev_mem
  have hq := hB.next_mem
  have hdp : dst ≠ l.prev src := hne _ (hmemA _ hp)
  have hdq : dst ≠ l.next src := hne _ (hmemB _ hq)
  have hpB : ∀ p ∈ B, p ≠ l.prev src := by
    rintro p hpB rfl
    obtain heq | hmem := mem_cons.mp hp
    · rw [heq] at hpB
      exact (nodup_append.mp hBs).2.2 s hpB s (mem_singleton_self s) rfl
    · exact hAB _ hmem (mem_append_left _ hpB)
  have hnext : ∀ p, (l.relocate src dst).next p =
      if p = l.prev src then dst else if p = dst then l.next src else l.next p := by
    intro p
    show update (update l.next dst (l.next src))
      (update l.prev dst (l.prev src) dst) dst p = _
    rw [update_self, update_apply, update_apply]
  have hprev : ∀ p, (l.relocate src dst).prev p =
      if p = l.next src then dst else if p = dst then l.prev src else l.prev p := by
    intro p
    have hread : (update (update l.next dst (l.next src))
        (update l.prev dst (l.prev src) dst) dst) dst = l.next src := by
      rw [update_self, update_of_ne hdp, update_self]
    show update (update l.prev dst (l.prev src)) ((update
      (update l.next dst (l.next src)) (update l.prev dst (l.prev src) dst) dst)
      dst) dst p = _
    rw [hread, update_apply, update_apply]
  constructor
  · apply path_append.2
    constructor
    · apply hA.replace_end hsA
      · rw [hnext, if_pos rfl]
      · rw [hprev, if_neg hdq, if_pos rfl]
      · intro p hpA hpne
        rw [hnext, if_neg hpne, if_neg (hne p (hmemA p hpA)).symm]
      · intro p hpA
        have hpq : p ≠ l.next src := by
          rintro rfl
          exact hAB _ hpA hq
        rw [hprev, if_neg hpq, if_neg (hne p (hmemA p (mem_cons_of_mem _ hpA))).symm]
    · apply hB.replace_start hBs
      · rw [hnext, if_neg hdp, if_pos rfl]
      · rw [hprev, if_pos rfl]
      · intro p hpB'
        rw [hnext, if_neg (hpB p hpB'),
          if_neg (hne p (hmemB p (mem_append_left _ hpB'))).symm]
      · intro p hpB' hpne
        rw [hprev, if_neg hpne, if_neg (hne p (hmemB p hpB')).symm]
  · have hold := h.nodup
    have hperm : (s :: (A ++ src :: B)).Perm (src :: s :: (A ++ B)) :=
      ((perm_middle).cons s).trans (List.Perm.swap src s (A ++ B))
    have hperm' : (s :: (A ++ dst :: B)).Perm (dst :: s :: (A ++ B)) :=
      ((perm_middle).cons s).trans (List.Perm.swap dst s (A ++ B))
    rw [hperm.nodup_iff] at hold
    rw [hperm'.nodup_iff]
    obtain ⟨_, hrest⟩ := nodup_cons.mp hold
    apply nodup_cons.mpr
    refine ⟨fun hmem => hdst ?_, hrest⟩
    exact hperm.mem_iff.2 (mem_cons_of_mem _ hmem)

theorem map_relocate (h : l.Ring s L) (hsrc : src ∈ L) (hdst : dst ∉ s :: L) :
    (l.relocate src dst).Ring s (L.map fun p => if p = src then dst else p) := by
  obtain ⟨A, B, rfl⟩ := append_of_mem hsrc
  obtain ⟨_, _, _, _, hnA, hnB, _⟩ := h.split
  have hkeep : ∀ M : List P, src ∉ M → M.map (fun p => if p = src then dst else p) = M := by
    intro M hM
    refine (map_congr_left fun p hp => if_neg ?_).trans (map_id M)
    rintro rfl
    exact hM hp
  rw [map_append, map_cons, if_pos rfl,
    hkeep A fun hmem => hnA (mem_cons_of_mem _ hmem),
    hkeep B fun hmem => hnB (mem_append_left _ hmem)]
  exact h.relocate hdst

end Ring

end Links

end QtBase.Lib
