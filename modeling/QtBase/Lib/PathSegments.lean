import Mathlib.Data.List.Flatten
import QtBase.Lib.UriReference

/-! Paths as walks: how far up they go, and then down which names. Some segments do not move, and
".." takes back the last name. -/
namespace PathSegments

open UriReference List

structure Walk (α : Type) where
  ups : ℕ
  names : List (List α)
  deriving DecidableEq

section Walks

variable {α : Type} [DecidableEq α] (skip : List α → Prop) [DecidablePred skip] (dot : α)

/-- A segment that goes down. -/
structure IsName (s : List α) : Prop where
  not_skip : ¬ skip s
  not_up : s ≠ [dot, dot]

namespace Walk

def step (w : Walk α) (s : List α) : Walk α :=
  if skip s then w
  else if s = [dot, dot] then
    if w.names = [] then ⟨w.ups + 1, []⟩ else ⟨w.ups, w.names.dropLast⟩
  else ⟨w.ups, w.names ++ [s]⟩

omit [DecidableEq α] in
/-- The segments that are left. -/
def segments (w : Walk α) : List (List α) := List.replicate w.ups [dot, dot] ++ w.names

end Walk

def walk (segs : List (List α)) : Walk α := segs.foldl (Walk.step skip dot) ⟨0, []⟩

/-- The walk read from its end: `ups` are still to be cancelled, and `names` are kept. -/
def back : List (List α) → ℕ → List (List α) → Walk α
  | [], ups, names => ⟨ups, names⟩
  | s :: segs, ups, names =>
    if skip s then back segs ups names
    else if s = [dot, dot] then back segs (ups + 1) names
    else if ups = 0 then back segs 0 (s :: names)
    else back segs (ups - 1) names

variable {skip dot} {s : List α} {segs : List (List α)} {w : Walk α}

theorem step_skip (h : skip s) : w.step skip dot s = w := if_pos h

theorem step_name (h : IsName skip dot s) : w.step skip dot s = ⟨w.ups, w.names ++ [s]⟩ := by
  rw [Walk.step, if_neg h.not_skip, if_neg h.not_up]

theorem step_up_nil (hskip : ¬ skip [dot, dot]) (h : w.names = []) :
    w.step skip dot [dot, dot] = ⟨w.ups + 1, []⟩ := by
  rw [Walk.step, if_neg hskip, if_pos rfl, if_pos h]

theorem step_up_cons (hskip : ¬ skip [dot, dot]) (h : w.names ≠ []) :
    w.step skip dot [dot, dot] = ⟨w.ups, w.names.dropLast⟩ := by
  rw [Walk.step, if_neg hskip, if_pos rfl, if_neg h]

variable (skip dot) in
theorem cases_segment (s : List α) : skip s ∨ s = [dot, dot] ∨ IsName skip dot s := by
  by_cases h : skip s
  · exact .inl h
  by_cases hup : s = [dot, dot]
  · exact .inr (.inl hup)
  · exact .inr (.inr ⟨h, hup⟩)

theorem walk_concat (segs : List (List α)) (s : List α) :
    walk skip dot (segs ++ [s]) = (walk skip dot segs).step skip dot s := foldl_concat ..

theorem back_skip (h : skip s) (ups : ℕ) (names : List (List α)) :
    back skip dot (s :: segs) ups names = back skip dot segs ups names := by
  rw [back, if_pos h]

theorem back_up (hskip : ¬ skip [dot, dot]) (ups : ℕ) (names : List (List α)) :
    back skip dot ([dot, dot] :: segs) ups names = back skip dot segs (ups + 1) names := by
  rw [back, if_neg hskip, if_pos rfl]

theorem back_name (h : IsName skip dot s) (names : List (List α)) :
    back skip dot (s :: segs) 0 names = back skip dot segs 0 (s :: names) := by
  rw [back, if_neg h.not_skip, if_neg h.not_up, if_pos rfl]

theorem back_name_succ (h : IsName skip dot s) (ups : ℕ) (names : List (List α)) :
    back skip dot (s :: segs) (ups + 1) names = back skip dot segs ups names := by
  rw [back, if_neg h.not_skip, if_neg h.not_up, if_neg ups.succ_ne_zero, Nat.add_sub_cancel]

theorem back_reverse (hskip : ¬ skip [dot, dot]) (segs : List (List α)) (ups : ℕ)
    (names : List (List α)) :
    back skip dot segs.reverse ups names =
      ⟨(walk skip dot segs).ups + (ups - (walk skip dot segs).names.length),
        (walk skip dot segs).names.take ((walk skip dot segs).names.length - ups) ++ names⟩ := by
  induction segs using List.reverseRecOn generalizing ups names with
  | nil => simp [walk, back]
  | append_singleton segs s ih =>
    rw [reverse_concat, walk_concat]
    rcases cases_segment skip dot s with h | rfl | h
    · rw [back_skip h, step_skip h, ih]
    · rw [back_up hskip, ih]
      by_cases hnil : (walk skip dot segs).names = []
      · rw [step_up_nil hskip hnil, hnil]
        simp only [length_nil, Nat.sub_zero, Nat.zero_sub, take_nil]
        congr 1
        omega
      · have hpos := length_pos_iff.2 hnil
        rw [step_up_cons hskip hnil]
        dsimp only
        rw [length_dropLast, dropLast_eq_take, take_take]
        congr 1
        · omega
        · congr 2
          omega
    · rw [step_name h]
      dsimp only
      rw [length_append, length_singleton]
      cases ups with
      | zero =>
        rw [back_name h, ih, Nat.sub_zero, Nat.sub_zero, take_length,
          take_of_length_le (by simp), append_assoc]
        simp
      | succ ups =>
        rw [back_name_succ h, ih, Nat.add_sub_add_right, Nat.add_sub_add_right,
          take_append_of_le_length (Nat.sub_le _ _)]

theorem back_eq_walk (hskip : ¬ skip [dot, dot]) (segs : List (List α)) :
    back skip dot segs.reverse 0 [] = walk skip dot segs := by
  rw [back_reverse hskip]
  simp

theorem segments_sublist (hskip : ¬ skip [dot, dot]) (segs : List (List α)) :
    ((walk skip dot segs).segments dot).Sublist segs := by
  induction segs using List.reverseRecOn with
  | nil => exact List.Sublist.refl _
  | append_singleton segs s ih =>
    rw [walk_concat]
    have hkeep : ((walk skip dot segs).segments dot).Sublist (segs ++ [s]) :=
      ih.trans (sublist_append_left _ _)
    rcases cases_segment skip dot s with h | rfl | h
    · rwa [step_skip h]
    · by_cases hnil : (walk skip dot segs).names = []
      · rw [step_up_nil hskip hnil, Walk.segments, append_nil, replicate_succ']
        rw [Walk.segments, hnil, append_nil] at ih
        exact ih.append (List.Sublist.refl _)
      · rw [step_up_cons hskip hnil]
        exact ((List.Sublist.refl _).append (dropLast_sublist _)).trans hkeep
    · rw [step_name h, Walk.segments, ← append_assoc]
      exact ih.append (List.Sublist.refl _)

theorem isName_of_mem (hskip : ¬ skip [dot, dot]) (segs : List (List α)) :
    ∀ s ∈ (walk skip dot segs).names, IsName skip dot s := by
  induction segs using List.reverseRecOn with
  | nil => exact nofun
  | append_singleton segs s ih =>
    rw [walk_concat]
    rcases cases_segment skip dot s with h | rfl | h
    · rwa [step_skip h]
    · by_cases hnil : (walk skip dot segs).names = []
      · rw [step_up_nil hskip hnil]
        exact nofun
      · rw [step_up_cons hskip hnil]
        exact fun x hx => ih x (mem_of_mem_dropLast hx)
    · rw [step_name h]
      intro x hx
      rcases mem_append.1 hx with hx | hx
      · exact ih x hx
      · rwa [mem_singleton.1 hx]

theorem walk_segments (hskip : ¬ skip [dot, dot]) (ups : ℕ) {names : List (List α)}
    (h : ∀ s ∈ names, IsName skip dot s) :
    walk skip dot ((Walk.mk ups names).segments dot) = ⟨ups, names⟩ := by
  have hups : walk skip dot (List.replicate ups [dot, dot]) = ⟨ups, []⟩ := by
    induction ups with
    | zero => rfl
    | succ ups ih => rw [replicate_succ', walk_concat, ih, step_up_nil hskip rfl]
  induction names using List.reverseRecOn with
  | nil => rwa [Walk.segments, append_nil]
  | append_singleton names s ih =>
    have hs : IsName skip dot s := h s (by simp)
    have ih' := ih fun x hx => h x (by simp [hx])
    rw [Walk.segments] at ih' ⊢
    rw [← append_assoc, walk_concat, ih', step_name hs]

end Walks

section Clean

variable {α : Type} [DecidableEq α] (dot slash : α)

/-- A segment that does not move in a file system. -/
def Stays (s : List α) : Prop := s = [] ∨ s = [dot]

instance : DecidablePred (Stays dot) := fun _ => inferInstanceAs (Decidable (_ ∨ _))

/-- A path with single slashes between the segments of its walk. -/
def clean (p : List α) : List α :=
  let segs := (walk (Stays dot) dot (p.splitOn slash)).segments dot
  if p.head? = some slash then slash :: [slash].intercalate segs
  else if segs = [] then [dot]
  else [slash].intercalate segs

variable {dot slash} {p : List α}

omit [DecidableEq α] in
theorem not_stays_up : ¬ Stays dot [dot, dot] := by
  rintro (h | h) <;> cases h

omit [DecidableEq α] in
theorem intercalate_sublist {l l' : List (List α)} (h : l.Sublist l') :
    ([slash].intercalate l).Sublist ([slash].intercalate l') := by
  have hjoin : ∀ {l l' : List (List α)}, l.Sublist l' → (join slash l).Sublist (join slash l') :=
    fun h => h.flatMap _
  cases h with
  | slnil => exact List.Sublist.refl _
  | @cons _ l' s h =>
    rw [intercalate_cons]
    cases l with
    | nil => exact nil_sublist _
    | cons a l =>
      rw [intercalate_cons]
      exact ((sublist_cons_self slash _).trans (hjoin h)).trans
        (sublist_append_right s _)
  | @cons_cons l l' s h =>
    rw [intercalate_cons, intercalate_cons]
    exact (List.Sublist.refl s).append (hjoin h)

omit [DecidableEq α] in
theorem intercalate_concat {l : List (List α)} (s : List α) (h : l ≠ []) :
    [slash].intercalate (l ++ [s]) = [slash].intercalate l ++ slash :: s := by
  obtain ⟨a, l, rfl⟩ := exists_cons_of_ne_nil h
  rw [cons_append, intercalate_cons, intercalate_cons, join, flatMap_append,
    append_assoc]
  simp [join]

omit [DecidableEq α] in
theorem reverse_intercalate (l : List (List α)) :
    ([slash].intercalate l).reverse = [slash].intercalate (l.reverse.map List.reverse) := by
  induction l with
  | nil => rfl
  | cons s l ih =>
    by_cases h : l = []
    · simp [h]
    · rw [intercalate_cons_of_ne_nil h, reverse_append, reverse_append, ih,
        @reverse_cons _ s l, map_append, map_singleton,
        intercalate_concat _ (by simpa)]
      simp

theorem walk_nil_cons (segs : List (List α)) :
    walk (Stays dot) dot ([] :: segs) = walk (Stays dot) dot segs := by
  rw [walk, foldl_cons, step_skip (.inl rfl)]
  rfl

theorem walk_concat_nil (segs : List (List α)) :
    walk (Stays dot) dot (segs ++ [[]]) = walk (Stays dot) dot segs := by
  rw [walk_concat, step_skip (.inl rfl)]

theorem walk_slash_cons (p : List α) :
    walk (Stays dot) dot ((slash :: p).splitOn slash) = walk (Stays dot) dot (p.splitOn slash) := by
  rw [splitOn_cons_eq_if_modifyHead, if_pos (beq_self_eq_true _), walk_nil_cons]

theorem walk_concat_slash (p : List α) :
    walk (Stays dot) dot ((p ++ [slash]).splitOn slash) =
      walk (Stays dot) dot (p.splitOn slash) := by
  rw [splitOn_append_cons_self, splitOn_nil, walk_concat_nil]

variable (p) in
theorem slash_notMem_segments :
    ∀ s ∈ (walk (Stays dot) dot (p.splitOn slash)).segments dot, slash ∉ s :=
  fun _ hs => notMem_of_mem_splitOn ((segments_sublist not_stays_up _).subset hs)

variable (slash p) in
theorem ne_nil_segments : ∀ s ∈ (walk (Stays dot) dot (p.splitOn slash)).segments dot, s ≠ [] := by
  intro s hs
  rcases mem_append.1 hs with hs | hs
  · rw [eq_of_mem_replicate hs]
    exact cons_ne_nil _ _
  · exact fun h => (isName_of_mem not_stays_up _ s hs).not_skip (.inl h)

omit [DecidableEq α] in
theorem intercalate_ne_nil {segs : List (List α)} (h : segs ≠ []) (hnil : ∀ s ∈ segs, s ≠ []) :
    [slash].intercalate segs ≠ [] := by
  obtain ⟨s, segs, rfl⟩ := exists_cons_of_ne_nil h
  rw [intercalate_cons]
  exact fun h0 => hnil s mem_cons_self (append_eq_nil_iff.1 h0).1

theorem clean_ne_nil (p : List α) : clean dot slash p ≠ [] := by
  rw [clean]
  split_ifs with hp hsegs
  · exact cons_ne_nil _ _
  · exact cons_ne_nil _ _
  · exact intercalate_ne_nil hsegs (ne_nil_segments slash p)

omit [DecidableEq α] in
theorem head_intercalate_ne {segs : List (List α)} (h : ∀ s ∈ segs, slash ∉ s)
    (hnil : ∀ s ∈ segs, s ≠ []) : ([slash].intercalate segs).head? ≠ some slash := by
  cases segs with
  | nil => exact nofun
  | cons s segs =>
    obtain ⟨c, s, rfl⟩ := exists_cons_of_ne_nil (hnil _ mem_cons_self)
    rw [intercalate_cons, cons_append, head?_cons]
    intro hc
    rw [Option.some.injEq] at hc
    exact h _ mem_cons_self (hc ▸ mem_cons_self)

theorem walk_splitOn_intercalate {w : Walk α} (h : ∀ s ∈ w.names, IsName (Stays dot) dot s)
    (hs : ∀ s ∈ w.segments dot, slash ∉ s) :
    walk (Stays dot) dot (([slash].intercalate (w.segments dot)).splitOn slash) = w := by
  by_cases hnil : w.segments dot = []
  · obtain ⟨hups, hnames⟩ := append_eq_nil_iff.1 hnil
    rw [hnil, intercalate_nil, splitOn_nil, walk, foldl_cons, foldl_nil,
      step_skip (.inl rfl)]
    rw [replicate_eq_nil_iff] at hups
    obtain ⟨ups, names⟩ := w
    cases hups
    cases hnames
    rfl
  · rw [splitOn_intercalate slash hs hnil]
    exact walk_segments not_stays_up _ h

theorem clean_clean (hne : dot ≠ slash) (p : List α) :
    clean dot slash (clean dot slash p) = clean dot slash p := by
  have hslash : ∀ s ∈ (walk (Stays dot) dot (p.splitOn slash)).segments dot, slash ∉ s :=
    slash_notMem_segments p
  have hwalk := walk_splitOn_intercalate (isName_of_mem not_stays_up (p.splitOn slash)) hslash
  have hhead := head_intercalate_ne hslash (ne_nil_segments slash p)
  have hdef : clean dot slash p =
      if p.head? = some slash then
        slash :: [slash].intercalate ((walk (Stays dot) dot (p.splitOn slash)).segments dot)
      else if (walk (Stays dot) dot (p.splitOn slash)).segments dot = [] then [dot]
      else [slash].intercalate ((walk (Stays dot) dot (p.splitOn slash)).segments dot) := rfl
  rw [hdef]
  split_ifs with hp hnil
  · rw [clean, walk_slash_cons, hwalk]
    exact if_pos rfl
  · have hwalk' : walk (Stays dot) dot ([dot].splitOn slash) = ⟨0, []⟩ := by
      rw [splitOn_eq_singleton fun h => hne (mem_singleton.1 h).symm, walk,
        foldl_cons, step_skip (.inr rfl), foldl_nil]
    have hdot : ([dot].head? : Option α) ≠ some slash := fun h => hne (Option.some.inj h)
    rw [clean, hwalk', if_neg hdot]
    exact if_pos rfl
  · rw [clean, hwalk, if_neg hhead, if_neg hnil]

end Clean

end PathSegments
