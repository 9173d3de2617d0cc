import Mathlib.Data.List.DropRight
import Mathlib.Data.List.Infix
import Mathlib.Data.Nat.Notation

/-! URI references (RFC 3986, section 5.2): the merging of paths, the removal of dot segments, and
the transformation of a reference by its base. -/
namespace UriReference

open List

/-- A path in segments, each with the slash before it. -/
def join {α : Type} (slash : α) (segs : List (List α)) : List α :=
  segs.flatMap fun s => slash :: s

@[simp] theorem join_nil {α : Type} (slash : α) : join slash [] = [] := rfl

@[simp] theorem join_cons {α : Type} (slash : α) (s : List α) (segs : List (List α)) :
    join slash (s :: segs) = slash :: (s ++ join slash segs) := rfl

theorem intercalate_cons {α : Type} (slash : α) (s : List α) (segs : List (List α)) :
    [slash].intercalate (s :: segs) = s ++ join slash segs := by
  induction segs generalizing s with
  | nil => simp
  | cons s' segs ih =>
    rw [join_cons, ← ih s']
    simp [List.intercalate]

theorem length_join_cons {α : Type} (slash : α) (s : List α) (segs : List (List α)) :
    (join slash (s :: segs)).length = s.length + 1 + (join slash segs).length := by
  rw [join_cons, length_cons, length_append]
  omega

theorem length_le_join {α : Type} (slash : α) (segs : List (List α)) :
    segs.length ≤ (join slash segs).length := by
  induction segs with
  | nil => exact Nat.le_refl 0
  | cons s segs ih =>
    rw [length_join_cons, length_cons]
    omega

variable {α : Type} [DecidableEq α] (dot slash : α)

/-! ## Paths -/

def IsDots (s : List α) : Prop := s = [dot] ∨ s = [dot, dot]

instance (s : List α) : Decidable (IsDots dot s) := inferInstanceAs (Decidable (_ ∨ _))

/-- One of the segments of the path is "." or "..". -/
def HasDots (p : List α) : Prop := ∃ s ∈ p.splitOn slash, IsDots dot s

instance (p : List α) : Decidable (HasDots dot slash p) :=
  inferInstanceAs (Decidable (∃ s ∈ p.splitOn slash, IsDots dot s))

/-- The path up to its last slash; empty if there is none. -/
def directory (p : List α) : List α := p.rdropWhile (· != slash)

/-- The path without its last segment and the slash before it. -/
def removeLast (p : List α) : List α := (directory slash p).dropLast

/-- 5.2.3 -/
def merge (hasAuthority : Bool) (base p : List α) : List α :=
  if hasAuthority ∧ base = [] then slash :: p else directory slash base ++ p

/-- 5.2.4, with the output buffer first. -/
def removeDotSegments (out inp : List α) : List α :=
  if inp = [] then out
  else if inp.take 3 = [dot, dot, slash] then removeDotSegments out (inp.drop 3)
  else if inp.take 2 = [dot, slash] then removeDotSegments out (inp.drop 2)
  else if inp.take 3 = [slash, dot, slash] then removeDotSegments out (inp.drop 2)
  else if inp = [slash, dot] then removeDotSegments out [slash]
  else if inp.take 4 = [slash, dot, dot, slash] then
    removeDotSegments (removeLast slash out) (inp.drop 3)
  else if inp = [slash, dot, dot] then removeDotSegments (removeLast slash out) [slash]
  else if inp = [dot] ∨ inp = [dot, dot] then removeDotSegments out []
  else
    removeDotSegments (out ++ inp.take 1 ++ (inp.drop 1).takeWhile (· != slash))
      ((inp.drop 1).dropWhile (· != slash))
termination_by inp.length
decreasing_by
  all_goals have hpos : 0 < inp.length := List.length_pos_iff.2 ‹_›
  · rw [List.length_drop]; omega
  · rw [List.length_drop]; omega
  · rw [List.length_drop]; omega
  · rename_i h; rw [h]; exact Nat.lt_succ_self 1
  · rw [List.length_drop]; omega
  · rename_i h; rw [h]; exact Nat.lt_of_lt_of_le (Nat.lt_succ_self 1) (Nat.le_succ 2)
  · exact hpos
  · have hle := (List.dropWhile_suffix (· != slash) (l := inp.drop 1)).length_le
    rw [List.length_drop] at hle
    omega

/-! ## 5.2.2 -/

/-- The components of a reference; a component that is not defined is `none`. -/
structure Reference (α Auth : Type) where
  scheme : Option (List α)
  authority : Option Auth
  path : List α
  query : Option (List α)
  fragment : Option (List α)
  deriving DecidableEq

def resolve {Auth : Type} (base r : Reference α Auth) : Reference α Auth :=
  let dotless := removeDotSegments dot slash []
  match r.scheme with
  | some scheme => ⟨some scheme, r.authority, dotless r.path, r.query, r.fragment⟩
  | none =>
    match r.authority with
    | some authority => ⟨base.scheme, some authority, dotless r.path, r.query, r.fragment⟩
    | none =>
      if r.path = [] then
        let query := if r.query.isSome then r.query else base.query
        ⟨base.scheme, base.authority, base.path, query, r.fragment⟩
      else if r.path.head? = some slash then
        ⟨base.scheme, base.authority, dotless r.path, r.query, r.fragment⟩
      else
        let path := merge slash base.authority.isSome base.path r.path
        ⟨base.scheme, base.authority, dotless path, r.query, r.fragment⟩

section Resolve

variable {dot slash} {Auth : Type} {base r : Reference α Auth}

theorem resolve_of_authority (hscheme : r.scheme = none) {authority : Auth}
    (hauth : r.authority = some authority) :
    resolve dot slash base r =
      ⟨base.scheme, r.authority, removeDotSegments dot slash [] r.path, r.query, r.fragment⟩ := by
  unfold resolve
  rw [hscheme, hauth]

theorem resolve_of_empty (hscheme : r.scheme = none) (hauth : r.authority = none)
    (hpath : r.path = []) :
    resolve dot slash base r =
      ⟨base.scheme, base.authority, base.path, if r.query.isSome then r.query else base.query,
        r.fragment⟩ := by
  unfold resolve
  rw [hscheme, hauth]
  exact if_pos hpath

theorem resolve_of_path (hscheme : r.scheme = none) (hauth : r.authority = none)
    (hpath : r.path ≠ []) :
    resolve dot slash base r =
      ⟨base.scheme, base.authority, removeDotSegments dot slash []
        (if r.path.head? = some slash then r.path
          else merge slash base.authority.isSome base.path r.path), r.query, r.fragment⟩ := by
  unfold resolve
  rw [hscheme, hauth]
  dsimp only
  rw [if_neg hpath]
  split <;> rfl

end Resolve

/-! ## Paths in segments -/

section Segments

variable {dot slash}

theorem exists_segments (p : List α) :
    ∃ s segs, p.splitOn slash = s :: segs ∧ p = s ++ join slash segs := by
  obtain ⟨s, segs, hsegs⟩ := exists_cons_of_ne_nil (splitOn_ne_nil slash p)
  exact ⟨s, segs, hsegs, by rw [← intercalate_cons, ← hsegs, intercalate_splitOn]⟩

theorem join_splitOn (t : List α) : join slash (t.splitOn slash) = slash :: t := by
  obtain ⟨s, segs, hsegs, ht⟩ := exists_segments t
  rw [hsegs, join_cons, ← ht]

theorem notMem_of_mem_splitOn {t s : List α} (h : s ∈ t.splitOn slash) : slash ∉ s := by
  induction t generalizing s with
  | nil =>
    rw [splitOn_nil, mem_singleton] at h
    simp [h]
  | cons c t ih =>
    rw [splitOn_cons_eq_if_modifyHead] at h
    split at h
    · rcases mem_cons.1 h with rfl | h
      · exact not_mem_nil
      · exact ih h
    · rename_i hc
      cases hsegs : t.splitOn slash with
      | nil => exact absurd hsegs (splitOn_ne_nil _ _)
      | cons s' segs =>
        rw [hsegs] at h ih
        rcases mem_cons.1 h with rfl | h
        · have hs' := ih mem_cons_self
          rintro (_ | ⟨_, hmem⟩)
          · exact hc (beq_self_eq_true _)
          · exact hs' hmem
        · exact ih (mem_cons_of_mem _ h)

theorem ne_slash {s : List α} (hs : slash ∉ s) : ∀ c ∈ s, (c != slash) = true :=
  fun _ hc => bne_iff_ne.2 fun h => hs (h ▸ hc)

theorem takeWhile_append_join {s : List α} (hs : slash ∉ s) (segs : List (List α)) :
    (s ++ join slash segs).takeWhile (· != slash) = s := by
  rw [takeWhile_append_of_pos (ne_slash hs)]
  cases segs with
  | nil => exact append_nil s
  | cons s' segs =>
    rw [join_cons, takeWhile_cons_of_neg (by simp), append_nil]

theorem dropWhile_append_join {s : List α} (hs : slash ∉ s) (segs : List (List α)) :
    (s ++ join slash segs).dropWhile (· != slash) = join slash segs := by
  rw [dropWhile_append_of_pos (ne_slash hs)]
  cases segs with
  | nil => rfl
  | cons s' segs => exact dropWhile_cons_of_neg (by simp)

theorem eq_of_take {s pat : List α} (hs : slash ∉ s) (hpat : slash ∉ pat) {segs : List (List α)}
    (h : (s ++ join slash segs).take (pat.length + 1) = pat ++ [slash]) : s = pat := by
  rw [← takeWhile_append_join hs segs,
    ← take_append_drop (pat.length + 1) (s ++ join slash segs), h, append_assoc,
    takeWhile_append_of_pos (ne_slash hpat), singleton_append,
    takeWhile_cons_of_neg (by simp), append_nil]

theorem eq_of_end {s pat : List α} (hs : slash ∉ s) (hpat : slash ∉ pat) {segs : List (List α)}
    (h : s ++ join slash segs = pat) : s = pat := by
  have htake := takeWhile_append_join hs segs
  rw [h] at htake
  rw [← htake]
  exact takeWhile_eq_self_iff.2 (ne_slash hpat)

end Segments

/-! ## Dot segments -/

section Dots

variable {dot slash} {out : List α} {s : List α} {segs : List (List α)}

@[simp] theorem removeDotSegments_nil : removeDotSegments dot slash out [] = out := by
  rw [removeDotSegments, if_pos rfl]

theorem removeDotSegments_slash (hne : dot ≠ slash) :
    removeDotSegments dot slash out [slash] = out ++ [slash] := by
  have hne' := hne.symm
  rw [removeDotSegments]
  simp [hne']

theorem removeDotSegments_dot (hne : dot ≠ slash) :
    removeDotSegments dot slash out (join slash ([dot] :: s :: segs)) =
      removeDotSegments dot slash out (join slash (s :: segs)) := by
  have hne' := hne.symm
  rw [removeDotSegments]
  simp [hne']

theorem removeDotSegments_dot_end (hne : dot ≠ slash) :
    removeDotSegments dot slash out (join slash [[dot]]) = out ++ [slash] := by
  have hne' := hne.symm
  rw [removeDotSegments]
  simp [hne', removeDotSegments_slash hne]

theorem removeDotSegments_dots (hne : dot ≠ slash) :
    removeDotSegments dot slash out (join slash ([dot, dot] :: s :: segs)) =
      removeDotSegments dot slash (removeLast slash out) (join slash (s :: segs)) := by
  have hne' := hne.symm
  rw [removeDotSegments]
  simp [hne, hne']

theorem removeDotSegments_dots_end (hne : dot ≠ slash) :
    removeDotSegments dot slash out (join slash [[dot, dot]]) =
      removeLast slash out ++ [slash] := by
  have hne' := hne.symm
  rw [removeDotSegments]
  simp [hne, hne', removeDotSegments_slash hne]

variable (segs) in
theorem not_dots_of_take (hne : dot ≠ slash) (hs : slash ∉ s) (hd : ¬ IsDots dot s) :
    (s ++ join slash segs).take 2 ≠ [dot, slash] ∧
      (s ++ join slash segs).take 3 ≠ [dot, dot, slash] ∧
      s ++ join slash segs ≠ [dot] ∧ s ++ join slash segs ≠ [dot, dot] := by
  have hdot : slash ∉ [dot] := fun h => hne (mem_singleton.1 h).symm
  have hdots : slash ∉ [dot, dot] := by
    simp [hne.symm]
  exact ⟨fun h => hd (.inl (eq_of_take hs hdot h)), fun h => hd (.inr (eq_of_take hs hdots h)),
    fun h => hd (.inl (eq_of_end hs hdot h)), fun h => hd (.inr (eq_of_end hs hdots h))⟩

theorem removeDotSegments_segment (hne : dot ≠ slash) (hs : slash ∉ s) (hd : ¬ IsDots dot s) :
    removeDotSegments dot slash out (join slash (s :: segs)) =
      removeDotSegments dot slash (out ++ slash :: s) (join slash segs) := by
  obtain ⟨htake, htake', hend, hend'⟩ := not_dots_of_take segs hne hs hd
  have htext := takeWhile_append_join hs segs
  have hrest := dropWhile_append_join hs segs
  rw [join_cons, removeDotSegments]
  simp only [drop_one, tail_cons, take_succ_cons, htext, hrest]
  generalize s ++ join slash segs = t at *
  rw [if_neg (cons_ne_nil _ _), if_neg (fun h => hne (List.cons.inj h).1.symm),
    if_neg (fun h => hne (List.cons.inj h).1.symm), if_neg (fun h => htake (List.cons.inj h).2),
    if_neg (fun h => hend (List.cons.inj h).2), if_neg (fun h => htake' (List.cons.inj h).2),
    if_neg (fun h => hend' (List.cons.inj h).2)]
  rw [if_neg]
  · rw [append_assoc]
    rfl
  · rintro (h | h)
    · exact hne (List.cons.inj h).1.symm
    · exact hne (List.cons.inj h).1.symm

theorem removeDotSegments_first (hs : slash ∉ s) (hd : ¬ IsDots dot s) (hne : dot ≠ slash)
    (hnil : s ≠ []) :
    removeDotSegments dot slash out (s ++ join slash segs) =
      removeDotSegments dot slash (out ++ s) (join slash segs) := by
  obtain ⟨htake, htake', hend, hend'⟩ := not_dots_of_take segs hne hs hd
  obtain ⟨c, s, rfl⟩ := exists_cons_of_ne_nil hnil
  have hc : c ≠ slash := fun h => hs (h ▸ mem_cons_self)
  have hs' : slash ∉ s := fun h => hs (mem_cons_of_mem _ h)
  have htext := takeWhile_append_join hs' segs
  have hrest := dropWhile_append_join hs' segs
  rw [cons_append] at htake htake' hend hend' ⊢
  rw [removeDotSegments, if_neg (cons_ne_nil _ _), if_neg htake', if_neg htake]
  simp only [drop_one, tail_cons, take_succ_cons, htext, hrest]
  rw [if_neg (fun h => hc (List.cons.inj h).1), if_neg (fun h => hc (List.cons.inj h).1),
    if_neg (fun h => hc (List.cons.inj h).1), if_neg (fun h => hc (List.cons.inj h).1),
    if_neg (not_or.2 ⟨hend, hend'⟩), append_assoc]
  rfl

theorem removeDotSegments_join (hne : dot ≠ slash)
    (h : ∀ s ∈ segs, slash ∉ s ∧ ¬ IsDots dot s) :
    removeDotSegments dot slash out (join slash segs) = out ++ join slash segs := by
  induction segs generalizing out with
  | nil => rw [join_nil, removeDotSegments_nil, append_nil]
  | cons s segs ih =>
    obtain ⟨hs, hd⟩ := h s mem_cons_self
    rw [removeDotSegments_segment hne hs hd, ih fun s' hs' => h s' (mem_cons_of_mem _ hs'),
      append_assoc]
    rfl

theorem removeDotSegments_eq_self (hne : dot ≠ slash) {p : List α} (h : ¬ HasDots dot slash p) :
    removeDotSegments dot slash [] p = p := by
  obtain ⟨s, segs, hsegs, hp⟩ := exists_segments p
  have hplain : ∀ s' ∈ s :: segs, slash ∉ s' ∧ ¬ IsDots dot s' := fun s' hs' => by
    rw [← hsegs] at hs'
    exact ⟨notMem_of_mem_splitOn hs', fun hd => h ⟨s', hs', hd⟩⟩
  have hrest : ∀ s' ∈ segs, slash ∉ s' ∧ ¬ IsDots dot s' :=
    fun s' hs' => hplain s' (mem_cons_of_mem _ hs')
  obtain ⟨hs, hd⟩ := hplain s mem_cons_self
  rw [hp]
  by_cases hnil : s = []
  · rw [hnil, nil_append, removeDotSegments_join hne hrest]
    rfl
  · rw [removeDotSegments_first hs hd hne hnil, removeDotSegments_join hne hrest]
    rfl

theorem removeLast_append (p : List α) (hs : slash ∉ s) :
    removeLast slash (p ++ slash :: s) = p := by
  unfold removeLast directory
  have hdrop : ((p ++ [slash]) ++ s).rdropWhile (· != slash) = p ++ [slash] := by
    rw [List.rdropWhile, reverse_append,
      dropWhile_append_of_pos fun c hc => ne_slash hs c (mem_reverse.1 hc),
      reverse_append, reverse_singleton, singleton_append,
      dropWhile_cons_of_neg (by simp)]
    simp
  rw [show p ++ slash :: s = (p ++ [slash]) ++ s by simp, hdrop, dropLast_concat]

theorem removeLast_first (hs : slash ∉ s) : removeLast slash s = [] := by
  unfold removeLast directory
  rw [rdropWhile_eq_nil_iff.2 fun c hc => ne_slash hs c hc]
  rfl

/-- A path is one segment, or what the removal of its last segment leaves, a slash and that
segment. -/
theorem exists_last (p : List α) : slash ∉ p ∨ ∃ q s, p = q ++ slash :: s ∧ slash ∉ s := by
  induction p using List.reverseRecOn with
  | nil => exact .inl not_mem_nil
  | append_singleton p c ih =>
    by_cases hc : c = slash
    · exact .inr ⟨p, [], by rw [hc], not_mem_nil⟩
    · rcases ih with hp | ⟨q, s, rfl, hs⟩
      · left
        rw [mem_append, mem_singleton, not_or]
        exact ⟨hp, fun h => hc h.symm⟩
      · refine .inr ⟨q, s ++ [c], by simp, ?_⟩
        rw [mem_append, mem_singleton, not_or]
        exact ⟨hs, fun h => hc h.symm⟩

theorem removeLast_sublist (p : List α) : (removeLast slash p).Sublist p :=
  ((List.dropLast_prefix _).trans (List.rdropWhile_prefix (· != slash) p)).sublist

@[simp] theorem not_hasDots_nil : ¬ HasDots dot slash [] := by
  rintro ⟨s, hs, hd⟩
  rw [splitOn_nil, mem_singleton] at hs
  rw [hs] at hd
  rcases hd with hd | hd <;> cases hd

theorem hasDots_segment (hs : slash ∉ s) : HasDots dot slash s ↔ IsDots dot s := by
  unfold HasDots
  rw [splitOn_eq_singleton hs]
  simp

theorem hasDots_append (p q : List α) :
    HasDots dot slash (p ++ slash :: q) ↔ HasDots dot slash p ∨ HasDots dot slash q := by
  unfold HasDots
  rw [splitOn_append_cons_self]
  simp only [mem_append, or_and_right, exists_or]

theorem not_hasDots_removeLast {p : List α} (h : ¬ HasDots dot slash p) :
    ¬ HasDots dot slash (removeLast slash p) := by
  rcases @exists_last α _ slash p with hp | ⟨q, s, rfl, hs⟩
  · rw [removeLast_first hp]
    exact not_hasDots_nil
  · rw [removeLast_append q hs]
    exact fun hq => h ((hasDots_append q s).2 (.inl hq))

theorem not_hasDots_removeDotSegments (hne : dot ≠ slash) (h : ∀ s ∈ segs, slash ∉ s)
    (hout : ¬ HasDots dot slash out) :
    ¬ HasDots dot slash (removeDotSegments dot slash out (join slash segs)) := by
  induction segs generalizing out with
  | nil => rwa [join_nil, removeDotSegments_nil]
  | cons s segs ih =>
    have hsegs : ∀ s' ∈ segs, slash ∉ s' := fun s' hs' => h s' (mem_cons_of_mem _ hs')
    have hend : ∀ o, ¬ HasDots dot slash o → ¬ HasDots dot slash (o ++ [slash]) := fun o ho =>
      fun hd => ((hasDots_append o []).1 hd).elim ho not_hasDots_nil
    have hlast := not_hasDots_removeLast hout
    by_cases hd : IsDots dot s
    · rcases hd with rfl | rfl
      · cases segs with
        | nil =>
          rw [removeDotSegments_dot_end hne]
          exact hend out hout
        | cons s' segs =>
          rw [removeDotSegments_dot hne]
          exact ih hsegs hout
      · cases segs with
        | nil =>
          rw [removeDotSegments_dots_end hne]
          exact hend _ hlast
        | cons s' segs =>
          rw [removeDotSegments_dots hne]
          exact ih hsegs hlast
    · rw [removeDotSegments_segment hne (h s mem_cons_self) hd]
      refine ih hsegs fun hd' => ((hasDots_append out s).1 hd').elim hout fun hs => hd ?_
      exact (hasDots_segment (h s mem_cons_self)).1 hs

theorem removeDotSegments_sublist (hne : dot ≠ slash) (h : ∀ s ∈ segs, slash ∉ s) :
    (removeDotSegments dot slash out (join slash segs)).Sublist (out ++ join slash segs) := by
  induction segs generalizing out with
  | nil =>
    rw [join_nil, removeDotSegments_nil, append_nil]
  | cons s segs ih =>
    have hsegs : ∀ s' ∈ segs, slash ∉ s' := fun s' hs' => h s' (mem_cons_of_mem _ hs')
    have hskip : ∀ p : List α, (join slash segs).Sublist (slash :: (p ++ join slash segs)) :=
      fun p => (sublist_append_right p _).cons _
    have hlast : (removeLast slash out).Sublist out := removeLast_sublist out
    by_cases hd : IsDots dot s
    · rcases hd with rfl | rfl
      · cases segs with
        | nil =>
          rw [removeDotSegments_dot_end hne]
          exact (List.Sublist.refl out).append (by simp)
        | cons s' segs =>
          rw [removeDotSegments_dot hne]
          exact (ih hsegs).trans ((List.Sublist.refl out).append (hskip [dot]))
      · cases segs with
        | nil =>
          rw [removeDotSegments_dots_end hne]
          exact hlast.append (by simp)
        | cons s' segs =>
          rw [removeDotSegments_dots hne]
          exact (ih hsegs).trans (hlast.append (hskip [dot, dot]))
    · rw [removeDotSegments_segment hne (h s mem_cons_self) hd]
      have hsub := @ih (out ++ slash :: s) hsegs
      rwa [append_assoc] at hsub

theorem length_removeLast_le (p : List α) : (removeLast slash p).length ≤ p.length :=
  (removeLast_sublist p).length_le

theorem length_removeDotSegments_le (hne : dot ≠ slash) (h : ∀ s ∈ segs, slash ∉ s) :
    (removeDotSegments dot slash out (join slash segs)).length ≤
      out.length + (join slash segs).length := by
  rw [← length_append]
  exact (removeDotSegments_sublist hne h).length_le

theorem length_removeDotSegments_lt (hne : dot ≠ slash) (h : ∀ s ∈ segs, slash ∉ s)
    (hdots : ∃ s ∈ segs, IsDots dot s) :
    (removeDotSegments dot slash out (join slash segs)).length <
      out.length + (join slash segs).length := by
  induction segs generalizing out with
  | nil =>
    obtain ⟨s, hs, -⟩ := hdots
    cases hs
  | cons s segs ih =>
    have hsegs : ∀ s' ∈ segs, slash ∉ s' := fun s' hs' => h s' (mem_cons_of_mem _ hs')
    have hle : ∀ o, (removeDotSegments dot slash o (join slash segs)).length ≤
        o.length + (join slash segs).length := fun o => length_removeDotSegments_le hne hsegs
    have hlast : (removeLast slash out).length ≤ out.length := length_removeLast_le out
    rw [length_join_cons]
    by_cases hd : IsDots dot s
    · rcases hd with rfl | rfl
      · cases segs with
        | nil =>
          rw [removeDotSegments_dot_end hne, length_append]
          exact Nat.add_lt_add_left (by simp) _
        | cons s' segs =>
          rw [removeDotSegments_dot hne]
          exact (hle out).trans_lt (by simp)
      · cases segs with
        | nil =>
          rw [removeDotSegments_dots_end hne, length_append]
          exact Nat.add_lt_add_of_le_of_lt hlast (by simp)
        | cons s' segs =>
          rw [removeDotSegments_dots hne]
          refine (hle _).trans_lt ?_
          omega
    · rw [removeDotSegments_segment hne (h s mem_cons_self) hd]
      obtain ⟨s', hs', hd'⟩ := hdots
      have hmem : s' ∈ segs := (mem_cons.1 hs').resolve_left fun heq => hd (heq ▸ hd')
      refine (ih hsegs ⟨s', hmem, hd'⟩).trans_le ?_
      simp
      omega

@[simp] theorem hasDots_slash (t : List α) :
    HasDots dot slash (slash :: t) ↔ HasDots dot slash t := by
  unfold HasDots
  rw [splitOn_cons_eq_if_modifyHead, if_pos (beq_self_eq_true _)]
  constructor
  · rintro ⟨s, hs, hd⟩
    rcases mem_cons.1 hs with rfl | hs
    · rcases hd with hd | hd <;> cases hd
    · exact ⟨s, hs, hd⟩
  · rintro ⟨s, hs, hd⟩
    exact ⟨s, mem_cons_of_mem _ hs, hd⟩

/-- A path that begins with a slash stays as it is if and only if it has no dot segment. -/
theorem removeDotSegments_eq_self_iff (hne : dot ≠ slash) (t : List α) :
    removeDotSegments dot slash [] (slash :: t) = slash :: t ↔
      ¬ HasDots dot slash (slash :: t) := by
  refine ⟨fun heq hdots => ?_, removeDotSegments_eq_self hne⟩
  have hlt : (removeDotSegments dot slash [] (join slash (t.splitOn slash))).length <
      ([] : List α).length + (join slash (t.splitOn slash)).length :=
    length_removeDotSegments_lt hne (fun s => notMem_of_mem_splitOn) ((hasDots_slash t).1 hdots)
  rw [join_splitOn, heq, length_nil, Nat.zero_add] at hlt
  exact lt_irrefl _ hlt

end Dots

end UriReference
