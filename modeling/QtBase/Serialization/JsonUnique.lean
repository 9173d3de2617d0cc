import QtBase.Core.View
import QtBase.Lib.StableSort

/-! Making the sorted members of an object unique in place, and dereferencing containers there. -/
namespace QtBase.JsonUnique

open List

/-- The members in memory, and the containers that have been dereferenced, in order. -/
structure Members (K V C : Type) where
  slots : List (K × V)
  dereferenced : List C

variable {K V C : Type}

/-- `std::adjacent_find` -/
def adjacentFind (compare : K × V → K × V → Bool) : ℕ → List (K × V) → ℕ
  | i, a :: b :: l => if compare a b then i else adjacentFind compare (i + 1) (b :: l)
  | i, l => i + l.length

/-- `while (++first != last)`, with the members, `result` and `first`. -/
def uniqueLoop (compare : K × V → K × V → Bool)
    (assign : Members K V C → ℕ → ℕ → Exec (Members K V C)) :
    ℕ → Members K V C → ℕ → ℕ → Exec (Members K V C × ℕ)
  | 0, _, _, _ => .error .diverge
  | rounds + 1, p, result, first => do
    let first := first + 1
    if first = p.slots.length then return (p, result)
    let a ← View.elem p.slots result
    let b ← View.elem p.slots first
    let result := if !compare a b then result + 1 else result
    qAssert (result ≠ first)
    let p ← assign p result first
    uniqueLoop compare assign rounds p result first

def customAssigningUniqueLast (compare : K × V → K × V → Bool)
    (assign : Members K V C → ℕ → ℕ → Exec (Members K V C)) (p : Members K V C) :
    Exec (Members K V C × ℕ) := do
  let last := p.slots.length
  let result := adjacentFind compare 0 p.slots
  if result = last then return (p, last)
  let first := result + 1
  let a ← View.elem p.slots result
  let b ← View.elem p.slots first
  qAssert (compare a b)
  let p ← assign p result first
  qAssert (first ≠ last)
  let (p, result) ← uniqueLoop compare assign last p result first
  return (p, result + 1)

/-- The functor of `sortContainer`. `container` is the container of a value that has one, and
`element` is `QtCbor::Element()`. -/
def move (container : V → Option C) (element : V) (p : Members K V C) (target source : ℕ) :
    Exec (Members K V C) := do
  let old ← View.elem p.slots target
  let new ← View.elem p.slots source
  return {
    slots := (p.slots.set target new).set source (new.1, element)
    dereferenced := p.dereferenced ++ (container old.2).toList }

/-- The end of `sortContainer`, which erases all from the result on. -/
def makeUnique (compare : K × V → K × V → Bool) (container : V → Option C) (element : V)
    (p : Members K V C) : Exec (Members K V C) := do
  let (p, result) ← customAssigningUniqueLast compare (move container element) p
  return { p with slots := p.slots.take result }

/-- The containers of values. -/
def containers (container : V → Option C) (l : List (K × V)) : List C :=
  l.filterMap fun x => container x.2

/-- The elements that an equal one follows. -/
def followed {α : Type} (eq : α → α → Bool) : List α → List α
  | a :: b :: l => if eq a b then a :: followed eq (b :: l) else followed eq (b :: l)
  | _ => []

variable {compare : K × V → K × V → Bool} {container : V → Option C} {element : V}

open StableSort

theorem lastOfRuns_append_followed {α : Type} (eq : α → α → Bool) (l : List α) :
    (followed eq l ++ lastOfRuns eq l).Perm l := by
  induction l with
  | nil => exact .refl _
  | cons a l ih =>
    cases l with
    | nil => exact .refl _
    | cons b l =>
      unfold followed lastOfRuns
      by_cases hab : eq a b = true
      · rw [if_pos hab, if_pos hab]
        exact ih.cons a
      · rw [if_neg hab, if_neg hab]
        exact perm_middle.trans (ih.cons a)

theorem elem_append {α : Type} (l r : List α) (a : α) :
    View.elem (l ++ a :: r) l.length = .ok a := View.elem_drop drop_left

/-- The pair behind the gap goes to the target, whose container is dereferenced. -/
theorem move_spec (container : V → Option C) (element : V) (before mid after : List (K × V))
    (t s : K × V) (dereferenced : List C) :
    move container element ⟨before ++ t :: (mid ++ s :: after), dereferenced⟩ before.length
        (before.length + mid.length + 1) =
      .ok ⟨before ++ s :: (mid ++ (s.1, element) :: after),
        dereferenced ++ (container t.2).toList⟩ := by
  have hsource : ∀ x y : K × V, before ++ x :: (mid ++ y :: after) =
      (before ++ x :: mid) ++ y :: after := by simp
  have hlength : ∀ x : K × V, before.length + mid.length + 1 = (before ++ x :: mid).length := by
    simp [Nat.add_assoc]
  unfold move
  rw [elem_append, ok_bind, hsource, hlength t, elem_append, ok_bind, ← hsource,
    set_append_right _ _ le_rfl, Nat.sub_self, set_cons_zero, hsource, ← hlength t,
    hlength s, set_append_right _ _ le_rfl, Nat.sub_self, set_cons_zero, ← hsource]
  rfl

/-- What is kept, and what stays behind it, where no value has a container. -/
structure Kept (container : V → Option C) (kept : List (K × V)) (dereferenced : List C)
    (r : Members K V C × ℕ) : Prop where
  dereferenced_eq : r.1.dereferenced = dereferenced
  result_eq : r.2 = kept.length
  slots_eq : ∃ gap, r.1.slots = kept ++ gap ∧ containers container gap = []

theorem containers_append (l l' : List (K × V)) :
    containers container (l ++ l') = containers container l ++ containers container l' :=
  filterMap_append ..

theorem containers_cons (x : K × V) (l : List (K × V)) :
    containers container (x :: l) = (container x.2).toList ++ containers container l := by
  unfold containers
  cases h : container x.2 <;> simp [h]

/-- The slots from `result` to `first` have no containers. -/
theorem uniqueLoop_spec (compare : K × V → K × V → Bool) (helement : container element = none)
    {rounds : ℕ}
    (done gap rest : List (K × V)) (cur : K × V) (dereferenced : List C)
    (hrounds : rest.length < rounds) (hne : gap ≠ []) (hgap : containers container gap = []) :
    ∃ r, uniqueLoop compare (move container element) rounds
        ⟨done ++ cur :: (gap ++ rest), dereferenced⟩ done.length (done.length + gap.length) =
          .ok r ∧
      Kept container (done ++ lastOfRuns compare (cur :: rest))
        (dereferenced ++ containers container (followed compare (cur :: rest)))
        (r.1, r.2 + 1) := by
  induction rounds generalizing done gap rest cur dereferenced with
  | zero => omega
  | succ rounds ih =>
    unfold uniqueLoop
    cases rest with
    | nil =>
      rw [if_pos (by simp; omega)]
      refine ⟨_, rfl, ?_, ?_, gap, ?_, hgap⟩ <;> simp [followed, containers, lastOfRuns]
    | cons x rest =>
      have hlast : done.length + gap.length + 1 ≠
          (done ++ cur :: (gap ++ x :: rest)).length := by
        simp
        omega
      have hx : done ++ cur :: (gap ++ x :: rest) = (done ++ cur :: gap) ++ x :: rest := by simp
      have hfirst : done.length + gap.length + 1 = (done ++ cur :: gap).length := by
        simp [Nat.add_assoc]
      have hread : View.elem (done ++ cur :: (gap ++ x :: rest)) (done.length + gap.length + 1) =
          .ok x := by rw [hx, hfirst, elem_append]
      -- the slot that `x` came from joins the gap
      have hgap' : ∀ gap', containers container gap' = [] →
          containers container (gap' ++ [(x.1, element)]) = [] := by
        intro gap' h
        rw [containers_append, h]
        simp [containers, helement]
      rw [length_cons] at hrounds
      dsimp only
      rw [if_neg hlast, elem_append, ok_bind, hread, ok_bind]
      unfold followed lastOfRuns
      by_cases hcompare : compare cur x = true
      · obtain ⟨r, hr, hkept⟩ := ih done (gap ++ [(x.1, element)]) rest x
          (dereferenced ++ (container cur.2).toList) (by omega) (by simp) (hgap' gap hgap)
        have hassign := move_spec container element done gap rest cur x dereferenced
        refine ⟨r, ?_, ?_⟩
        · rw [hcompare, Bool.not_true, if_neg Bool.false_ne_true, qAssert_pos (by omega), ok_bind,
            hassign, ok_bind, ← hr]
          simp [Nat.add_assoc]
        · rw [if_pos hcompare, if_pos hcompare, containers_cons, ← append_assoc]
          exact hkept
      · obtain ⟨g, gap, rfl⟩ := exists_cons_of_ne_nil hne
        rw [containers_cons, append_eq_nil_iff] at hgap
        obtain ⟨r, hr, hkept⟩ := ih (done ++ [cur]) (gap ++ [(x.1, element)]) rest x dereferenced
          (by omega) (by simp) (hgap' gap hgap.2)
        have hassign := move_spec container element (done ++ [cur]) gap rest g x dereferenced
        rw [hgap.1, append_nil] at hassign
        refine ⟨r, ?_, ?_⟩
        · have hslots : done ++ cur :: (g :: gap ++ x :: rest) =
              done ++ [cur] ++ g :: (gap ++ x :: rest) := by simp
          have hposition : done.length + (g :: gap).length + 1 =
              (done ++ [cur]).length + gap.length + 1 := by
            simp
            omega
          rw [Bool.eq_false_iff.mpr hcompare, Bool.not_false, if_pos rfl,
            qAssert_pos (by simp), ok_bind, hslots, hposition,
            show done.length + 1 = (done ++ [cur]).length by simp, hassign, ok_bind, ← hr]
          simp [Nat.add_assoc]
        · rw [if_neg hcompare, if_neg hcompare, append_cons]
          exact hkept

/-- `std::adjacent_find` finds the first two equal neighbours. -/
theorem adjacentFind_spec (compare : K × V → K × V → Bool) (i : ℕ) (l : List (K × V)) :
    (adjacentFind compare i l = i + l.length ∧ lastOfRuns compare l = l ∧ followed compare l = []) ∨
      ∃ done a b rest, l = done ++ a :: b :: rest ∧ compare a b = true ∧
        adjacentFind compare i l = i + done.length ∧
        lastOfRuns compare l = done ++ lastOfRuns compare (b :: rest) ∧
        followed compare l = a :: followed compare (b :: rest) := by
  induction l generalizing i with
  | nil => exact .inl ⟨rfl, rfl, rfl⟩
  | cons a l ih =>
    cases l with
    | nil => exact .inl ⟨rfl, rfl, rfl⟩
    | cons b l =>
      rw [adjacentFind, lastOfRuns, followed]
      by_cases hab : compare a b = true
      · rw [if_pos hab, if_pos hab, if_pos hab]
        exact .inr ⟨[], a, b, l, rfl, hab, rfl, rfl, rfl⟩
      · rw [if_neg hab, if_neg hab, if_neg hab]
        rcases ih (i + 1) with ⟨hfind, hlast, hfollowed⟩ | ⟨done, a', b', rest, hl, hab', hfind,
          hlast, hfollowed⟩
        · refine .inl ⟨?_, by rw [hlast], hfollowed⟩
          rw [hfind]
          simp
          omega
        · refine .inr ⟨a :: done, a', b', rest, by rw [hl]; rfl, hab', ?_, by rw [hlast]; rfl,
            hfollowed⟩
          rw [hfind]
          simp
          omega

theorem customAssigningUniqueLast_spec (compare : K × V → K × V → Bool)
    (helement : container element = none) (l : List (K × V)) :
    ∃ r, customAssigningUniqueLast compare (move container element) ⟨l, []⟩ = .ok r ∧
      Kept container (lastOfRuns compare l) (containers container (followed compare l)) r := by
  unfold customAssigningUniqueLast
  rcases adjacentFind_spec compare 0 l with ⟨hfind, hlast, hfollowed⟩ |
    ⟨done, a, b, rest, rfl, hab, hfind, hlast, hfollowed⟩
  · refine ⟨(⟨l, []⟩, l.length), ?_, ?_, ?_, [], ?_, rfl⟩
    · dsimp only
      rw [hfind, Nat.zero_add, if_pos rfl]
      rfl
    · rw [hfollowed]
      rfl
    · rw [hlast]
    · rw [hlast, append_nil]
  · have hread : View.elem (done ++ a :: b :: rest) (done.length + 1) = .ok b := by
      have h := elem_append (done ++ [a]) rest b
      rwa [append_assoc, length_append] at h
    have hassign := move_spec container element done [] rest a b []
    have hrounds : rest.length < (done ++ a :: b :: rest).length := by
      simp
      omega
    obtain ⟨r, hr, hkept⟩ := uniqueLoop_spec compare helement done [(b.1, element)] rest b
      (container a.2).toList hrounds (by simp) (by simp [containers, helement])
    rw [hfind, hlast, hfollowed, Nat.zero_add, containers_cons]
    refine ⟨_, ?_, hkept⟩
    dsimp only
    rw [if_neg (by simp), elem_append, ok_bind, hread, ok_bind, qAssert_pos hab, ok_bind]
    simp only [length_nil, Nat.add_zero, nil_append] at hassign
    rw [hassign, ok_bind, qAssert_pos (by simp), ok_bind]
    simp only [length_singleton, singleton_append] at hr
    rw [hr]
    rfl

variable {l : List (K × V)}

/-- Of sorted members the last of each class of keys is kept, in their order. Each container of a
member that is dropped is dereferenced once, and the others stay in the members that are kept. -/
theorem makeUnique_spec (lt : K → K → Bool) (helement : container element = none)
    (horder : StrictWeakOn (fun a b : K × V => lt a.1 b.1) l)
    (hsorted : l.Pairwise fun a b => lt b.1 a.1 = false) :
    ∃ p, makeUnique (equiv fun a b : K × V => lt a.1 b.1) container element ⟨l, []⟩ = .ok p ∧
      p.slots = lasts (equiv fun a b : K × V => lt a.1 b.1) l ∧
      (∀ x ∈ l, p.slots.filter (equiv (fun a b : K × V => lt a.1 b.1) x) =
        (l.filter (equiv (fun a b : K × V => lt a.1 b.1) x)).getLast?.toList) ∧
      ∃ dropped, (dropped ++ p.slots).Perm l ∧ p.dereferenced = containers container dropped ∧
        (p.dereferenced ++ containers container p.slots).Perm (containers container l) := by
  obtain ⟨⟨p, result⟩, hrun, hderef, hresult, gap, hslots, -⟩ :=
    customAssigningUniqueLast_spec (equiv fun a b : K × V => lt a.1 b.1) helement l
  dsimp only at hderef hresult hslots
  have hlasts := lastOfRuns_eq_lasts horder hsorted
  have hperm := lastOfRuns_append_followed (equiv fun a b : K × V => lt a.1 b.1) l
  have hkept : p.slots.take result = lasts (equiv fun a b : K × V => lt a.1 b.1) l := by
    rw [hslots, hresult, take_left, hlasts]
  rw [hlasts] at hperm
  refine ⟨{ p with slots := p.slots.take result }, ?_, hkept, fun x hx => ?_, _, ?_, hderef, ?_⟩
  · unfold makeUnique
    rw [hrun]
    rfl
  · dsimp only
    rw [hkept]
    exact filter_lasts horder (horder.subset (cons_subset.mpr ⟨hx, List.Subset.refl l⟩))
  · rwa [hkept]
  · rw [hkept, hderef, ← containers_append]
    exact hperm.filterMap _

/-- Two members with one key, whose values are containers. -/
theorem makeUnique_spec_two :
    ∃ p, makeUnique (equiv fun a b : ℕ × Option ℕ => decide (a.1 < b.1)) id none
        ⟨[(1, some 7), (1, some 8)], []⟩ = .ok p ∧
      p.slots = [(1, some 8)] ∧ p.dereferenced = [7] := by
  have helement : (id none : Option ℕ) = none := rfl
  obtain ⟨p, hp, -, -, -⟩ := makeUnique_spec (l := [(1, some 7), (1, some 8)])
    (fun a b => decide (a < b)) helement ⟨by decide, by decide⟩ (by decide)
  have hrun : makeUnique (equiv fun a b : ℕ × Option ℕ => decide (a.1 < b.1)) id none
      ⟨[(1, some 7), (1, some 8)], []⟩ = .ok ⟨[(1, some 8)], [7]⟩ := rfl
  obtain rfl := Except.ok.inj (hrun.symm.trans hp)
  exact ⟨_, hrun, rfl, rfl⟩

end QtBase.JsonUnique
