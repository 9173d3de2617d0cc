import Mathlib.Algebra.Order.BigOperators.Group.Finset
import Mathlib.Data.Fintype.BigOperators
import Mathlib.Logic.Function.Basic

/-! Copy on write: variables that share reference-counted blocks. A member function sees its
variable as a `Handle`, the block together with whether it is shared, and returns the handle
it leaves behind; `commit` carries that out on the blocks. -/
namespace Cow

open Function Option

/-- A block as one of its owners sees it. -/
structure Local (β : Type*) where
  shared : Bool
  data : β

abbrev Handle (β : Type*) := Option (Local β)

namespace Handle

variable {β : Type*}

/-- The handle of the only owner. -/
def own (b : β) : Handle β := some ⟨false, b⟩

def data? (h : Handle β) : Option β := h.map Local.data

@[simp] theorem data?_none : data? (none : Handle β) = none := rfl

@[simp] theorem data?_some (l : Local β) : data? (some l) = some l.data := rfl

@[simp] theorem data?_own (b : β) : (own b).data? = some b := rfl

/-- A shared block is not written to. -/
def Legal (before after : Handle β) : Prop :=
  ∀ b b', before = some ⟨true, b⟩ → after = some ⟨true, b'⟩ → b' = b

theorem Legal.refl (h : Handle β) : Legal h h := by
  intro b b' h₁ h₂
  rw [h₁, some.injEq, Local.mk.injEq] at h₂
  exact h₂.2.symm

theorem Legal.own (h : Handle β) (b : β) : Legal h (own b) := by
  intro b₁ b₂ _ h₂
  simp [Handle.own] at h₂

theorem Legal.none (h : Handle β) : Legal h none := by
  intro b₁ b₂ _ h₂
  cases h₂

end Handle

structure Block (β : Type*) where
  ref : ℕ
  payload : β

variable {ι β : Type*} [Fintype ι] [DecidableEq ι]

/-- How many variables point to `a`. -/
def owners (ptr : ι → Option ℕ) (a : ℕ) : ℕ := ∑ i, if ptr i = some a then 1 else 0

theorem owners_update (ptr : ι → Option ℕ) (i : ι) (x : Option ℕ) (a : ℕ) :
    owners (update ptr i x) a + (if ptr i = some a then 1 else 0) =
      owners ptr a + if x = some a then 1 else 0 := by
  have hsplit : ∀ p : ι → Option ℕ, owners p a =
      (if p i = some a then 1 else 0) +
        ∑ j ∈ Finset.univ.erase i, if p j = some a then 1 else 0 :=
    fun p => (Finset.add_sum_erase _ _ (Finset.mem_univ i)).symm
  have hrest : (∑ j ∈ Finset.univ.erase i, if update ptr i x j = some a then 1 else 0) =
      ∑ j ∈ Finset.univ.erase i, if ptr j = some a then 1 else 0 := by
    refine Finset.sum_congr rfl fun j hj => ?_
    rw [update_of_ne (Finset.ne_of_mem_erase hj)]
  rw [hsplit (update ptr i x), hsplit ptr, hrest, update_self]
  omega

omit [DecidableEq ι] in
theorem owners_pos {ptr : ι → Option ℕ} {i : ι} {a : ℕ} (h : ptr i = some a) : 0 < owners ptr a :=
  Finset.sum_pos' (fun _ _ => Nat.zero_le _) ⟨i, Finset.mem_univ i, by simp [h]⟩

theorem eq_of_owners_eq_one {ptr : ι → Option ℕ} {i j : ι} {a : ℕ} (h : owners ptr a = 1)
    (hi : ptr i = some a) (hj : ptr j = some a) : i = j := by
  by_contra hne
  have hupd := owners_update ptr i none a
  have hpos : 0 < owners (update ptr i none) a :=
    owners_pos (i := j) (by rw [update_of_ne (Ne.symm hne), hj])
  simp only [hi, if_true, reduceCtorEq, if_false] at hupd
  omega

/-- The variables and the blocks, which know how many variables point to them. -/
structure Store (ι β : Type*) [Fintype ι] [DecidableEq ι] where
  ptr : ι → Option ℕ
  mem : ℕ → Option (Block β)
  next : ℕ
  counted : ∀ a b, mem a = some b → b.ref = owners ptr a ∧ 0 < b.ref
  live : ∀ i a, ptr i = some a → ∃ b, mem a = some b
  fresh : ∀ a, next ≤ a → mem a = none

namespace Store

/-- No variable has a block. -/
def empty : Store ι β := ⟨fun _ => none, fun _ => none, 0, by simp, by simp, by simp⟩

theorem ptr_lt (s : Store ι β) {i : ι} {a : ℕ} (h : s.ptr i = some a) : a < s.next := by
  obtain ⟨b, hb⟩ := s.live i a h
  by_contra hlt
  rw [s.fresh a (not_lt.mp hlt)] at hb
  cases hb

def view (s : Store ι β) (i : ι) : Handle β :=
  (s.ptr i).bind fun a => (s.mem a).map fun b => ⟨b.ref != 1, b.payload⟩

/-- What a variable holds. -/
def get (s : Store ι β) (i : ι) : Option β := (s.view i).data?

theorem get_eq (s : Store ι β) (i : ι) :
    s.get i = (s.ptr i).bind fun a => (s.mem a).map Block.payload := by
  simp only [get, view, Handle.data?]
  cases s.ptr i <;> simp [comp_def]

theorem view_eq_none (s : Store ι β) {i : ι} (h : s.ptr i = none) : s.view i = none := by
  simp [view, h]

theorem exists_view (s : Store ι β) {i : ι} {a : ℕ} (h : s.ptr i = some a) :
    ∃ b, s.mem a = some b ∧ s.view i = some ⟨b.ref != 1, b.payload⟩ := by
  obtain ⟨b, hb⟩ := s.live i a h
  exact ⟨b, hb, by simp [view, h, hb]⟩

/-- One owner less; the block goes with the last one. -/
def deref (b : Block β) : Option (Block β) :=
  if b.ref = 1 then none else some { b with ref := b.ref - 1 }

/-- The variable gives its block up. -/
def release (s : Store ι β) (i : ι) : Store ι β where
  ptr := Function.update s.ptr i none
  mem a := if s.ptr i = some a then (s.mem a).bind deref else s.mem a
  next := s.next
  counted := by
    intro a b hb
    have hupd := owners_update s.ptr i none a
    by_cases ha : s.ptr i = some a
    · simp only [if_pos ha, reduceCtorEq, if_false] at hb hupd
      obtain ⟨b₀, hb₀, hd⟩ := Option.bind_eq_some_iff.mp hb
      obtain ⟨hc, hpos⟩ := s.counted a b₀ hb₀
      unfold deref at hd
      split_ifs at hd with h1
      cases hd
      simp only
      omega
    · simp only [if_neg ha, reduceCtorEq, if_false] at hb hupd
      have hc := s.counted a b hb
      omega
  live := by
    intro j a hj
    by_cases hji : j = i
    · simp [hji] at hj
    · rw [Function.update_of_ne hji] at hj
      obtain ⟨b, hb⟩ := s.live j a hj
      by_cases ha : s.ptr i = some a
      · have h1 : b.ref ≠ 1 := fun h1 =>
          hji (eq_of_owners_eq_one ((s.counted a b hb).1.symm.trans h1) hj ha)
        exact ⟨{ b with ref := b.ref - 1 }, by simp [ha, hb, deref, h1]⟩
      · exact ⟨b, by rw [if_neg ha, hb]⟩
  fresh := by
    intro a ha
    simp [s.fresh a ha]

/-- A variable without a block gets a new one. -/
def alloc (s : Store ι β) (i : ι) (hi : s.ptr i = none) (b : β) : Store ι β where
  ptr := Function.update s.ptr i (some s.next)
  mem := Function.update s.mem s.next (some ⟨1, b⟩)
  next := s.next + 1
  counted := by
    intro a b' hb'
    have hupd := owners_update s.ptr i (some s.next) a
    simp only [hi, reduceCtorEq, if_false, Option.some.injEq] at hupd
    by_cases ha : a = s.next
    · subst ha
      have hzero : owners s.ptr s.next = 0 := by
        refine Finset.sum_eq_zero fun j _ => if_neg fun hj => ?_
        exact absurd (s.ptr_lt hj) (lt_irrefl _)
      rw [Function.update_self, Option.some.injEq] at hb'
      subst hb'
      simp only [if_true] at hupd
      simp only
      omega
    · rw [Function.update_of_ne ha] at hb'
      rw [if_neg (Ne.symm ha)] at hupd
      have hc := s.counted a b' hb'
      omega
  live := by
    intro j a hj
    by_cases hji : j = i
    · rw [hji, Function.update_self, Option.some.injEq] at hj
      exact ⟨_, by rw [← hj, Function.update_self]⟩
    · rw [Function.update_of_ne hji] at hj
      rw [Function.update_of_ne (s.ptr_lt hj).ne]
      exact s.live j a hj
  fresh := by
    intro a ha
    rw [Function.update_of_ne (by omega)]
    exact s.fresh a (by omega)

/-- A variable without a block becomes another owner of the block at `a`. -/
def attach (s : Store ι β) (i : ι) (hi : s.ptr i = none) (a : ℕ) (ha : ∃ b, s.mem a = some b) :
    Store ι β where
  ptr := Function.update s.ptr i (some a)
  mem := Function.update s.mem a ((s.mem a).map fun b => { b with ref := b.ref + 1 })
  next := s.next
  counted := by
    intro a' b' hb'
    have hupd := owners_update s.ptr i (some a) a'
    simp only [hi, reduceCtorEq, if_false, Option.some.injEq] at hupd
    by_cases haa : a' = a
    · subst haa
      obtain ⟨b, hb⟩ := ha
      have hc := s.counted a' b hb
      rw [Function.update_self, hb, Option.map_some, Option.some.injEq] at hb'
      subst hb'
      simp only [if_true] at hupd
      simp only
      omega
    · rw [Function.update_of_ne haa] at hb'
      rw [if_neg (Ne.symm haa)] at hupd
      have hc := s.counted a' b' hb'
      omega
  live := by
    intro j a' hj
    have hmem : ∃ b, s.mem a' = some b := by
      by_cases hji : j = i
      · rw [hji, Function.update_self, Option.some.injEq] at hj
        exact hj ▸ ha
      · rw [Function.update_of_ne hji] at hj
        exact s.live j a' hj
    obtain ⟨b, hb⟩ := hmem
    by_cases haa : a' = a
    · subst haa
      exact ⟨_, by rw [Function.update_self, hb]; rfl⟩
    · exact ⟨b, by rw [Function.update_of_ne haa, hb]⟩
  fresh := by
    intro a' ha'
    by_cases haa : a' = a
    · subst haa
      simp [s.fresh a' ha']
    · rw [Function.update_of_ne haa]
      exact s.fresh a' ha'

/-- Write to the block in place. -/
def write (s : Store ι β) (i : ι) (b : β) : Store ι β where
  ptr := s.ptr
  mem a := if s.ptr i = some a then (s.mem a).map fun b₀ => { b₀ with payload := b } else s.mem a
  next := s.next
  counted := by
    intro a b' hb'
    by_cases ha : s.ptr i = some a
    · rw [if_pos ha] at hb'
      obtain ⟨b₀, hb₀, rfl⟩ := Option.map_eq_some_iff.mp hb'
      exact s.counted a b₀ hb₀
    · rw [if_neg ha] at hb'
      exact s.counted a b' hb'
  live := by
    intro j a hj
    obtain ⟨b₀, hb₀⟩ := s.live j a hj
    by_cases ha : s.ptr i = some a
    · exact ⟨_, by rw [if_pos ha, hb₀]; rfl⟩
    · exact ⟨b₀, by rw [if_neg ha, hb₀]⟩
  fresh := by
    intro a ha
    simp [s.fresh a ha]

@[simp] theorem ptr_release (s : Store ι β) (i : ι) : (s.release i).ptr i = none :=
  update_self ..

/-- Copy construction and assignment: `i` shares the block of `j`. -/
def share (s : Store ι β) (i j : ι) : Store ι β :=
  if s.ptr i = s.ptr j then s
  else match h : (s.release i).ptr j with
    | none => s.release i
    | some a => (s.release i).attach i (s.ptr_release i) a ((s.release i).live j a h)

/-- What a member function that leaves `h` behind has done to the blocks. -/
def commit (s : Store ι β) (i : ι) (h : Handle β) : Store ι β :=
  match h with
  | none => s.release i
  | some ⟨sh, b⟩ =>
    match s.view i with
    | none => (s.release i).alloc i (s.ptr_release i) b
    | some l => if l.shared && !sh then (s.release i).alloc i (s.ptr_release i) b else s.write i b

/-! ## What the variables hold afterwards -/

theorem get_release (s : Store ι β) (i j : ι) :
    (s.release i).get j = if j = i then none else s.get j := by
  rw [get_eq, get_eq]
  by_cases hji : j = i
  · simp [release, hji]
  rw [if_neg hji]
  simp only [release, update_of_ne hji]
  cases hj : s.ptr j with
  | none => rfl
  | some a =>
    obtain ⟨b, hb⟩ := s.live j a hj
    simp only [bind_some]
    by_cases ha : s.ptr i = some a
    · have h1 : b.ref ≠ 1 := fun h1 =>
        hji (eq_of_owners_eq_one ((s.counted a b hb).1.symm.trans h1) hj ha)
      simp [ha, hb, deref, h1]
    · rw [if_neg ha]

theorem get_alloc (s : Store ι β) (i j : ι) (hi : s.ptr i = none) (b : β) :
    (s.alloc i hi b).get j = if j = i then some b else s.get j := by
  rw [get_eq, get_eq]
  by_cases hji : j = i
  · simp [alloc, hji]
  rw [if_neg hji]
  simp only [alloc, update_of_ne hji]
  cases hj : s.ptr j with
  | none => rfl
  | some a => rw [bind_some, bind_some, update_of_ne (s.ptr_lt hj).ne]

theorem get_attach (s : Store ι β) (i j : ι) (hi : s.ptr i = none) (a : ℕ)
    (ha : ∃ b, s.mem a = some b) :
    (s.attach i hi a ha).get j = if j = i then (s.mem a).map Block.payload else s.get j := by
  have hmem : ∀ x, (update s.mem a ((s.mem a).map fun b => { b with ref := b.ref + 1 }) x).map
      Block.payload = (s.mem x).map Block.payload := by
    intro x
    by_cases hx : x = a
    · subst hx
      rw [update_self, map_map]
      rfl
    · rw [update_of_ne hx]
  rw [get_eq, get_eq]
  by_cases hji : j = i
  · simp only [attach, hji, update_self, if_true, bind_some, hmem]
  · simp only [attach, update_of_ne hji, if_neg hji, hmem]

theorem get_share (s : Store ι β) (i j k : ι) :
    (s.share i j).get k = if k = i then s.get j else s.get k := by
  unfold share
  split_ifs with hptr hki hki
  · rw [hki, get_eq, get_eq, hptr]
  · rfl
  all_goals
    have hji : j ≠ i := by
      rintro rfl
      exact hptr rfl
    have hget : (s.release i).get j = s.get j := by rw [get_release, if_neg hji]
    split
    next hj =>
      rw [get_release]
      first
        | rw [if_pos hki, ← hget, get_eq, hj]; rfl
        | rw [if_neg hki]
    next a hj =>
      rw [get_attach]
      first
        | rw [if_pos hki, ← hget, get_eq, hj]; rfl
        | rw [if_neg hki, get_release, if_neg hki]

theorem get_write (s : Store ι β) (i j : ι) (b : β) :
    (s.write i b).get j =
      if s.ptr j = s.ptr i then (s.ptr j).map (fun _ => b) else s.get j := by
  rw [get_eq, get_eq]
  simp only [write]
  cases hj : s.ptr j with
  | none => simp
  | some a =>
    obtain ⟨b₀, hb₀⟩ := s.live j a hj
    by_cases ha : s.ptr i = some a
    · simp [ha, hb₀]
    · simp [ha, Ne.symm ha]

theorem eq_of_not_shared (s : Store ι β) {i j : ι} {b : β} (h : s.view i = some ⟨false, b⟩)
    (hptr : s.ptr j = s.ptr i) : j = i := by
  cases hi : s.ptr i with
  | none => simp [s.view_eq_none hi] at h
  | some a =>
    obtain ⟨b₀, hb₀, hv⟩ := s.exists_view hi
    rw [hv, some.injEq, Local.mk.injEq] at h
    have h1 : b₀.ref = 1 := by simpa using h.1
    exact eq_of_owners_eq_one ((s.counted a b₀ hb₀).1.symm.trans h1) (hptr.trans hi) hi

theorem get_commit (s : Store ι β) (i j : ι) {h : Handle β} (hl : (s.view i).Legal h) :
    (s.commit i h).get j = if j = i then h.data? else s.get j := by
  unfold commit
  split
  · exact s.get_release i j
  next sh b =>
    split
    next => rw [get_alloc, get_release]; split_ifs <;> rfl
    next l hv =>
      split_ifs with hc hji hji
      · rw [get_alloc, if_pos hji]
        rfl
      · rw [get_alloc, if_neg hji, get_release, if_neg hji]
      · obtain ⟨a, ha⟩ : ∃ a, s.ptr i = some a := by
          cases hi : s.ptr i with
          | none => simp [s.view_eq_none hi] at hv
          | some a => exact ⟨a, rfl⟩
        subst hji
        rw [get_write, if_pos rfl, ha]
        rfl
      · rw [get_write]
        split_ifs with hptr
        · obtain ⟨lsh, lb⟩ := l
          cases lsh with
          | false => exact absurd (s.eq_of_not_shared hv hptr) hji
          | true =>
            have hsh : sh = true := by simpa using hc
            subst hsh
            have hb : b = lb := hl lb b hv rfl
            have hget : s.get j = some lb := by
              have hgi : s.get i = some lb := by rw [get, hv]; rfl
              rw [get_eq, hptr, ← get_eq, hgi]
            rw [hget, hb]
            cases hi : s.ptr i with
            | none => simp [s.view_eq_none hi] at hv
            | some a => rw [hptr, hi]; rfl
        · rfl

end Store

end Cow
