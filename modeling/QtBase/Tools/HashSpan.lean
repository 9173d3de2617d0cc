import QtBase.Core.Exec
import Mathlib.Data.Finset.Card
import Mathlib.Logic.Function.Basic

/-! The spans of a hash table (`QHashPrivate::Span`): 128 buckets whose nodes live in a
separately grown entry array with an embedded list of free entries. -/
namespace QtBase.QHashPrivate

open List Function

def SpanShift : ℕ := 7
def NEntries : ℕ := 1 <<< SpanShift
def LocalBucketMask : ℕ := NEntries - 1
def UnusedEntry : ℕ := 0xff

@[simp] theorem nEntries_eq : NEntries = 128 := rfl

/-- A value stored in an `unsigned char`. -/
def uchar (i : ℕ) : ℕ := i % 256

/-- Storage for a node. While no node lives there its first byte links the free list. -/
inductive Entry (N : Type)
  | node (n : N)
  | free (nextFree : ℕ)

namespace Entry

variable {N : Type}

def getNode : Entry N → Exec N
  | .node n => .ok n
  | .free _ => .error .undefined

def getNextFree : Entry N → Exec ℕ
  | .free i => .ok i
  | .node _ => .error .undefined

end Entry

structure Span (N : Type) where
  offsets : ℕ → ℕ
  entries : ℕ → Entry N
  allocated : ℕ
  nextFree : ℕ

namespace Span

variable {N : Type}

/-- `Span()`: all offsets unused, no storage. -/
def new : Span N := ⟨fun _ => UnusedEntry, fun _ => .free 0, 0, 0⟩

/-- The local `alloc` of `addStorage`: 48 entries, then 80, then 16 more each time. -/
def alloc (allocated : ℕ) : ℕ :=
  if allocated = 0 then NEntries / 8 * 3
  else if allocated = NEntries / 8 * 3 then NEntries / 8 * 5
  else allocated + NEntries / 8

def addStorage (s : Span N) : Exec (Span N) := do
  qAssert (s.allocated < NEntries)
  qAssert (s.nextFree = s.allocated)
  let newEntries := fun i =>
    if i < s.allocated then s.entries i
    else if i < alloc s.allocated then .free (uchar (i + 1)) else .free 0
  pure { s with entries := newEntries, allocated := uchar (alloc s.allocated) }

/-- `if (nextFree == allocated) addStorage();` -/
def reserve (s : Span N) : Exec (Span N) :=
  if s.nextFree = s.allocated then s.addStorage else pure s

/-- Reserves an entry for bucket `i`; the caller constructs the node in it. -/
def insert (s : Span N) (i : ℕ) : Exec (Span N) := do
  qAssert (i < NEntries)
  qAssert (s.offsets i = UnusedEntry)
  let s ← s.reserve
  let entry := s.nextFree
  qAssert (entry < s.allocated)
  let next ← (s.entries entry).getNextFree
  pure { s with nextFree := next, offsets := Function.update s.offsets i entry }

/-- Placement `new` of a node in the entry of bucket `i`. -/
def construct (s : Span N) (i : ℕ) (n : N) : Span N :=
  { s with entries := Function.update s.entries (s.offsets i) (.node n) }

def erase (s : Span N) (bucket : ℕ) : Exec (Span N) := do
  qAssert (bucket < NEntries)
  qAssert (s.offsets bucket ≠ UnusedEntry)
  let entry := s.offsets bucket
  let _ ← (s.entries entry).getNode
  pure { s with
    offsets := Function.update s.offsets bucket UnusedEntry
    entries := Function.update s.entries entry (.free s.nextFree)
    nextFree := entry }

def offset (s : Span N) (i : ℕ) : ℕ := s.offsets i

def hasNode (s : Span N) (i : ℕ) : Bool := s.offsets i != UnusedEntry

def «at» (s : Span N) (i : ℕ) : Exec N := do
  qAssert (i < NEntries)
  qAssert (s.offsets i ≠ UnusedEntry)
  (s.entries (s.offsets i)).getNode

def atOffset (s : Span N) (o : ℕ) : Exec N := do
  qAssert (o < s.allocated)
  (s.entries o).getNode

def moveLocal (s : Span N) (src dst : ℕ) : Exec (Span N) := do
  qAssert (s.offsets src ≠ UnusedEntry)
  qAssert (s.offsets dst = UnusedEntry)
  pure { s with offsets :=
    Function.update (Function.update s.offsets dst (s.offsets src)) src UnusedEntry }

/-- Returns the span and `fromSpan`, in this order. -/
def moveFromSpan (s fromSpan : Span N) (fromIndex dst : ℕ) : Exec (Span N × Span N) := do
  qAssert (dst < NEntries)
  qAssert (s.offsets dst = UnusedEntry)
  qAssert (fromIndex < NEntries)
  qAssert (fromSpan.offsets fromIndex ≠ UnusedEntry)
  let s ← s.reserve
  qAssert (s.nextFree < s.allocated)
  let toEntry := s.nextFree
  let next ← (s.entries toEntry).getNextFree
  let fromOffset := fromSpan.offsets fromIndex
  let n ← (fromSpan.entries fromOffset).getNode
  pure ({ s with
      offsets := Function.update s.offsets dst toEntry
      nextFree := next
      entries := Function.update s.entries toEntry (.node n) },
    { fromSpan with
      offsets := Function.update fromSpan.offsets fromIndex UnusedEntry
      entries := Function.update fromSpan.entries fromOffset (.free fromSpan.nextFree)
      nextFree := uchar fromOffset })

/-! ## The storage invariant -/

/-- The free list that starts at entry `i` and ends at `stop`. -/
def FreeChain (entries : ℕ → Entry N) (stop : ℕ) : ℕ → List ℕ → Prop
  | i, [] => i = stop
  | i, j :: fl => i = j ∧ ∃ next, entries i = .free next ∧ FreeChain entries stop next fl

/-- The entries referenced by the buckets and those on the free list partition the storage. -/
structure Inv (s : Span N) : Prop where
  free : ∃ fl, FreeChain s.entries s.allocated s.nextFree fl ∧ fl.Nodup ∧
    ∀ j, j ∈ fl ↔ j < s.allocated ∧ ∀ i < NEntries, s.offsets i ≠ j
  used : ∀ i < NEntries, s.offsets i ≠ UnusedEntry →
    s.offsets i < s.allocated ∧ ∃ n, s.entries (s.offsets i) = .node n
  inj : ∀ i < NEntries, ∀ j < NEntries, s.offsets i ≠ UnusedEntry → s.offsets i = s.offsets j → i = j
  sizes : s.allocated = 0 ∨ s.allocated = 48 ∨ s.allocated = 80 ∨ s.allocated = 96 ∨
    s.allocated = 112 ∨ s.allocated = 128

/-- The node in bucket `i`. -/
def cell (s : Span N) (i : ℕ) : Option N :=
  if s.offsets i = UnusedEntry then none
  else match s.entries (s.offsets i) with
    | .node n => some n
    | .free _ => none

theorem cell_congr {s u : Span N} {i : ℕ} (ho : u.offsets i = s.offsets i)
    (he : s.offsets i ≠ UnusedEntry → u.entries (s.offsets i) = s.entries (s.offsets i)) :
    u.cell i = s.cell i := by
  unfold cell
  simp only [ho]
  split_ifs with hu
  · rfl
  · rw [he hu]

@[simp] theorem cell_new (i : ℕ) : (new : Span N).cell i = none := by simp [new, cell]

theorem FreeChain.congr {e e' : ℕ → Entry N} {stop i : ℕ} {fl : List ℕ}
    (h : FreeChain e stop i fl) (heq : ∀ j ∈ fl, e' j = e j) : FreeChain e' stop i fl := by
  induction fl generalizing i with
  | nil => exact h
  | cons j fl ih =>
    obtain ⟨rfl, next, hn, hc⟩ := h
    refine ⟨rfl, next, ?_, ih hc fun k hk => heq k (mem_cons_of_mem _ hk)⟩
    rw [heq i (mem_cons_self ..), hn]

theorem inv_new : (new : Span N).Inv where
  free := ⟨[], rfl, nodup_nil, by simp [new]⟩
  used := by simp [new]
  inj := by simp [new]
  sizes := .inl rfl

namespace Inv

variable {s : Span N} {i : ℕ}

theorem cell_eq_none (h : s.Inv) (hi : i < NEntries) : s.cell i = none ↔ s.offsets i = UnusedEntry := by
  unfold cell
  split_ifs with hu
  · simp [hu]
  · obtain ⟨-, n, hn⟩ := h.used i hi hu
    simp [hn, hu]

theorem cell_eq_some (h : s.Inv) (hi : i < NEntries) {n : N} :
    s.cell i = some n ↔ s.offsets i ≠ UnusedEntry ∧ s.entries (s.offsets i) = .node n := by
  unfold cell
  split_ifs with hu
  · simp [hu]
  · obtain ⟨-, m, hm⟩ := h.used i hi hu
    simp [hm, hu]

theorem at_eq (h : s.Inv) (hi : i < NEntries) {n : N} (hc : s.cell i = some n) :
    s.at i = .ok n := by
  obtain ⟨hu, hn⟩ := (h.cell_eq_some hi).mp hc
  simp only [nEntries_eq] at hi
  simp [Span.at, hi, hu, hn, Entry.getNode]

theorem atOffset_eq (h : s.Inv) (hi : i < NEntries) {n : N} (hc : s.cell i = some n) :
    s.atOffset (s.offsets i) = .ok n := by
  obtain ⟨hu, hn⟩ := (h.cell_eq_some hi).mp hc
  simp [atOffset, (h.used i hi hu).1, hn, Entry.getNode]

theorem offset_lt (h : s.Inv) (hi : i < NEntries) (hu : s.offsets i ≠ UnusedEntry) :
    s.offsets i < 128 := by
  have := (h.used i hi hu).1
  rcases h.sizes with hs | hs | hs | hs | hs | hs <;> omega

theorem allocated_lt (h : s.Inv) (hfull : s.nextFree = s.allocated) (hi : i < NEntries)
    (hu : s.offsets i = UnusedEntry) : s.allocated < NEntries := by
  obtain ⟨fl, hc, -, hm⟩ := h.free
  have hnil : fl = [] := by
    cases fl with
    | nil => rfl
    | cons j fl =>
      have hj := (hm j).mp (mem_cons_self ..)
      have := hc.1
      omega
  have hsub : Finset.range s.allocated ⊆ ((Finset.range NEntries).erase i).image s.offsets := by
    intro j hj
    rw [Finset.mem_range] at hj
    have hnot : ¬ ∀ b < NEntries, s.offsets b ≠ j := fun hall => by
      simpa [hnil] using (hm j).mpr ⟨hj, hall⟩
    push Not at hnot
    obtain ⟨b, hb, rfl⟩ := hnot
    refine Finset.mem_image.mpr ⟨b, Finset.mem_erase.mpr ⟨?_, Finset.mem_range.mpr hb⟩, rfl⟩
    rintro rfl
    rw [hu] at hj
    rcases h.sizes with hs | hs | hs | hs | hs | hs <;> rw [hs] at hj <;>
      exact absurd hj (by decide)
  have h₁ := Finset.card_le_card hsub
  have h₂ := Finset.card_image_le (s := (Finset.range NEntries).erase i) (f := s.offsets)
  rw [Finset.card_range] at h₁
  rw [Finset.card_erase_of_mem (Finset.mem_range.mpr hi), Finset.card_range] at h₂
  omega

end Inv

theorem freeChain_range (e : ℕ → Entry N) (stop k i : ℕ) (hk : i + k = stop)
    (he : ∀ j, i ≤ j → j < stop → e j = .free (j + 1)) :
    FreeChain e stop i (List.range' i k) := by
  induction k generalizing i with
  | zero => exact hk
  | succ k ih =>
    rw [List.range'_succ]
    exact ⟨rfl, i + 1, he i le_rfl (by omega), ih (i + 1) (by omega) fun j h₁ h₂ => he j (by omega) h₂⟩

theorem alloc_spec {a : ℕ} (h : a = 0 ∨ a = 48 ∨ a = 80 ∨ a = 96 ∨ a = 112 ∨ a = 128)
    (hlt : a < 128) : a < alloc a ∧ alloc a ≤ 128 ∧ (alloc a = 0 ∨ alloc a = 48 ∨ alloc a = 80 ∨
      alloc a = 96 ∨ alloc a = 112 ∨ alloc a = 128) := by
  rcases h with rfl | rfl | rfl | rfl | rfl | rfl <;> first | decide | omega

theorem Inv.addStorage {s : Span N} (h : s.Inv) (hfull : s.nextFree = s.allocated)
    (hlt : s.allocated < NEntries) :
    ∃ s', s.addStorage = .ok s' ∧ s'.Inv ∧ s'.offsets = s.offsets ∧
      (∀ i < NEntries, s'.cell i = s.cell i) ∧ s'.nextFree < s'.allocated := by
  obtain ⟨fl, hc, -, hm⟩ := h.free
  have hnil : fl = [] := by
    cases fl with
    | nil => rfl
    | cons j fl =>
      have hj := (hm j).mp (mem_cons_self ..)
      have := hc.1
      omega
  simp only [nEntries_eq] at hlt
  obtain ⟨hlo, hhi, hsz⟩ := alloc_spec h.sizes hlt
  have huc : uchar (alloc s.allocated) = alloc s.allocated := Nat.mod_eq_of_lt (by omega)
  refine ⟨_, by simp [Span.addStorage, hlt, hfull]; rfl, ?_⟩
  rw [huc]
  have hcell : ∀ i < NEntries, s.offsets i ≠ UnusedEntry → s.offsets i < s.allocated :=
    fun i hi hu => (h.used i hi hu).1
  refine ⟨⟨⟨List.range' s.allocated (alloc s.allocated - s.allocated), ?_, nodup_range', ?_⟩, ?_, h.inj, hsz⟩,
    rfl, ?_, ?_⟩
  · refine freeChain_range _ _ _ _ ?_ fun j h₁ h₂ => ?_
    · simp only
      omega
    · simp only at h₁ h₂ ⊢
      rw [if_neg (by omega), if_pos h₂, uchar, Nat.mod_eq_of_lt (by omega)]
  · intro j
    rw [mem_range'_1]
    simp only
    constructor
    · rintro ⟨h₁, h₂⟩
      refine ⟨by omega, fun i hi hj => ?_⟩
      by_cases hu : s.offsets i = UnusedEntry
      · simp only [UnusedEntry] at hu
        omega
      · have := hcell i hi hu
        omega
    · rintro ⟨h₁, h₂⟩
      refine ⟨?_, by omega⟩
      by_contra hj
      have : j ∈ fl := (hm j).mpr ⟨by omega, h₂⟩
      simp [hnil] at this
  · intro i hi hu
    obtain ⟨hlt', n, hn⟩ := h.used i hi hu
    exact ⟨by simp only; omega, n, by simp only [if_pos hlt', hn]⟩
  · exact fun i hi => cell_congr rfl fun hu => if_pos (hcell i hi hu)
  · simp only
    omega

/-- Room for one more node, as `insert` and `moveFromSpan` make it. -/
theorem Inv.reserve {s : Span N} {i : ℕ} (h : s.Inv) (hi : i < NEntries)
    (hu : s.offsets i = UnusedEntry) :
    ∃ s', s.reserve = .ok s' ∧ s'.Inv ∧ s'.offsets = s.offsets ∧
      (∀ j < NEntries, s'.cell j = s.cell j) ∧ s'.nextFree < s'.allocated := by
  by_cases hfull : s.nextFree = s.allocated
  · rw [Span.reserve, if_pos hfull]
    exact h.addStorage hfull (h.allocated_lt hfull hi hu)
  · refine ⟨s, by rw [Span.reserve, if_neg hfull]; rfl, h, rfl, fun _ _ => rfl, ?_⟩
    obtain ⟨fl, hc, -, hm⟩ := h.free
    cases fl with
    | nil => exact absurd hc hfull
    | cons j fl => exact hc.1 ▸ ((hm j).mp (mem_cons_self ..)).1

/-- Takes the first free entry for bucket `i` and puts `n` there. -/
def fill (s : Span N) (i : ℕ) (next : ℕ) (n : N) : Span N :=
  { s with
    offsets := Function.update s.offsets i s.nextFree
    nextFree := next
    entries := Function.update s.entries s.nextFree (.node n) }

theorem Inv.fill {s : Span N} {i next : ℕ} (h : s.Inv) (hi : i < NEntries)
    (hu : s.offsets i = UnusedEntry) (hroom : s.nextFree < s.allocated)
    (hnext : s.entries s.nextFree = .free next) (n : N) :
    (s.fill i next n).Inv ∧
      ∀ j < NEntries, (s.fill i next n).cell j = if j = i then some n else s.cell j := by
  obtain ⟨fl, hc, hnd, hm⟩ := h.free
  cases fl with
  | nil => exact absurd hc hroom.ne
  | cons k fl =>
    obtain ⟨rfl, next', hn', hc'⟩ := hc
    rw [hnext, Entry.free.injEq] at hn'
    subst hn'
    obtain ⟨hk, hkref⟩ := (hm _).mp (mem_cons_self ..)
    obtain ⟨hknot, hnd'⟩ := nodup_cons.mp hnd
    have hk128 : s.nextFree < 128 := by
      rcases h.sizes with hs | hs | hs | hs | hs | hs <;> omega
    have hkne : s.nextFree ≠ UnusedEntry := by
      simp only [UnusedEntry]
      omega
    have hoff : ∀ j < NEntries, j ≠ i → s.offsets j ≠ s.nextFree := fun j hj _ => hkref j hj
    refine ⟨⟨⟨fl, ?_, hnd', ?_⟩, ?_, ?_, h.sizes⟩, ?_⟩
    · refine hc'.congr fun j hj => update_of_ne ?_ _ _
      rintro rfl
      exact hknot hj
    · intro j
      have hmj := hm j
      simp only [mem_cons] at hmj
      simp only [Span.fill]
      constructor
      · intro hj
        obtain ⟨h₁, h₂⟩ := hmj.mp (.inr hj)
        refine ⟨h₁, fun b hb => ?_⟩
        by_cases hbi : b = i
        · rw [hbi, update_self]
          rintro rfl
          exact hknot hj
        · rw [update_of_ne hbi]
          exact h₂ b hb
      · rintro ⟨h₁, h₂⟩
        have hjk : j ≠ s.nextFree := by
          rintro rfl
          exact h₂ i hi (update_self ..)
        refine (hmj.mpr ⟨h₁, fun b hb hbj => ?_⟩).resolve_left hjk
        by_cases hbi : b = i
        · subst hbi
          rw [hu, UnusedEntry] at hbj
          rcases h.sizes with hs | hs | hs | hs | hs | hs <;> omega
        · exact h₂ b hb (by rw [update_of_ne hbi, hbj])
    · intro j hj hju
      simp only [Span.fill] at hju ⊢
      by_cases hji : j = i
      · simp [hji, hroom]
      · rw [update_of_ne hji] at hju ⊢
        obtain ⟨h₁, m, hm'⟩ := h.used j hj hju
        exact ⟨h₁, m, by rw [update_of_ne (hoff j hj hji), hm']⟩
    · intro a ha b hb hau hab
      simp only [Span.fill] at hau hab
      by_cases hai : a = i <;> by_cases hbi : b = i
      · rw [hai, hbi]
      · rw [hai, update_self, update_of_ne hbi] at hab
        exact absurd hab.symm (hkref b hb)
      · rw [hbi, update_self, update_of_ne hai] at hab
        exact absurd hab (hkref a ha)
      · rw [update_of_ne hai] at hau hab
        rw [update_of_ne hbi] at hab
        exact h.inj a ha b hb hau hab
    · intro j hj
      by_cases hji : j = i
      · simp [cell, Span.fill, hji, hkne]
      · rw [if_neg hji]
        exact cell_congr (update_of_ne hji ..) fun _ =>
          update_of_ne (hoff j hj hji) ..

theorem exists_next {s : Span N} (h : s.Inv) (hroom : s.nextFree < s.allocated) :
    ∃ next, s.entries s.nextFree = .free next := by
  obtain ⟨fl, hc, -, -⟩ := h.free
  cases fl with
  | nil => exact absurd hc hroom.ne
  | cons k fl => exact hc.2.imp fun _ hn => hn.1

/-- Inserting and constructing: bucket `i` then holds `n`, the others are as before. -/
theorem Inv.insert {s : Span N} {i : ℕ} (h : s.Inv) (hi : i < NEntries) (hc : s.cell i = none) :
    ∃ s', s.insert i = .ok s' ∧ ∀ n, (s'.construct i n).Inv ∧
      ∀ j < NEntries, (s'.construct i n).cell j = if j = i then some n else s.cell j := by
  have hu := (h.cell_eq_none hi).mp hc
  obtain ⟨s₁, hs₁, hinv, hoff, hcell, hroom⟩ := h.reserve hi hu
  obtain ⟨next, hnext⟩ := exists_next hinv hroom
  refine ⟨{ s₁ with nextFree := next, offsets := update s₁.offsets i s₁.nextFree }, ?_,
    fun n => ?_⟩
  · simp only [Span.insert, qAssert_pos hi, qAssert_pos hu, ok_bind, hs₁, qAssert_pos hroom, hnext,
      Entry.getNextFree, pure_eq_ok]
  · obtain ⟨hf, hfc⟩ := hinv.fill hi (by rw [hoff, hu]) hroom hnext n
    refine ⟨by simpa only [construct, Span.fill, update_self] using hf, fun j hj => ?_⟩
    have := hfc j hj
    rw [hcell j hj] at this
    simpa only [construct, Span.fill, update_self] using this

/-- The storage with the entry of bucket `b` returned to the free list. -/
def release (s : Span N) (b : ℕ) : Span N :=
  { s with
    offsets := Function.update s.offsets b UnusedEntry
    entries := Function.update s.entries (s.offsets b) (.free s.nextFree)
    nextFree := s.offsets b }

theorem Inv.release {s : Span N} {b : ℕ} (h : s.Inv) (hb : b < NEntries)
    (hu : s.offsets b ≠ UnusedEntry) :
    (s.release b).Inv ∧
      ∀ j < NEntries, (s.release b).cell j = if j = b then none else s.cell j := by
  obtain ⟨fl, hc, hnd, hm⟩ := h.free
  obtain ⟨hlt, n, hn⟩ := h.used b hb hu
  have hnotin : s.offsets b ∉ fl := fun hmem => ((hm _).mp hmem).2 b hb rfl
  have hother : ∀ j < NEntries, j ≠ b → s.offsets j ≠ UnusedEntry → s.offsets j ≠ s.offsets b :=
    fun j hj hjb hju heq => hjb (h.inj j hj b hb hju heq)
  refine ⟨⟨⟨s.offsets b :: fl, ⟨rfl, s.nextFree, update_self .., ?_⟩,
    nodup_cons.mpr ⟨hnotin, hnd⟩, ?_⟩, ?_, ?_, h.sizes⟩, ?_⟩
  · refine hc.congr fun j hj => update_of_ne ?_ _ _
    rintro rfl
    exact hnotin hj
  · intro j
    simp only [Span.release, mem_cons]
    constructor
    · rintro (rfl | hj)
      · refine ⟨hlt, fun i hi => ?_⟩
        by_cases hib : i = b
        · rw [hib, update_self]
          exact hu.symm
        · rw [update_of_ne hib]
          by_cases hiu : s.offsets i = UnusedEntry
          · rw [hiu]
            exact hu.symm
          · exact hother i hi hib hiu
      · obtain ⟨h₁, h₂⟩ := (hm j).mp hj
        refine ⟨h₁, fun i hi => ?_⟩
        by_cases hib : i = b
        · rw [hib, update_self, UnusedEntry]
          rcases h.sizes with hs | hs | hs | hs | hs | hs <;> omega
        · rw [update_of_ne hib]
          exact h₂ i hi
    · rintro ⟨h₁, h₂⟩
      by_cases hjb : j = s.offsets b
      · exact .inl hjb
      · refine .inr ((hm j).mpr ⟨h₁, fun i hi hij => ?_⟩)
        by_cases hib : i = b
        · exact hjb (by rw [← hij, hib])
        · exact h₂ i hi (by rw [update_of_ne hib, hij])
  · intro j hj hju
    simp only [Span.release] at hju ⊢
    by_cases hjb : j = b
    · simp [hjb] at hju
    · rw [update_of_ne hjb] at hju ⊢
      obtain ⟨h₁, m, hm'⟩ := h.used j hj hju
      exact ⟨h₁, m, by rw [update_of_ne (hother j hj hjb hju), hm']⟩
  · intro i hi j hj hiu hij
    simp only [Span.release] at hiu hij
    by_cases hib : i = b
    · simp [hib] at hiu
    rw [update_of_ne hib] at hiu hij
    by_cases hjb : j = b
    · rw [hjb, update_self] at hij
      exact absurd hij hiu
    · rw [update_of_ne hjb] at hij
      exact h.inj i hi j hj hiu hij
  · intro j hj
    by_cases hjb : j = b
    · simp [cell, Span.release, hjb]
    · rw [if_neg hjb]
      exact cell_congr (update_of_ne hjb ..) fun hju =>
        update_of_ne (hother j hj hjb hju) ..

theorem Inv.construct {s : Span N} {b : ℕ} (h : s.Inv) (hb : b < NEntries) {n₀ : N}
    (hc : s.cell b = some n₀) (n : N) :
    (s.construct b n).Inv ∧
      ∀ j < NEntries, (s.construct b n).cell j = if j = b then some n else s.cell j := by
  obtain ⟨hu, -⟩ := (h.cell_eq_some hb).mp hc
  refine ⟨⟨?_, ?_, h.inj, h.sizes⟩, ?_⟩
  · obtain ⟨fl, hfl, hnd, hm⟩ := h.free
    refine ⟨fl, hfl.congr fun j hj => update_of_ne ?_ _ _, hnd, hm⟩
    rintro rfl
    exact ((hm _).mp hj).2 b hb rfl
  · intro j hj hju
    obtain ⟨h₁, m, hm⟩ := h.used j hj hju
    by_cases hjb : s.offsets j = s.offsets b
    · exact ⟨h₁, n, by simp [Span.construct, hjb]⟩
    · exact ⟨h₁, m, by simp only [Span.construct]; rw [update_of_ne hjb, hm]⟩
  · intro j hj
    by_cases hjb : j = b
    · simp [cell, Span.construct, hjb, hu]
    · rw [if_neg hjb]
      exact cell_congr rfl fun hju => update_of_ne (fun heq => hjb (h.inj j hj b hb hju heq)) ..

theorem Inv.erase {s : Span N} {b : ℕ} (h : s.Inv) (hb : b < NEntries) {n : N}
    (hc : s.cell b = some n) :
    ∃ s', s.erase b = .ok s' ∧ s'.Inv ∧
      ∀ j < NEntries, s'.cell j = if j = b then none else s.cell j := by
  obtain ⟨hu, hn⟩ := (h.cell_eq_some hb).mp hc
  refine ⟨s.release b, ?_, h.release hb hu⟩
  simp only [Span.erase, qAssert_pos hb, qAssert_pos hu, ok_bind, hn, Entry.getNode, pure_eq_ok,
    Span.release]

theorem Inv.moveLocal {s : Span N} {src dst : ℕ} (h : s.Inv) (hsrc : src < NEntries)
    (hdst : dst < NEntries) {n : N} (hcs : s.cell src = some n) (hcd : s.cell dst = none) :
    ∃ s', s.moveLocal src dst = .ok s' ∧ s'.Inv ∧
      ∀ j < NEntries, s'.cell j = if j = src then none else if j = dst then some n else s.cell j := by
  obtain ⟨hus, hn⟩ := (h.cell_eq_some hsrc).mp hcs
  have hud := (h.cell_eq_none hdst).mp hcd
  have hne : src ≠ dst := by
    rintro rfl
    exact hus hud
  let f := update (update s.offsets dst (s.offsets src)) src UnusedEntry
  have hf : ∀ j, f j = if j = src then UnusedEntry else if j = dst then s.offsets src else s.offsets j :=
    fun j => by simp only [f, update_apply]
  refine ⟨{ s with offsets := f }, ?_, ⟨?_, ?_, ?_, h.sizes⟩, ?_⟩
  · simp only [Span.moveLocal, qAssert_pos hus, qAssert_pos hud, ok_bind, pure_eq_ok, f]
  · obtain ⟨fl, hc, hnd, hm⟩ := h.free
    refine ⟨fl, hc, hnd, fun j => (hm j).trans (and_congr_right fun hj => ?_)⟩
    have hju : j ≠ UnusedEntry := by
      simp only [UnusedEntry]
      rcases h.sizes with hs | hs | hs | hs | hs | hs <;> omega
    simp only [hf]
    constructor
    · intro hall i hi
      split_ifs
      · exact hju.symm
      · exact hall src hsrc
      · exact hall i hi
    · intro hall i hi
      by_cases his : i = src
      · have := hall dst hdst
        rw [if_neg hne.symm, if_pos rfl] at this
        rwa [his]
      · by_cases hid : i = dst
        · rw [hid, hud]
          exact hju.symm
        · have := hall i hi
          rwa [if_neg his, if_neg hid] at this
  · intro j hj hju
    simp only [hf] at hju ⊢
    split_ifs at hju ⊢ with h₁ h₂
    · exact absurd rfl hju
    · exact h.used src hsrc hus
    · exact h.used j hj hju
  · intro i hi j hj hiu hij
    simp only [hf] at hiu hij
    have hback : ∀ k < NEntries, k ≠ dst → s.offsets k = s.offsets src → k = src :=
      fun k hk _ hkk => (h.inj src hsrc k hk hus hkk.symm).symm
    by_cases his : i = src
    · simp [his] at hiu
    rw [if_neg his] at hiu hij
    by_cases hjs : j = src
    · rw [if_pos hjs] at hij
      exact absurd hij hiu
    rw [if_neg hjs] at hij
    by_cases hid : i = dst <;> by_cases hjd : j = dst
    · rw [hid, hjd]
    · rw [if_pos hid, if_neg hjd] at hij
      exact absurd (hback j hj hjd hij.symm) hjs
    · rw [if_neg hid, if_pos hjd] at hij
      exact absurd (hback i hi hid hij) his
    · rw [if_neg hid] at hiu hij
      rw [if_neg hjd] at hij
      exact h.inj i hi j hj hiu hij
  · intro j hj
    unfold cell
    simp only [hf]
    split_ifs <;> simp_all

theorem Inv.moveFromSpan {s u : Span N} {i dst : ℕ} (hs : s.Inv) (hu : u.Inv) (hi : i < NEntries)
    (hdst : dst < NEntries) {n : N} (hci : u.cell i = some n) (hcd : s.cell dst = none) :
    ∃ s' u', s.moveFromSpan u i dst = .ok (s', u') ∧ s'.Inv ∧ u'.Inv ∧
      (∀ j < NEntries, s'.cell j = if j = dst then some n else s.cell j) ∧
      ∀ j < NEntries, u'.cell j = if j = i then none else u.cell j := by
  obtain ⟨hui, hn⟩ := (hu.cell_eq_some hi).mp hci
  have hud := (hs.cell_eq_none hdst).mp hcd
  obtain ⟨s₁, hs₁, hinv, hoff, hcell, hroom⟩ := hs.reserve hdst hud
  obtain ⟨next, hnext⟩ := exists_next hinv hroom
  obtain ⟨hf, hfc⟩ := hinv.fill hdst (by rw [hoff, hud]) hroom hnext n
  obtain ⟨hr, hrc⟩ := hu.release hi hui
  have huc : uchar (u.offsets i) = u.offsets i :=
    Nat.mod_eq_of_lt ((hu.offset_lt hi hui).trans (by decide))
  refine ⟨s₁.fill dst next n, u.release i, ?_, hf, hr, fun j hj => ?_, hrc⟩
  · simp only [Span.moveFromSpan, qAssert_pos hdst, qAssert_pos hud, qAssert_pos hi, qAssert_pos hui,
      ok_bind, hs₁, qAssert_pos hroom, hnext, Entry.getNextFree, hn, Entry.getNode, pure_eq_ok, huc,
      Span.fill, Span.release]
  · rw [hfc j hj, hcell j hj]

end Span

end QtBase.QHashPrivate
