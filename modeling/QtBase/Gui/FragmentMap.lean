import QtBase.Core.Exec
import QtBase.Lib.FreeList
import Mathlib.Data.List.GetD

/-! The slots of `QFragmentMapData`, and the list of free ones in their `right` links. -/
namespace QtBase

open Lib List Function Nat

/-! ## Growing blocks -/

structure CalculateGrowingBlockSizeResult where
  size : ℤ
  elementCount : ℤ

/-- `qCalculateBlockSize` without a header. -/
def qCalculateBlockSize (elementCount elementSize : ℕ) : ℤ :=
  if 2 ^ 63 ≤ elementSize * elementCount then -1 else (elementSize * elementCount : ℕ)

/-- `qNextPowerOfTwo(quint64)` -/
def qNextPowerOfTwo (v : ℕ) : ℕ := if v = 0 then 1 else 2 ^ (v.log2 + 1)

/-- `qCalculateGrowingBlockSize` without a header. -/
def qCalculateGrowingBlockSize (elementCount elementSize : ℕ) :
    CalculateGrowingBlockSizeResult :=
  let bytes := qCalculateBlockSize elementCount elementSize
  if bytes < 0 then { size := -1, elementCount := -1 }
  else
    let morebytes := qNextPowerOfTwo bytes.toNat
    -- the signed value of morebytes is negative
    let bytes := if 2 ^ 63 ≤ morebytes then bytes + (morebytes - bytes) / 2 else (morebytes : ℤ)
    let elementCount := bytes / elementSize
    { size := elementCount * elementSize, elementCount := elementCount }

/-- The members of the header, and the `right` member of each slot in the allocated memory. -/
structure QFragmentMapData where
  root : UInt32
  tag : UInt32
  freelist : UInt32
  node_count : UInt32
  allocated : UInt32
  right : List UInt32

namespace QFragmentMapData

/-- What `realloc` answers: nothing, or memory with arbitrary contents behind the old ones. -/
abbrev Memory := Option (ℕ → UInt32)

def realloc (right : List UInt32) (elementCount : ℕ) (contents : ℕ → UInt32) : List UInt32 :=
  (List.range elementCount).map fun i => right.getD i (contents i)

def setRight (d : QFragmentMapData) (i right : UInt32) : Exec QFragmentMapData :=
  if i.toNat < d.right.length then .ok { d with right := d.right.set i.toNat right }
  else .error .undefined

def getRight (d : QFragmentMapData) (i : UInt32) : Exec UInt32 :=
  match d.right[i.toNat]? with
  | some right => .ok right
  | none => .error .undefined

/-- `init`, at first with no data. -/
def init (memory : Memory) (old : Option QFragmentMapData) : Exec QFragmentMapData := do
  let d ← match memory, old with
    | some contents, old => pure (allocated 64 (realloc (old.elim [] QFragmentMapData.right) 64
        contents))
    | none, some d => pure (allocated d.allocated d.right)
    | none, none => .error .badAlloc
  d.setRight 1 0
where
  allocated (allocated : UInt32) (right : List UInt32) : QFragmentMapData :=
    -- TAG('p', 'm', 'a', 'p')
    { root := 0, tag := 0x706d6170, freelist := 1, node_count := 0, allocated := allocated,
      right := right }

/-- `createFragment`, as far as it grows the memory. -/
def growFragments (fragmentSize : ℕ) (memory : Memory) (d : QFragmentMapData) :
    Exec QFragmentMapData :=
  let freePos := d.freelist
  if freePos = d.allocated then
    -- need to create some free space
    let blockInfo := qCalculateGrowingBlockSize (freePos + 1).toNat fragmentSize
    match memory with
    | none => .error .badAlloc
    | some contents =>
      -- no memory has SIZE_MAX bytes
      if blockInfo.size < 0 then .error .badAlloc
      else
        let newFragments := realloc d.right blockInfo.elementCount.toNat contents
        let allocated := UInt32.ofNat blockInfo.elementCount.toNat
        { d with right := newFragments, allocated := allocated }.setRight freePos 0
  else .ok d

/-- `createFragment`, once there is a free slot. -/
def takeFree (d : QFragmentMapData) : Exec (UInt32 × QFragmentMapData) := do
  let freePos := d.freelist
  let nextPos ← d.getRight freePos
  let (nextPos, d) ← if nextPos = 0 then do
      let nextPos := freePos + 1
      let d ← if nextPos < d.allocated then d.setRight nextPos 0 else pure d
      pure (nextPos, d)
    else pure (nextPos, d)
  pure (freePos, { d with freelist := nextPos, node_count := d.node_count + 1 })

def createFragment (fragmentSize : ℕ) (memory : Memory) (d : QFragmentMapData) :
    Exec (UInt32 × QFragmentMapData) := do
  qAssert (d.freelist ≤ d.allocated)
  let d ← growFragments fragmentSize memory d
  takeFree d

def freeFragment (i : UInt32) (d : QFragmentMapData) : Exec QFragmentMapData := do
  let d ← d.setRight i d.freelist
  pure { d with freelist := i, node_count := d.node_count - 1 }

/-! ## The list of free slots -/

/-- The links, by number. -/
def next (d : QFragmentMapData) (i : ℕ) : ℕ := (d.right.getD i 0).toNat

/-- The free slots are `chain`, and the slots from `stop` on were never used. -/
structure Inv (d : QFragmentMapData) (live : Finset ℕ) (stop : ℕ) (chain : List ℕ) : Prop where
  list : FreeList d.next 1 d.freelist.toNat stop live chain
  length : d.right.length = d.allocated.toNat
  stop_le : stop ≤ d.allocated.toNat
  /-- The link that ends the chain is only written if there is memory for it. -/
  frontier : stop < d.allocated.toNat → d.next stop = 0
  count : d.node_count.toNat = live.card
  one_lt : 1 < d.allocated.toNat

/-- Where the memory has to grow, the new number of slots is a `quint32`. -/
def GrowthFits (fragmentSize : ℕ) (d : QFragmentMapData) : Prop :=
  d.freelist = d.allocated → d.freelist.toNat + 1 < 2 ^ 32 ∧
    (qCalculateGrowingBlockSize (d.freelist.toNat + 1) fragmentSize).elementCount < 2 ^ 32

/-! ### Memory -/

theorem lt_qNextPowerOfTwo (v : ℕ) : v < qNextPowerOfTwo v := by
  unfold qNextPowerOfTwo
  split
  · omega
  · exact lt_log2_self

theorem le_elementCount {n s : ℕ} (hs : 0 < s) :
    (qCalculateGrowingBlockSize n s).size < 0 ∨
      (n : ℤ) ≤ (qCalculateGrowingBlockSize n s).elementCount := by
  unfold qCalculateGrowingBlockSize qCalculateBlockSize
  by_cases hbytes : 2 ^ 63 ≤ s * n
  · left
    rw [if_pos hbytes]
    dsimp only
    rw [if_pos (by decide)]
    decide
  · right
    rw [if_neg hbytes]
    have hnonneg : ¬((s * n : ℕ) : ℤ) < 0 := by omega
    have hmore := lt_qNextPowerOfTwo (s * n)
    dsimp only
    rw [if_neg hnonneg, Int.toNat_natCast]
    dsimp only
    rw [Int.le_ediv_iff_mul_le (by omega), Int.mul_comm]
    push_cast
    split <;> omega

theorem length_realloc (right : List UInt32) (n : ℕ) (contents : ℕ → UInt32) :
    (realloc right n contents).length = n := by
  unfold realloc
  rw [length_map, length_range]

variable {d d' : QFragmentMapData} {live : Finset ℕ} {stop : ℕ} {chain : List ℕ} {i v : UInt32}

theorem setRight_ok (hi : i.toNat < d.right.length) :
    d.setRight i v = .ok { d with right := d.right.set i.toNat v } := if_pos hi

theorem getRight_ok (hi : i.toNat < d.right.length) :
    ∃ r, d.getRight i = .ok r ∧ r.toNat = d.next i.toNat := by
  refine ⟨d.right[i.toNat], ?_, ?_⟩
  · unfold getRight
    rw [List.getElem?_eq_getElem hi]
  · unfold next
    rw [getD_eq_getElem _ _ hi]

theorem next_set (hi : i.toNat < d.right.length) :
    next { d with right := d.right.set i.toNat v } = update d.next i.toNat v.toNat := by
  funext j
  unfold next
  by_cases h : j = i.toNat
  · subst h
    simp [hi]
  · rw [update_of_ne h]
    simp [List.getD, Ne.symm h]

/-! ### One call -/

theorem Inv.count_lt (h : d.Inv live stop chain) : live.card + 1 < 2 ^ 32 := by
  have hcard := h.list.card_add_length
  have hstop := h.stop_le
  have hlt := d.allocated.toNat_lt
  omega

theorem Inv.node_count_succ (h : d.Inv live stop chain) {i : ℕ} (hi : i ∉ live) :
    (d.node_count + 1).toNat = (insert i live).card := by
  have hlt := h.count_lt
  rw [Finset.card_insert_of_notMem hi, UInt32.toNat_add, h.count]
  exact mod_eq_of_lt hlt

theorem Inv.takeFree_chain {p : ℕ} (h : d.Inv live stop (p :: chain)) :
    ∃ d', d.takeFree = .ok (d.freelist, d') ∧ d'.allocated = d.allocated ∧
      d'.Inv (insert d.freelist.toNat live) stop chain := by
  have hp : d.freelist.toNat = p := h.list.linked.1
  have hmem : p ∈ p :: chain := mem_cons_self
  have hlt := h.list.lt_of_mem hmem
  have hstop := h.stop_le
  have hlength := h.length
  have htake := h.list.take
  obtain ⟨r, hr, hnext⟩ := getRight_ok (d := d) (i := d.freelist) (by omega)
  rw [hp] at hnext
  have hne : r ≠ 0 := by
    rintro rfl
    have hfirst := htake.first_le
    rw [← hnext] at hfirst
    exact absurd hfirst.1 (by decide)
  refine ⟨{ d with freelist := r, node_count := d.node_count + 1 }, ?_, rfl, ?_⟩
  · unfold takeFree
    dsimp only
    rw [hr, ok_bind, if_neg hne]
    rfl
  · rw [hp]
    exact {
      list := by
        show FreeList d.next 1 r.toNat stop _ _
        rw [hnext]
        exact htake
      length := hlength
      stop_le := hstop
      frontier := h.frontier
      count := h.node_count_succ (h.list.dead p hmem)
      one_lt := h.one_lt }

/-- The first slot never used is taken; the next one ends the chain, if there is memory for it. -/
theorem Inv.takeFree_room (h : d.Inv live stop []) (hroom : stop < d.allocated.toNat) :
    ∃ d', d.takeFree = .ok (d.freelist, d') ∧ d'.allocated = d.allocated ∧
      d'.Inv (insert d.freelist.toNat live) (stop + 1) [] := by
  have hfirst : d.freelist.toNat = stop := h.list.linked
  have hlength := h.length
  have hlt := d.allocated.toNat_lt
  have hlow := h.list.low_le
  have hnotMem := h.list.first_notMem
  rw [hfirst] at hnotMem
  obtain ⟨r, hr, hnext⟩ := getRight_ok (d := d) (i := d.freelist) (by omega)
  rw [hfirst, h.frontier hroom] at hnext
  have hzero : r = 0 := UInt32.toNat_inj.1 hnext
  have hsucc : (d.freelist + 1).toNat = stop + 1 := by
    rw [UInt32.toNat_add, hfirst]
    exact mod_eq_of_lt (by show stop + 1 < 2 ^ 32; omega)
  have hcount := h.node_count_succ hnotMem
  rw [hfirst]
  by_cases hmore : d.freelist + 1 < d.allocated
  · have hindex := UInt32.lt_iff_toNat_lt.1 hmore
    refine ⟨{ d with freelist := d.freelist + 1, node_count := d.node_count + 1,
                     right := d.right.set (d.freelist + 1).toNat 0 }, ?_, rfl, ?_⟩
    · unfold takeFree
      dsimp only
      rw [hr, ok_bind, if_pos hzero, if_pos hmore, setRight_ok (by omega)]
      rfl
    · exact {
        list := by
          show FreeList _ 1 (d.freelist + 1).toNat _ _ _
          rw [hsucc]
          exact h.list.extend
        length := (length_set ..).trans hlength
        stop_le := by
          show stop + 1 ≤ d.allocated.toNat
          omega
        frontier := by
          intro _
          show next { d with right := d.right.set (d.freelist + 1).toNat 0 } (stop + 1) = 0
          rw [next_set (by omega), hsucc, update_self]
          rfl
        count := hcount
        one_lt := h.one_lt }
  · have hlast : ¬stop + 1 < d.allocated.toNat := by
      rw [← hsucc]
      exact fun hlt => hmore (UInt32.lt_iff_toNat_lt.2 hlt)
    refine ⟨{ d with freelist := d.freelist + 1, node_count := d.node_count + 1 }, ?_, rfl, ?_⟩
    · unfold takeFree
      dsimp only
      rw [hr, ok_bind, if_pos hzero, if_neg hmore]
      rfl
    · exact {
        list := by
          show FreeList _ 1 (d.freelist + 1).toNat _ _ _
          rw [hsucc]
          exact h.list.extend
        length := hlength
        stop_le := by
          show stop + 1 ≤ d.allocated.toNat
          omega
        frontier := fun hlt => absurd hlt hlast
        count := hcount
        one_lt := h.one_lt }

theorem Inv.growFragments {s : ℕ} (hs : 0 < s) (h : d.Inv live stop []) (hfit : d.GrowthFits s)
    (hfull : stop = d.allocated.toNat) (memory : Memory) :
    d.growFragments s memory = .error .badAlloc ∧
        (memory = none ∨ (qCalculateGrowingBlockSize (stop + 1) s).size < 0) ∨
      ∃ d', d.growFragments s memory = .ok d' ∧ d'.freelist = d.freelist ∧
        (d'.allocated.toNat : ℤ) = (qCalculateGrowingBlockSize (stop + 1) s).elementCount ∧
        stop < d'.allocated.toNat ∧ d'.Inv live stop [] := by
  have hfirst : d.freelist.toNat = stop := h.list.linked
  have heq : d.freelist = d.allocated := UInt32.toNat_inj.1 (hfirst.trans hfull)
  obtain ⟨hsmall, hcount⟩ := hfit heq
  have hsucc : (d.freelist + 1).toNat = stop + 1 := by
    rw [UInt32.toNat_add, hfirst]
    exact mod_eq_of_lt (by show stop + 1 < 2 ^ 32; omega)
  rw [hfirst] at hcount
  unfold QFragmentMapData.growFragments
  dsimp only
  rw [if_pos heq, hsucc]
  cases memory with
  | none => exact .inl ⟨rfl, .inl rfl⟩
  | some contents =>
    by_cases hsize : (qCalculateGrowingBlockSize (stop + 1) s).size < 0
    · exact .inl ⟨if_pos hsize, .inr hsize⟩
    right
    have hroom := (le_elementCount (n := stop + 1) hs).resolve_left hsize
    obtain ⟨count, hcount'⟩ : ∃ count : ℕ,
        (qCalculateGrowingBlockSize (stop + 1) s).elementCount = count :=
      ⟨_, (Int.toNat_of_nonneg (by omega)).symm⟩
    rw [hcount'] at hroom hcount ⊢
    dsimp only
    rw [if_neg hsize, Int.toNat_natCast]
    have hofNat : (UInt32.ofNat count).toNat = count := by
      rw [UInt32.toNat_ofNat']
      exact mod_eq_of_lt (by omega)
    have hlength := length_realloc d.right count contents
    refine ⟨_, setRight_ok (by rw [hlength, hfirst]; omega), rfl, ?_, ?_, ?_⟩
    · rw [hofNat]
    · show stop < (UInt32.ofNat count).toNat
      omega
    · exact {
        list := h.list.congr fun p hp => absurd hp not_mem_nil
        length := by
          rw [length_set, hlength, hofNat]
        stop_le := by
          show stop ≤ (UInt32.ofNat count).toNat
          omega
        frontier := by
          intro _
          rw [next_set (by rw [hlength, hfirst]; omega), hfirst, update_self]
          rfl
        count := h.count
        one_lt := by
          show 1 < (UInt32.ofNat count).toNat
          have hlow := h.list.low_le
          omega }

theorem growFragments_room {s : ℕ} (h : d.freelist.toNat < d.allocated.toNat) (memory : Memory) :
    d.growFragments s memory = .ok d := by
  refine if_neg fun heq => ?_
  rw [heq] at h
  omega

theorem Inv.createFragment_eq {s : ℕ} (h : d.Inv live stop chain) (memory : Memory) :
    d.createFragment s memory = (d.growFragments s memory >>= takeFree) := by
  have hle := h.list.first_le
  have hstop := h.stop_le
  have hassert : d.freelist ≤ d.allocated := UInt32.le_iff_toNat_le.2 (by omega)
  unfold QFragmentMapData.createFragment
  rw [qAssert_pos hassert, ok_bind]

theorem Inv.createFragment {s : ℕ} (hs : 0 < s) (h : d.Inv live stop chain) (hfit : d.GrowthFits s)
    (memory : Memory) : d.createFragment s memory = .error .badAlloc ∨
      ∃ d', d.createFragment s memory = .ok (d.freelist, d') ∧
        d.freelist.toNat < d'.allocated.toNat ∧
        d'.Inv (insert d.freelist.toNat live) (if chain = [] then stop + 1 else stop)
          chain.tail := by
  have hle := h.list.first_le
  have hstop := h.stop_le
  rw [h.createFragment_eq]
  cases chain with
  | cons p chain =>
    have hp : d.freelist.toNat = p := h.list.linked.1
    have hlt := h.list.lt_of_mem (mem_cons_self (a := p) (l := chain))
    right
    obtain ⟨d', hd', hallocated, hinv⟩ := h.takeFree_chain
    rw [growFragments_room (by omega), ok_bind, hd']
    exact ⟨d', rfl, by rw [hallocated]; omega, by rwa [if_neg (cons_ne_nil p chain)]⟩
  | nil =>
    have hfirst : d.freelist.toNat = stop := h.list.linked
    rw [if_pos rfl]
    by_cases hroom : stop < d.allocated.toNat
    · right
      obtain ⟨d', hd', hallocated, hinv⟩ := h.takeFree_room hroom
      rw [growFragments_room (by omega), ok_bind, hd']
      exact ⟨d', rfl, by rw [hallocated]; omega, hinv⟩
    · rcases h.growFragments hs hfit (by omega) memory with
        ⟨hbad, -⟩ | ⟨d₁, hd₁, hfree, -, hroom₁, h₁⟩
      · left
        rw [hbad]
        rfl
      · right
        obtain ⟨d', hd', hallocated, hinv⟩ := h₁.takeFree_room hroom₁
        rw [hd₁, ok_bind, hd']
        rw [hfree] at hinv ⊢
        exact ⟨d', rfl, by rw [hallocated]; omega, hinv⟩

theorem Inv.freeFragment (h : d.Inv live stop chain) (hi : i.toNat ∈ live) :
    ∃ d', d.freeFragment i = .ok d' ∧ d'.Inv (live.erase i.toNat) stop (i.toNat :: chain) := by
  have hlt := h.list.lt_of_live hi
  have hstop := h.stop_le
  have hlength := h.length
  have hpos := Finset.card_pos.2 ⟨_, hi⟩
  refine ⟨{ d with right := d.right.set i.toNat d.freelist, freelist := i,
                   node_count := d.node_count - 1 }, ?_, ?_⟩
  · unfold QFragmentMapData.freeFragment
    rw [setRight_ok (by omega)]
    rfl
  · exact {
      list := by
        show FreeList (next { d with right := d.right.set i.toNat d.freelist }) 1 i.toNat _ _ _
        rw [next_set (by omega)]
        exact h.list.release hi
      length := (length_set ..).trans hlength
      stop_le := hstop
      frontier := by
        intro hroom
        show next { d with right := d.right.set i.toNat d.freelist } stop = 0
        rw [next_set (by omega), update_of_ne (by omega)]
        exact h.frontier hroom
      count := by
        show (d.node_count - 1).toNat = _
        have hone : (1 : UInt32) ≤ d.node_count := by
          rw [UInt32.le_iff_toNat_le, h.count]
          exact hpos
        rw [UInt32.toNat_sub_of_le _ _ hone, h.count, Finset.card_erase_of_mem hi]
        rfl
      one_lt := h.one_lt }

theorem Inv.setRight (h : d.Inv live stop chain) (hi : i.toNat ∈ live) (v : UInt32) :
    ∃ d', d.setRight i v = .ok d' ∧ d'.Inv live stop chain := by
  have hlt := h.list.lt_of_live hi
  have hstop := h.stop_le
  have hlength := h.length
  refine ⟨_, setRight_ok (by omega), ?_⟩
  have hnext : ∀ j, j ≠ i.toNat →
      next { d with right := d.right.set i.toNat v } j = d.next j := by
    intro j hj
    rw [next_set (by omega), update_of_ne hj]
  exact {
    list := h.list.congr fun p hp => hnext p fun heq => h.list.dead p hp (heq ▸ hi)
    length := (length_set ..).trans hlength
    stop_le := hstop
    frontier := fun hroom => (hnext stop (by omega)).trans (h.frontier hroom)
    count := h.count
    one_lt := h.one_lt }

theorem inv_initialised {allocated : UInt32} {right : List UInt32} (hlength : right.length =
    allocated.toNat) (hone : 1 < allocated.toNat)
    (h : (init.allocated allocated right).setRight 1 0 = .ok d) : d.Inv ∅ 1 [] := by
  have hindex : (1 : UInt32).toNat < (init.allocated allocated right).right.length := by
    show 1 < right.length
    omega
  rw [setRight_ok hindex, Except.ok.injEq] at h
  rw [← h]
  exact {
    list := FreeList.start _ 1
    length := (length_set ..).trans hlength
    stop_le := le_of_lt hone
    frontier := by
      intro _
      rw [next_set hindex]
      exact update_self ..
    count := rfl
    one_lt := hone }

theorem inv_init {memory : Memory} (h : init memory none = .ok d) : d.Inv ∅ 1 [] := by
  cases memory with
  | none => cases h
  | some contents =>
    have hlength : (realloc [] 64 contents).length = (64 : UInt32).toNat := length_realloc _ _ _
    exact inv_initialised hlength (by decide) h

/-- Memory that could not be made smaller is kept. -/
theorem Inv.init {memory : Memory} (hinv : d.Inv live stop chain)
    (h : QFragmentMapData.init memory (some d) = .ok d') : d'.Inv ∅ 1 [] := by
  cases memory with
  | none => exact inv_initialised hinv.length hinv.one_lt h
  | some contents =>
    have hlength : (realloc d.right 64 contents).length = (64 : UInt32).toNat :=
      length_realloc _ _ _
    exact inv_initialised hlength (by decide) h

end QFragmentMapData

end QtBase
