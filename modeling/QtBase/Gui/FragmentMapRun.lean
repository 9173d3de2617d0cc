import QtBase.Gui.FragmentMap
import Mathlib.Tactic.IntervalCases

/-! Slots of a fragment map over whole runs. -/
namespace QtBase

open Lib List

namespace QFragmentMapData

/-- The data, the slots in use, and those that ever were since `init`. -/
structure World where
  data : QFragmentMapData
  live : Finset ℕ
  used : Finset ℕ

/-- The states that calls lead to, `createFragment` being called only where `p` holds. Callers keep
links of their own in the live slots. -/
inductive Reach (fragmentSize : ℕ) (p : QFragmentMapData → Prop) : World → Prop
  | init {memory d} (h : init memory none = .ok d) :
      Reach fragmentSize p { data := d, live := ∅, used := ∅ }
  | reinit {w memory d} (hw : Reach fragmentSize p w)
      (h : QFragmentMapData.init memory (some w.data) = .ok d) :
      Reach fragmentSize p { data := d, live := ∅, used := ∅ }
  | create {w memory i d} (hw : Reach fragmentSize p w) (hp : p w.data)
      (h : w.data.createFragment fragmentSize memory = .ok (i, d)) :
      Reach fragmentSize p
        { data := d, live := insert i.toNat w.live, used := insert i.toNat w.used }
  | free {w i d} (hw : Reach fragmentSize p w) (hi : i.toNat ∈ w.live)
      (h : w.data.freeFragment i = .ok d) :
      Reach fragmentSize p { data := d, live := w.live.erase i.toNat, used := w.used }
  | link {w i v d} (hw : Reach fragmentSize p w) (hi : i.toNat ∈ w.live)
      (h : w.data.setRight i v = .ok d) :
      Reach fragmentSize p { data := d, live := w.live, used := w.used }

/-- What holds between calls. -/
structure World.Good (w : World) : Prop where
  count : w.data.node_count.toNat = w.live.card
  /-- The chain leads through dead slots, each once, to the first slot never used. -/
  chain : ∃ chain stop, Chain w.data.next w.data.freelist.toNat chain stop ∧ chain.Nodup ∧
    (∀ i ∈ chain, i ∈ w.used ∧ i ∉ w.live) ∧ stop ≤ w.data.allocated.toNat ∧
    ∀ i, i ∈ w.used ↔ 1 ≤ i ∧ i < stop

/-- What a call of `createFragment` is to do. -/
structure World.Creates (w : World) (i : UInt32) (d : QFragmentMapData) : Prop where
  not_live : i.toNat ∉ w.live
  ne_zero : i ≠ 0
  lt_allocated : i < d.allocated

/-- The invariant, with the slots ever used. -/
def World.Inv (w : World) : Prop :=
  ∃ stop chain, w.data.Inv w.live stop chain ∧ ∀ i, i ∈ w.used ↔ 1 ≤ i ∧ i < stop

variable {w : World} {s : ℕ}

theorem World.Inv.good (h : w.Inv) : w.Good := by
  obtain ⟨stop, chain, hinv, hused⟩ := h
  refine ⟨hinv.count, chain, stop, hinv.list.linked, hinv.list.nodup, ?_, hinv.stop_le, hused⟩
  intro i hi
  exact ⟨(hused i).2 (hinv.list.lt_of_mem hi), hinv.list.dead i hi⟩

theorem World.Inv.createFragment (hs : 0 < s) (h : w.Inv) (hfit : w.data.GrowthFits s)
    (memory : Memory) : w.data.createFragment s memory = .error .badAlloc ∨
      ∃ i d, w.data.createFragment s memory = .ok (i, d) ∧ w.Creates i d ∧
        World.Inv { data := d, live := insert i.toNat w.live, used := insert i.toNat w.used } := by
  obtain ⟨stop, chain, hinv, hused⟩ := h
  have hlow := hinv.list.first_le
  rcases hinv.createFragment hs hfit memory with hbad | ⟨d, hd, hlt, hnext⟩
  · exact .inl hbad
  refine .inr ⟨w.data.freelist, d, hd, ⟨hinv.list.first_notMem, ?_, ?_⟩, ?_⟩
  · intro hzero
    rw [hzero] at hlow
    exact absurd hlow.1 (by decide)
  · exact UInt32.lt_iff_toNat_lt.2 hlt
  · refine ⟨_, _, hnext, fun i => ?_⟩
    rw [Finset.mem_insert, hused i]
    cases chain with
    | nil =>
      have hfirst : w.data.freelist.toNat = stop := hinv.list.linked
      rw [if_pos rfl]
      omega
    | cons p chain =>
      have hfirst : w.data.freelist.toNat = p := hinv.list.linked.1
      have hp := hinv.list.lt_of_mem (mem_cons_self (a := p) (l := chain))
      rw [if_neg (cons_ne_nil p chain)]
      omega

theorem Reach.inv (hs : 0 < s) (h : Reach s (GrowthFits s) w) : w.Inv := by
  have hnone : ∀ i, i ∈ (∅ : Finset ℕ) ↔ 1 ≤ i ∧ i < 1 := by
    intro i
    constructor
    · intro hi
      exact absurd hi (Finset.notMem_empty i)
    · omega
  induction h with
  | init h => exact ⟨1, [], inv_init h, hnone⟩
  | reinit _ h ih =>
    obtain ⟨stop, chain, hinv, -⟩ := ih
    exact ⟨1, [], hinv.init h, hnone⟩
  | create _ hp h ih =>
    rcases ih.createFragment hs hp _ with hbad | ⟨i, d, hd, -, hinv⟩
    · rw [hbad] at h
      cases h
    · rw [hd] at h
      cases h
      exact hinv
  | free _ hi h ih =>
    obtain ⟨stop, chain, hinv, hused⟩ := ih
    obtain ⟨d, hd, hnext⟩ := hinv.freeFragment hi
    rw [hd] at h
    cases h
    exact ⟨_, _, hnext, hused⟩
  | link _ hi h ih =>
    obtain ⟨stop, chain, hinv, hused⟩ := ih
    obtain ⟨d, hd, hnext⟩ := hinv.setRight hi _
    rw [hd] at h
    cases h
    exact ⟨_, _, hnext, hused⟩

/-- The data of a new map in zeroed memory. -/
def zeroed : QFragmentMapData := init.allocated 64 (List.replicate 64 0)

theorem init_zeroed : init (some fun _ => 0) none = .ok zeroed := rfl

theorem growth_double {k : ℕ} (hk : 6 ≤ k) (hk' : k ≤ 31) :
    0 ≤ (qCalculateGrowingBlockSize (2 ^ k + 1) 32).size ∧
      (qCalculateGrowingBlockSize (2 ^ k + 1) 32).elementCount = 2 ^ (k + 1) := by
  interval_cases k <;> decide +kernel

/-- The memory of a map that slots were only taken from. -/
structure Doubled (d : QFragmentMapData) (stop k : ℕ) : Prop where
  allocated : d.allocated.toNat = 2 ^ k
  six_le : 6 ≤ k
  le_power : stop ≤ 2 ^ k
  power_lt : k = 6 ∨ 2 ^ k < 2 * stop

theorem fresh_step {n : ℕ} (hn : n + 1 < 2 ^ 31) {d : QFragmentMapData} {live : Finset ℕ} {k : ℕ}
    (h : d.Inv live (n + 1) []) (hd : Doubled d (n + 1) k) :
    ∃ d' k', d.createFragment 32 (some fun _ => 0) = .ok (d.freelist, d') ∧
      d'.Inv (insert d.freelist.toNat live) (n + 2) [] ∧ Doubled d' (n + 2) k' := by
  have hfirst : d.freelist.toNat = n + 1 := h.list.linked
  have hpower := hd.allocated
  have hle := hd.le_power
  have hlt := hd.power_lt
  have hsix := hd.six_le
  rw [h.createFragment_eq]
  by_cases hroom : n + 1 < d.allocated.toNat
  · obtain ⟨d', hd', hallocated, hinv⟩ := h.takeFree_room hroom
    rw [growFragments_room (by omega), ok_bind, hd']
    exact ⟨d', k, rfl, hinv, by rw [hallocated, hpower], hd.six_le, by omega, by omega⟩
  · have hstop := h.stop_le
    have hk : k ≤ 30 := by
      by_contra hk
      have hpow := Nat.pow_le_pow_right (n := 2) (by decide) (show 31 ≤ k by omega)
      omega
    have hfull : n + 1 = 2 ^ k := by omega
    obtain ⟨hsize, hcount⟩ := growth_double hd.six_le (show k ≤ 31 by omega)
    have hpow := Nat.pow_le_pow_right (n := 2) (by decide) (show k + 1 ≤ 31 by omega)
    have hfit : d.GrowthFits 32 := by
      intro _
      rw [hfirst, hfull, hcount]
      exact ⟨by omega, by exact_mod_cast (show 2 ^ (k + 1) < 2 ^ 32 by omega)⟩
    rcases h.growFragments (by decide) hfit (by omega) (some fun _ => 0) with
      ⟨-, hbad⟩ | ⟨d₁, hd₁, hfree, hcount₁, hroom₁, h₁⟩
    · rw [hfull] at hbad
      rcases hbad with hnone | hneg
      · cases hnone
      · omega
    · obtain ⟨d', hd', hallocated, hinv⟩ := h₁.takeFree_room hroom₁
      rw [hfull, hcount] at hcount₁
      have hdouble : d₁.allocated.toNat = 2 ^ (k + 1) := by exact_mod_cast hcount₁
      rw [hd₁, ok_bind, hd']
      rw [hfree] at hinv ⊢
      refine ⟨d', k + 1, rfl, hinv, by rw [hallocated, hdouble], by omega, ?_, .inr ?_⟩
      · omega
      · omega

theorem fresh_run {n : ℕ} (hn : n < 2 ^ 31) : ∃ w, Reach 32 (fun _ => True) w ∧
    ∃ k, w.data.Inv w.live (n + 1) [] ∧ Doubled w.data (n + 1) k := by
  induction n with
  | zero =>
    exact ⟨_, Reach.init init_zeroed, 6, inv_init init_zeroed, rfl, Nat.le_refl 6, by decide,
      .inl rfl⟩
  | succ n ih =>
    obtain ⟨w, hw, k, hinv, hdoubled⟩ := ih (by omega)
    obtain ⟨d', k', hd', hinv', hdoubled'⟩ := fresh_step (by omega) hinv hdoubled
    exact ⟨_, Reach.create hw trivial hd', k', hinv', hdoubled'⟩

theorem growth_wraps {d : QFragmentMapData} (hfirst : d.freelist.toNat = 2 ^ 31)
    (hfull : d.freelist = d.allocated) : ∃ d', d.growFragments 32 (some fun _ => 0) = .ok d' ∧
      d'.freelist = d.freelist ∧ d'.allocated = 0 ∧ d'.right.length = 2 ^ 32 ∧
      d'.next d.freelist.toNat = 0 := by
  have hsucc : (d.freelist + 1).toNat = 2 ^ 31 + 1 := by
    rw [UInt32.toNat_add, hfirst]
    decide
  obtain ⟨hsize, hcount⟩ := growth_double (k := 31) (by decide) (by decide)
  have hnat : (qCalculateGrowingBlockSize (2 ^ 31 + 1) 32).elementCount.toNat = 2 ^ 32 := by
    omega
  have hlength := length_realloc d.right (2 ^ 32) fun _ => 0
  unfold growFragments
  dsimp only
  rw [if_pos hfull, hsucc, if_neg (Int.not_lt.2 hsize), hnat]
  have hzero : UInt32.ofNat (2 ^ 32) = 0 := by decide
  refine ⟨_, setRight_ok (by rw [hlength, hfirst]; decide), rfl, hzero, ?_, ?_⟩
  · rw [length_set, hlength]
  · rw [next_set (by rw [hlength, hfirst]; decide), Function.update_self]
    rfl

end QFragmentMapData

end QtBase
