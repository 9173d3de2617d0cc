import QtBase.Tools.HashEdit
import Mathlib.Data.Finmap

/-! The finite map that a table holds, and what each operation of the table does to it. -/
namespace QtBase.QHashPrivate

open LinearProbing Function Option Bucket

/-- The bucket array for this capacity cannot be allocated. -/
def TooLarge (capacity : ℕ) : Prop := MaxBucketCount < GrowthPolicy.bucketsForCapacity capacity

namespace Data

variable {K V : Type} {calculateHash : K → ℕ → ℕ} {d d' : Data K V}

/-- The same nodes in the same buckets, as a detached copy has them. -/
structure SameTable (d d' : Data K V) : Prop where
  numBuckets : d'.numBuckets = d.numBuckets
  seed : d'.seed = d.seed
  size : d'.size = d.size
  cell : ∀ b < d.numBuckets, d'.cell b = d.cell b

theorem SameTable.refl (d : Data K V) : SameTable d d := ⟨rfl, rfl, rfl, fun _ _ => rfl⟩

theorem SameTable.symm (h : SameTable d d') : SameTable d' d :=
  ⟨h.numBuckets.symm, h.seed.symm, h.size.symm,
    fun b hb => (h.cell b (h.numBuckets ▸ hb)).symm⟩

variable [DecidableEq K] {m : Finmap fun _ : K => V}

/-- A sound table with the entries of the map. -/
structure Models (calculateHash : K → ℕ → ℕ) (d : Data K V) (m : Finmap fun _ : K => V) : Prop
    extends d.Inv calculateHash where
  lookup : ∀ n, Holds d.numBuckets d.cell n ↔ m.lookup n.key = some n.value

theorem models_empty (h : d.Inv calculateHash) (hc : ∀ b, d.cell b = none) :
    d.Models calculateHash ∅ := by
  refine ⟨h, fun n => ⟨?_, ?_⟩⟩
  · rintro ⟨b, -, hn⟩
    simp [hc] at hn
  · intro hn
    simp at hn

namespace Models

theorem congr (h : d.Models calculateHash m) (hinv : d'.Inv calculateHash)
    (hh : ∀ n, Holds d'.numBuckets d'.cell n ↔ Holds d.numBuckets d.cell n) :
    d'.Models calculateHash m :=
  ⟨hinv, fun n => (hh n).trans (h.lookup n)⟩

theorem lookup_of_cell (h : d.Models calculateHash m) {b : ℕ} (hb : b < d.numBuckets)
    {n : Node K V} (hc : d.cell b = some n) : m.lookup n.key = some n.value :=
  (h.lookup n).mp ⟨b, hb, hc⟩

theorem exists_cell (h : d.Models calculateHash m) {key : K} {v : V} (hv : m.lookup key = some v) :
    ∃ b < d.numBuckets, d.cell b = some ⟨key, v⟩ := (h.lookup ⟨key, v⟩).mpr hv

theorem size_eq_card (h : d.Models calculateHash m) : d.size = m.keys.card := by
  rw [← h.size_eq]
  refine Finset.card_bij (fun b hb => ((d.cell b).get (Finset.mem_filter.mp hb).2).key) ?_ ?_ ?_
  · intro b hb
    obtain ⟨hlt, n, hn⟩ := mem_occupied.1 hb
    simp only [hn, get_some]
    exact Finmap.mem_keys.mpr (Finmap.mem_of_lookup_eq_some (h.lookup_of_cell hlt hn))
  · intro b hb b' hb' hk
    obtain ⟨hlt, n, hn⟩ := mem_occupied.1 hb
    obtain ⟨hlt', n', hn'⟩ := mem_occupied.1 hb'
    simp only [hn, hn', get_some] at hk
    exact h.distinct b hlt b' hlt' n n' hn hn' hk
  · intro key hkey
    obtain ⟨v, hv⟩ := Finmap.mem_iff.mp (Finmap.mem_keys.mp hkey)
    obtain ⟨b, hb, hc⟩ := h.exists_cell hv
    exact ⟨b, mem_occupied.2 ⟨hb, _, hc⟩, by simp [hc]⟩

theorem copy (h : d.Models calculateHash m) :
    ∃ d', d.copy calculateHash = .ok d' ∧ d'.Models calculateHash m ∧ SameTable d d' := by
  obtain ⟨d', hrun, hinv, hnb, hsd, hsz, hcell⟩ := copy_spec h.toInv
  exact ⟨d', hrun, h.congr hinv fun n => by rw [hnb]; exact holds_congr hcell n,
    hnb, hsd, hsz, hcell⟩

theorem findBucket (h : d.Models calculateHash m) (key : K) :
    ∃ r < d.numBuckets, d.findBucket calculateHash key = .ok (ofIndex r) ∧
      ((∃ v, d.cell r = some ⟨key, v⟩ ∧ m.lookup key = some v) ∨
        (d.cell r = none ∧ m.lookup key = none)) := by
  obtain ⟨r, hr, hfind, -, hres⟩ := findBucket_spec h.toStorage h.probed h.exists_empty key
  refine ⟨r, hr, hfind, ?_⟩
  rcases hres with ⟨v, hv⟩ | ⟨hfree, hnew⟩
  · exact .inl ⟨v, hv, h.lookup_of_cell hr hv⟩
  · refine .inr ⟨hfree, eq_none_iff_forall_ne_some.mpr fun v hv => ?_⟩
    obtain ⟨b, hb, hc⟩ := h.exists_cell hv
    exact hnew b hb _ hc rfl

theorem findNode (h : d.Models calculateHash m) (key : K) :
    d.findNode calculateHash key = .ok ((m.lookup key).map (Node.mk key)) := by
  obtain ⟨r, hr, hfind, hres⟩ := h.findBucket key
  rw [Data.findNode, hfind, ok_bind, h.isUnused_eq hr]
  rcases hres with ⟨v, hc, hv⟩ | ⟨hc, hv⟩
  · simp [hc, hv, h.node_eq hr hc]
  · simp [hc, hv]

/-- Assignment to the value of the node of a key. -/
theorem assign (h : d.Models calculateHash m) {b : ℕ} (hb : b < d.numBuckets) {key : K} {v₀ : V}
    (hc : d.cell b = some ⟨key, v₀⟩) (v : V) :
    (d.construct (ofIndex b) ⟨key, v⟩).Models calculateHash (m.insert key v) ∧
      (d.construct (ofIndex b) ⟨key, v⟩).cell b = some ⟨key, v⟩ := by
  obtain ⟨hinv, hcl⟩ := h.toInv.assign hb hc v
  have hself : (d.construct (ofIndex b) ⟨key, v⟩).cell b = some ⟨key, v⟩ := by
    rw [hcl, update_self]
  refine ⟨⟨hinv, fun n => ?_⟩, hself⟩
  by_cases hk : n.key = key
  · rw [hk, Finmap.lookup_insert, some.injEq]
    constructor
    · rintro ⟨c, hcn, hce⟩
      have hcb := hinv.distinct c hcn b hb n _ hce hself hk
      rw [hcb, hself, some.injEq] at hce
      rw [← hce]
    · rintro rfl
      exact ⟨b, hb, by rw [hself, ← hk]⟩
  · rw [Finmap.lookup_insert_of_ne _ hk, ← h.lookup]
    refine exists_congr fun c => and_congr_right fun _ => ?_
    rw [hcl]
    by_cases hcb : c = b
    · rw [hcb, update_self, hc]
      refine iff_of_false ?_ ?_ <;>
      · rw [some.injEq]
        rintro rfl
        exact hk rfl
    · rw [update_of_ne hcb]

theorem findOrInsert (h : d.Models calculateHash m) (key : K) :
    Ends (d.findOrInsert calculateHash key) (TooLarge (d.size + 1)) fun r =>
      ∃ b < r.1.numBuckets, r.2.1 = ofIndex b ∧
        ((r.2.2 = true ∧ r.1 = d ∧ ∃ v, d.cell b = some ⟨key, v⟩ ∧ m.lookup key = some v) ∨
          (r.2.2 = false ∧ m.lookup key = none ∧ ∀ v,
            (r.1.construct (ofIndex b) ⟨key, v⟩).Models calculateHash (m.insert key v) ∧
            (r.1.construct (ofIndex b) ⟨key, v⟩).cell b = some ⟨key, v⟩)) := by
  rcases findOrInsert_spec h.toInv key with ⟨herr, hmax, -⟩ | ⟨b, hb, v, hrun, hc⟩ |
    ⟨d₁, b, hrun, hb, habs, hcons⟩
  · exact .inr ⟨herr, hmax⟩
  · exact .inl ⟨_, hrun, b, hb, rfl, .inl ⟨rfl, rfl, v, hc, h.lookup_of_cell hb hc⟩⟩
  · have hnone : m.lookup key = none :=
      eq_none_iff_forall_ne_some.mpr fun v hv => habs ⟨key, v⟩ ((h.lookup _).mpr hv) rfl
    refine .inl ⟨_, hrun, b, hb, rfl, .inr ⟨rfl, hnone, fun v => ?_⟩⟩
    obtain ⟨d₂, heq, hinv, hc, -, -, hholds⟩ := hcons v
    simp only
    rw [← heq]
    refine ⟨⟨hinv, fun n => ?_⟩, hc⟩
    rw [hholds, h.lookup]
    by_cases hk : n.key = key
    · rw [hk, Finmap.lookup_insert, hnone, some.injEq]
      constructor
      · rintro (h' | rfl)
        · cases h'
        · rfl
      · rintro rfl
        exact .inr (by rw [← hk])
    · rw [Finmap.lookup_insert_of_ne _ hk]
      refine or_iff_left ?_
      rintro rfl
      exact hk rfl

theorem erase (h : d.Models calculateHash m) {b : ℕ}
    (hb : b < d.numBuckets) {n : Node K V} (hc : d.cell b = some n) :
    ∃ d' hole, d.erase calculateHash (ofIndex b) = .ok d' ∧
      d'.Models calculateHash (m.erase n.key) ∧ d'.numBuckets = d.numBuckets ∧ d'.seed = d.seed ∧
      backshift d.numBuckets (d.home calculateHash) d.numBuckets (update d.cell b none) b
        (succ d.numBuckets b) = some (d'.cell, hole) := by
  obtain ⟨d', hole, hrun, hinv, hnb, hsd, -, hshift, hholds⟩ := erase_spec h.toInv hb hc
  refine ⟨d', hole, hrun, ⟨hinv, fun n' => ?_⟩, hnb, hsd, hshift⟩
  rw [hholds, h.lookup]
  by_cases hk : n'.key = n.key
  · rw [hk, Finmap.lookup_erase]
    simp
  · rw [Finmap.lookup_erase_ne hk]
    exact and_iff_left hk

end Models

end Data

end QtBase.QHashPrivate
