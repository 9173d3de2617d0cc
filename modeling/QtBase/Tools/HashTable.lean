import QtBase.Tools.HashData
import Mathlib.Tactic.Ring

/-! `QHashPrivate::Data` refines a linear-probing table: the spans give each bucket its cell,
and lookup, insertion, copying and erasure act on the cells as the abstract operations do. -/
namespace QtBase.QHashPrivate

open LinearProbing Function Bucket

namespace Bucket

variable {K V : Type}

theorem ofIndex_eq (b : ℕ) : ofIndex b = ⟨b / 128, b % 128⟩ := by
  have h : b &&& LocalBucketMask = b % 2 ^ 7 := Nat.and_two_pow_sub_one_eq_mod b 7
  rw [ofIndex, h, SpanShift, Nat.shiftRight_eq_div_pow]
  rfl

theorem toBucketIndex_ofIndex (b : ℕ) : (ofIndex b).toBucketIndex = b := by
  have h : b % 128 < 2 ^ 7 := Nat.mod_lt _ (by decide)
  rw [ofIndex_eq, toBucketIndex, SpanShift, ← Nat.shiftLeft_add_eq_or_of_lt h, Nat.shiftLeft_eq]
  exact Nat.div_add_mod' b 128

theorem ofIndex_inj {a b : ℕ} : ofIndex a = ofIndex b ↔ a = b :=
  ⟨fun h => by rw [← toBucketIndex_ofIndex a, h, toBucketIndex_ofIndex], fun h => by rw [h]⟩

theorem advanceWrapped_ofIndex {d : Data K V} {m b : ℕ} (hm : d.numBuckets = 128 * m)
    (hb : b < d.numBuckets) : (ofIndex b).advanceWrapped d = ofIndex (succ d.numBuckets b) := by
  have hs : d.numBuckets >>> SpanShift = m := by
    rw [SpanShift, Nat.shiftRight_eq_div_pow, hm]
    exact Nat.mul_div_cancel_left m (by decide)
  simp only [ofIndex_eq, advanceWrapped, hs, nEntries_eq, succ]
  split_ifs <;> simp only [mk.injEq] <;> omega

end Bucket

namespace Data

variable {K V : Type}

/-- The node in a bucket. -/
def cell (d : Data K V) (b : ℕ) : Option (Node K V) := (d.spans (b / NEntries)).cell (b % NEntries)

def home (calculateHash : K → ℕ → ℕ) (d : Data K V) (n : Node K V) : ℕ :=
  GrowthPolicy.bucketForHash d.numBuckets (calculateHash n.key d.seed)

/-- Power-of-two size that could be allocated, and sound spans. -/
structure Storage (d : Data K V) : Prop where
  pow : ∃ k, d.numBuckets = 2 ^ (k + 7)
  le_max : d.numBuckets ≤ MaxBucketCount
  spans : ∀ s < d.numBuckets / 128, (d.spans s).Inv

/-- The state of every table that the member functions leave behind. -/
structure Inv (calculateHash : K → ℕ → ℕ) (d : Data K V) : Prop extends Storage d where
  probed : Probed d.numBuckets (d.home calculateHash) d.cell
  distinct : Distinct d.numBuckets Node.key d.cell
  size_eq : (occupied d.numBuckets d.cell).card = d.size
  load : 2 * d.size ≤ d.numBuckets

theorem bucketForHash_eq {n k : ℕ} (hn : n = 2 ^ k) (hash : ℕ) :
    GrowthPolicy.bucketForHash n hash = hash % n := by
  rw [GrowthPolicy.bucketForHash, hn, Nat.and_two_pow_sub_one_eq_mod]

variable {b : ℕ} {n : Node K V}

namespace Storage

variable {d : Data K V} (hs : d.Storage)
include hs

theorem exists_mul : ∃ m, 0 < m ∧ d.numBuckets = 128 * m := by
  obtain ⟨k, hk⟩ := hs.pow
  exact ⟨2 ^ k, by positivity, by rw [hk, pow_add]; ring⟩

theorem numBuckets_pos : 0 < d.numBuckets := by
  obtain ⟨m, hm, h⟩ := hs.exists_mul
  omega

theorem home_lt (calculateHash : K → ℕ → ℕ) (n : Node K V) : d.home calculateHash n < d.numBuckets := by
  obtain ⟨k, hk⟩ := hs.pow
  rw [home, bucketForHash_eq hk]
  exact Nat.mod_lt _ hs.numBuckets_pos

theorem span_inv (hb : b < d.numBuckets) : (d.spans (b / 128)).Inv := by
  obtain ⟨m, -, hm⟩ := hs.exists_mul
  exact hs.spans _ (by omega)

theorem advance (hb : b < d.numBuckets) :
    (ofIndex b).advanceWrapped d = ofIndex (succ d.numBuckets b) := by
  obtain ⟨m, -, hm⟩ := hs.exists_mul
  exact advanceWrapped_ofIndex hm hb

theorem offset_eq_unused (hb : b < d.numBuckets) :
    (d.spans (ofIndex b).span).offset (ofIndex b).index = UnusedEntry ↔
      d.cell b = none := by
  rw [ofIndex_eq]
  exact ((hs.span_inv hb).cell_eq_none (Nat.mod_lt _ (by decide))).symm

theorem isUnused_iff (hb : b < d.numBuckets) :
    d.isUnused (ofIndex b) = true ↔ d.cell b = none := by
  rw [← hs.offset_eq_unused hb]
  simp [isUnused, Span.hasNode, Span.offset]

theorem node_eq (hb : b < d.numBuckets) (hc : d.cell b = some n) :
    d.node (ofIndex b) = .ok n := by
  rw [ofIndex_eq]
  exact (hs.span_inv hb).at_eq (Nat.mod_lt _ (by decide)) hc

theorem cell_of_node (hb : b < d.numBuckets)
    (hn : d.node (ofIndex b) = .ok n) : d.cell b = some n := by
  cases hc : d.cell b with
  | some n' =>
    rw [hs.node_eq hb hc, Except.ok.injEq] at hn
    rw [hn]
  | none =>
    have hu := (hs.offset_eq_unused hb).mpr hc
    have hmod : b % 128 < 128 := Nat.mod_lt _ (by decide)
    rw [ofIndex_eq] at hu hn
    simp only [Span.offset] at hu
    simp [node, Span.at, hmod, hu] at hn

theorem atOffset_eq (hb : b < d.numBuckets) (hc : d.cell b = some n) :
    (d.spans (ofIndex b).span).atOffset
      ((d.spans (ofIndex b).span).offset (ofIndex b).index) = .ok n := by
  rw [ofIndex_eq]
  exact (hs.span_inv hb).atOffset_eq (Nat.mod_lt _ (by decide)) hc

end Storage

/-! ## Iterators -/

theorem Storage.isUnused_eq {d : Data K V} (hs : d.Storage) (hb : b < d.numBuckets) :
    d.isUnused (ofIndex b) = !(d.cell b).isSome := by
  rw [Bool.eq_iff_iff, hs.isUnused_iff hb]
  simp

theorem Storage.increment_eq {d : Data K V} (hs : d.Storage) (k : ℕ) (hb : b < d.numBuckets)
    (hk : d.numBuckets ≤ k + b) :
    d.increment k b = .ok (nextOccupied d.numBuckets d.cell (b + 1)) := by
  induction k generalizing b with
  | zero => omega
  | succ k ih =>
    simp only [increment]
    by_cases hend : b + 1 = d.numBuckets
    · rw [if_pos hend, nextOccupied_of_le hend.ge]
    · have hlt : b + 1 < d.numBuckets := by omega
      rw [if_neg hend, hs.isUnused_eq hlt, nextOccupied_of_lt hlt, ih hlt (by omega)]
      cases (d.cell (b + 1)).isSome <;> rfl

theorem Storage.begin_eq {d : Data K V} (hs : d.Storage) :
    d.begin = .ok (nextOccupied d.numBuckets d.cell 0) := by
  have hpos := hs.numBuckets_pos
  rw [begin, hs.isUnused_eq hpos, nextOccupied_of_lt hpos, hs.increment_eq _ hpos (by omega)]
  cases (d.cell 0).isSome <;> rfl

/-- Where iteration goes on after an erasure at bucket `b`: there, unless that is empty now or
the last bucket. -/
theorem Storage.resume {d : Data K V} (hs : d.Storage) (hb : b < d.numBuckets) :
    let next := nextOccupied d.numBuckets d.cell (if b + 1 = d.numBuckets then d.numBuckets else b)
    (((ofIndex b).toBucketIndex = d.numBuckets - 1 ∨ d.isUnused (ofIndex b) = true) ∧
        d.increment d.numBuckets b = .ok next) ∨
      (¬ ((ofIndex b).toBucketIndex = d.numBuckets - 1 ∨ d.isUnused (ofIndex b) = true) ∧
        next = some b) := by
  intro next
  have hinc := hs.increment_eq d.numBuckets hb (by omega)
  rw [toBucketIndex_ofIndex, hs.isUnused_eq hb, hinc]
  by_cases hlast : b + 1 = d.numBuckets
  · have hnext : next = nextOccupied d.numBuckets d.cell d.numBuckets := by
      simp only [next]
      rw [if_pos hlast]
    exact .inl ⟨.inl (by omega), by rw [hlast, hnext]⟩
  have hnext : next = if (d.cell b).isSome then some b else nextOccupied d.numBuckets d.cell (b + 1) := by
    simp only [next, if_neg hlast, nextOccupied_of_lt hb]
  rw [hnext]
  cases (d.cell b).isSome with
  | false => exact .inl ⟨.inr rfl, rfl⟩
  | true =>
    refine .inr ⟨?_, rfl⟩
    rintro (h | h)
    · omega
    · cases h

/-! ## Updating one span -/

theorem cell_setSpan (d : Data K V) (s : ℕ) (sp : Span (Node K V)) (b : ℕ) :
    (d.setSpan s sp).cell b = if b / 128 = s then sp.cell (b % 128) else d.cell b := by
  by_cases h : b / 128 = s
  · simp [cell, setSpan, h]
  · simp [cell, setSpan, h]

theorem cell_setSpan_update {d : Data K V} {sp : Span (Node K V)} {x : Option (Node K V)}
    (h : ∀ j < NEntries, sp.cell j = if j = b % 128 then x else (d.spans (b / 128)).cell j) :
    (d.setSpan (b / 128) sp).cell = update d.cell b x := by
  funext c
  have hmod : c % 128 < NEntries := Nat.mod_lt _ (by decide)
  rw [cell_setSpan, update_apply]
  by_cases hc : c / 128 = b / 128
  · rw [if_pos hc, h _ hmod]
    by_cases hcb : c = b
    · simp [hcb]
    · rw [if_neg (by omega), if_neg hcb, ← hc]
      rfl
  · rw [if_neg hc, if_neg (by rintro rfl; exact hc rfl)]

theorem Storage.setSpan {d : Data K V} (hs : d.Storage) {s : ℕ} {sp : Span (Node K V)}
    (hsp : sp.Inv) : (d.setSpan s sp).Storage where
  pow := hs.pow
  le_max := hs.le_max
  spans := by
    intro s' hs'
    simp only [Data.setSpan, update_apply]
    split_ifs
    · exact hsp
    · exact hs.spans s' hs'

theorem moveNode_spec {d : Data K V} (hs : d.Storage) {nxt hole : ℕ} (hn : nxt < d.numBuckets)
    (hh : hole < d.numBuckets) (hcn : d.cell nxt = some n) (hch : d.cell hole = none) :
    ∃ d', d.moveNode (ofIndex nxt) (ofIndex hole) = .ok d' ∧ d'.Storage ∧
      d'.cell = move d.cell nxt hole ∧ d'.numBuckets = d.numBuckets ∧ d'.seed = d.seed ∧
      d'.size = d.size := by
  have hne : nxt ≠ hole := by
    rintro rfl
    simp [hch] at hcn
  have hmod : ∀ x, x % 128 < NEntries := fun x => Nat.mod_lt _ (by decide)
  have hmove : ∀ c, move d.cell nxt hole c =
      if c = nxt then none else if c = hole then some n else d.cell c := by
    intro c
    rw [move_apply, hcn]
  simp only [ofIndex_eq, moveNode]
  by_cases hsp : nxt / 128 = hole / 128
  · rw [if_pos hsp]
    have hcn' : (d.spans (hole / 128)).cell (nxt % 128) = some n := hsp ▸ hcn
    obtain ⟨sp, hsp', hinv, hcell⟩ := (hs.span_inv hh).moveLocal (hmod nxt) (hmod hole) hcn' hch
    refine ⟨d.setSpan (hole / 128) sp, by simp [hsp'], hs.setSpan hinv, ?_, rfl, rfl, rfl⟩
    funext c
    rw [hmove, cell_setSpan]
    by_cases hc : c / 128 = hole / 128
    · rw [if_pos hc, hcell _ (hmod c)]
      have h₁ : c % 128 = nxt % 128 ↔ c = nxt := by omega
      have h₂ : c % 128 = hole % 128 ↔ c = hole := by omega
      simp only [h₁, h₂, ← hc]
      rfl
    · rw [if_neg hc, if_neg (by rintro rfl; exact hc hsp), if_neg (by rintro rfl; exact hc rfl)]
  · rw [if_neg hsp]
    obtain ⟨sp, nsp, heq, hi₁, hi₂, hc₁, hc₂⟩ :=
      (hs.span_inv hh).moveFromSpan (hs.span_inv hn) (hmod nxt) (hmod hole) hcn hch
    refine ⟨(d.setSpan (hole / 128) sp).setSpan (nxt / 128) nsp, by simp [heq],
      (hs.setSpan hi₁).setSpan hi₂, ?_, rfl, rfl, rfl⟩
    have hfst := cell_setSpan_update hc₁
    have hnsp : ∀ j < NEntries, nsp.cell j = if j = nxt % 128 then none
        else ((d.setSpan (hole / 128) sp).spans (nxt / 128)).cell j := by
      intro j hj
      rw [hc₂ j hj]
      simp [Data.setSpan, hsp]
    rw [cell_setSpan_update hnsp, hfst, move, hcn]

/-! ## Lookup -/

section Lookup

variable [DecidableEq K] {calculateHash : K → ℕ → ℕ} {d : Data K V}

theorem findBucketFrom_eq (hs : d.Storage) (key : K) (k : ℕ) (hb : b < d.numBuckets) :
    findBucketFrom d key k (ofIndex b) =
      match search d.numBuckets d.cell (fun n => decide (n.key = key)) k b with
      | some r => .ok (ofIndex r)
      | none => .error .diverge := by
  induction k generalizing b with
  | zero => rfl
  | succ k ih =>
    cases hc : d.cell b with
    | none => simp [findBucketFrom, search, hc, (hs.offset_eq_unused hb).mpr hc]
    | some n =>
      have hu : ¬ (d.spans (ofIndex b).span).offset (ofIndex b).index = UnusedEntry := by
        rw [hs.offset_eq_unused hb, hc]
        exact Option.some_ne_none n
      simp only [findBucketFrom, search, hc, if_neg hu, hs.atOffset_eq hb hc, ok_bind]
      by_cases hk : n.key = key
      · simp [hk]
      · simp only [hk, if_false, decide_false, Bool.false_eq_true, hs.advance hb]
        exact ih (succ_lt hb)

omit [DecidableEq K] in
theorem Inv.exists_empty (h : d.Inv calculateHash) : ∃ z < d.numBuckets, d.cell z = none := by
  refine LinearProbing.exists_empty ?_
  have := h.numBuckets_pos
  have := h.load
  rw [h.size_eq]
  omega

/-- `findBucket` always ends: at the key's bucket, or at a free one if the key is absent. -/
theorem findBucket_spec (hs : d.Storage) (hp : Probed d.numBuckets (d.home calculateHash) d.cell)
    (hemp : ∃ z < d.numBuckets, d.cell z = none) (key : K) :
    ∃ r < d.numBuckets, findBucket calculateHash d key = .ok (ofIndex r) ∧
      (∀ v x, x < d.numBuckets → Between (d.home calculateHash ⟨key, v⟩) x r → d.cell x ≠ none) ∧
      ((∃ v, d.cell r = some ⟨key, v⟩) ∨
        (d.cell r = none ∧ ∀ b < d.numBuckets, ∀ n, d.cell b = some n → n.key ≠ key)) := by
  obtain ⟨z, hz, htz⟩ := hemp
  have hlt : GrowthPolicy.bucketForHash d.numBuckets (calculateHash key d.seed) < d.numBuckets := by
    obtain ⟨k, hk⟩ := hs.pow
    rw [bucketForHash_eq hk]
    exact Nat.mod_lt _ hs.numBuckets_pos
  obtain ⟨r, hr, hsr, hwalk, hres⟩ := search_key Node.key hp (k := key) hlt
    (fun n hn => by rw [home, hn]) hz htz
  refine ⟨r, hr, ?_, fun _ => hwalk, hres.imp_left ?_⟩
  · rw [findBucket, qAssert_pos hs.numBuckets_pos, ok_bind, findBucketFrom_eq hs key _ hlt, hsr]
  · rintro ⟨⟨k, v⟩, hc, rfl⟩
    exact ⟨v, hc⟩

end Lookup

/-! ## Insertion -/

theorem insertAt_spec {d : Data K V} (hs : d.Storage) (hb : b < d.numBuckets)
    (hc : d.cell b = none) :
    ∃ d₁, d.insertAt (ofIndex b) = .ok d₁ ∧ d₁.numBuckets = d.numBuckets ∧
      d₁.seed = d.seed ∧ d₁.size = d.size ∧ ∀ n, (d₁.construct (ofIndex b) n).Storage ∧
        (d₁.construct (ofIndex b) n).cell = update d.cell b (some n) := by
  have hmod : b % 128 < NEntries := Nat.mod_lt _ (by decide)
  obtain ⟨sp, hsp, hcons⟩ := (hs.span_inv hb).insert hmod hc
  have hset : ∀ n, (d.setSpan (b / 128) sp).construct (ofIndex b) n =
      d.setSpan (b / 128) (sp.construct (b % 128) n) := by
    intro n
    simp [ofIndex_eq, construct, setSpan]
  refine ⟨d.setSpan (b / 128) sp, by simp [ofIndex_eq, insertAt, hsp], rfl, rfl, rfl,
    fun n => ?_⟩
  rw [hset]
  exact ⟨hs.setSpan (hcons n).1, cell_setSpan_update (hcons n).2⟩

theorem construct_spec {d : Data K V} (hs : d.Storage) (hb : b < d.numBuckets) {n₀ : Node K V}
    (hc : d.cell b = some n₀) (n : Node K V) :
    (d.construct (ofIndex b) n).Storage ∧
      (d.construct (ofIndex b) n).cell = update d.cell b (some n) := by
  have hmod : b % 128 < NEntries := Nat.mod_lt _ (by decide)
  obtain ⟨hinv, hcell⟩ := (hs.span_inv hb).construct hmod hc n
  rw [construct, ofIndex_eq]
  exact ⟨hs.setSpan hinv, cell_setSpan_update hcell⟩

/-! ## Copying and growing -/

theorem two_pow_bucketsForCapacity {c : ℕ} (h : GrowthPolicy.bucketsForCapacity c ≤ MaxBucketCount) :
    ∃ k, GrowthPolicy.bucketsForCapacity c = 2 ^ (k + 7) ∧ 2 * c ≤ 2 ^ (k + 7) := by
  unfold GrowthPolicy.bucketsForCapacity at h ⊢
  by_cases hc : c ≤ 64
  · exact ⟨0, by simp [hc], by omega⟩
  rw [if_neg hc] at h ⊢
  have hc0 : c ≠ 0 := by omega
  have hlog : 6 ≤ Nat.log2 c := (Nat.le_log2 hc0).mpr (by omega)
  by_cases hcount : qCountLeadingZeroBits c < 2
  · rw [if_pos hcount] at h
    exact absurd h (by decide)
  rw [if_neg hcount]
  have hclz : qCountLeadingZeroBits c = 63 - Nat.log2 c := if_neg hc0
  have hup : c < 2 ^ (Nat.log2 c + 1) := Nat.lt_log2_self
  rw [hclz] at hcount ⊢
  obtain ⟨k, hk⟩ : ∃ k, Nat.log2 c = k + 5 := ⟨Nat.log2 c - 5, by omega⟩
  refine ⟨k, ?_, ?_⟩
  · rw [Nat.one_shiftLeft]
    congr 1
    omega
  · rw [hk] at hup
    calc 2 * c ≤ 2 * 2 ^ (k + 5 + 1) := by omega
      _ = 2 ^ (k + 7) := by ring

section Copy

variable [DecidableEq K] {calculateHash : K → ℕ → ℕ} {old : Data K V}

/-- The new table after the nodes of the first `b` old buckets have been moved over. -/
structure Moved (calculateHash : K → ℕ → ℕ) (old : Data K V) (numBuckets : ℕ) (b : ℕ)
    (d : Data K V) : Prop extends Storage d where
  numBuckets_eq : d.numBuckets = numBuckets
  seed_eq : d.seed = old.seed
  size_eq : d.size = old.size
  probed : Probed d.numBuckets (d.home calculateHash) d.cell
  distinct : Distinct d.numBuckets Node.key d.cell
  holds : ∀ n, Holds d.numBuckets d.cell n ↔ Holds b old.cell n
  card : (occupied d.numBuckets d.cell).card = (occupied b old.cell).card

omit [DecidableEq K] in
theorem home_congr {d d' : Data K V} (hn : d'.numBuckets = d.numBuckets) (hs : d'.seed = d.seed) :
    d'.home calculateHash = d.home calculateHash := by
  funext n
  rw [home, home, hn, hs]

omit [DecidableEq K] in
theorem Inv.card_occupied_le (h : old.Inv calculateHash) (hb : b ≤ old.numBuckets) :
    (occupied b old.cell).card ≤ old.size := by
  rw [← h.size_eq]
  refine Finset.card_le_card fun c hc => ?_
  rw [mem_occupied] at hc ⊢
  exact ⟨by omega, hc.2⟩

variable {numBuckets : ℕ}

theorem reinsert_spec (h : old.Inv calculateHash) {s index : ℕ} (hidx : index < NEntries)
    (hb : s * 128 + index < old.numBuckets) (hroom : old.size < numBuckets) {d : Data K V}
    (hm : Moved calculateHash old numBuckets (s * 128 + index) d) :
    ∃ d', reinsert calculateHash old.spans true s d index = .ok d' ∧
      Moved calculateHash old numBuckets (s * 128 + (index + 1)) d' := by
  simp only [nEntries_eq] at hidx
  have hdiv : (s * 128 + index) / 128 = s := by omega
  have hmod : (s * 128 + index) % 128 = index := by omega
  have hsp := h.span_inv hb
  rw [hdiv] at hsp
  have hcell : old.cell (s * 128 + index) = (old.spans s).cell index := by
    simp [cell, hdiv, hmod]
  cases hc : (old.spans s).cell index with
  | none =>
    have hu := (hsp.cell_eq_none hidx).mp hc
    have hnone : old.cell (s * 128 + index) = none := by rw [hcell, hc]
    refine ⟨d, by simp [reinsert, Span.hasNode, hu], hm.toStorage, hm.numBuckets_eq, hm.seed_eq,
      hm.size_eq, hm.probed, hm.distinct, fun n => ?_, ?_⟩
    · rw [hm.holds, ← Nat.add_assoc, holds_succ_none hnone]
    · rw [hm.card, ← Nat.add_assoc, occupied_succ_none hnone]
  | some n =>
    have hu := ((hsp.cell_eq_some hidx).mp hc).1
    have hsome : old.cell (s * 128 + index) = some n := by rw [hcell, hc]
    have hemp : ∃ z < d.numBuckets, d.cell z = none := by
      refine LinearProbing.exists_empty ?_
      have := h.card_occupied_le hb.le
      rw [hm.card, hm.numBuckets_eq]
      omega
    obtain ⟨r, hr, hfind, hwalk, hres⟩ := findBucket_spec hm.toStorage hm.probed hemp n.key
    -- the key of the node has not been moved before
    have hnew : ∀ b < d.numBuckets, ∀ n', d.cell b = some n' → n'.key ≠ n.key := by
      intro b hbn n' hn' hk
      obtain ⟨c, hc₁, hc₂⟩ := (hm.holds n').mp ⟨b, hbn, hn'⟩
      have := h.distinct c (by omega) _ hb n' n hc₂ hsome hk
      omega
    have hfree : d.cell r = none := by
      rcases hres with ⟨v, hv⟩ | ⟨hv, -⟩
      · exact absurd rfl (hnew r hr ⟨n.key, v⟩ hv)
      · exact hv
    obtain ⟨d₁, hins, hnb, hsd, hsz, hcons⟩ := insertAt_spec hm.toStorage hr hfree
    obtain ⟨hst, hcl⟩ := hcons n
    have hnb' : (d₁.construct (ofIndex r) n).numBuckets = d.numBuckets := hnb
    have hhome : (d₁.construct (ofIndex r) n).home calculateHash = d.home calculateHash :=
      home_congr hnb hsd
    refine ⟨d₁.construct (ofIndex r) n, ?_, hst, hnb.trans hm.numBuckets_eq,
      hsd.trans hm.seed_eq, hsz.trans hm.size_eq, ?_, ?_, fun n' => ?_, ?_⟩
    · simp only [reinsert, Span.hasNode, bne_iff_ne, ne_eq, hu, not_false_eq_true, if_true,
        hsp.at_eq hidx hc, ok_bind, hfind, qAssert_pos ((hm.isUnused_iff hr).mpr hfree), hins,
        pure_eq_ok]
    · rw [hnb', hhome, hcl]
      exact hm.probed.insert hfree (hwalk n.value)
    · rw [hnb', hcl]
      exact hm.distinct.update fun c hc₁ _ n' hn' => hnew c hc₁ n' hn'
    · rw [hnb', hcl, holds_update_some hr hfree, ← Nat.add_assoc,
        holds_succ_some hsome, hm.holds]
    · have hnot : r ∉ occupied d.numBuckets d.cell := by simp [mem_occupied, hfree]
      rw [hnb', hcl, occupied_update_some hr, Finset.card_insert_of_notMem hnot, hm.card,
        ← Nat.add_assoc, card_occupied_succ_some hsome]

omit [DecidableEq K] in
theorem moved_zero (hpow : ∃ k, numBuckets = 2 ^ (k + 7)) (hmax : numBuckets ≤ MaxBucketCount) :
    Moved calculateHash old numBuckets 0
      { old with numBuckets := numBuckets, spans := fun _ => Span.new } := by
  have hcell : ∀ b, ({ old with numBuckets := numBuckets, spans := fun _ => Span.new } :
      Data K V).cell b = none := fun b => Span.cell_new _
  refine ⟨⟨hpow, hmax, fun _ _ => Span.inv_new⟩, rfl, rfl, rfl, ?_, ?_, ?_, ?_⟩
  · intro b _ n hn
    simp [hcell] at hn
  · intro b _ b' _ n n' hn
    simp [hcell] at hn
  · intro n
    constructor
    · rintro ⟨b, -, hn⟩
      simp [hcell] at hn
    · rintro ⟨b, hb, -⟩
      omega
  · simp [occupied, hcell]

theorem moved_span (h : old.Inv calculateHash) {s : ℕ} (hs : s * 128 + 128 ≤ old.numBuckets)
    (hroom : old.size < numBuckets) {d : Data K V}
    (hm : Moved calculateHash old numBuckets (s * 128) d) :
    ∃ d', (List.range NEntries).foldlM (reinsert calculateHash old.spans true s) d = .ok d' ∧
      Moved calculateHash old numBuckets ((s + 1) * 128) d' := by
  obtain ⟨d', hrun, hd'⟩ := foldlM_range
    (f := reinsert calculateHash old.spans true s)
    (fun i d => Moved calculateHash old numBuckets (s * 128 + i) d) (n := NEntries) (s := d)
    (by rwa [Nat.add_zero])
    (fun i hi d hd => reinsert_spec h hi (by rw [nEntries_eq] at hi; omega) hroom hd)
  refine ⟨d', hrun, ?_⟩
  rw [show (s + 1) * 128 = s * 128 + NEntries by rw [nEntries_eq]; ring]
  exact hd'

theorem reallocationHelper_spec (h : old.Inv calculateHash) (hpow : ∃ k, numBuckets = 2 ^ (k + 7))
    (hmax : numBuckets ≤ MaxBucketCount)
    (hload : 2 * old.size ≤ numBuckets) : ∃ d', reallocationHelper calculateHash
        { old with numBuckets := numBuckets, spans := fun _ => Span.new } old.spans
        (old.numBuckets >>> SpanShift) true = .ok d' ∧ d'.Inv calculateHash ∧
      d'.numBuckets = numBuckets ∧ d'.seed = old.seed ∧ d'.size = old.size ∧
      ∀ n, Holds d'.numBuckets d'.cell n ↔ Holds old.numBuckets old.cell n := by
  have hroom : old.size < numBuckets := by
    obtain ⟨k, hk⟩ := hpow
    have : 0 < 2 ^ (k + 7) := by positivity
    omega
  obtain ⟨m, -, hm⟩ := h.exists_mul
  have hshift : old.numBuckets >>> SpanShift = m := by
    rw [SpanShift, Nat.shiftRight_eq_div_pow, hm]
    exact Nat.mul_div_cancel_left m (by decide)
  obtain ⟨d', hrun, hd'⟩ := foldlM_range (fun s d => Moved calculateHash old numBuckets (s * 128) d)
    (f := fun d s => (List.range NEntries).foldlM (reinsert calculateHash old.spans true s) d)
    (n := m) (by rw [Nat.zero_mul]; exact moved_zero hpow hmax)
    (fun s hs d hd => moved_span h (by omega) hroom hd)
  rw [show m * 128 = old.numBuckets by omega] at hd'
  have hsize : d'.size = old.size := hd'.size_eq
  refine ⟨d', by rw [reallocationHelper, hshift]; exact hrun, ⟨hd'.toStorage, hd'.probed, hd'.distinct,
    ?_, ?_⟩, hd'.numBuckets_eq, hd'.seed_eq, hsize, hd'.holds⟩
  · rw [hd'.card, h.size_eq, hsize]
  · rw [hsize, hd'.numBuckets_eq]
    exact hload

theorem rehash_spec (h : old.Inv calculateHash) (sizeHint : ℕ)
    (hhint : old.size ≤ if sizeHint = 0 then old.size else sizeHint) :
    (old.rehash calculateHash sizeHint = .error .badAlloc ∧ MaxBucketCount <
        GrowthPolicy.bucketsForCapacity (if sizeHint = 0 then old.size else sizeHint)) ∨
      ∃ d', old.rehash calculateHash sizeHint = .ok d' ∧ d'.Inv calculateHash ∧
        d'.numBuckets =
          GrowthPolicy.bucketsForCapacity (if sizeHint = 0 then old.size else sizeHint) ∧
        d'.seed = old.seed ∧ d'.size = old.size ∧
        ∀ n, Holds d'.numBuckets d'.cell n ↔ Holds old.numBuckets old.cell n := by
  by_cases hmax : GrowthPolicy.bucketsForCapacity (if sizeHint = 0 then old.size else sizeHint) >
      MaxBucketCount
  · exact .inl ⟨by simp only [rehash, allocateSpans, if_pos hmax, error_bind], hmax⟩
  · obtain ⟨k, hk, hle⟩ := two_pow_bucketsForCapacity (not_lt.mp hmax)
    obtain ⟨d', hrun, hd'⟩ := reallocationHelper_spec h ⟨k, hk⟩ (not_lt.mp hmax) (by omega)
    exact .inr ⟨d', by simp only [rehash, allocateSpans, if_neg hmax, ok_bind]; exact hrun, hd'⟩

theorem copyReserved_spec (h : old.Inv calculateHash) (reserved : ℕ) :
    (old.copyReserved calculateHash reserved = .error .badAlloc ∧
        MaxBucketCount < GrowthPolicy.bucketsForCapacity (max old.size reserved)) ∨
      ∃ d', old.copyReserved calculateHash reserved = .ok d' ∧ d'.Inv calculateHash ∧
        d'.numBuckets = GrowthPolicy.bucketsForCapacity (max old.size reserved) ∧
        d'.seed = old.seed ∧ d'.size = old.size ∧
        ∀ n, Holds d'.numBuckets d'.cell n ↔ Holds old.numBuckets old.cell n := by
  by_cases hmax : GrowthPolicy.bucketsForCapacity (max old.size reserved) > MaxBucketCount
  · exact .inl ⟨by simp only [copyReserved, allocateSpans, if_pos hmax, error_bind], hmax⟩
  · obtain ⟨k, hk, hle⟩ := two_pow_bucketsForCapacity (not_lt.mp hmax)
    obtain ⟨d', hrun, hd'⟩ := reallocationHelper_spec h ⟨k, hk⟩ (not_lt.mp hmax)
      (by have := le_max_left old.size reserved; omega)
    exact .inr ⟨d', by simp only [copyReserved, allocateSpans, if_neg hmax, ok_bind]; exact hrun, hd'⟩

end Copy

end Data

end QtBase.QHashPrivate
