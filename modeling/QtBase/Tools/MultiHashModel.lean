import QtBase.Tools.QMultiHash
import QtBase.Lib.ProbingSweep

/-! The pairs that a `QMultiHash` holds, as a log with the latest first, and what each member
function does to the log. -/
namespace QtBase

open QHashPrivate LinearProbing PairLog Function Option Int Bucket

variable {K V : Type} [DecidableEq K] {calculateHash : K → ℕ → ℕ}

namespace QMultiHash

/-- The map has for each key its values in the log, and no key without values. -/
def Agrees (m : Finmap fun _ : K => List V) (log : List (K × V)) : Prop :=
  ∀ key l, m.lookup key = some l ↔ l = valuesOf log key ∧ l ≠ []

namespace Agrees

variable {m : Finmap fun _ : K => List V} {log log' : List (K × V)} {key : K}

theorem lookup_eq_none (h : Agrees m log) : m.lookup key = none ↔ valuesOf log key = [] := by
  rw [eq_none_iff_forall_ne_some]
  constructor
  · intro hno
    by_contra hne
    exact hno _ ((h key _).mpr ⟨rfl, hne⟩)
  · rintro hnil l hl
    obtain ⟨rfl, hne⟩ := (h key l).mp hl
    exact hne hnil

theorem getD (h : Agrees m log) : (m.lookup key).getD [] = valuesOf log key := by
  cases hv : m.lookup key with
  | none => exact (h.lookup_eq_none.1 hv).symm
  | some l => exact ((h key l).mp hv).1

theorem empty : Agrees (∅ : Finmap fun _ : K => List V) [] := by
  intro key l
  simp

/-- A new chain for one key. -/
theorem insert (h : Agrees m log) {l : List V} (hk : valuesOf log' key = l) (hl : l ≠ [])
    (hother : ∀ k, k ≠ key → valuesOf log' k = valuesOf log k) : Agrees (m.insert key l) log' := by
  intro k l'
  by_cases hkk : k = key
  · rw [hkk, Finmap.lookup_insert, some.injEq, hk]
    constructor
    · rintro rfl
      exact ⟨rfl, hl⟩
    · exact fun h' => h'.1.symm
  · rw [Finmap.lookup_insert_of_ne _ hkk, h, hother k hkk]

/-- No chain for one key any more, whatever it was before. -/
theorem erase (h : Agrees m log) (hk : valuesOf log' key = [])
    (hother : ∀ k, k ≠ key → valuesOf log' k = valuesOf log k) : Agrees (m.erase key) log' := by
  intro k l
  by_cases hkk : k = key
  · rw [hkk, Finmap.lookup_erase, hk]
    refine iff_of_false (by simp) ?_
    rintro ⟨rfl, hne⟩
    exact hne rfl
  · rw [Finmap.lookup_erase_ne hkk, h, hother k hkk]

theorem erase_insert (l : List V) : (m.insert key l).erase key = m.erase key := by
  refine Finmap.ext_lookup fun k => ?_
  by_cases hkk : k = key
  · rw [hkk, Finmap.lookup_erase, Finmap.lookup_erase]
  · rw [Finmap.lookup_erase_ne hkk, Finmap.lookup_erase_ne hkk, Finmap.lookup_insert_of_ne _ hkk]

end Agrees

/-- The table has the chains of the log. -/
def Chains (calculateHash : K → ℕ → ℕ) (d : Data K (List V)) (log : List (K × V)) : Prop :=
  ∃ m, d.Models calculateHash m ∧ Agrees m log

namespace Chains

variable {d d' : Data K (List V)} {log log' : List (K × V)} {key : K} {b : ℕ}

theorem inv (h : Chains calculateHash d log) : d.Inv calculateHash := by
  obtain ⟨m, hm, -⟩ := h
  exact hm.toInv

theorem of_cell (h : Chains calculateHash d log) (hb : b < d.numBuckets) {n : Node K (List V)}
    (hc : d.cell b = some n) : n.value = valuesOf log n.key ∧ n.value ≠ [] := by
  obtain ⟨m, hm, ha⟩ := h
  exact (ha n.key n.value).mp (hm.lookup_of_cell hb hc)

theorem exists_cell (h : Chains calculateHash d log) (hv : valuesOf log key ≠ []) :
    ∃ b < d.numBuckets, d.cell b = some ⟨key, valuesOf log key⟩ := by
  obtain ⟨m, hm, ha⟩ := h
  exact hm.exists_cell ((ha key _).mpr ⟨rfl, hv⟩)

/-- Assign a chain that is not empty. -/
theorem assign (h : Chains calculateHash d log) (hb : b < d.numBuckets) {l₀ l : List V}
    (hc : d.cell b = some ⟨key, l₀⟩) (hk : valuesOf log' key = l) (hl : l ≠ [])
    (hother : ∀ k, k ≠ key → valuesOf log' k = valuesOf log k) :
    Chains calculateHash (d.construct (ofIndex b) ⟨key, l⟩) log' ∧
      (d.construct (ofIndex b) ⟨key, l⟩).cell b = some ⟨key, l⟩ := by
  obtain ⟨m, hm, ha⟩ := h
  obtain ⟨hm', hc'⟩ := hm.assign hb hc l
  exact ⟨⟨_, hm', ha.insert hk hl hother⟩, hc'⟩

/-- Erase the node of a key, after its chain was set to anything. -/
theorem erase (h : Chains calculateHash d log) (hb : b < d.numBuckets) {l₀ : List V} (l : List V)
    (hc : d.cell b = some ⟨key, l₀⟩) (hk : valuesOf log' key = [])
    (hother : ∀ k, k ≠ key → valuesOf log' k = valuesOf log k) :
    ∃ d' hole, (d.construct (ofIndex b) ⟨key, l⟩).erase calculateHash (ofIndex b) =
        .ok d' ∧ Chains calculateHash d' log' ∧ d'.numBuckets = d.numBuckets ∧ d'.seed = d.seed ∧
      backshift d.numBuckets (d.home calculateHash) d.numBuckets (update d.cell b none) b
        (succ d.numBuckets b) = some (d'.cell, hole) := by
  obtain ⟨m, hm, ha⟩ := h
  obtain ⟨hm', hc'⟩ := hm.assign hb hc l
  have hcell : (d.construct (ofIndex b) ⟨key, l⟩).cell =
      update d.cell b (some ⟨key, l⟩) := (hm.toInv.assign hb hc l).2
  obtain ⟨d', hole, hrun, hm'', hnb, hsd, hshift⟩ := hm'.erase (b := b) hb hc'
  rw [hcell, update_idem] at hshift
  refine ⟨d', hole, hrun, ⟨_, hm'', ?_⟩, hnb, hsd, hshift⟩
  rw [Agrees.erase_insert]
  exact ha.erase hk hother

theorem eraseNode (h : Chains calculateHash d log) (hb : b < d.numBuckets) {l₀ : List V}
    (hc : d.cell b = some ⟨key, l₀⟩) (hk : valuesOf log' key = [])
    (hother : ∀ k, k ≠ key → valuesOf log' k = valuesOf log k) :
    ∃ d', d.erase calculateHash (ofIndex b) = .ok d' ∧ Chains calculateHash d' log' := by
  obtain ⟨m, hm, ha⟩ := h
  obtain ⟨d', -, hrun, hm', -⟩ := hm.erase hb hc
  exact ⟨d', hrun, _, hm', ha.erase hk hother⟩

theorem findOrInsert (h : Chains calculateHash d log) (key : K) :
    Ends (d.findOrInsert calculateHash key) (TooLarge (d.size + 1)) fun r =>
      ∃ b < r.1.numBuckets, r.2.1 = ofIndex b ∧
        ((r.2.2 = true ∧ r.1 = d ∧ d.cell b = some ⟨key, valuesOf log key⟩ ∧ valuesOf log key ≠ []) ∨
          (r.2.2 = false ∧ valuesOf log key = [] ∧ ∀ v,
            Chains calculateHash (r.1.construct (ofIndex b) ⟨key, [v]⟩) ((key, v) :: log) ∧
            (r.1.construct (ofIndex b) ⟨key, [v]⟩).cell b = some ⟨key, [v]⟩)) := by
  obtain ⟨m, hm, ha⟩ := h
  refine (hm.findOrInsert key).mono id ?_
  rintro ⟨d₁, it, initialized⟩ ⟨b, hb, rfl, hres⟩
  refine ⟨b, hb, rfl, ?_⟩
  rcases hres with ⟨rfl, rfl, l, hc, hl⟩ | ⟨rfl, hnone, hcons⟩
  · obtain ⟨rfl, hne⟩ := (ha key l).mp hl
    exact Or.inl ⟨rfl, rfl, hc, hne⟩
  · have hnil := ha.lookup_eq_none.1 hnone
    refine Or.inr ⟨rfl, hnil, fun v => ?_⟩
    obtain ⟨hm', hc'⟩ := hcons [v]
    refine ⟨⟨_, hm', ha.insert ?_ (by simp) fun k hk => valuesOf_cons_of_ne hk.symm _⟩, hc'⟩
    rw [valuesOf_cons_self, hnil]

theorem sum_length (h : Chains calculateHash d log) :
    ∑ b ∈ Finset.range d.numBuckets, ((d.cell b).map fun n => n.value.length).getD 0 =
      log.length := by
  obtain ⟨m, hm, ha⟩ := h
  have hkeys : ∀ p ∈ log, p.1 ∈ m.keys := by
    intro p hp
    have hne : valuesOf log p.1 ≠ [] := List.ne_nil_of_mem (mem_valuesOf.2 hp)
    exact Finmap.mem_keys.mpr (Finmap.mem_of_lookup_eq_some ((ha p.1 _).mpr ⟨rfl, hne⟩))
  rw [← sum_length_valuesOf log m.keys hkeys]
  have hocc : ∑ b ∈ Finset.range d.numBuckets, ((d.cell b).map fun n => n.value.length).getD 0 =
      ∑ b ∈ occupied d.numBuckets d.cell, ((d.cell b).map fun n => n.value.length).getD 0 := by
    rw [occupied, Finset.sum_filter]
    refine Finset.sum_congr rfl fun b _ => ?_
    cases d.cell b <;> rfl
  rw [hocc]
  refine Finset.sum_bij (fun b hb => ((d.cell b).get (Finset.mem_filter.mp hb).2).key) ?_ ?_ ?_ ?_
  · intro b hb
    obtain ⟨hlt, n, hn⟩ := mem_occupied.1 hb
    simp only [hn, get_some]
    exact Finmap.mem_keys.mpr (Finmap.mem_of_lookup_eq_some (hm.lookup_of_cell hlt hn))
  · intro b hb b' hb' hk
    obtain ⟨hlt, n, hn⟩ := mem_occupied.1 hb
    obtain ⟨hlt', n', hn'⟩ := mem_occupied.1 hb'
    simp only [hn, hn', get_some] at hk
    exact hm.distinct b hlt b' hlt' n n' hn hn' hk
  · intro key hkey
    obtain ⟨v, hv⟩ := Finmap.mem_iff.mp (Finmap.mem_keys.mp hkey)
    obtain ⟨b, hb, hc⟩ := hm.exists_cell hv
    exact ⟨b, mem_occupied.2 ⟨hb, _, hc⟩, by simp [hc]⟩
  · intro b hb
    obtain ⟨hlt, n, hn⟩ := mem_occupied.1 hb
    have hval := ((ha n.key n.value).mp (hm.lookup_of_cell hlt hn)).1
    simp [hn, hval]

end Chains

/-- The hash holds the pairs of the log, and counts them. -/
structure Keeps (calculateHash : K → ℕ → ℕ) (h : QMultiHash K V) (log : List (K × V)) : Prop where
  table : ∃ m, h.toQHash.Models calculateHash m ∧ Agrees m log
  m_size : h.m_size = log.length

namespace Keeps

variable {h : QMultiHash K V} {log log' : List (K × V)}

theorem own {d : Data K (List V)} (hc : Chains calculateHash d log) {m_size : ℤ}
    (hs : m_size = log.length) : (QMultiHash.own d m_size).Keeps calculateHash log := ⟨hc, hs⟩

theorem congr (hk : h.Keeps calculateHash log) (hv : ∀ key, valuesOf log' key = valuesOf log key)
    (hl : log'.length = log.length) : h.Keeps calculateHash log' := by
  obtain ⟨⟨m, hm, ha⟩, hs⟩ := hk
  exact ⟨⟨m, hm, fun key l => by rw [hv, ha]⟩, by rw [hs, hl]⟩

theorem chains {l : Cow.Local (Data K (List V))} (hk : h.Keeps calculateHash log)
    (hd : h.d = some l) : Chains calculateHash l.data log := by
  obtain ⟨⟨m, hm, ha⟩, -⟩ := hk
  exact ⟨m, hm.data hd, ha⟩

theorem isEmpty_iff (hk : h.Keeps calculateHash log) : h.isEmpty = true ↔ log = [] := by
  rw [isEmpty, beq_iff_eq, hk.m_size, natCast_eq_zero, List.length_eq_zero_iff]

theorem eq_nil (hk : h.Keeps calculateHash log) (hd : h.d = none) : log = [] := by
  obtain ⟨⟨m, hm, ha⟩, -⟩ := hk
  rw [List.eq_nil_iff_forall_not_mem]
  rintro ⟨key, v⟩ hp
  have hne : valuesOf log key ≠ [] := List.ne_nil_of_mem (mem_valuesOf.2 hp)
  have hl := (ha key _).mpr ⟨rfl, hne⟩
  rw [hm.eq_empty hd, Finmap.lookup_empty] at hl
  cases hl

theorem values (hk : h.Keeps calculateHash log) (key : K) :
    h.values calculateHash key = .ok (valuesOf log key) := by
  cases hd : h.d with
  | none => simp [QMultiHash.values, hd, hk.eq_nil hd]
  | some l =>
    obtain ⟨m, hm, ha⟩ := hk.chains hd
    rw [QMultiHash.values, hd]
    simp only [hm.findNode, ok_bind, pure_eq_ok, map_map]
    rw [← ha.getD]
    cases m.lookup key <;> rfl

theorem detach (hk : h.Keeps calculateHash log) (globalSeed : ℕ) :
    ∃ d, h.detach calculateHash globalSeed = .ok d ∧ Chains calculateHash d log ∧
      ∀ l, h.d = some l → Data.SameTable l.data d := by
  obtain ⟨⟨m, hm, ha⟩, -⟩ := hk
  obtain ⟨d, hrun, hm', hsame⟩ := hm.detach globalSeed
  exact ⟨d, hrun, ⟨m, hm', ha⟩, hsame⟩

theorem detach_size (hk : h.Keeps calculateHash log) {d : Data K (List V)}
    (hc : Chains calculateHash d log) : d.size = h.toQHash.size := by
  obtain ⟨⟨m, hm, ha⟩, -⟩ := hk
  obtain ⟨m', hm', ha'⟩ := hc
  have hmm : m' = m := by
    refine Finmap.ext_lookup fun key => ext fun l => ?_
    rw [ha', ha]
  rw [hm'.size_eq_card, hm.size_eq, hmm]

theorem locate (hk : h.Keeps calculateHash log) (hne : h.isEmpty = false) (globalSeed : ℕ) (key : K) :
    ∃ r d, h.locate calculateHash globalSeed key = .ok (d, ofIndex r) ∧
      Chains calculateHash d log ∧ r < d.numBuckets ∧
      ((d.cell r = some ⟨key, valuesOf log key⟩ ∧ valuesOf log key ≠ []) ∨
        (d.cell r = none ∧ valuesOf log key = [])) := by
  obtain ⟨l, hd⟩ : ∃ l, h.d = some l := by
    cases hd : h.d with
    | none => simp [(hk.isEmpty_iff).mpr (hk.eq_nil hd)] at hne
    | some l => exact ⟨l, rfl⟩
  obtain ⟨⟨m, hm, ha⟩, -⟩ := hk
  obtain ⟨r, d, hfind, hrun, hm', hr, hres⟩ := hm.locate globalSeed hd key
  have hrun' : h.detach calculateHash globalSeed = .ok d := hrun
  refine ⟨r, d, ?_, ⟨m, hm', ha⟩, hr, ?_⟩
  · rw [QMultiHash.locate, hd]
    simp only [hfind, hrun', ok_bind, toBucketIndex_ofIndex, pure_eq_ok]
  · rcases hres with ⟨l', hc, hl⟩ | ⟨hc, hl⟩
    · obtain ⟨rfl, hne'⟩ := (ha key l').mp hl
      exact Or.inl ⟨hc, hne'⟩
    · exact Or.inr ⟨hc, ha.lookup_eq_none.1 hl⟩

theorem remove (hk : h.Keeps calculateHash log) (globalSeed : ℕ) (key : K) :
    ∃ h', h.remove calculateHash globalSeed key = .ok (h', (valuesOf log key).length) ∧
      h'.Keeps calculateHash (removeKey key log) ∧ h.d.Legal h'.d := by
  have hlen := length_removeKey key log
  have hnone : valuesOf log key = [] → ∀ h' : QMultiHash K V, h'.Keeps calculateHash log →
      h'.Keeps calculateHash (removeKey key log) := by
    intro hnil h' hk'
    refine hk'.congr (fun k => ?_) (by rw [hnil] at hlen; exact hlen)
    by_cases hkk : k = key
    · rw [hkk, valuesOf_removeKey, hnil]
    · exact valuesOf_removeKey_of_ne hkk log
  rw [QMultiHash.remove]
  cases hemp : h.isEmpty with
  | true =>
    have hnil : valuesOf log key = [] := by rw [hk.isEmpty_iff.1 hemp]; rfl
    exact ⟨h, by rw [hnil]; rfl, hnone hnil h hk, Cow.Handle.Legal.refl _⟩
  | false =>
    obtain ⟨r, d, hloc, hch, hr, hres⟩ := hk.locate hemp globalSeed key
    simp only [Bool.false_eq_true, if_false, hloc, ok_bind, hch.inv.isUnused_eq hr]
    rcases hres with ⟨hc, hne⟩ | ⟨hc, hnil⟩
    · obtain ⟨d', -, hrun, hch', -⟩ := hch.erase hr [] hc (valuesOf_removeKey key log)
        fun k hkk => valuesOf_removeKey_of_ne hkk log
      have hsub : h.m_size - (valuesOf log key).length = ((removeKey key log).length : ℤ) := by
        rw [hk.m_size]
        omega
      refine ⟨QMultiHash.own d' (removeKey key log).length, ?_, own hch' rfl,
        Cow.Handle.Legal.own _ d'⟩
      simp only [hc, isSome_some, Bool.not_true, Bool.false_eq_true, if_false,
        hch.inv.node_eq hr hc, ok_bind, hsub, qAssert_pos (natCast_nonneg _), hrun, pure_eq_ok]
    · refine ⟨QMultiHash.own d h.m_size, ?_, hnone hnil _ (own hch hk.m_size),
        Cow.Handle.Legal.own _ d⟩
      simp [hc, hnil]

theorem removeValue [DecidableEq V] (hk : h.Keeps calculateHash log) (globalSeed : ℕ) (key : K)
    (v : V) : ∃ h', h.removeValue calculateHash globalSeed key v =
        .ok (h', (valuesOf log key).count v) ∧
      h'.Keeps calculateHash (removePair key v log) ∧ h.d.Legal h'.d := by
  have hlen := length_removePair key v log
  have hnone : valuesOf log key = [] → ∀ h' : QMultiHash K V, h'.Keeps calculateHash log →
      h'.Keeps calculateHash (removePair key v log) := by
    intro hnil h' hk'
    refine hk'.congr (fun k => ?_) (by rw [hnil] at hlen; exact hlen)
    by_cases hkk : k = key
    · rw [hkk, valuesOf_removePair, hnil]
      rfl
    · exact valuesOf_removePair_of_ne hkk v log
  rw [QMultiHash.removeValue]
  cases hemp : h.isEmpty with
  | true =>
    have hnil : valuesOf log key = [] := by rw [hk.isEmpty_iff.1 hemp]; rfl
    exact ⟨h, by rw [hnil]; rfl, hnone hnil h hk, Cow.Handle.Legal.refl _⟩
  | false =>
    obtain ⟨r, d, hloc, hch, hr, hres⟩ := hk.locate hemp globalSeed key
    simp only [Bool.false_eq_true, if_false, hloc, ok_bind, hch.inv.isUnused_eq hr]
    rcases hres with ⟨hc, hne⟩ | ⟨hc, hnil⟩
    · have hsub : h.m_size - (valuesOf log key).count v = ((removePair key v log).length : ℤ) := by
        rw [hk.m_size]
        omega
      have hrest := valuesOf_removePair key v log
      have hother : ∀ k, k ≠ key → valuesOf (removePair key v log) k = valuesOf log k :=
        fun k hkk => valuesOf_removePair_of_ne hkk v log
      simp only [hc, isSome_some, Bool.not_true, Bool.false_eq_true, if_false,
        hch.inv.node_eq hr hc, ok_bind, hsub, ← hrest]
      by_cases hnil : valuesOf (removePair key v log) key = []
      · obtain ⟨d', -, hrun, hch', -⟩ := hch.erase hr [] hc hnil hother
        refine ⟨QMultiHash.own d' (removePair key v log).length, ?_, own hch' rfl,
          Cow.Handle.Legal.own _ d'⟩
        simp only [hnil, List.isEmpty_nil, if_true, hrun, ok_bind,
          qAssert_pos (natCast_nonneg _), pure_eq_ok]
      · obtain ⟨hch', -⟩ := hch.assign hr hc rfl hnil hother
        refine ⟨QMultiHash.own _ (removePair key v log).length, ?_, own hch' rfl,
          Cow.Handle.Legal.own _ _⟩
        simp only [List.isEmpty_iff, hnil, if_false, pure_eq_ok, ok_bind,
          qAssert_pos (natCast_nonneg _)]
    · refine ⟨QMultiHash.own d h.m_size, ?_, hnone hnil _ (own hch hk.m_size),
        Cow.Handle.Legal.own _ d⟩
      simp [hc, hnil]

theorem take [Inhabited V] (hk : h.Keeps calculateHash log) (globalSeed : ℕ) (key : K) :
    ∃ h', h.take calculateHash globalSeed key = .ok (h', (valuesOf log key).headD default) ∧
      h'.Keeps calculateHash (eraseAt key log 0) ∧ h.d.Legal h'.d := by
  rw [QMultiHash.take]
  cases hemp : h.isEmpty with
  | true =>
    have hnil : log = [] := hk.isEmpty_iff.1 hemp
    subst hnil
    exact ⟨h, rfl, hk, Cow.Handle.Legal.refl _⟩
  | false =>
    obtain ⟨r, d, hloc, hch, hr, hres⟩ := hk.locate hemp globalSeed key
    simp only [Bool.false_eq_true, if_false, hloc, ok_bind, hch.inv.isUnused_eq hr]
    rcases hres with ⟨hc, hne⟩ | ⟨hc, hnil⟩
    · have hval := valuesOf_eraseAt key log 0
      have hother : ∀ k, k ≠ key → valuesOf (eraseAt key log 0) k = valuesOf log k :=
        fun k hkk => valuesOf_eraseAt_of_ne hkk log 0
      have hlen := length_eraseAt (List.length_pos_of_ne_nil hne)
      have hsub : h.m_size - 1 = ((eraseAt key log 0).length : ℤ) := by
        rw [hk.m_size]
        omega
      simp only [hc, isSome_some, Bool.not_true, Bool.false_eq_true, if_false,
        hch.inv.node_eq hr hc, ok_bind, hsub]
      cases hv : valuesOf log key with
      | nil => exact absurd hv hne
      | cons t rest =>
        rw [hv, List.eraseIdx_cons_zero] at hval
        by_cases hnil : rest = []
        · obtain ⟨d', hrun, hch'⟩ := hch.eraseNode hr hc (hval.trans hnil) hother
          refine ⟨QMultiHash.own d' (eraseAt key log 0).length, ?_, own hch' rfl,
            Cow.Handle.Legal.own _ d'⟩
          simp only [hnil, List.isEmpty_nil, if_true, hrun, ok_bind,
            qAssert_pos (natCast_nonneg _), pure_eq_ok, List.headD_cons]
        · obtain ⟨hch', -⟩ := hch.assign hr hc hval hnil hother
          refine ⟨QMultiHash.own _ (eraseAt key log 0).length, ?_, own hch' rfl,
            Cow.Handle.Legal.own _ _⟩
          simp only [List.isEmpty_iff, hnil, if_false, pure_eq_ok, ok_bind,
            qAssert_pos (natCast_nonneg _), List.headD_cons]
    · refine ⟨QMultiHash.own d h.m_size, by simp [hc, hnil], ?_, Cow.Handle.Legal.own _ d⟩
      rw [eraseAt_of_nil hnil]
      exact own hch hk.m_size

theorem emplace_helper {d : Data K (List V)} (hch : Chains calculateHash d log) {m_size : ℤ}
    (hs : m_size = log.length) (key : K) (v : V) :
    Ends (emplace_helper calculateHash d m_size key v) (TooLarge (d.size + 1)) fun r =>
      r.1.Keeps calculateHash ((key, v) :: log) ∧ (∃ d' m_size', r.1 = QMultiHash.own d' m_size') ∧
        ∃ b, r.2 = some ⟨b, 0⟩ := by
  have hs' : m_size + 1 = (((key, v) :: log).length : ℤ) := by simp [hs]
  refine (hch.findOrInsert key).bind ?_
  rintro ⟨d₁, it, initialized⟩ ⟨b, hb, rfl, hres⟩
  rcases hres with ⟨rfl, rfl, hc, hne⟩ | ⟨rfl, -, hcons⟩
  · obtain ⟨hch', -⟩ := hch.assign hb hc (valuesOf_cons_self key v log) (List.cons_ne_nil _ _)
      fun k hk => valuesOf_cons_of_ne (p := (key, v)) hk.symm log
    simp only [if_true, hch.inv.node_eq hb hc, ok_bind]
    exact Ends.ok ⟨own hch' hs', ⟨_, _, rfl⟩, _, rfl⟩
  · simp only [Bool.false_eq_true, if_false]
    exact Ends.ok ⟨own (hcons v).1 hs', ⟨_, _, rfl⟩, _, rfl⟩

theorem insert (hk : h.Keeps calculateHash log) (globalSeed : ℕ) (key : K) (v : V) :
    Ends (h.insert calculateHash globalSeed key v) (TooLarge (h.toQHash.size + 1)) fun r =>
      r.1.Keeps calculateHash ((key, v) :: log) ∧ (∃ d' m_size', r.1 = QMultiHash.own d' m_size') ∧
        ∃ b, r.2 = some ⟨b, 0⟩ := by
  obtain ⟨d, hrun, hch, -⟩ := hk.detach globalSeed
  rw [QMultiHash.insert, hrun, ok_bind, ← hk.detach_size hch]
  exact emplace_helper hch hk.m_size key v

theorem replace (hk : h.Keeps calculateHash log) (globalSeed : ℕ) (key : K) (v : V) :
    Ends (h.replace calculateHash globalSeed key v) (TooLarge (h.toQHash.size + 1)) fun r =>
      r.1.Keeps calculateHash (PairLog.replace key v log) ∧ h.d.Legal r.1.d ∧
        ∃ b, r.2 = some ⟨b, 0⟩ := by
  obtain ⟨d, hrun, hch, -⟩ := hk.detach globalSeed
  rw [QMultiHash.replace, hrun, ok_bind, ← hk.detach_size hch, emplaceReplace_helper]
  have hlen := length_replace key v log
  have hval := valuesOf_replace key v log
  refine (hch.findOrInsert key).bind ?_
  rintro ⟨d₁, it, initialized⟩ ⟨b, hb, rfl, hres⟩
  rcases hres with ⟨rfl, rfl, hc, hne⟩ | ⟨rfl, hnil, hcons⟩
  · rw [if_neg hne, Nat.add_zero] at hlen
    simp only [if_true, hch.inv.node_eq hb hc, ok_bind]
    cases hv : valuesOf log key with
    | nil => exact absurd hv hne
    | cons x rest =>
      rw [hv, List.tail_cons] at hval
      obtain ⟨hch', -⟩ := hch.assign hb hc hval (List.cons_ne_nil _ _)
        fun k hk => valuesOf_replace_of_ne hk v log
      exact Ends.ok ⟨own hch' (by rw [hk.m_size, hlen]), Cow.Handle.Legal.own _ _, _, rfl⟩
  · simp only [Bool.false_eq_true, if_false]
    have hlog : PairLog.replace key v log = (key, v) :: log := if_pos hnil
    rw [hlog]
    exact Ends.ok ⟨own (hcons v).1 (by simp [hk.m_size]), Cow.Handle.Legal.own _ _, _, rfl⟩

/-- What `operator[]` makes of the log. -/
def indexed [Inhabited V] (key : K) (log : List (K × V)) : List (K × V) :=
  if valuesOf log key = [] then (key, default) :: log else log

theorem index [Inhabited V] (hk : h.Keeps calculateHash log) (globalSeed : ℕ) (key : K) :
    Ends (h.index calculateHash globalSeed key) (TooLarge (h.toQHash.size + 1)) fun r =>
      ∃ b < r.1.numBuckets, r.2.1 = ofIndex b ∧ Chains calculateHash r.1 (indexed key log) ∧
        r.1.cell b = some ⟨key, valuesOf (indexed key log) key⟩ ∧
        valuesOf (indexed key log) key ≠ [] ∧ r.2.2 = ((indexed key log).length : ℤ) := by
  obtain ⟨d, hrun, hch, -⟩ := hk.detach globalSeed
  rw [QMultiHash.index, hrun, ok_bind, ← hk.detach_size hch]
  refine (hch.findOrInsert key).bind ?_
  rintro ⟨d₁, it, initialized⟩ ⟨b, hb, rfl, hres⟩
  rcases hres with ⟨rfl, rfl, hc, hne⟩ | ⟨rfl, hnil, hcons⟩
  · have hlog : indexed key log = log := if_neg hne
    simp only [if_true, hlog]
    exact Ends.ok ⟨b, hb, rfl, hch, hc, hne, hk.m_size⟩
  · have hlog : indexed key log = (key, default) :: log := if_pos hnil
    obtain ⟨hch', hc'⟩ := hcons default
    simp only [Bool.false_eq_true, if_false, hlog, valuesOf_cons_self, hnil]
    exact Ends.ok ⟨b, hb, rfl, hch', hc', List.cons_ne_nil _ _, by simp [hk.m_size]⟩

theorem indexValue [Inhabited V] (hk : h.Keeps calculateHash log) (globalSeed : ℕ) (key : K) :
    Ends (h.indexValue calculateHash globalSeed key) (TooLarge (h.toQHash.size + 1)) fun r =>
      r.1.Keeps calculateHash (indexed key log) ∧ h.d.Legal r.1.d ∧
        r.2 = (valuesOf log key).headD default := by
  refine (hk.index globalSeed key).bind ?_
  rintro ⟨d, it, m_size⟩ ⟨b, hb, rfl, hch, hc, hne, rfl⟩
  simp only [hch.inv.node_eq hb hc, ok_bind]
  have hhead : (valuesOf (indexed key log) key).headD default = (valuesOf log key).headD default := by
    rw [indexed]
    split_ifs with hnil
    · rw [valuesOf_cons_self, hnil]
      rfl
    · rfl
  cases hv : valuesOf (indexed key log) key with
  | nil => exact absurd hv hne
  | cons v rest =>
    rw [hv] at hhead
    exact Ends.ok ⟨own hch rfl, Cow.Handle.Legal.own _ _, hhead⟩

theorem indexAssign [Inhabited V] (hk : h.Keeps calculateHash log) (globalSeed : ℕ) (key : K) (v : V) :
    Ends (h.indexAssign calculateHash globalSeed key v) (TooLarge (h.toQHash.size + 1)) fun h' =>
      h'.Keeps calculateHash (PairLog.replace key v log) ∧ h.d.Legal h'.d := by
  refine (hk.index globalSeed key).bind ?_
  rintro ⟨d, it, m_size⟩ ⟨b, hb, rfl, hch, hc, hne, rfl⟩
  simp only [hch.inv.node_eq hb hc, ok_bind]
  have hval : valuesOf (PairLog.replace key v log) key =
      v :: (valuesOf (indexed key log) key).tail := by
    rw [valuesOf_replace, indexed]
    split_ifs with hnil
    · rw [valuesOf_cons_self, hnil]
      rfl
    · rfl
  have hother : ∀ k, k ≠ key →
      valuesOf (PairLog.replace key v log) k = valuesOf (indexed key log) k := by
    intro k hkk
    rw [valuesOf_replace_of_ne hkk, indexed]
    split_ifs
    · exact (valuesOf_cons_of_ne (p := (key, (default : V))) hkk.symm log).symm
    · rfl
  have hlen : (indexed key log).length = (PairLog.replace key v log).length := by
    rw [length_replace, indexed]
    split_ifs <;> rfl
  cases hv : valuesOf (indexed key log) key with
  | nil => exact absurd hv hne
  | cons x rest =>
    rw [hv, List.tail_cons] at hval
    obtain ⟨hch', -⟩ := hch.assign hb hc hval (List.cons_ne_nil _ _) hother
    exact Ends.ok ⟨own hch' (by rw [hlen]), Cow.Handle.Legal.own _ _⟩

theorem reserve (hk : h.Keeps calculateHash log) (globalSeed n : ℕ) :
    Ends (h.reserve calculateHash globalSeed n) (TooLarge (max h.toQHash.size n)) fun h' =>
      h'.Keeps calculateHash log ∧ h.d.Legal h'.d := by
  obtain ⟨⟨m, hm, ha⟩, hs⟩ := hk
  refine (hm.reserve globalSeed n).bind ?_
  rintro q ⟨hm', hl⟩
  exact Ends.ok ⟨⟨⟨m, hm', ha⟩, hs⟩, hl⟩

end Keeps

end QMultiHash

end QtBase
