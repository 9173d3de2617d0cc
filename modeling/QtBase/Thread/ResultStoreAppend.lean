import QtBase.Core.Exec
import QtBase.Thread.ResultStoreInOrder
import Mathlib.Data.List.GetD

/-! Results that are appended to a `ResultStoreBase`, with index -1. -/
namespace QtBase.ResultStore

open QtBase.Lib List Int Nat Batch

variable {T : Type}

/-! ## Calls with index -1 -/

namespace ResultStoreBase

/-- The sums that are kept as `int`; no other one is larger. -/
def checked (s : ResultStoreBase T) : Exec (ResultStoreBase T) :=
  if s.insertIndex ≤ 2147483647 ∧ s.filteredResults ≤ 2147483647 then .ok s else .error .undefined

/-- `addResult(-1, result)`, or `addResults(-1, results, results.size(), totalCount)`. -/
def append (s : ResultStoreBase T) : Batch T → Exec (ResultStoreBase T)
  | .single result => checked (s.addItem (-1) (result.map Result.single)).1
  | .vector results totalCount => do
    -- Q_ASSERT(vectorSize != 0)
    qAssert (¬((s.m_filterMode = false ∨ (results.length : ℤ) = totalCount) ∧
      (results.length : ℤ) = 0))
    checked (s.addItems (-1) (some (.vector results)) results.length totalCount).1

end ResultStoreBase

namespace Batch

/-- The calls that the store is open to: only a filter takes values away, and only from a list. -/
structure Appends (filterMode : Bool) (b : Batch T) : Prop where
  some_of_single : b ≠ .single none
  kept_le : b.kept.length ≤ b.size
  kept_eq : filterMode = false → b.kept.length = b.size

theorem Appends.fits {filterMode : Bool} {b : Batch T} (h : b.Appends filterMode)
    (hsize : 0 < b.size) : b.Fits filterMode := ⟨hsize, h.kept_le, h.kept_eq⟩

theorem Appends.items_of_kept_eq_nil {filterMode : Bool} {b : Batch T} (h : b.Appends filterMode)
    (hsize : 0 < b.size) (hkept : b.kept = []) : b.items = [⟨b.size, none⟩] := by
  cases b with
  | single result =>
    cases result with
    | none => exact absurd rfl h.some_of_single
    | some value => cases hkept
  | vector results totalCount =>
    change 0 < totalCount at hsize
    have hnil : results = [] := hkept
    rw [items, if_neg (by rw [hnil, length_nil]; omega), if_pos hnil]
    rfl

/-- Some values are kept, and some are not. -/
def Partial (b : Batch T) : Prop := 0 < b.kept.length ∧ b.kept.length < b.size

instance (b : Batch T) : Decidable b.Partial := inferInstanceAs (Decidable (_ ∧ _))

/-- The number of values that are filtered away. -/
def filtered (b : Batch T) : ℤ := b.size - b.kept.length

end Batch

/-- The store holds the values `kept`, one after the other, and no more. -/
structure ResultStoreBase.Shows (s : ResultStoreBase T) (kept : List T) : Prop where
  count_eq : s.count = kept.length
  found : ∀ i, i < kept.length → s.resultAt i ≠ s.m_results.end' ∧
    s.m_results.value (s.resultAt i) = kept[i]?
  iterate_eq : ∀ steps, kept.length ≤ steps →
    s.m_results.iterate steps Store.begin' = kept.map some

/-! ## One item -/

theorem mem_of_mem_insertKey {key : ℤ} {item : ResultItem T} {store : Store T}
    {e : ℤ × ResultItem T} (h : e ∈ insertKey key item store) : e = (key, item) ∨ e ∈ store := by
  induction store with
  | nil => exact .inl (mem_singleton.1 h)
  | cons a store ih =>
    unfold insertKey at h
    split at h
    · exact mem_cons.1 h
    · split at h
      · exact (mem_cons.1 h).imp_right (mem_cons_of_mem _)
      · rcases mem_cons.1 h with rfl | h
        · exact .inr mem_cons_self
        · exact (ih h).imp_right (mem_cons_of_mem _)

namespace ResultStoreBase

variable {s : ResultStoreBase T} {item : ResultItem T}

theorem syncPendingResults_nil (h : s.pendingResults = []) : s.syncPendingResults = s := by
  unfold syncPendingResults
  rw [h]
  rfl

theorem insertResultItem_now (h : s.pendingResults = []) {index : ℤ}
    (hindex : index = -1 ∨ index ≤ s.insertIndex) : (s.insertResultItem index item).1 =
      { s.insertResultItemIfValid
          ((if index = -1 then s.insertIndex else index) - s.filteredResults) item with
        insertIndex := if index = -1 then s.insertIndex + item.count
          else max (index + item.count) s.insertIndex } := by
  have hnow : ¬(s.m_filterMode = true ∧ index ≠ -1 ∧ index > s.insertIndex) := by
    rintro ⟨-, hne, hgt⟩
    omega
  unfold insertResultItem updateInsertIndex
  rw [if_neg hnow]
  by_cases hnext : index = -1
  · rw [if_pos hnext, if_pos hnext, if_pos hnext]
    dsimp only
    rw [insertResultItemIfValid_insertIndex]
    apply syncPendingResults_nil
    exact (insertResultItemIfValid_frame s _ item).2.2.trans h
  · rw [if_neg hnext, if_neg hnext, if_neg hnext]
    dsimp only
    rw [insertResultItemIfValid_insertIndex]
    apply syncPendingResults_nil
    exact (insertResultItemIfValid_frame s _ item).2.2.trans h

theorem insertResultItemIfValid_invalid (hv : item.isValid = false) (index : ℤ) :
    s.insertResultItemIfValid index item =
      { s with filteredResults := s.filteredResults + item.count } := by
  unfold insertResultItemIfValid
  rw [hv]
  rfl

theorem insertResultItemIfValid_valid (hv : item.isValid = true) (index : ℤ) :
    (s.insertResultItemIfValid index item).m_results = insertKey index item s.m_results ∧
      (s.insertResultItemIfValid index item).filteredResults = s.filteredResults := by
  unfold insertResultItemIfValid
  rw [if_pos hv]
  exact ⟨rfl, rfl⟩

theorem findResult_beyond {store : Store T} {index : ℤ}
    (h : ∀ e ∈ store, e.1 + e.2.count ≤ index) : store.findResult index = store.end' := by
  have hat : ∀ it, it < store.length → store.findIn index it = store.end' := by
    intro it hit
    have he := h (store.at' it) (by
      unfold Store.at'
      rw [getD_eq_getElem _ _ hit]
      exact getElem_mem hit)
    unfold Store.findIn
    dsimp only
    rw [if_pos (by omega)]
  unfold Store.findResult
  by_cases hnil : store = []
  · rw [if_pos hnil]
  · have hpos := length_pos_of_ne_nil hnil
    have hle : lowerBoundKey store index ≤ store.length := lowerBoundKey_le_length
    rw [if_neg hnil]
    dsimp only
    split
    · split
      · rfl
      · exact hat _ (by omega)
    · split
      · split
        · rfl
        · exact hat _ (by omega)
      · exact hat _ (by omega)

/-! ## One call -/

section Call

variable {filterMode : Bool} {b : Batch T}

theorem append_vector (results : List T) (totalCount : ℕ) :
    s.append (.vector results totalCount) = (qAssert (¬((s.m_filterMode = false ∨
      (results.length : ℤ) = totalCount) ∧ (results.length : ℤ) = 0)) >>= fun _ =>
        checked (s.addItems (-1) (some (.vector results)) results.length totalCount).1) := rfl

theorem insertResultItem_next (hpending : s.pendingResults = []) (hv : item.isValid = true) :
    (s.insertResultItem (-1) item).1 =
      { s.insertResultItemIfValid (s.insertIndex - s.filteredResults) item with
        insertIndex := s.insertIndex + item.count, filteredResults := s.filteredResults } := by
  have hfiltered := (insertResultItemIfValid_valid (s := s) hv
    (s.insertIndex - s.filteredResults)).2
  rw [insertResultItem_now hpending (.inl rfl), if_pos rfl, if_pos rfl]
  generalize s.insertResultItemIfValid (s.insertIndex - s.filteredResults) item = next at *
  rw [← hfiltered]

theorem append_empty (hb : b.Appends filterMode)
    (hsize : b.size = 0) : s.append b = .error .undefined := by
  cases b with
  | single result => cases hsize
  | vector results totalCount =>
    have hle := hb.kept_le
    rw [hsize] at hle
    have hnil : results = [] := length_eq_zero_iff.1 (le_zero.1 hle)
    have htotal : totalCount = 0 := hsize
    subst hnil htotal
    rw [append_vector, qAssert_neg (not_not.2 ⟨.inr rfl, rfl⟩), error_bind]

theorem append_dropping (hmode : s.m_filterMode = filterMode) (hpending : s.pendingResults = [])
    (hb : b.Appends filterMode) (hkept : b.kept = []) (hsize : 0 < b.size) :
    s.append b = checked { s with insertIndex := s.insertIndex + b.size
                                  filteredResults := s.filteredResults + b.size } := by
  cases b with
  | single result =>
    cases result with
    | none => exact absurd rfl hb.some_of_single
    | some value => cases hkept
  | vector results totalCount =>
    have hnil : results = [] := hkept
    subst hnil
    change 0 < totalCount at hsize
    have hfilter : ¬(s.m_filterMode = false ∨ (([] : List T).length : ℤ) = totalCount) := by
      rintro (hfalse | htotal)
      · exact absurd (hb.kept_eq (hmode.symm.trans hfalse)) (Nat.ne_of_lt hsize)
      · rw [length_nil] at htotal
        omega
    have hcount : (⟨totalCount, none⟩ : ResultItem T).count = totalCount := if_neg (by
      show (totalCount : ℤ) ≠ 0
      omega)
    have hassert : ¬((s.m_filterMode = false ∨ (([] : List T).length : ℤ) = totalCount) ∧
        (([] : List T).length : ℤ) = 0) := fun h => hfilter h.1
    rw [append_vector, qAssert_pos hassert, ok_bind, addItems, if_neg hfilter,
      if_neg (show ¬(([] : List T).length : ℤ) > 0 from lt_irrefl 0)]
    show checked (s.insertResultItem (-1) ⟨totalCount - 0, none⟩).1 = _
    rw [sub_zero, insertResultItem_now hpending (.inl rfl),
      insertResultItemIfValid_invalid rfl, if_pos rfl, hcount]
    rfl

/-- A call that keeps values stores them at the next index, but where some are filtered away the
index behind them is taken from `totalCount` alone. -/
theorem append_keeping (hmode : s.m_filterMode = filterMode) (hpending : s.pendingResults = [])
    (hnonneg : 0 ≤ s.insertIndex) (hb : b.Appends filterMode) (hkept : b.kept ≠ []) :
    ∃ item : ResultItem T, item.isValid = true ∧ item.count = b.kept.length ∧
      (b.Partial → ∃ item' : ResultItem T, b.items = [item, item'] ∧ item'.isValid = false ∧
        item'.count = b.filtered) ∧ (¬b.Partial → b.items = [item] ∧ b.filtered = 0) ∧
      s.append b = checked { s.insertResultItemIfValid (s.insertIndex - s.filteredResults) item with
        insertIndex := if b.Partial then max (b.size - 1) (s.insertIndex + b.kept.length)
          else s.insertIndex + b.kept.length
        filteredResults := s.filteredResults + b.filtered } := by
  have hle := hb.kept_le
  have hpos := length_pos_of_ne_nil hkept
  cases b with
  | single result =>
    cases result with
    | none => exact absurd rfl hb.some_of_single
    | some value =>
      have hshort : ¬(single (some value)).Partial := fun h => lt_irrefl 1 h.2
      refine ⟨⟨0, some (.single value)⟩, rfl, rfl, fun h => absurd h hshort,
        fun _ => ⟨rfl, rfl⟩, ?_⟩
      show checked (s.insertResultItem (-1) ⟨0, some (.single value)⟩).1 = _
      rw [if_neg hshort, insertResultItem_next hpending rfl]
      show _ = checked { s.insertResultItemIfValid _ _ with
        insertIndex := _, filteredResults := s.filteredResults + 0 }
      rw [add_zero]
      rfl
  | vector results totalCount =>
    change 0 < results.length at hpos
    change results.length ≤ totalCount at hle
    have hcount : (⟨results.length, some (.vector results)⟩ : ResultItem T).count =
        results.length := if_neg (by
      show (results.length : ℤ) ≠ 0
      omega)
    refine ⟨⟨results.length, some (.vector results)⟩, rfl, hcount, ?_, ?_, ?_⟩
    · intro h
      have hlt : results.length < totalCount := h.2
      refine ⟨⟨totalCount - results.length, none⟩, ?_, rfl, ?_⟩
      · rw [items, if_neg (by omega), if_neg (ne_nil_of_length_pos hpos)]
      · exact if_neg (by
          show (totalCount : ℤ) - results.length ≠ 0
          omega)
    · intro h
      have heq : results.length = totalCount := by
        by_contra hne
        exact h ⟨hpos, by show results.length < totalCount; omega⟩
      refine ⟨?_, ?_⟩
      · rw [items, if_pos heq]
      · show (totalCount : ℤ) - results.length = 0
        omega
    · rw [append_vector, qAssert_pos (by omega), ok_bind, addItems]
      by_cases hall : s.m_filterMode = false ∨ (results.length : ℤ) = totalCount
      · have heq : results.length = totalCount := by
          rcases hall with hfalse | heq
          · exact hb.kept_eq (hmode.symm.trans hfalse)
          · omega
        have hshort : ¬(vector results totalCount).Partial := by
          intro h
          have hlt : results.length < totalCount := h.2
          omega
        have hfiltered : (vector results totalCount).filtered = 0 := by
          show (totalCount : ℤ) - results.length = 0
          omega
        rw [if_pos hall, if_neg hshort, insertResultItem_next hpending rfl, hfiltered,
          add_zero, hcount]
        rfl
      · have hne : (results.length : ℤ) ≠ totalCount := fun h => hall (.inr h)
        have hshort : (vector results totalCount).Partial :=
          ⟨hpos, by show results.length < totalCount; omega⟩
        have hrest : (⟨totalCount - results.length, none⟩ : ResultItem T).count =
            totalCount - results.length := if_neg (by
          show (totalCount : ℤ) - results.length ≠ 0
          omega)
        have hnext := @insertResultItem_next T s ⟨results.length, some (.vector results)⟩
          hpending rfl
        have hframe := (insertResultItemIfValid_frame s (s.insertIndex - s.filteredResults)
          ⟨results.length, some (.vector results)⟩).2.2
        rw [hcount] at hnext
        rw [if_neg hall, if_pos hshort, if_pos (show (results.length : ℤ) > 0 by omega)]
        dsimp only
        generalize (s.insertResultItem (-1) ⟨results.length, some (.vector results)⟩).1 = first
          at hnext ⊢
        have hpending' : first.pendingResults = [] := by
          rw [hnext]
          exact hframe.trans hpending
        have hindex : first.insertIndex = s.insertIndex + results.length := by
          rw [hnext]
        have hfiltered : first.filteredResults = s.filteredResults := by
          rw [hnext]
        rw [insertResultItem_now hpending' (.inr (by omega)),
          insertResultItemIfValid_invalid rfl, hrest, hindex, hfiltered, if_neg (by omega),
          show -1 + (results.length : ℤ) + (totalCount - results.length) = totalCount - 1 by omega,
          hnext]
        rfl

end Call

/-! ## Values that are lost -/

/-- Whatever keeps only a part is followed by nothing that keeps a value. -/
def Separate (calls : List (Batch T)) : Prop :=
  calls.Pairwise fun b c => b.Partial → c.kept = []

theorem separate_concat {done : List (Batch T)} {b : Batch T} : Separate (done ++ [b]) ↔
    Separate done ∧ ∀ a ∈ done, a.Partial → b.kept = [] := by
  unfold Separate
  rw [pairwise_append]
  constructor
  · rintro ⟨hdone, -, hlast⟩
    exact ⟨hdone, fun a ha => hlast a ha b mem_cons_self⟩
  · rintro ⟨hdone, hlast⟩
    refine ⟨hdone, pairwise_singleton _ _, fun a ha c hc => ?_⟩
    rw [mem_singleton.1 hc]
    exact hlast a ha

theorem length_allKept_concat (done : List (Batch T)) (b : Batch T) :
    ((allKept (done ++ [b])).length : ℤ) = (allKept done).length + b.kept.length := by
  unfold allKept
  simp

variable {s' : ResultStoreBase T}

theorem checked_ok {s : ResultStoreBase T} (h : checked s = .ok s') : s' = s := by
  unfold checked at h
  split at h
  · exact (Except.ok.inj h).symm
  · cases h

/-- The next index is at most the number of values kept. It stays below after a call that kept only
a part, and from then on no item reaches up to the last value. -/
structure Tally (filterMode : Bool) (done : List (Batch T)) (s : ResultStoreBase T) : Prop where
  mode : s.m_filterMode = filterMode
  pending : s.pendingResults = []
  nonneg : 0 ≤ s.insertIndex
  filtered_nonneg : 0 ≤ s.filteredResults
  next_le : s.insertIndex - s.filteredResults ≤ (Batch.allKept done).length
  next_lt : (∃ b ∈ done, b.Partial) →
    s.insertIndex - s.filteredResults < (Batch.allKept done).length
  ends_le : ∀ e ∈ s.m_results, e.1 + e.2.count ≤ (Batch.allKept done).length
  ends_lt : ¬Separate done → ∀ e ∈ s.m_results, e.1 + e.2.count < (Batch.allKept done).length

theorem Tally.append {filterMode : Bool} {done : List (Batch T)} {b : Batch T}
    {s s' : ResultStoreBase T} (h : Tally filterMode done s) (hb : b.Appends filterMode)
    (hrun : s.append b = .ok s') : Tally filterMode (done ++ [b]) s' := by
  have hlen := length_allKept_concat done b
  have hsep := @separate_concat _ done b
  have hnonneg := h.nonneg
  have hfiltered := h.filtered_nonneg
  have hnext := h.next_le
  have hle := hb.kept_le
  have hshort : (∃ a ∈ done ++ [b], a.Partial) ↔ (∃ a ∈ done, a.Partial) ∨ b.Partial := by
    constructor
    · rintro ⟨a, ha, hp⟩
      rcases mem_append.1 ha with ha | ha
      · exact .inl ⟨a, ha, hp⟩
      · exact .inr (mem_singleton.1 ha ▸ hp)
    · rintro (⟨a, ha, hp⟩ | hp)
      · exact ⟨a, mem_append_left _ ha, hp⟩
      · exact ⟨b, mem_append_right _ mem_cons_self, hp⟩
  by_cases hsize : b.size = 0
  · rw [append_empty hb hsize] at hrun
    cases hrun
  by_cases hkept : b.kept = []
  · rw [append_dropping h.mode h.pending hb hkept (by omega)] at hrun
    have hs' := checked_ok hrun
    have hsame : b.kept.length = 0 := by rw [hkept]; rfl
    have hnot : ¬b.Partial := fun hp => by
      have hpos := hp.1
      omega
    rw [hs']
    constructor
    · exact h.mode
    · exact h.pending
    · show 0 ≤ s.insertIndex + b.size
      omega
    · show 0 ≤ s.filteredResults + b.size
      omega
    · show s.insertIndex + b.size - (s.filteredResults + b.size) ≤ _
      omega
    · intro hp
      have hlt := h.next_lt ((hshort.1 hp).resolve_right hnot)
      show s.insertIndex + b.size - (s.filteredResults + b.size) < _
      omega
    · intro e he
      have hend := h.ends_le e he
      omega
    · intro hover e he
      have hend := h.ends_lt (fun hdone => hover (hsep.2 ⟨hdone, fun _ _ _ => hkept⟩)) e he
      omega
  · obtain ⟨item, hv, hcount, -, hwhole, happend⟩ :=
      append_keeping h.mode h.pending hnonneg hb hkept
    rw [happend] at hrun
    have hs' := checked_ok hrun
    have hpos := length_pos_of_ne_nil hkept
    obtain ⟨-, hmode, hpending⟩ := insertResultItemIfValid_frame s
      (s.insertIndex - s.filteredResults) item
    obtain ⟨hresults, -⟩ := insertResultItemIfValid_valid (s := s) hv
      (s.insertIndex - s.filteredResults)
    have hrest : b.filtered = b.size - b.kept.length := rfl
    have hsome : b.Partial ↔ b.kept.length < b.size := and_iff_right hpos
    rw [hs']
    constructor
    · exact hmode.trans h.mode
    · exact hpending.trans h.pending
    · show 0 ≤ if b.Partial then _ else _
      split <;> omega
    · show 0 ≤ s.filteredResults + b.filtered
      omega
    · show (if b.Partial then _ else _) - (s.filteredResults + b.filtered) ≤ _
      split <;> omega
    · intro hp
      show (if b.Partial then _ else _) - (s.filteredResults + b.filtered) < _
      split
      · next hsplit =>
        have hlt := hsome.1 hsplit
        omega
      · next hsplit =>
        have hlt := h.next_lt ((hshort.1 hp).resolve_right hsplit)
        omega
    · intro e he
      change e ∈ (s.insertResultItemIfValid _ item).m_results at he
      rw [hresults] at he
      rcases mem_of_mem_insertKey he with rfl | he
      · show s.insertIndex - s.filteredResults + item.count ≤ _
        omega
      · have hend := h.ends_le e he
        omega
    · intro hover e he
      change e ∈ (s.insertResultItemIfValid _ item).m_results at he
      rw [hresults] at he
      rcases mem_of_mem_insertKey he with rfl | he
      · have hbefore : ∃ a ∈ done, a.Partial := by
          by_contra hnone
          refine hover (hsep.2 ⟨pairwise_of_forall_mem_list ?_, ?_⟩)
          · exact fun a ha _ _ hp => absurd ⟨a, ha, hp⟩ hnone
          · exact fun a ha hp => absurd ⟨a, ha, hp⟩ hnone
        have hlt := h.next_lt hbefore
        show s.insertIndex - s.filteredResults + item.count < _
        omega
      · have hend := h.ends_le e he
        omega

variable {calls : List (Batch T)}

theorem Tally.run {filterMode : Bool} {done : List (Batch T)} {s : ResultStoreBase T}
    (h : Tally filterMode done s) (hcalls : ∀ b ∈ calls, b.Appends filterMode)
    (hrun : calls.foldlM ResultStoreBase.append s = .ok s') :
    Tally filterMode (done ++ calls) s' := by
  induction calls generalizing done s with
  | nil =>
    cases hrun
    rwa [append_nil]
  | cons b calls ih =>
    obtain ⟨next, hnext, hrun⟩ := bind_eq_ok hrun
    have htally := ih (h.append (hcalls b mem_cons_self) hnext)
      (fun c hc => hcalls c (mem_cons_of_mem _ hc)) hrun
    rwa [append_assoc] at htally

theorem tally_construct (filterMode : Bool) :
    Tally filterMode [] (construct filterMode : ResultStoreBase T) where
  mode := rfl
  pending := rfl
  nonneg := le_refl 0
  filtered_nonneg := le_refl 0
  next_le := le_refl 0
  next_lt := by
    rintro ⟨b, hb, -⟩
    exact absurd hb not_mem_nil
  ends_le e he := absurd he not_mem_nil
  ends_lt h := absurd List.Pairwise.nil h

/-- The last value is not found if a value was kept behind a call that kept only a part. -/
theorem Tally.separate {filterMode : Bool} {s : ResultStoreBase T} (h : Tally filterMode calls s)
    (hshows : s.Shows (allKept calls)) : Separate calls := by
  by_contra hover
  have hpos : 0 < (allKept calls).length := by
    by_contra hzero
    have hnil : allKept calls = [] := length_eq_zero_iff.1 (by omega)
    refine hover (pairwise_of_forall_mem_list fun a _ c hc _ => ?_)
    exact flatMap_eq_nil_iff.1 hnil c hc
  obtain ⟨hne, -⟩ := hshows.found ((allKept calls).length - 1) (by omega)
  refine hne (findResult_beyond fun e he => ?_)
  have hlt := h.ends_lt hover e he
  omega

/-! ## Values that are kept -/

/-- The first `n` calls are stored; the next index is the right one unless a part was dropped. -/
structure Stored (filterMode : Bool) (calls : List (Batch T)) (n : ℕ) (s : ResultStoreBase T) :
    Prop where
  mode : s.m_filterMode = filterMode
  pending : s.pendingResults = []
  nonneg : 0 ≤ s.insertIndex
  consumed : Consumed (Batch.allItems calls) (Batch.itemIndex calls n) s
  index_le : s.insertIndex ≤ Batch.offset calls n
  index_eq : (∀ b ∈ calls.take n, ¬b.Partial) → s.insertIndex = Batch.offset calls n

theorem Consumed.congr {items : List (ResultItem T)} {p : ℕ} {s : ResultStoreBase T}
    (h : Consumed items p s) (hresults : s'.m_results = s.m_results)
    (hcount : s'.resultCount = s.resultCount) (hfiltered : s'.filteredResults = s.filteredResults) :
    Consumed items p s' where
  le := h.le
  stored := hresults ▸ h.stored
  count_eq := hcount.trans h.count_eq
  filtered_eq := hfiltered.trans h.filtered_eq

theorem offset_succ {n : ℕ} {b : Batch T} (hn : calls[n]? = some b) :
    offset calls (n + 1) = offset calls n + b.size := by
  unfold offset
  rw [take_add_one, hn, map_append, sum_append]
  simp

theorem offset_le (calls : List (Batch T)) (n : ℕ) :
    offset calls n ≤ offset calls calls.length := by
  unfold offset
  rw [take_length]
  conv_rhs => rw [← take_append_drop n calls, map_append, sum_append]
  exact le_add_right _ _

theorem Stored.append {filterMode : Bool} {calls : List (Batch T)}
    (hcalls : ∀ b ∈ calls, b.Appends filterMode) (hsize : ∀ b ∈ calls, 0 < b.size)
    (hsep : Separate calls) (hsum : offset calls calls.length ≤ 2147483647) {n : ℕ}
    {s : ResultStoreBase T} (h : Stored filterMode calls n s) {b : Batch T}
    (hn : calls[n]? = some b) :
    ∃ s', s.append b = .ok s' ∧ Stored filterMode calls (n + 1) s' := by
  have hmem := mem_of_getElem? hn
  have hb := hcalls b hmem
  have hpos := hsize b hmem
  have hfits : ∀ c ∈ calls, c.Fits filterMode := fun c hc => (hcalls c hc).fits (hsize c hc)
  have hw := (sound hfits).wellFormed
  have hindex := itemIndex_succ hn
  have hoffset := offset_succ hn
  have hle := offset_le calls (n + 1)
  have htake : calls.take (n + 1) = calls.take n ++ [b] := by
    rw [take_add_one, hn]
    rfl
  have hstart := start_itemIndex hfits (n + 1)
  have hkeptNonneg : 0 ≤ kept (allItems calls) (itemIndex calls (n + 1)) :=
    kept_mono (zero_le (itemIndex calls (n + 1)))
  have hchecked : ∀ s' : ResultStoreBase T, s'.insertIndex ≤ offset calls (n + 1) →
      Consumed (allItems calls) (itemIndex calls (n + 1)) s' →
      checked s' = .ok s' := by
    intro s' hi hc
    have hfiltered := hc.filtered_eq
    rw [hstart] at hfiltered
    exact if_pos ⟨by omega, by omega⟩
  by_cases hkept : b.kept = []
  · have hitems := hb.items_of_kept_eq_nil hpos hkept
    have hitem := getElem?_allItems hn (i := 0) (by rw [hitems]; exact one_pos)
    rw [hitems, add_zero] at hitem
    have hcount : (⟨b.size, none⟩ : ResultItem T).count = b.size := if_neg (by
      show (b.size : ℤ) ≠ 0
      omega)
    have hconsumed := h.consumed.insert hw hitem
    rw [insertResultItemIfValid_invalid rfl, hcount] at hconsumed
    rw [hitems] at hindex
    have hdone : Consumed (allItems calls) (itemIndex calls (n + 1))
        { s with insertIndex := s.insertIndex + b.size
                 filteredResults := s.filteredResults + b.size } := by
      rw [hindex]
      exact hconsumed.congr rfl rfl rfl
    have hI := h.index_le
    refine ⟨{ s with insertIndex := s.insertIndex + b.size
                     filteredResults := s.filteredResults + b.size },
      ?_, h.mode, h.pending, ?_, hdone, ?_, ?_⟩
    · rw [append_dropping h.mode h.pending hb hkept hpos]
      exact hchecked _ (by show s.insertIndex + b.size ≤ _; omega) hdone
    · have hnonneg := h.nonneg
      show 0 ≤ s.insertIndex + b.size
      omega
    · show s.insertIndex + b.size ≤ _
      omega
    · intro hnone
      rw [htake] at hnone
      have heq := h.index_eq fun a ha => hnone a (mem_append_left _ ha)
      show s.insertIndex + b.size = _
      omega
  · have hbefore : ∀ a ∈ calls.take n, ¬a.Partial := by
      intro a ha hp
      have hsep' : Separate (calls.take (n + 1)) := hsep.sublist (take_sublist _ _)
      rw [htake] at hsep'
      exact hkept ((separate_concat.1 hsep').2 a ha hp)
    have hI := h.index_eq hbefore
    have hle := hb.kept_le
    obtain ⟨item, hv, hcount, hpart, hwhole, happend⟩ :=
      append_keeping h.mode h.pending h.nonneg hb hkept
    have hfirst : b.items[0]? = some item := by
      by_cases hp : b.Partial
      · obtain ⟨item', hitems, -⟩ := hpart hp
        rw [hitems]
        rfl
      · rw [(hwhole hp).1]
        rfl
    have hlength := length_pos_of_ne_nil b.items_ne_nil
    have hitem := getElem?_allItems hn (i := 0) hlength
    rw [hfirst, add_zero] at hitem
    have hkey : start (allItems calls) (itemIndex calls n) = s.insertIndex := by
      rw [start_itemIndex hfits, hI]
    have hconsumed := h.consumed.insert hw hitem
    rw [hkey] at hconsumed
    obtain ⟨-, hmode, hpending⟩ := insertResultItemIfValid_frame s
      (s.insertIndex - s.filteredResults) item
    have hfiltered := (insertResultItemIfValid_valid (s := s) hv
      (s.insertIndex - s.filteredResults)).2
    have hdone : Consumed (allItems calls) (itemIndex calls (n + 1))
        { s.insertResultItemIfValid (s.insertIndex - s.filteredResults) item with
          insertIndex := if b.Partial then max (b.size - 1) (s.insertIndex + b.kept.length)
            else s.insertIndex + b.kept.length
          filteredResults := s.filteredResults + b.filtered } := by
      by_cases hp : b.Partial
      · obtain ⟨item', hitems, hv', hcount'⟩ := hpart hp
        have hitem' := getElem?_allItems hn (i := 1) (by
          rw [hitems]
          exact lt_succ_self 1)
        rw [hitems] at hitem'
        have hconsumed' := hconsumed.insert hw hitem'
        rw [insertResultItemIfValid_invalid hv', hcount', hfiltered] at hconsumed'
        rw [hindex, hitems]
        exact hconsumed'.congr rfl rfl rfl
      · obtain ⟨hitems, hzero⟩ := hwhole hp
        rw [hindex, hitems]
        refine hconsumed.congr rfl rfl ?_
        show s.filteredResults + b.filtered = _
        rw [hzero, hfiltered, add_zero]
    have hsome : b.Partial ↔ b.kept.length < b.size :=
      and_iff_right (length_pos_of_ne_nil hkept)
    have hindexLe : (if b.Partial then max ((b.size : ℤ) - 1) (s.insertIndex + b.kept.length)
        else s.insertIndex + b.kept.length) ≤ offset calls (n + 1) := by
      split <;> omega
    refine ⟨_, happend.trans (hchecked _ hindexLe hdone), hmode.trans h.mode,
      hpending.trans h.pending, ?_, hdone, hindexLe, ?_⟩
    · have hnonneg := h.nonneg
      show 0 ≤ if b.Partial then _ else _
      split <;> omega
    · intro hnone
      rw [htake] at hnone
      have hp := hnone b (mem_append_right _ mem_cons_self)
      have heq : ¬b.kept.length < b.size := fun hlt => hp (hsome.2 hlt)
      show (if b.Partial then _ else _) = _
      omega

theorem stored_run {filterMode : Bool} (hcalls : ∀ b ∈ calls, b.Appends filterMode)
    (hsize : ∀ b ∈ calls, 0 < b.size) (hsep : Separate calls)
    (hsum : offset calls calls.length ≤ 2147483647) {n : ℕ}
    (hn : n ≤ calls.length) : ∃ s, (calls.take n).foldlM append (construct filterMode) = .ok s ∧
      Stored filterMode calls n s := by
  induction n with
  | zero =>
    have hconsumed : Consumed (allItems calls) (itemIndex calls 0)
        (construct filterMode) :=
      (Held.construct true (allItems calls)).1.consumed.congr rfl rfl rfl
    exact ⟨_, rfl, rfl, rfl, le_refl 0, hconsumed, le_refl 0, fun _ => rfl⟩
  | succ n ih =>
    obtain ⟨s, hs, hstored⟩ := ih (by omega)
    have hb := List.getElem?_eq_getElem (show n < calls.length by omega)
    obtain ⟨s', hs', hstored'⟩ := hstored.append hcalls hsize hsep hsum hb
    refine ⟨s', ?_, hstored'⟩
    rw [take_add_one, hb, foldlM_append, hs, ok_bind]
    show (s.append calls[n] >>= fun next => pure next) = _
    rw [hs']
    rfl

/-- What is stored is found, counted and listed. -/
theorem Stored.shows {filterMode : Bool} {s : ResultStoreBase T}
    (h : Stored filterMode calls calls.length s) (hfits : ∀ b ∈ calls, b.Fits filterMode) :
    s.Shows (allKept calls) := by
  have hconsumed := h.consumed
  rw [itemIndex_of_length_le (le_refl _)] at hconsumed
  have hc := counted_valid (sound hfits).wellFormed
    fun j => j < (allItems calls).length
  have hreached : Reached (allItems calls) (fun j => j < (allItems calls).length ∧
      ValidAt (allItems calls) j) (allItems calls).length := by
    intro j item hj hitem hv
    refine ⟨hj, fun it hit => ?_⟩
    rw [hitem, Option.some.injEq] at hit
    rw [← hit]
    exact hv
  have hkept : ((allItems calls).take (allItems calls).length).flatMap
      ResultItem.values = allKept calls := by
    rw [take_length, flatMap_allItems]
  constructor
  · show s.resultCount = _
    rw [hconsumed.count_eq, kept_eq_length, hkept]
  · intro i hi
    have hfound := hconsumed.stored.resultAt hc hreached (i := i)
    rw [hkept] at hfound
    exact hfound hi
  · intro steps hsteps
    rw [← flatMap_allItems] at hsteps ⊢
    exact hconsumed.stored.iterate hc hreached hsteps

theorem size_pos_of_run {filterMode : Bool} {s : ResultStoreBase T}
    (hcalls : ∀ b ∈ calls, b.Appends filterMode) (hrun : calls.foldlM append s = .ok s') :
    ∀ b ∈ calls, 0 < b.size := by
  induction calls generalizing s with
  | nil => exact fun b hb => absurd hb not_mem_nil
  | cons b calls ih =>
    obtain ⟨next, hnext, hrun⟩ := bind_eq_ok hrun
    rw [forall_mem_cons]
    refine ⟨?_, ih (fun c hc => hcalls c (mem_cons_of_mem _ hc)) hrun⟩
    by_contra hzero
    rw [append_empty (hcalls b mem_cons_self) (by omega)] at hnext
    cases hnext

/-- As long as the reported results are counted by an `int`, appending loses nothing unless a list
is empty before and after the filter, or a call that keeps a part is followed by one that keeps
anything. -/
theorem append_shows_iff (filterMode : Bool) {calls : List (Batch T)}
    (hcalls : ∀ b ∈ calls, b.Appends filterMode)
    (hsum : (calls.map Batch.size).sum ≤ 2147483647) :
    (∃ s, calls.foldlM append (construct filterMode) = .ok s ∧ s.Shows (Batch.allKept calls)) ↔
      (∀ b ∈ calls, 0 < b.size) ∧ calls.Pairwise fun b c => b.Partial → c.kept = [] := by
  constructor
  · rintro ⟨s, hrun, hshows⟩
    exact ⟨size_pos_of_run hcalls hrun,
      ((tally_construct filterMode).run hcalls hrun).separate hshows⟩
  · rintro ⟨hsize, hsep⟩
    have hoffset : offset calls calls.length ≤ 2147483647 := by
      unfold offset
      rwa [take_length]
    obtain ⟨s, hrun, hstored⟩ := stored_run hcalls hsize hsep hoffset (le_refl _)
    rw [take_length] at hrun
    exact ⟨s, hrun, hstored.shows fun b hb => (hcalls b hb).fits (hsize b hb)⟩

/-- A value, and then one of two. -/
theorem append_shows_iff_two :
    (∃ s, [Batch.single (some 6), .vector [7] 2].foldlM append (construct true) = .ok s ∧
        s.Shows (Batch.allKept [Batch.single (some 6), .vector [7] 2])) ↔
      (∀ b ∈ [Batch.single (some 6), .vector [7] 2], 0 < b.size) ∧
        [Batch.single (some 6), .vector [7] 2].Pairwise fun b c => b.Partial → c.kept = [] := by
  refine append_shows_iff true ?_ (by decide)
  intro b hb
  rcases mem_cons.1 hb with rfl | hb
  · exact ⟨(fun h => by cases h), by decide, by decide⟩
  · rw [mem_singleton.1 hb]
    exact ⟨(fun h => by cases h), by decide, by decide⟩

/-- One of two values, and then another one, which is stored over the first. -/
theorem append_overwrites :
    ¬∃ s, [Batch.vector [7] 2, .single (some 8)].foldlM append (construct true) = .ok s ∧
      s.Shows (Batch.allKept [Batch.vector [7] 2, .single (some 8)]) := by
  rintro ⟨s, hrun, hshows⟩
  have hcount : ([vector [7] 2, .single (some 8)].foldlM append (construct true)).map count =
      .ok 1 := by decide
  rw [hrun] at hcount
  have hone : s.count = 1 := Except.ok.inj hcount
  have htwo := hshows.count_eq
  rw [hone] at htwo
  exact absurd htwo (by decide)

end ResultStoreBase

end QtBase.ResultStore
