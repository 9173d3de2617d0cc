import QtBase.Thread.ResultStoreRun

/-! The items of a `ResultStoreBase` may arrive in any order. -/
namespace QtBase.ResultStore

open QtBase.Lib List Int Nat ResultItem

variable {T : Type}

namespace ResultStoreBase

variable {s : ResultStoreBase T} {items : List (ResultItem T)} {A : ℕ → Prop} {p : ℕ}

/-! ## One item after the other -/

abbrev start (items : List (ResultItem T)) (j : ℕ) : ℤ := position ResultItem.count items j

/-- The item there has results. -/
def ValidAt (items : List (ResultItem T)) (j : ℕ) : Prop :=
  ∀ item, items[j]? = some item → item.isValid = true

theorem counted_valid (hw : ∀ item ∈ items, item.WellFormed) (B : ℕ → Prop) :
    Counted keptCount items fun j => B j ∧ ValidAt items j where
  wellFormed := hw
  nonneg _ _ := natCast_nonneg _
  count_eq _ item hj hitem :=
    (hw item (mem_of_getElem? hitem)).keptCount_of_isValid (hj.2 item hitem)

theorem counted_start (hw : ∀ item ∈ items, item.WellFormed) (B : ℕ → Prop) :
    Counted ResultItem.count items B where
  wellFormed := hw
  nonneg item hitem := le_of_lt (hw item hitem).count_pos
  count_eq _ _ _ _ := rfl

theorem start_lt (hw : ∀ item ∈ items, item.WellFormed) {i j : ℕ} (hij : i < j)
    (hi : i < items.length) : start items i < start items j := by
  have hitem := getElem?_eq_getElem hi
  have hpos := (hw _ (mem_of_getElem? hitem)).count_pos
  have hmono := position_mono (counted_start hw fun _ => True).nonneg hij
  rw [position_succ hitem] at hmono
  show position _ items i < position _ items j
  omega

theorem start_nonneg (hw : ∀ item ∈ items, item.WellFormed) (j : ℕ) : 0 ≤ start items j :=
  position_mono (counted_start hw fun _ => True).nonneg (zero_le j)

theorem kept_mono {i j : ℕ} (h : i ≤ j) : kept items i ≤ kept items j :=
  position_mono (fun _ _ => natCast_nonneg _) h

theorem kept_le_start (hw : ∀ item ∈ items, item.WellFormed) (j : ℕ) :
    kept items j ≤ start items j := by
  induction j with
  | zero => exact le_refl _
  | succ j ih =>
    cases hitem : items[j]? with
    | none =>
      have hlen := getElem?_eq_none_iff.mp hitem
      rw [kept, start, position_of_length_le hlen, position_of_length_le hlen]
      exact ih
    | some item =>
      have hwf := hw item (mem_of_getElem? hitem)
      have hle : item.keptCount ≤ item.count := by
        cases hv : item.isValid with
        | true => exact le_of_eq (hwf.keptCount_of_isValid hv)
        | false =>
          have hpos := hwf.count_pos
          rw [keptCount, values_of_not_isValid hv]
          exact le_of_lt hpos
      rw [kept, start, position_succ hitem, position_succ hitem]
      change position _ items j ≤ position _ items j at ih
      omega

theorem kept_eq_of_not_valid {i j : ℕ} (hij : i ≤ j)
    (hnot : ∀ q item, i ≤ q → q < j → items[q]? = some item → item.isValid = false) :
    kept items j = kept items i := by
  induction j with
  | zero =>
    have hzero : i = 0 := by omega
    rw [hzero]
  | succ j ih =>
    obtain rfl | hlt := eq_or_lt_of_le hij
    · rfl
    · have heq := ih (by omega) fun q item hq hqj hitem => hnot q item hq (by omega) hitem
      rw [← heq]
      cases hitem : items[j]? with
      | none => exact position_of_length_le (getElem?_eq_none_iff.mp hitem)
      | some item =>
        have hinvalid := hnot j item (by omega) (lt_succ_self j) hitem
        rw [kept, position_succ hitem, keptCount,
          values_of_not_isValid hinvalid]
        exact add_zero _

/-- The first `p` items have been taken in; their results stand in a row. -/
structure Consumed (items : List (ResultItem T)) (p : ℕ) (s : ResultStoreBase T) : Prop where
  le : p ≤ items.length
  stored : Indexed ResultItem.keptCount items (fun j => j < p ∧ ValidAt items j) s.m_results
  count_eq : s.resultCount = kept items p
  filtered_eq : s.filteredResults = start items p - kept items p

theorem insertResultItemIfValid_frame (s : ResultStoreBase T) (index : ℤ) (item : ResultItem T) :
    (s.insertResultItemIfValid index item).insertIndex = s.insertIndex ∧
      (s.insertResultItemIfValid index item).m_filterMode = s.m_filterMode ∧
      (s.insertResultItemIfValid index item).pendingResults = s.pendingResults := by
  unfold insertResultItemIfValid
  split <;> exact ⟨rfl, rfl, rfl⟩

theorem syncLoop_insertIndex (i : ℤ) (steps : ℕ) (count : ℤ) :
    ({ s with insertIndex := i } : ResultStoreBase T).syncLoop steps count =
      s.syncLoop steps count := by
  induction steps generalizing count with
  | zero => rfl
  | succ steps ih =>
    unfold syncLoop
    dsimp only
    rw [ih]

theorem insertResultItemIfValid_insertIndex (s : ResultStoreBase T) (i index : ℤ)
    (item : ResultItem T) :
    ({ s with insertIndex := i } : ResultStoreBase T).insertResultItemIfValid index item =
      { s.insertResultItemIfValid index item with insertIndex := i } := by
  unfold insertResultItemIfValid
  split
  · unfold syncResultCount
    dsimp only
    rw [← @syncLoop_insertIndex T { s with m_results := insertKey index item s.m_results } i]
  · rfl

theorem Consumed.insert (h : Consumed items p s) (hw : ∀ item ∈ items, item.WellFormed)
    {item : ResultItem T} (hitem : items[p]? = some item) :
    Consumed items (p + 1) (s.insertResultItemIfValid (start items p - s.filteredResults) item) := by
  have hlen := (List.getElem?_eq_some_iff.mp hitem).1
  have hwf := hw item (mem_of_getElem? hitem)
  have hstart : start items (p + 1) = start items p + item.count := position_succ hitem
  have hkept : kept items (p + 1) = kept items p + item.keptCount := position_succ hitem
  have hfiltered := h.filtered_eq
  unfold insertResultItemIfValid
  cases hv : item.isValid with
  | true =>
    have hcount := hwf.keptCount_of_isValid hv
    have hpos := hwf.count_pos
    have hindex : start items p - s.filteredResults = kept items p := by omega
    have hvalid : ValidAt items p := by
      intro it hit
      rw [hitem, Option.some.injEq] at hit
      rw [← hit]
      exact hv
    have hnew : ∀ i it, i < p ∧ ValidAt items i → items[i]? = some it →
        position keptCount items i ≠ position keptCount items p := by
      intro i it hi hit
      exact ne_of_lt (kept_lt hw hi.1 hit (hi.2 it hit))
    have hstored := (h.stored.insert hitem hnew).congr
      (fun j => j < p + 1 ∧ ValidAt items j) (by
        intro j it _
        constructor
        · rintro (hj | rfl)
          · exact ⟨by omega, hj.2⟩
          · exact ⟨Nat.lt_succ_self j, hvalid⟩
        · rintro ⟨hj, hvj⟩
          obtain hlt | rfl := Nat.lt_succ_iff_lt_or_eq.mp hj
          · exact .inl ⟨hlt, hvj⟩
          · exact .inr rfl)
    have hreached : Reached items (fun j => j < p + 1 ∧ ValidAt items j) p := by
      intro j it hj hit hvj
      refine ⟨by omega, fun it' hit' => ?_⟩
      rw [hit, Option.some.injEq] at hit'
      rw [← hit']
      exact hvj
    obtain ⟨q, hpq, hsync, hq, hnot⟩ := @syncResultCount_spec T
      { s with m_results := insertKey (start items p - s.filteredResults) item s.m_results } items
      (fun j => j < p + 1 ∧ ValidAt items j) (by rw [hindex]; exact hstored)
      (counted_valid hw _) p hreached h.count_eq
    have hlast := hnot p item ⟨Nat.lt_succ_self p, hvalid⟩ hitem
    have hge : kept items p ≤ kept items q := kept_mono hpq
    have heq : kept items q = kept items (p + 1) := by
      have hq' : p + 1 ≤ q := by
        by_contra hlt
        have hqp : q = p := by omega
        rw [hqp] at hlast
        omega
      apply kept_eq_of_not_valid hq'
      intro i it hi hiq hit
      cases hvi : it.isValid with
      | false => rfl
      | true => exact absurd (hq i it hiq hit hvi).1 (by omega)
    rw [if_pos rfl]
    constructor
    · exact hlen
    · show Indexed _ _ _ (insertKey (start items p - s.filteredResults) item s.m_results)
      rw [hindex]
      exact hstored
    · exact hsync.trans heq
    · show s.filteredResults = _
      omega
  | false =>
    have hzero : item.keptCount = 0 := by
      rw [keptCount, values_of_not_isValid hv]
      rfl
    have hcount := h.count_eq
    rw [if_neg (by decide)]
    constructor
    · exact hlen
    · apply h.stored.congr _
      intro j it hit
      constructor
      · rintro ⟨hj, hvj⟩
        exact ⟨by omega, hvj⟩
      · rintro ⟨hj, hvj⟩
        refine ⟨?_, hvj⟩
        by_contra hge
        obtain rfl : j = p := by omega
        rw [hvj item hitem] at hv
        cases hv
    · show s.resultCount = _
      omega
    · show s.filteredResults + item.count = _
      omega

/-! ## With filtering: items wait until those before them are there -/

/-- The items of `A` have arrived; those from `p` on are pending. -/
structure FilterInv (items : List (ResultItem T)) (A : ℕ → Prop) (p : ℕ)
    (s : ResultStoreBase T) : Prop where
  mode : s.m_filterMode = true
  arrived : ∀ j, j < p → A j
  consumed : Consumed items p s
  index_le : s.insertIndex ≤ start items p
  pending : Indexed ResultItem.count items (fun j => A j ∧ p ≤ j) s.pendingResults

/-- The next item has not arrived. -/
def Settled (items : List (ResultItem T)) (A : ℕ → Prop) (p : ℕ) : Prop :=
  p = items.length ∨ ¬A p

theorem FilterInv.take (h : FilterInv items A p s) (hw : ∀ item ∈ items, item.WellFormed)
    {item : ResultItem T} (hitem : items[p]? = some item) {A' : ℕ → Prop}
    (hA : ∀ j, j < p → A' j) (hp : A' p) {insertIndex : ℤ}
    (hindex : insertIndex ≤ start items (p + 1)) {pending : Store T}
    (hpending : Indexed ResultItem.count items (fun j => A' j ∧ p + 1 ≤ j) pending) :
    FilterInv items A' (p + 1) { s.insertResultItemIfValid (start items p - s.filteredResults) item
      with insertIndex := insertIndex, pendingResults := pending } := by
  have hconsumed := h.consumed.insert hw hitem
  obtain ⟨_, hmode, _⟩ :=
    insertResultItemIfValid_frame s (start items p - s.filteredResults) item
  constructor
  · exact hmode.trans h.mode
  · intro j hj
    obtain hlt | rfl := Nat.lt_succ_iff_lt_or_eq.mp hj
    · exact hA j hlt
    · exact hp
  · exact ⟨hconsumed.le, hconsumed.stored, hconsumed.count_eq, hconsumed.filtered_eq⟩
  · exact hindex
  · exact hpending

theorem FilterInv.syncPending (hw : ∀ item ∈ items, item.WellFormed) (steps : ℕ)
    (h : FilterInv items A p s) (hsteps : s.pendingResults.length ≤ steps) :
    ∃ p', FilterInv items A p' (syncPending steps s) ∧ Settled items A p' := by
  have hstop : (∀ e ∈ s.pendingResults, e.1 ≠ start items p) → Settled items A p := by
    intro hnone
    obtain hlt | heq := lt_or_eq_of_le h.consumed.le
    · right
      intro hp
      exact hnone _ ((h.pending.mem_iff (start items p, items[p])).mpr
        ⟨p, ⟨hp, le_refl p⟩, List.getElem?_eq_getElem hlt, rfl⟩) rfl
    · exact .inl heq
  induction steps generalizing s p with
  | zero =>
    have hnil := length_eq_zero_iff.mp (le_zero.mp hsteps)
    refine ⟨p, h, hstop ?_⟩
    rw [hnil]
    intro e he
    cases he
  | succ steps ih =>
    unfold ResultStoreBase.syncPending
    cases hpend : s.pendingResults with
    | nil =>
      refine ⟨p, h, hstop ?_⟩
      rw [hpend]
      intro e he
      cases he
    | cons e rest =>
      obtain ⟨index, result⟩ := e
      have hnext : s.resultCount + s.filteredResults = start items p := by
        rw [h.consumed.count_eq, h.consumed.filtered_eq]
        omega
      have hpending := h.pending
      rw [hpend] at hpending
      obtain ⟨j, ⟨hj, hpj⟩, hitem, hkey⟩ := (hpending.mem_iff (index, result)).mp mem_cons_self
      change items[j]? = some result at hitem
      change index = start items j at hkey
      have hlen := (List.getElem?_eq_some_iff.mp hitem).1
      dsimp only
      rw [hnext]
      by_cases heq : index = start items p
      · have hjp : j = p := by
          by_contra hne
          have hlt := start_lt hw (show p < j by omega) (by omega)
          omega
        rw [hjp] at hitem hkey hj
        have hne : ∀ i, A i ∧ p ≤ i → i ≠ p → start items i ≠ start items p := by
          intro i hi hip
          exact ne_of_gt (start_lt hw (show p < i by omega) (by omega))
        rw [hkey] at hpending
        have hrest := (hpending.tail hitem hne).congr (fun i => A i ∧ p + 1 ≤ i) (by
          intro i it _
          constructor
          · rintro ⟨⟨hi, hpi⟩, hip⟩
            exact ⟨hi, by omega⟩
          · rintro ⟨hi, hpi⟩
            exact ⟨⟨hi, by omega⟩, by omega⟩)
        obtain ⟨hindex, _, _⟩ :=
          insertResultItemIfValid_frame s (start items p - s.filteredResults) result
        have hle : s.insertIndex ≤ start items (p + 1) := by
          have hmono := start_lt hw (lt_succ_self p) (by omega)
          have hold := h.index_le
          change start items p < start items (p + 1) at hmono
          omega
        have htake := h.take hw hitem h.arrived hj hle hrest
        rw [← hindex] at htake
        rw [if_neg (by rw [heq]; exact not_not.mpr rfl), heq]
        have hshort : rest.length ≤ steps := by
          rw [hpend, length_cons] at hsteps
          omega
        exact ih htake hshort fun hnone => by
          obtain hlt | heq' := lt_or_eq_of_le htake.consumed.le
          · right
            intro hp
            exact hnone _ ((htake.pending.mem_iff (start items (p + 1), items[p + 1])).mpr
              ⟨p + 1, ⟨hp, le_refl _⟩, List.getElem?_eq_getElem hlt, rfl⟩) rfl
          · exact .inl heq'
      · rw [if_pos heq]
        refine ⟨p, h, hstop ?_⟩
        rw [hpend]
        intro e he
        obtain ⟨hhead, _⟩ := pairwise_cons.mp hpending.sorted
        have hmono : start items p ≤ start items j :=
          position_mono (counted_start hw fun _ => True).nonneg hpj
        obtain rfl | hmem := mem_cons.mp he
        · exact heq
        · have hgt := hhead e hmem
          change index < e.1 at hgt
          omega

theorem FilterInv.insertResultItem (hw : ∀ item ∈ items, item.WellFormed)
    (h : FilterInv items A p s) (hsettled : Settled items A p) {j : ℕ} {item : ResultItem T}
    (hitem : items[j]? = some item) (hj : ¬A j) :
    ∃ p', FilterInv items (fun i => A i ∨ i = j) p'
      (s.insertResultItem (start items j) item).1 ∧
      Settled items (fun i => A i ∨ i = j) p' := by
  have hlen := (List.getElem?_eq_some_iff.mp hitem).1
  have hnonneg := start_nonneg hw j
  have hpj : p ≤ j := by
    by_contra hlt
    exact hj (h.arrived j (by omega))
  unfold ResultStoreBase.insertResultItem
  by_cases hwait : start items j > s.insertIndex
  · rw [if_pos ⟨h.mode, by omega, hwait⟩]
    dsimp only
    refine @FilterInv.syncPending T _ items (fun i => A i ∨ i = j) p hw _ ?_ (le_refl _)
    constructor
    · exact h.mode
    · intro i hi
      exact .inl (h.arrived i hi)
    · exact ⟨h.consumed.le, h.consumed.stored, h.consumed.count_eq, h.consumed.filtered_eq⟩
    · exact h.index_le
    · have hnew : ∀ i it, A i ∧ p ≤ i → items[i]? = some it →
          position ResultItem.count items i ≠ position ResultItem.count items j := by
        intro i it hi hit
        have hilen := (List.getElem?_eq_some_iff.mp hit).1
        obtain hlt | heq | hgt := lt_trichotomy i j
        · exact ne_of_lt (start_lt hw hlt hilen)
        · exact absurd (heq ▸ hi.1) hj
        · exact ne_of_gt (start_lt hw hgt hlen)
      apply (h.pending.insert hitem hnew).congr _
      intro i it _
      constructor
      · rintro (⟨hi, hpi⟩ | rfl)
        · exact ⟨.inl hi, hpi⟩
        · exact ⟨.inr rfl, hpj⟩
      · rintro ⟨hi | rfl, hpi⟩
        · exact .inl ⟨hi, hpi⟩
        · exact .inr rfl
  · have hle := h.index_le
    have hjp : j = p := by
      by_contra hne
      have hlt := start_lt hw (show p < j by omega) (by omega)
      omega
    subst hjp
    have hsucc : start items (j + 1) = start items j + item.count := position_succ hitem
    have hpos := (hw item (mem_of_getElem? hitem)).count_pos
    rw [if_neg (by rintro ⟨_, _, hgt⟩; exact hwait hgt)]
    unfold updateInsertIndex
    rw [if_neg (by omega)]
    dsimp only
    have hmax : max (start items j + item.count) s.insertIndex = start items (j + 1) := by omega
    rw [hmax]
    have hpending : Indexed ResultItem.count items (fun i => (A i ∨ i = j) ∧ j + 1 ≤ i)
        s.pendingResults := by
      apply h.pending.congr _
      intro i it _
      constructor
      · rintro ⟨hi, hji⟩
        refine ⟨.inl hi, ?_⟩
        by_contra hlt
        obtain rfl : i = j := by omega
        exact hj hi
      · rintro ⟨hi | rfl, hji⟩
        · exact ⟨hi, by omega⟩
        · omega
    have htake := @FilterInv.take T s items A j h hw item hitem (fun i => A i ∨ i = j)
      (fun i hi => .inl (h.arrived i hi)) (.inr rfl) _ (le_refl (start items (j + 1))) _
      hpending
    have hcomm : ({ s with insertIndex := start items (j + 1) } :
        ResultStoreBase T).insertResultItemIfValid (start items j - s.filteredResults) item =
        { s.insertResultItemIfValid (start items j - s.filteredResults) item with
          insertIndex := start items (j + 1), pendingResults := s.pendingResults } := by
      rw [insertResultItemIfValid_insertIndex]
      obtain ⟨_, _, hpend⟩ :=
        insertResultItemIfValid_frame s (start items j - s.filteredResults) item
      rw [← hpend]
    rw [hcomm]
    exact FilterInv.syncPending hw _ htake (le_refl _)

/-! ## Without filtering: every item is stored where it belongs -/

/-- The items of `A` have arrived; the results of the first `p` are counted. -/
structure PlainInv (items : List (ResultItem T)) (A : ℕ → Prop) (p : ℕ)
    (s : ResultStoreBase T) : Prop where
  mode : s.m_filterMode = false
  arrived : ∀ j, j < p → A j
  le : p ≤ items.length
  stored : Indexed ResultItem.keptCount items A s.m_results
  count_eq : s.resultCount = kept items p
  filtered_eq : s.filteredResults = 0
  pending_eq : s.pendingResults = []

section Plain

variable (hw : ∀ item ∈ items, item.WellFormed) (hv : ∀ item ∈ items, item.isValid = true)
include hw hv

theorem counted_kept (B : ℕ → Prop) : Counted keptCount items B where
  wellFormed := hw
  nonneg _ _ := natCast_nonneg _
  count_eq _ item _ hitem :=
    (hw item (mem_of_getElem? hitem)).keptCount_of_isValid
      (hv item (mem_of_getElem? hitem))

theorem start_eq_kept (j : ℕ) : start items j = kept items j := by
  induction j with
  | zero => rfl
  | succ j ih =>
    change position _ items j = position _ items j at ih
    show position _ items (j + 1) = position _ items (j + 1)
    cases hitem : items[j]? with
    | none =>
      have hlen := getElem?_eq_none_iff.mp hitem
      rw [position_of_length_le hlen, position_of_length_le hlen, ih]
    | some item =>
      rw [position_succ hitem, position_succ hitem, ih,
        (counted_kept hw hv fun _ => True).count_eq j item trivial hitem]

theorem PlainInv.insertResultItem (h : PlainInv items A p s) {j : ℕ} {item : ResultItem T}
    (hitem : items[j]? = some item) (hj : ¬A j) :
    ∃ p', PlainInv items (fun i => A i ∨ i = j) p' (s.insertResultItem (start items j) item).1 ∧
      Settled items (fun i => A i ∨ i = j) p' := by
  have hnonneg := start_nonneg hw j
  have hlen := (List.getElem?_eq_some_iff.mp hitem).1
  have hvalid := hv item (mem_of_getElem? hitem)
  have hnew : ∀ i it, A i → items[i]? = some it →
      position keptCount items i ≠ position keptCount items j := by
    intro i it hi hit
    have hilen := (List.getElem?_eq_some_iff.mp hit).1
    obtain hlt | heq | hgt := lt_trichotomy i j
    · exact ne_of_lt (kept_lt hw hlt hit (hv it (mem_of_getElem? hit)))
    · exact absurd (heq ▸ hi) hj
    · exact ne_of_gt (kept_lt hw hgt hitem hvalid)
  have hstored := h.stored.insert hitem hnew
  have hreached : Reached items (fun i => A i ∨ i = j) p :=
    fun i _ hi _ _ => .inl (h.arrived i hi)
  obtain ⟨q, hpq, hsync, hq, hnot⟩ := @syncResultCount_spec T
    { s with
      insertIndex := max (start items j + item.count) s.insertIndex
      m_results := insertKey (kept items j) item s.m_results } items
    (fun i => A i ∨ i = j) hstored (counted_kept hw hv _) p hreached h.count_eq
  unfold ResultStoreBase.insertResultItem
  rw [if_neg (by rintro ⟨hmode, _⟩; rw [h.mode] at hmode; cases hmode)]
  unfold updateInsertIndex
  rw [if_neg (by omega)]
  dsimp only
  unfold insertResultItemIfValid
  have hkey : start items j - s.filteredResults = kept items j := by
    rw [h.filtered_eq, start_eq_kept hw hv, sub_zero]
  rw [if_pos hvalid, hkey]
  have hpend : ∀ s : ResultStoreBase T, s.pendingResults = [] → s.syncPendingResults = s := by
    intro s hnil
    unfold syncPendingResults
    rw [hnil]
    rfl
  rw [hpend _ (by exact h.pending_eq)]
  have hcount : kept items (min q items.length) = kept items q := by
    obtain hlt | hge := lt_or_ge items.length q
    · rw [min_eq_right (le_of_lt hlt), kept, kept, position, position,
        take_of_length_le (le_refl _), take_of_length_le (le_of_lt hlt)]
    · rw [min_eq_left hge]
  refine ⟨min q items.length, ⟨h.mode, ?_, min_le_right _ _, hstored, ?_, h.filtered_eq,
    h.pending_eq⟩, ?_⟩
  · intro i hi
    have hilen : i < items.length := by omega
    have hit := List.getElem?_eq_getElem hilen
    exact hq i _ (by omega) hit (hv _ (mem_of_getElem? hit))
  · simp
    omega
  · obtain hlt | hge := lt_or_ge q items.length
    · right
      rw [min_eq_left (le_of_lt hlt)]
      intro hAq
      have hit := List.getElem?_eq_getElem hlt
      have hless := kept_lt hw (lt_succ_self q) hit (hv _ (mem_of_getElem? hit))
      exact hnot q _ hAq hit ⟨le_refl _, hless⟩
    · left
      omega

end Plain

end ResultStoreBase

end QtBase.ResultStore
