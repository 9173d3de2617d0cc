import QtBase.Thread.ResultStoreBatches

/-! What a `ResultStoreBase` shows while batches are reported. -/
namespace QtBase.ResultStore

open QtBase.Lib List Option Int ResultItem

variable {T : Type}

namespace Batch

/-- The items of all batches in their order. -/
def allItems (batches : List (Batch T)) : List (ResultItem T) := batches.flatMap items

/-- The number of items before batch `k`. -/
def itemIndex (batches : List (Batch T)) (k : ℕ) : ℕ := (allItems (batches.take k)).length

/-- The index of batch `k`. -/
def offset (batches : List (Batch T)) (k : ℕ) : ℕ := ((batches.take k).map size).sum

/-- The values that are kept of all batches. -/
def allKept (batches : List (Batch T)) : List T := batches.flatMap kept

variable {filterMode : Bool} {batches : List (Batch T)} {b : Batch T} {k : ℕ}

theorem take_allItems (batches : List (Batch T)) (k : ℕ) :
    (allItems batches).take (itemIndex batches k) = allItems (batches.take k) := by
  have happend : allItems batches = allItems (batches.take k) ++ allItems (batches.drop k) := by
    unfold allItems
    rw [← flatMap_append, take_append_drop]
  rw [happend, itemIndex, take_left]

theorem itemIndex_succ (h : batches[k]? = some b) :
    itemIndex batches (k + 1) = itemIndex batches k + b.items.length := by
  unfold itemIndex allItems
  rw [take_add_one, h, flatMap_append, length_append]
  simp

theorem itemIndex_of_length_le (h : batches.length ≤ k) :
    itemIndex batches k = (allItems batches).length := by
  rw [itemIndex, take_of_length_le h]

theorem itemIndex_lt (h : batches[k]? = some b) :
    itemIndex batches k < itemIndex batches (k + 1) := by
  have hpos := length_pos_of_ne_nil b.items_ne_nil
  rw [itemIndex_succ h]
  omega

theorem itemIndex_mono {i j : ℕ} (h : i ≤ j) : itemIndex batches i ≤ itemIndex batches j := by
  unfold itemIndex allItems
  have htake : batches.take i = (batches.take j).take i := by
    rw [take_take, Nat.min_eq_left h]
  rw [htake]
  conv_rhs => rw [← take_append_drop i (batches.take j), flatMap_append,
    length_append]
  exact Nat.le_add_right _ _

theorem itemIndex_le (k : ℕ) : itemIndex batches k ≤ (allItems batches).length := by
  rw [← itemIndex_of_length_le (Nat.le_max_right k batches.length)]
  exact itemIndex_mono (Nat.le_max_left k batches.length)

theorem getElem?_allItems (h : batches[k]? = some b) {i : ℕ} (hi : i < b.items.length) :
    (allItems batches)[itemIndex batches k + i]? = b.items[i]? := by
  have hlt : itemIndex batches k + i < itemIndex batches (k + 1) := by
    rw [itemIndex_succ h]
    omega
  have htake := take_allItems batches (k + 1)
  have happend : allItems (batches.take (k + 1)) = allItems (batches.take k) ++ b.items := by
    unfold allItems
    rw [take_add_one, h, flatMap_append]
    simp
  rw [← getElem?_take_of_lt hlt, htake, happend, itemIndex,
    getElem?_append_right (Nat.le_add_right _ _), Nat.add_sub_cancel_left]

theorem start_itemIndex (hfits : ∀ b ∈ batches, b.Fits filterMode) (k : ℕ) :
    ResultStoreBase.start (allItems batches) (itemIndex batches k) = offset batches k := by
  have hsum : ∀ l : List (Batch T), (∀ b ∈ l, b.Fits filterMode) →
      ((allItems l).map count).sum = ((l.map size).sum : ℕ) := by
    intro l hl
    induction l with
    | nil => rfl
    | cons b l ih =>
      have ih' := ih fun c hc => hl c (mem_cons_of_mem _ hc)
      unfold allItems at ih' ⊢
      rw [flatMap_cons, map_append, sum_append, ih',
        (hl b mem_cons_self).sum_count, map_cons, sum_cons, Nat.cast_add]
  unfold ResultStoreBase.start position
  rw [take_allItems]
  exact hsum _ fun b hb => hfits b (mem_of_mem_take hb)

theorem flatMap_allItems (batches : List (Batch T)) :
    (allItems batches).flatMap values = allKept batches := by
  unfold allItems allKept
  rw [flatMap_assoc]
  congr 1
  funext b
  exact b.flatMap_items

theorem sound (hfits : ∀ b ∈ batches, b.Fits filterMode) :
    ResultStoreBase.Sound filterMode (allItems batches) := by
  constructor
  · intro item hitem
    obtain ⟨b, hb, hitem⟩ := mem_flatMap.mp hitem
    exact (hfits b hb).wellFormed item hitem
  · rintro rfl item hitem
    obtain ⟨b, hb, hitem⟩ := mem_flatMap.mp hitem
    exact (hfits b hb).isValid item hitem

end Batch

open ResultStoreBase

/-! ## The values of a store -/

theorem kept_eq_length (items : List (ResultItem T)) (p : ℕ) :
    kept items p = (((items.take p).flatMap values).length : ℕ) := by
  unfold kept position
  induction items.take p with
  | nil => rfl
  | cons item rest ih =>
    rw [map_cons, sum_cons, ih, flatMap_cons, length_append, Nat.cast_add]
    rfl

variable {items : List (ResultItem T)}

theorem exists_place {p i : ℕ} (hi : i < ((items.take p).flatMap values).length) :
    ∃ j item, j < p ∧ items[j]? = some item ∧ kept items j ≤ i ∧ (i : ℤ) < kept items (j + 1) ∧
      item.values[(i - kept items j).toNat]? =
        ((items.take p).flatMap values)[i]? := by
  induction p with
  | zero => exact absurd hi (Nat.not_lt_zero i)
  | succ p ih =>
    cases hitem : items[p]? with
    | none =>
      rw [take_add_one, hitem, toList_none, append_nil] at hi ⊢
      obtain ⟨j, item, hj, hrest⟩ := ih hi
      exact ⟨j, item, Nat.lt_succ_of_lt hj, hrest⟩
    | some item =>
      have hsucc : kept items (p + 1) = kept items p + item.keptCount := position_succ hitem
      have hp := kept_eq_length items p
      rw [take_add_one, hitem, toList_some, flatMap_append,
        flatMap_singleton] at hi ⊢
      rw [length_append] at hi
      obtain hlt | hge := Nat.lt_or_ge i ((items.take p).flatMap values).length
      · obtain ⟨j, it, hj, hit, hle, hlt', hvalue⟩ := ih hlt
        refine ⟨j, it, Nat.lt_succ_of_lt hj, hit, hle, hlt', ?_⟩
        rw [hvalue, getElem?_append_left hlt]
      · refine ⟨p, item, Nat.lt_succ_self p, hitem, by omega, ?_, ?_⟩
        · rw [hsucc, keptCount]
          omega
        · rw [getElem?_append_right hge]
          congr 1
          omega

theorem Indexed.resultAt {s : ResultStoreBase T} {B : ℕ → Prop} {p : ℕ}
    (hstored : Indexed keptCount items B s.m_results)
    (hc : Counted keptCount items B) (hreached : Reached items B p) {i : ℕ}
    (hi : i < ((items.take p).flatMap values).length) :
    s.resultAt i ≠ s.m_results.end' ∧
      s.m_results.value (s.resultAt i) = ((items.take p).flatMap values)[i]? := by
  obtain ⟨j, item, hj, hitem, hle, hlt, hvalue⟩ := exists_place hi
  have hv : item.isValid = true := by
    by_contra hinvalid
    have hsucc : kept items (j + 1) = kept items j + item.keptCount := position_succ hitem
    rw [keptCount,
      values_of_not_isValid (Bool.eq_false_of_not_eq_true hinvalid)] at hsucc
    rw [hsucc] at hlt
    exact absurd hle (not_le.mpr (by simpa using hlt))
  obtain ⟨q, hq, hfind⟩ := hstored.findResult_eq hc (hreached j item hj hitem hv) hitem hle hlt
  unfold ResultStoreBase.resultAt
  rw [hfind]
  refine ⟨Store.findResult_ne_end hq _, ?_⟩
  have hsucc : kept items (j + 1) = kept items j + item.keptCount := position_succ hitem
  rw [hsucc, keptCount] at hlt
  have hcast : (i : ℤ) - position keptCount items j =
      (((i : ℤ) - kept items j).toNat : ℕ) := by
    rw [toNat_of_nonneg (by omega)]
  unfold Store.value
  rw [Store.at'_eq hq]
  dsimp only
  rw [hcast, value_eq (by omega), hvalue]

theorem resultAt_eq {s : ResultStoreBase T} {filterMode : Bool} {A : ℕ → Prop} {p : ℕ}
    (h : Held filterMode items A p s) (hs : Sound filterMode items) {i : ℕ}
    (hi : i < ((items.take p).flatMap values).length) :
    s.resultAt i ≠ s.m_results.end' ∧
      s.m_results.value (s.resultAt i) = ((items.take p).flatMap values)[i]? := by
  obtain ⟨B, hstored, hc, _, hreached⟩ := h.stored hs
  exact hstored.resultAt hc hreached hi

/-! ## From `begin()` to `end()` -/

/-- The store that holds all results of the items, the first at `key`. -/
def layout : ℤ → List (ResultItem T) → Store T
  | _, [] => []
  | key, item :: rest =>
    if item.isValid then (key, item) :: layout (key + item.keptCount) rest
    else layout (key + item.keptCount) rest

theorem kept_cons (item : ResultItem T) (rest : List (ResultItem T)) (j : ℕ) :
    kept (item :: rest) (j + 1) = item.keptCount + kept rest j := by
  unfold kept position
  rw [take_succ_cons, map_cons, sum_cons]

theorem mem_layout {key : ℤ} (e : ℤ × ResultItem T) :
    e ∈ layout key items ↔
      ∃ j, items[j]? = some e.2 ∧ e.2.isValid = true ∧ e.1 = key + kept items j := by
  induction items generalizing key with
  | nil =>
    constructor
    · intro he
      exact absurd he not_mem_nil
    · rintro ⟨j, hj, _⟩
      rw [getElem?_nil] at hj
      cases hj
  | cons item rest ih =>
    have hrest : e ∈ layout (key + item.keptCount) rest ↔ ∃ j, (item :: rest)[j + 1]? = some e.2 ∧
        e.2.isValid = true ∧ e.1 = key + kept (item :: rest) (j + 1) := by
      rw [ih]
      apply exists_congr
      intro j
      rw [getElem?_cons_succ, kept_cons, add_assoc]
    have hzero : kept (item :: rest) 0 = 0 := rfl
    unfold layout
    by_cases hv : item.isValid = true
    · rw [if_pos hv, mem_cons, hrest]
      constructor
      · rintro (rfl | ⟨j, hj⟩)
        · exact ⟨0, rfl, hv, (add_zero key).symm⟩
        · exact ⟨j + 1, hj⟩
      · rintro ⟨_ | j, hj, hvj, hkey⟩
        · left
          rw [getElem?_cons_zero, some.injEq] at hj
          rw [hzero, add_zero] at hkey
          exact Prod.ext hkey hj.symm
        · exact .inr ⟨j, hj, hvj, hkey⟩
    · rw [if_neg hv, hrest]
      constructor
      · rintro ⟨j, hj⟩
        exact ⟨j + 1, hj⟩
      · rintro ⟨_ | j, hj, hvj, hkey⟩
        · rw [getElem?_cons_zero, some.injEq] at hj
          rw [hj] at hv
          exact absurd hvj hv
        · exact ⟨j, hj, hvj, hkey⟩

theorem sortedKeys_layout {key : ℤ}
    (hw : ∀ item ∈ items, item.WellFormed) : SortedKeys (layout key items) := by
  induction items generalizing key with
  | nil => exact List.Pairwise.nil
  | cons item rest ih =>
    have hrest := @ih (key + item.keptCount) fun it hit => hw it (mem_cons_of_mem _ hit)
    have hwf := hw item mem_cons_self
    unfold layout
    split
    · next hv =>
      apply pairwise_cons.mpr
      refine ⟨?_, hrest⟩
      intro e he
      obtain ⟨j, _, _, hkey⟩ := (mem_layout e).mp he
      have hpos := hwf.count_pos
      have hcount := hwf.keptCount_of_isValid hv
      have hnonneg := @kept_mono T rest 0 j (Nat.zero_le j)
      change (0 : ℤ) ≤ kept rest j at hnonneg
      show key < e.1
      omega
    · exact hrest

theorem flatMap_layout {key : ℤ} :
    (layout key items).flatMap (fun e => e.2.values) = items.flatMap values := by
  induction items generalizing key with
  | nil => rfl
  | cons item rest ih =>
    unfold layout
    split
    · rw [flatMap_cons, flatMap_cons, ih]
    · next hv =>
      rw [ih, flatMap_cons,
        values_of_not_isValid (Bool.eq_false_of_not_eq_true hv), nil_append]

theorem ResultItem.WellFormed.values_ne_nil {item : ResultItem T} (h : item.WellFormed)
    (hv : item.isValid = true) : item.values ≠ [] := by
  have hpos := h.count_pos
  have hcount := h.keptCount_of_isValid hv
  intro hnil
  rw [keptCount, hnil] at hcount
  change (0 : ℤ) = _ at hcount
  omega

/-- `batchIsVector` and `vectorIndex + 1 < m_count` tell whether the item has another value. -/
theorem ResultItem.WellFormed.lt_m_count_iff {item : ResultItem T} (h : item.WellFormed)
    (hv : item.isValid = true) (i : ℕ) :
    (i : ℤ) + 1 < item.m_count ↔ i + 1 < item.values.length := by
  unfold ResultItem.WellFormed at h
  unfold values
  unfold isValid at hv
  split at h
  · simp
    omega
  · rw [h.1]
    omega
  · next hres =>
    rw [hres] at hv
    cases hv

theorem iterate_eq {store : Store T} (hw : ∀ e ∈ store, e.2.WellFormed)
    (hv : ∀ e ∈ store, e.2.isValid = true) (steps : ℕ) {q i : ℕ}
    (hat : (∃ e, store[q]? = some e ∧ i < e.2.values.length) ∨ (q = store.length ∧ i = 0))
    (hsteps : (((store.drop q).flatMap fun e => e.2.values).drop i).length ≤ steps) :
    store.iterate steps ⟨q, i⟩ =
      (((store.drop q).flatMap fun e => e.2.values).drop i).map some := by
  induction steps generalizing q i with
  | zero =>
    rw [length_eq_zero_iff.mp (Nat.le_zero.mp hsteps)]
    rfl
  | succ steps ih =>
    unfold Store.iterate
    obtain ⟨e, he, hi⟩ | ⟨rfl, rfl⟩ := hat
    · have hmem := mem_of_getElem? he
      have hwf := hw e hmem
      have hve := hv e hmem
      have hlen := (List.getElem?_eq_some_iff.mp he).1
      have hcons : store.drop q = e :: store.drop (q + 1) := by
        rw [drop_eq_getElem_cons hlen, (List.getElem?_eq_some_iff.mp he).2]
      have hhead : (((store.drop q).flatMap fun e => e.2.values).drop i) =
          e.2.values[i] :: ((store.drop q).flatMap fun e => e.2.values).drop (i + 1) := by
        have hlong : i < ((store.drop q).flatMap fun e => e.2.values).length := by
          simp [hcons]
          omega
        rw [drop_eq_getElem_cons hlong]
        congr 1
        simp [hcons, hi]
      rw [if_neg (Store.findResult_ne_end he _), hhead, map_cons]
      rw [hhead, length_cons] at hsteps
      have hvalue : store.value ⟨q, i⟩ = some e.2.values[i] := by
        unfold Store.value
        rw [Store.at'_eq he]
        exact (value_eq hi).trans (List.getElem?_eq_getElem hi)
      rw [hvalue]
      congr 1
      unfold Store.next
      rw [Store.at'_eq he]
      dsimp only
      by_cases hmore : i + 1 < e.2.values.length
      · rw [if_pos ((hwf.lt_m_count_iff hve i).mpr hmore)]
        exact ih (.inl ⟨e, he, hmore⟩) (Nat.le_of_succ_le_succ hsteps)
      · have hdone : ((store.drop q).flatMap fun e => e.2.values).drop (i + 1) =
            ((store.drop (q + 1)).flatMap fun e => e.2.values).drop 0 := by
          rw [hcons, flatMap_cons, drop_append_of_le_length (by omega),
            drop_of_length_le (by omega)]
          rfl
        rw [if_neg (mt (hwf.lt_m_count_iff hve i).mp hmore), hdone]
        rw [hdone] at hsteps
        apply ih
        · obtain hlt | hge := Nat.lt_or_ge (q + 1) store.length
          · have hnext := List.getElem?_eq_getElem hlt
            have hmem' := mem_of_getElem? hnext
            exact .inl ⟨_, hnext, length_pos_of_ne_nil
              ((hw _ hmem').values_ne_nil (hv _ hmem'))⟩
          · exact .inr ⟨by omega, rfl⟩
        · exact Nat.le_of_succ_le_succ hsteps
    · rw [if_pos (show (⟨store.length, (0 : ℕ)⟩ : ResultIterator) = store.end' from rfl),
        drop_length]
      rfl

theorem Indexed.flatMap_eq {store : Store T} {B : ℕ → Prop}
    (hstored : Indexed keptCount items B store)
    (hc : Counted keptCount items B) (hreached : Reached items B items.length) :
    (∀ e ∈ store, e.2.WellFormed ∧ e.2.isValid = true) ∧
      store.flatMap (fun e => e.2.values) = items.flatMap values := by
  have hvalid : ∀ j item, B j → items[j]? = some item → item.isValid = true := by
    intro j item hj hitem
    have hwf := hc.wellFormed item (mem_of_getElem? hitem)
    have hcount := hc.count_eq j item hj hitem
    have hpos := hwf.count_pos
    by_contra hv
    rw [keptCount,
      values_of_not_isValid (Bool.eq_false_of_not_eq_true hv)] at hcount
    change (0 : ℤ) = _ at hcount
    omega
  have hlayout : store = layout 0 items := by
    apply hstored.sorted.eq_of_mem_iff (sortedKeys_layout hc.wellFormed)
    intro e
    rw [hstored.mem_iff, mem_layout]
    constructor
    · rintro ⟨j, hj, hitem, hkey⟩
      exact ⟨j, hitem, hvalid j e.2 hj hitem, hkey.trans (zero_add _).symm⟩
    · rintro ⟨j, hitem, hv, hkey⟩
      have hlen := (List.getElem?_eq_some_iff.mp hitem).1
      exact ⟨j, hreached j e.2 hlen hitem hv, hitem, hkey.trans (zero_add _)⟩
  constructor
  · intro e he
    obtain ⟨j, hj, hitem, _⟩ := (hstored.mem_iff e).mp he
    exact ⟨hc.wellFormed _ (mem_of_getElem? hitem), hvalid j e.2 hj hitem⟩
  · rw [hlayout, flatMap_layout]

/-- Iteration lists all values of the items. -/
theorem Indexed.iterate {store : Store T} {B : ℕ → Prop}
    (hstored : Indexed keptCount items B store)
    (hc : Counted keptCount items B) (hreached : Reached items B items.length)
    {steps : ℕ} (hsteps : (items.flatMap values).length ≤ steps) :
    store.iterate steps Store.begin' = (items.flatMap values).map some := by
  obtain ⟨hvalid, hflat⟩ := hstored.flatMap_eq hc hreached
  have hat : (∃ e, store[0]? = some e ∧ 0 < e.2.values.length) ∨
      (0 = store.length ∧ 0 = 0) := by
    cases hnil : store with
    | nil => exact .inr ⟨rfl, rfl⟩
    | cons e rest =>
      obtain ⟨hwf, hv⟩ := hvalid e (by rw [hnil]; exact mem_cons_self)
      exact .inl ⟨e, rfl, length_pos_of_ne_nil (hwf.values_ne_nil hv)⟩
  have hiterate := iterate_eq (fun e he => (hvalid e he).1) (fun e he => (hvalid e he).2) steps
    hat (by rw [drop_zero, drop_zero, hflat]; exact hsteps)
  rw [drop_zero, drop_zero, hflat] at hiterate
  exact hiterate

/-! ## Every moment of a computation -/

/-- The number of batches before the first that has not arrived. -/
def arrivedPrefix (batches : List (Batch T)) (done : List ℕ) : ℕ :=
  (List.range batches.length).findIdx fun k => decide (k ∉ done)

/-- The values that are counted: those of the batches that have arrived in a row and, while the next
one is being processed, its own. -/
def shown (batches : List (Batch T)) (done : List ℕ) (current : Option ℕ) : List T :=
  let n := arrivedPrefix batches done
  Batch.allKept (batches.take (if current = some n then n + 1 else n))

/-- The store when the batches of `done` have been reported, the last one first, and between the two
insertions of `addResults` for the batch `current`. -/
inductive Moment (filterMode : Bool) (batches : List (Batch T)) :
    List ℕ → Option ℕ → ResultStoreBase T → Prop
  | construct : Moment filterMode batches [] none (construct filterMode)
  | add {done s k b} : Moment filterMode batches done none s → batches[k]? = some b → k ∉ done →
      Moment filterMode batches (k :: done) none (s.add (Batch.offset batches k) b).1
  | within {done s k results totalCount} : Moment filterMode batches done none s →
      batches[k]? = some (.vector results totalCount) → k ∉ done → results ≠ [] →
      results.length < totalCount →
      Moment filterMode batches done (some k)
        (s.insertResultItem (Batch.offset batches k) ⟨results.length, some (.vector results)⟩).1

/-- The items that have been inserted. -/
def Arrived (batches : List (Batch T)) (done : List ℕ) (current : Option ℕ) (i : ℕ) : Prop :=
  (∃ k ∈ done, Batch.itemIndex batches k ≤ i ∧ i < Batch.itemIndex batches (k + 1)) ∨
    ∃ k, current = some k ∧ i = Batch.itemIndex batches k

section Moments

variable {filterMode : Bool} {batches : List (Batch T)} {done : List ℕ} {current : Option ℕ}
  {s : ResultStoreBase T} {k : ℕ}

theorem arrivedPrefix_le : arrivedPrefix batches done ≤ batches.length := by
  have hle := @findIdx_le_length _ (fun k => decide (k ∉ done)) (List.range batches.length)
  rw [length_range] at hle
  exact hle

theorem mem_of_lt_arrivedPrefix (h : k < arrivedPrefix batches done) : k ∈ done := by
  have hnot := not_of_lt_findIdx h
  simpa using hnot

theorem arrivedPrefix_notMem (h : arrivedPrefix batches done < batches.length) :
    arrivedPrefix batches done ∉ done := by
  have hfound := @findIdx_getElem _ (fun k => decide (k ∉ done)) (List.range batches.length)
    (by rw [length_range]; exact h)
  rw [getElem_range] at hfound
  exact of_decide_eq_true hfound

theorem not_arrived {i : ℕ} (hk : k ∉ done) (hi : Batch.itemIndex batches k ≤ i)
    (hi' : i < Batch.itemIndex batches (k + 1)) : ¬Arrived batches done none i := by
  rintro (⟨j, hj, hle, hlt⟩ | ⟨j, hj, _⟩)
  · have hjk : j ≠ k := by
      rintro rfl
      exact hk hj
    obtain hjk | hjk := Nat.lt_or_gt_of_ne hjk
    · have hmono := @Batch.itemIndex_mono T batches _ _ (show j + 1 ≤ k from hjk)
      omega
    · have hmono := @Batch.itemIndex_mono T batches _ _ (show k + 1 ≤ j from hjk)
      omega
  · cases hj

variable (hfits : ∀ b ∈ batches, b.Fits filterMode)
include hfits

theorem Moment.held (h : Moment filterMode batches done current s) :
    ∃ p, Held filterMode (Batch.allItems batches) (Arrived batches done current) p s := by
  have hs := Batch.sound hfits
  have hstart := Batch.start_itemIndex hfits
  induction h with
  | construct =>
    refine ⟨0, ?_⟩
    have hnone : Arrived batches [] none = fun _ => False := by
      funext i
      apply propext
      apply iff_false_intro
      rintro (⟨k, hk, _⟩ | ⟨k, hk, _⟩)
      · exact absurd hk not_mem_nil
      · cases hk
    rw [hnone]
    exact Held.construct filterMode _
  | @add done s k b _ hb hk ih =>
    obtain ⟨p, hp⟩ := ih
    have hfit := hfits b (mem_of_getElem? hb)
    have hsucc := Batch.itemIndex_succ hb
    have hlt := Batch.itemIndex_lt hb
    have hle := @Batch.itemIndex_le T batches (k + 1)
    have hnew := hp.containsValidResultItem hs (show Batch.itemIndex batches k < _ by omega)
      (not_arrived hk (Nat.le_refl _) hlt)
    rw [hstart] at hnew
    rw [add_eq hfit hp.mode hnew, ← hstart]
    obtain ⟨p', hp'⟩ := Held.insertItems hs b.items hp
      (fun i hi => Batch.getElem?_allItems hb hi)
      (fun i hi hi' => not_arrived hk hi (by omega))
    refine ⟨p', ?_⟩
    have hset : Arrived batches (k :: done) none = fun i => Arrived batches done none i ∨
        (Batch.itemIndex batches k ≤ i ∧ i < Batch.itemIndex batches k + b.items.length) := by
      funext i
      apply propext
      rw [← hsucc]
      constructor
      · rintro (⟨j, hj, hrange⟩ | ⟨j, hj, _⟩)
        · obtain rfl | hj := mem_cons.mp hj
          · exact .inr hrange
          · exact .inl (.inl ⟨j, hj, hrange⟩)
        · cases hj
      · rintro ((⟨j, hj, hrange⟩ | ⟨j, hj, _⟩) | hrange)
        · exact .inl ⟨j, mem_cons_of_mem _ hj, hrange⟩
        · cases hj
        · exact .inl ⟨k, mem_cons_self, hrange⟩
    rw [hset]
    exact hp'
  | @within done s k results totalCount _ hb hk hne hlen ih =>
    obtain ⟨p, hp⟩ := ih
    have hitems : (Batch.vector results totalCount).items =
        [⟨results.length, some (.vector results)⟩, ⟨totalCount - results.length, none⟩] := by
      rw [Batch.items, if_neg (Nat.ne_of_lt hlen), if_neg hne]
    have hitem := Batch.getElem?_allItems hb (i := 0) (by rw [hitems]; exact Nat.succ_pos _)
    rw [hitems, Nat.add_zero] at hitem
    obtain ⟨p', hp'⟩ := hp.insertResultItem hs hitem
      (not_arrived hk (Nat.le_refl _) (Batch.itemIndex_lt hb))
    rw [hstart] at hp'
    refine ⟨p', ?_⟩
    have hset : Arrived batches done (some k) = fun i => Arrived batches done none i ∨
        i = Batch.itemIndex batches k := by
      funext i
      apply propext
      constructor
      · rintro (hi | ⟨j, hj, hi⟩)
        · exact .inl (.inl hi)
        · rw [some.injEq] at hj
          rw [hj]
          exact .inr hi
      · rintro ((hi | ⟨j, hj, _⟩) | hi)
        · exact .inl hi
        · cases hj
        · exact .inr ⟨k, rfl, hi⟩
    rw [hset]
    exact hp'

omit hfits in
/-- The batch that is being processed. -/
theorem Moment.of_some (h : Moment filterMode batches done (some k) s) :
    k ∉ done ∧ ∃ results totalCount, batches[k]? = some (.vector results totalCount) ∧
      results ≠ [] ∧ results.length < totalCount := by
  cases h with
  | within _ hb hk hne hlen => exact ⟨hk, _, _, hb, hne, hlen⟩

omit hfits in
theorem exists_batch {m i : ℕ} (hi : i < Batch.itemIndex batches m) :
    ∃ k, k < m ∧ Batch.itemIndex batches k ≤ i ∧ i < Batch.itemIndex batches (k + 1) := by
  induction m with
  | zero => exact absurd hi (Nat.not_lt_zero i)
  | succ m ih =>
    obtain hlt | hge := Nat.lt_or_ge i (Batch.itemIndex batches m)
    · obtain ⟨k, hk, hrange⟩ := ih hlt
      exact ⟨k, Nat.lt_succ_of_lt hk, hrange⟩
    · exact ⟨m, Nat.lt_succ_self m, hge, hi⟩

theorem Moment.held_shown (h : Moment filterMode batches done current s) :
    ∃ p, Held filterMode (Batch.allItems batches) (Arrived batches done current) p s ∧
      ((Batch.allItems batches).take p).flatMap values = shown batches done current := by
  obtain ⟨p, hp⟩ := h.held hfits
  refine ⟨p, hp, ?_⟩
  have hn := @arrivedPrefix_le T batches done
  have hnotMem := @arrivedPrefix_notMem T batches done
  have hbefore : ∀ i, i < Batch.itemIndex batches (arrivedPrefix batches done) →
      Arrived batches done current i := by
    intro i hi
    obtain ⟨k, hk, hrange⟩ := exists_batch hi
    exact .inl ⟨k, mem_of_lt_arrivedPrefix hk, hrange⟩
  unfold shown
  generalize arrivedPrefix batches done = n at hn hnotMem hbefore ⊢
  dsimp only
  by_cases hcur : current = some n
  · rw [if_pos hcur]
    rw [hcur] at h
    obtain ⟨hnd, results, totalCount, hb, hne, hlen⟩ := h.of_some
    have hitems : (Batch.vector results totalCount).items =
        [⟨results.length, some (.vector results)⟩, ⟨totalCount - results.length, none⟩] := by
      rw [Batch.items, if_neg (Nat.ne_of_lt hlen), if_neg hne]
    have hsucc := Batch.itemIndex_succ hb
    have hle := @Batch.itemIndex_le T batches (n + 1)
    rw [hitems] at hsucc
    change _ = Batch.itemIndex batches n + 2 at hsucc
    have heq : p = Batch.itemIndex batches n + 1 := by
      apply hp.eq
      · intro j hj
        obtain hlt | rfl := Nat.lt_succ_iff_lt_or_eq.mp hj
        · exact hbefore j hlt
        · exact .inr ⟨n, hcur, rfl⟩
      · omega
      · right
        rintro (hin | ⟨j, hj, hi⟩)
        · exact not_arrived hnd (by omega) (by omega) (.inl hin)
        · rw [hcur, some.injEq] at hj
          rw [← hj] at hi
          omega
    have hitem := Batch.getElem?_allItems hb (i := 0) (by rw [hitems]; exact Nat.succ_pos _)
    rw [hitems, Nat.add_zero] at hitem
    rw [heq, take_add_one, hitem, Batch.take_allItems, flatMap_append,
      Batch.flatMap_allItems, take_add_one, hb]
    unfold Batch.allKept
    rw [flatMap_append]
    rfl
  · rw [if_neg hcur]
    have heq : p = Batch.itemIndex batches n := by
      apply hp.eq hbefore (Batch.itemIndex_le n)
      obtain hlt | hge := Nat.lt_or_ge n batches.length
      · right
        have hitemlt := Batch.itemIndex_lt (getElem?_eq_getElem hlt)
        rintro (hin | ⟨k, hk, hi⟩)
        · exact not_arrived (hnotMem hlt) (Nat.le_refl _) hitemlt (.inl hin)
        · have hkn : k ≠ n := by
            rintro rfl
            exact hcur hk
          rw [hk] at h
          obtain ⟨_, results, totalCount, hb, _⟩ := h.of_some
          have hklt := Batch.itemIndex_lt hb
          obtain hkn | hkn := Nat.lt_or_gt_of_ne hkn
          · have hmono := @Batch.itemIndex_mono T batches _ _ (show k + 1 ≤ n from hkn)
            omega
          · have hmono := @Batch.itemIndex_mono T batches _ _ (show n + 1 ≤ k from hkn)
            omega
      · left
        exact Batch.itemIndex_of_length_le hge
    rw [heq, Batch.take_allItems, Batch.flatMap_allItems]

end Moments

end QtBase.ResultStore
