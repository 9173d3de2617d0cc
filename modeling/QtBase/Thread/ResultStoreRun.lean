import QtBase.Thread.ResultStore

/-! Whatever the order of the reports, `ResultStoreBase` counts and finds the results in the order of
their indices. -/
namespace QtBase.ResultStore

open QtBase.Lib List Option ResultItem

variable {T : Type}

/-! ## Finding an index in a store -/

namespace Store

variable {store : Store T}

/-- The items do not overlap, and each has a place for at least one index. -/
structure Spaced (store : Store T) : Prop where
  spaced : store.Pairwise fun a b => a.1 + a.2.count ≤ b.1
  count_pos : ∀ e ∈ store, 0 < e.2.count

namespace Spaced

theorem sortedKeys (h : Spaced store) : SortedKeys store := by
  apply List.Pairwise.imp_of_mem _ h.spaced
  intro a b ha _ hab
  have hpos := h.count_pos a ha
  omega

theorem key_add_count_le (h : Spaced store) {p q : ℕ} {a b : ℤ × ResultItem T}
    (ha : store[p]? = some a) (hb : store[q]? = some b) (hpq : p < q) :
    a.1 + a.2.count ≤ b.1 := by
  obtain ⟨hp, rfl⟩ := List.getElem?_eq_some_iff.mp ha
  obtain ⟨hq, rfl⟩ := List.getElem?_eq_some_iff.mp hb
  exact pairwise_iff_getElem.mp h.spaced p q hp hq hpq

end Spaced

variable {e : ℤ × ResultItem T}

theorem at'_eq {p : ℕ} (h : store[p]? = some e) : store.at' p = e := by
  rw [at', getD_eq_getElem?_getD, h]
  rfl

theorem count_of_not_isVector {item : ResultItem T} (h : item.isVector = false) :
    item.count = 1 := by
  have hzero : item.m_count = 0 := by simpa [ResultItem.isVector] using h
  rw [ResultItem.count, if_pos hzero]

theorem findIn_eq {p : ℕ} (h : store[p]? = some e) {index : ℤ} (hle : e.1 ≤ index)
    (hlt : index < e.1 + e.2.count) :
    store.findIn index p = ⟨p, index - e.1⟩ := by
  unfold findIn
  rw [at'_eq h]
  dsimp only
  rw [if_neg (by omega), if_neg]
  rintro ⟨hvec, hne⟩
  have hone := count_of_not_isVector hvec
  omega

theorem findIn_end {p : ℕ} (h : store[p]? = some e) {index : ℤ}
    (hge : e.1 + e.2.count ≤ index) : store.findIn index p = store.end' := by
  unfold findIn
  rw [at'_eq h]
  dsimp only
  rw [if_pos (by omega)]

theorem findResult_eq (h : Spaced store) {p : ℕ} (he : store[p]? = some e) {index : ℤ}
    (hle : e.1 ≤ index) (hlt : index < e.1 + e.2.count) :
    store.findResult index = ⟨p, index - e.1⟩ := by
  have hlen := (List.getElem?_eq_some_iff.mp he).1
  have hne : store ≠ [] := ne_nil_of_length_pos (by omega)
  have hbefore : ∀ q b, q < p → store[q]? = some b → b.1 < e.1 := by
    intro q b hq hb
    have hsp := h.key_add_count_le hb he hq
    have hpos := h.count_pos b (mem_of_getElem? hb)
    omega
  have hafter : ∀ q b, p < q → store[q]? = some b → index < b.1 := by
    intro q b hq hb
    have hsp := h.key_add_count_le he hb hq
    omega
  unfold findResult
  rw [if_neg hne]
  by_cases heq : index = e.1
  · have hbound : lowerBoundKey store index = p := by
      apply lowerBoundKey_eq h.sortedKeys (Nat.le_of_lt hlen)
      · intro q b hq hb
        rw [heq]
        exact hbefore q b hq hb
      · intro b hb
        rw [he, some.injEq] at hb
        rw [← hb, heq]
    dsimp only
    rw [hbound, if_neg (Nat.ne_of_lt hlen), at'_eq he, if_neg (by omega), findIn_eq he hle hlt]
  · have hbound : lowerBoundKey store index = p + 1 := by
      apply lowerBoundKey_eq h.sortedKeys hlen
      · intro q b hq hb
        obtain hqp | rfl := Nat.lt_succ_iff_lt_or_eq.mp hq
        · have hb' := hbefore q b hqp hb
          omega
        · rw [he, some.injEq] at hb
          rw [← hb]
          omega
      · intro b hb
        exact Int.le_of_lt (hafter _ b (Nat.lt_succ_self p) hb)
    have hvec : (store.at' p).2.isVector ≠ false := by
      intro hvec
      rw [at'_eq he] at hvec
      have hone := count_of_not_isVector hvec
      omega
    dsimp only
    rw [hbound, Nat.add_sub_cancel]
    by_cases hend : p + 1 = store.length
    · rw [if_pos hend, if_neg hvec, findIn_eq he hle hlt]
    · have hnext := List.getElem?_eq_getElem (show p + 1 < store.length by omega)
      have hgt := hafter _ _ (Nat.lt_succ_self p) hnext
      rw [if_neg hend, at'_eq hnext, if_pos hgt, if_neg (Nat.succ_ne_zero p), findIn_eq he hle hlt]

theorem findResult_end (h : Spaced store) {index : ℤ}
    (hnot : ∀ e ∈ store, ¬(e.1 ≤ index ∧ index < e.1 + e.2.count)) :
    store.findResult index = store.end' := by
  unfold findResult
  by_cases hne : store = []
  · rw [if_pos hne]
  rw [if_neg hne]
  have hbelow : ∀ q e, q < lowerBoundKey store index → store[q]? = some e →
      store.findIn index q = store.end' := by
    intro q e hq he
    have hlt := lt_of_lt_lowerBoundKey hq he
    have hno := hnot e (mem_of_getElem? he)
    exact findIn_end he (by omega)
  have hle : lowerBoundKey store index ≤ store.length := lowerBoundKey_le_length
  dsimp only
  by_cases hend : lowerBoundKey store index = store.length
  · rw [if_pos hend]
    have hpos := length_pos_of_ne_nil hne
    have hlast := getElem?_eq_getElem (show store.length - 1 < store.length by omega)
    rw [hend, hbelow _ _ (by omega) hlast]
    split <;> rfl
  · have hat := getElem?_eq_getElem (show lowerBoundKey store index < store.length by omega)
    have hkey := le_of_lowerBoundKey_le h.sortedKeys (Nat.le_refl _) hat
    have hno := hnot _ (mem_of_getElem? hat)
    have hpos := h.count_pos _ (mem_of_getElem? hat)
    rw [if_neg hend, at'_eq hat, if_pos (by omega)]
    by_cases hzero : lowerBoundKey store index = 0
    · rw [if_pos hzero]
    · have hprev := getElem?_eq_getElem
        (show lowerBoundKey store index - 1 < store.length by omega)
      rw [if_neg hzero, hbelow _ _ (by omega) hprev]

theorem findResult_ne_end {p : ℕ} (he : store[p]? = some e) (i : ℤ) :
    (⟨p, i⟩ : ResultIterator) ≠ store.end' := by
  intro heq
  have hlen := (List.getElem?_eq_some_iff.mp he).1
  rw [end', ResultIterator.mk.injEq] at heq
  omega

end Store

/-! ## Items in the order of their indices -/

namespace ResultItem

/-- The values of an item; none if it stands for results that were filtered away. -/
def values (item : ResultItem T) : List T :=
  match item.result with
  | some (.single value) => [value]
  | some (.vector values) => values
  | none => []

/-- The count of an item says how many values it has, or how many were filtered away. -/
def WellFormed (item : ResultItem T) : Prop :=
  match item.result with
  | some (.single _) => item.m_count = 0
  | some (.vector values) => item.m_count = values.length ∧ values ≠ []
  | none => 0 ≤ item.m_count

/-- The number of values that are kept. -/
def keptCount (item : ResultItem T) : ℤ := item.values.length

variable {item : ResultItem T}

theorem WellFormed.count_pos (h : item.WellFormed) : 0 < item.count := by
  unfold WellFormed at h
  unfold count
  split at h
  · omega
  · next values _ =>
    have hlen := length_pos_of_ne_nil h.2
    rw [if_neg (by omega)]
    omega
  · split <;> omega

theorem WellFormed.keptCount_of_isValid (h : item.WellFormed) (hv : item.isValid = true) :
    item.keptCount = item.count := by
  unfold WellFormed at h
  unfold keptCount values count
  unfold isValid at hv
  split at h
  · simp [h]
  · have hlen := length_pos_of_ne_nil h.2
    rw [if_neg (by omega), h.1]
  · next hres =>
    rw [hres] at hv
    cases hv

theorem values_of_not_isValid (hv : item.isValid = false) : item.values = [] := by
  unfold isValid at hv
  unfold values
  cases hres : item.result with
  | none => rfl
  | some result =>
    rw [hres] at hv
    cases hv

theorem value_eq {i : ℕ} (hi : i < item.values.length) : item.value i = item.values[i]? := by
  obtain ⟨m_count, _ | value | values⟩ := item
  · cases hi
  · have hzero : i = 0 := Nat.lt_one_iff.mp hi
    rw [hzero]
    rfl
  · exact congrArg (values[·]?) (Int.toNat_natCast i)

end ResultItem

/-- The sum of `f` over the first `j` items. -/
def position (f : ResultItem T → ℤ) (items : List (ResultItem T)) (j : ℕ) : ℤ :=
  ((items.take j).map f).sum

section Position

variable {f : ResultItem T → ℤ} {items : List (ResultItem T)}

theorem position_succ {j : ℕ} {item : ResultItem T} (h : items[j]? = some item) :
    position f items (j + 1) = position f items j + f item := by
  rw [position, take_add_one, h, toList_some, map_append, sum_append,
    map_singleton, sum_singleton, position]

theorem position_of_length_le {j : ℕ} (h : items.length ≤ j) :
    position f items (j + 1) = position f items j := by
  rw [position, position, take_of_length_le h, take_of_length_le (by omega)]

theorem position_mono (hf : ∀ item ∈ items, 0 ≤ f item) {i j : ℕ} (h : i ≤ j) :
    position f items i ≤ position f items j := by
  induction j with
  | zero =>
    have hzero : i = 0 := by omega
    rw [hzero]
  | succ j ih =>
    obtain heq | hlt := Nat.eq_or_lt_of_le h
    · rw [heq]
    · have hle := ih (by omega)
      cases hj : items[j]? with
      | none =>
        rw [position_of_length_le (getElem?_eq_none_iff.mp hj)]
        exact hle
      | some item =>
        have hpos := hf item (mem_of_getElem? hj)
        rw [position_succ hj]
        omega

end Position

/-- The store holds the items of `B`, each at its position. -/
structure Indexed (f : ResultItem T → ℤ) (items : List (ResultItem T)) (B : ℕ → Prop)
    (store : Store T) : Prop where
  sorted : SortedKeys store
  mem_iff : ∀ e, e ∈ store ↔ ∃ j, B j ∧ items[j]? = some e.2 ∧ e.1 = position f items j

/-- Items that take up as many positions as they count. -/
structure Counted (f : ResultItem T → ℤ) (items : List (ResultItem T)) (B : ℕ → Prop) : Prop where
  wellFormed : ∀ item ∈ items, item.WellFormed
  nonneg : ∀ item ∈ items, 0 ≤ f item
  count_eq : ∀ j item, B j → items[j]? = some item → f item = item.count

namespace Indexed

variable {f : ResultItem T → ℤ} {items : List (ResultItem T)} {B : ℕ → Prop} {store : Store T}

theorem spaced (h : Indexed f items B store) (hc : Counted f items B) : store.Spaced := by
  constructor
  · apply List.Pairwise.imp_of_mem _ h.sorted
    intro a b ha hb hab
    obtain ⟨i, hi, hia, hka⟩ := (h.mem_iff a).mp ha
    obtain ⟨j, hj, hjb, hkb⟩ := (h.mem_iff b).mp hb
    have hij : i < j := by
      by_contra hij
      have hmono := position_mono hc.nonneg (show j ≤ i by omega)
      omega
    have hmono := position_mono hc.nonneg (show i + 1 ≤ j by omega)
    have hcount := hc.count_eq i a.2 hi hia
    rw [position_succ hia] at hmono
    omega
  · intro e he
    obtain ⟨j, _, hje, _⟩ := (h.mem_iff e).mp he
    exact (hc.wellFormed _ (mem_of_getElem? hje)).count_pos

theorem exists_getElem? (h : Indexed f items B store) {j : ℕ} {item : ResultItem T} (hj : B j)
    (hitem : items[j]? = some item) : ∃ p : ℕ, store[p]? = some (position f items j, item) :=
  mem_iff_getElem?.mp ((h.mem_iff _).mpr ⟨j, hj, hitem, rfl⟩)

theorem findResult_eq (h : Indexed f items B store) (hc : Counted f items B) {j : ℕ}
    {item : ResultItem T} (hj : B j) (hitem : items[j]? = some item) {index : ℤ}
    (hle : position f items j ≤ index) (hlt : index < position f items (j + 1)) :
    ∃ p : ℕ, store[p]? = some (position f items j, item) ∧
      store.findResult index = ⟨p, index - position f items j⟩ := by
  obtain ⟨p, hp⟩ := h.exists_getElem? hj hitem
  have hcount := hc.count_eq j item hj hitem
  rw [position_succ hitem] at hlt
  exact ⟨p, hp, Store.findResult_eq (h.spaced hc) hp hle (by show _ < _ + item.count; omega)⟩

theorem findResult_end (h : Indexed f items B store) (hc : Counted f items B) {index : ℤ}
    (hnot : ∀ j item, B j → items[j]? = some item →
      ¬(position f items j ≤ index ∧ index < position f items (j + 1))) :
    store.findResult index = store.end' := by
  apply Store.findResult_end (h.spaced hc)
  intro e he
  obtain ⟨j, hj, hitem, hkey⟩ := (h.mem_iff e).mp he
  have hno := hnot j e.2 hj hitem
  have hcount := hc.count_eq j e.2 hj hitem
  rw [position_succ hitem] at hno
  omega

theorem findResult_of_le (h : Indexed f items B store) (hc : Counted f items B) {index : ℤ}
    (hle : ∀ j item, B j → items[j]? = some item → position f items (j + 1) ≤ index) :
    store.findResult index = store.end' := by
  apply h.findResult_end hc
  intro j item hj hitem
  have hend := hle j item hj hitem
  omega

theorem insert (h : Indexed f items B store) {j : ℕ} {item : ResultItem T}
    (hitem : items[j]? = some item)
    (hnew : ∀ i it, B i → items[i]? = some it → position f items i ≠ position f items j) :
    Indexed f items (fun i => B i ∨ i = j) (insertKey (position f items j) item store) := by
  constructor
  · exact sortedKeys_insertKey h.sorted
  · intro e
    rw [mem_insertKey h.sorted, h.mem_iff]
    constructor
    · rintro (rfl | ⟨⟨i, hi, hit, hk⟩, _⟩)
      · exact ⟨j, .inr rfl, hitem, rfl⟩
      · exact ⟨i, .inl hi, hit, hk⟩
    · rintro ⟨i, hi | rfl, hit, hk⟩
      · right
        refine ⟨⟨i, hi, hit, hk⟩, ?_⟩
        rw [hk]
        exact hnew i e.2 hi hit
      · left
        rw [hitem, some.injEq] at hit
        exact Prod.ext hk hit.symm

theorem tail {j : ℕ} {item : ResultItem T} {rest : Store T}
    (h : Indexed f items B ((position f items j, item) :: rest))
    (hitem : items[j]? = some item)
    (hne : ∀ i, B i → i ≠ j → position f items i ≠ position f items j) :
    Indexed f items (fun i => B i ∧ i ≠ j) rest := by
  obtain ⟨hhead, hrest⟩ := pairwise_cons.mp h.sorted
  constructor
  · exact hrest
  · intro e
    constructor
    · intro he
      obtain ⟨i, hi, hit, hk⟩ := (h.mem_iff e).mp (mem_cons_of_mem _ he)
      refine ⟨i, ⟨hi, ?_⟩, hit, hk⟩
      rintro rfl
      have hlt := hhead e he
      rw [hk] at hlt
      exact absurd hlt (Int.lt_irrefl _)
    · rintro ⟨i, ⟨hi, hij⟩, hit, hk⟩
      obtain rfl | hmem := mem_cons.mp ((h.mem_iff e).mpr ⟨i, hi, hit, hk⟩)
      · exact absurd hk.symm (hne i hi hij)
      · exact hmem

theorem congr (h : Indexed f items B store) (B' : ℕ → Prop)
    (hB : ∀ j item, items[j]? = some item → (B j ↔ B' j)) : Indexed f items B' store := by
  constructor
  · exact h.sorted
  · intro e
    rw [h.mem_iff]
    constructor
    · rintro ⟨j, hj, hitem, hk⟩
      exact ⟨j, (hB j _ hitem).mp hj, hitem, hk⟩
    · rintro ⟨j, hj, hitem, hk⟩
      exact ⟨j, (hB j _ hitem).mpr hj, hitem, hk⟩

end Indexed

/-! ## Counting the results -/

theorem countP_lt {α : Type} {l : List α} {P Q : α → Bool} (h : ∀ x ∈ l, Q x = true → P x = true)
    {a : α} (ha : a ∈ l) (hP : P a = true) (hQ : Q a = false) : l.countP Q < l.countP P := by
  induction l with
  | nil => cases ha
  | cons x l ih =>
    have hle : l.countP Q ≤ l.countP P :=
      countP_mono_left fun y hy => h y (mem_cons_of_mem _ hy)
    obtain rfl | hmem := mem_cons.mp ha
    · rw [countP_cons_of_pos hP, countP_cons_of_neg (by rw [hQ]; decide)]
      omega
    · have hlt := ih (fun y hy => h y (mem_cons_of_mem _ hy)) hmem
      rw [countP_cons, countP_cons]
      by_cases hx : Q x = true
      · rw [if_pos hx, if_pos (h x mem_cons_self hx)]
        omega
      · rw [if_neg hx]
        omega

namespace ResultStoreBase

variable {s : ResultStoreBase T}

theorem exists_of_findResult_ne_end {store : Store T} (h : store.Spaced) {index : ℤ}
    (hne : store.findResult index ≠ store.end') : ∃ (p : ℕ) (e : ℤ × ResultItem T),
      store[p]? = some e ∧ e.1 ≤ index ∧ index < e.1 + e.2.count ∧
      store.findResult index = ⟨p, index - e.1⟩ := by
  by_contra hnone
  apply hne
  apply Store.findResult_end h
  rintro e he ⟨hle, hlt⟩
  obtain ⟨p, hp⟩ := mem_iff_getElem?.mp he
  exact hnone ⟨p, e, hp, hle, hlt, Store.findResult_eq h hp hle hlt⟩

theorem findResult_syncLoop (h : s.m_results.Spaced) (steps : ℕ) (count : ℤ)
    (hsteps : s.m_results.countP (fun e => decide (count < e.1 + e.2.count)) ≤ steps) :
    s.m_results.findResult (s.syncLoop steps count) = s.m_results.end' := by
  induction steps generalizing count with
  | zero =>
    apply Store.findResult_end h
    rintro e he ⟨_, hlt⟩
    have hzero := countP_eq_zero.mp (Nat.le_zero.mp hsteps) e he
    exact hzero (decide_eq_true hlt)
  | succ steps ih =>
    unfold syncLoop
    dsimp only
    by_cases hend : s.m_results.findResult count = s.m_results.end'
    · simp [hend]
    · obtain ⟨p, e, hp, hle, hlt, hfind⟩ := exists_of_findResult_ne_end h hend
      have hmem := mem_of_getElem? hp
      have hpos := h.count_pos e hmem
      rw [if_neg hend, hfind, Store.at'_eq hp]
      apply ih
      have hless : s.m_results.countP (fun b => decide (count + e.2.count < b.1 + b.2.count)) <
          s.m_results.countP (fun b => decide (count < b.1 + b.2.count)) := by
        apply countP_lt _ hmem (decide_eq_true hlt)
        · apply decide_eq_false
          omega
        · intro b _ hb
          have hb' := of_decide_eq_true hb
          apply decide_eq_true
          omega
      omega

variable {items : List (ResultItem T)} {B : ℕ → Prop}

/-- All results of the first `q` items are stored. -/
def Reached (items : List (ResultItem T)) (B : ℕ → Prop) (q : ℕ) : Prop :=
  ∀ j item, j < q → items[j]? = some item → item.isValid = true → B j

abbrev kept (items : List (ResultItem T)) (j : ℕ) : ℤ := position ResultItem.keptCount items j

theorem kept_lt (hw : ∀ item ∈ items, item.WellFormed) {i j : ℕ} {item : ResultItem T}
    (hij : i < j) (hitem : items[i]? = some item) (hv : item.isValid = true) :
    kept items i < kept items j := by
  have hwf := hw item (mem_of_getElem? hitem)
  have hpos := hwf.count_pos
  have hcount := hwf.keptCount_of_isValid hv
  have hmono := @position_mono T keptCount items
    (fun it _ => Int.natCast_nonneg _) (i + 1) j hij
  rw [position_succ hitem] at hmono
  show position _ items i < position _ items j
  omega

theorem syncLoop_reached (hi : Indexed keptCount items B s.m_results)
    (hc : Counted keptCount items B) (steps : ℕ) {q : ℕ}
    (hq : Reached items B q) : ∃ q', q ≤ q' ∧ s.syncLoop steps (kept items q) = kept items q' ∧
      Reached items B q' := by
  induction steps generalizing q with
  | zero => exact ⟨q, Nat.le_refl q, rfl, hq⟩
  | succ steps ih =>
    unfold syncLoop
    dsimp only
    by_cases hend : s.m_results.findResult (kept items q) = s.m_results.end'
    · rw [if_pos hend]
      exact ⟨q, Nat.le_refl q, rfl, hq⟩
    · obtain ⟨p, e, hp, hle, hlt, hfind⟩ := exists_of_findResult_ne_end (hi.spaced hc) hend
      obtain ⟨j, hj, hitem, hkey⟩ := (hi.mem_iff e).mp (mem_of_getElem? hp)
      have hcount := hc.count_eq j e.2 hj hitem
      have hnonneg : ∀ item ∈ items, 0 ≤ item.keptCount := hc.nonneg
      have hsucc := position_succ (f := keptCount) hitem
      have hqj : q ≤ j := by
        by_contra hqj
        have hmono := position_mono hnonneg (show j + 1 ≤ q by omega)
        change e.1 ≤ position _ items q at hle
        change position _ items q < _ at hlt
        omega
      have heq : kept items q = position keptCount items j := by
        have hmono := position_mono hnonneg hqj
        change e.1 ≤ position _ items q at hle
        show position _ items q = _
        omega
      have hnext : Reached items B (j + 1) := by
        intro i item hij hit hv
        obtain hiq | hiq := Nat.lt_or_ge i q
        · exact hq i item hiq hit hv
        · obtain hlt' | rfl := Nat.lt_succ_iff_lt_or_eq.mp hij
          · have hless := kept_lt hc.wellFormed hlt' hit hv
            have hmono := position_mono hnonneg hiq
            change position _ items i < position _ items j at hless
            change position _ items q = _ at heq
            omega
          · exact hj
      obtain ⟨q', hle', hsync, hreached⟩ := ih hnext
      rw [if_neg hend, hfind, Store.at'_eq hp, heq, ← hcount, ← hsucc]
      exact ⟨q', by omega, hsync, hreached⟩

theorem syncResultCount_spec (hi : Indexed keptCount items B s.m_results)
    (hc : Counted keptCount items B) {q : ℕ} (hq : Reached items B q)
    (hcount : s.resultCount = kept items q) : ∃ q', q ≤ q' ∧
      s.syncResultCount.resultCount = kept items q' ∧ Reached items B q' ∧
      ∀ j item, B j → items[j]? = some item →
        ¬(kept items j ≤ kept items q' ∧ kept items q' < kept items (j + 1)) := by
  obtain ⟨q', hle, hsync, hreached⟩ := syncLoop_reached (s := s) hi hc s.m_results.length hq
  rw [← hcount] at hsync
  have hend := findResult_syncLoop (hi.spaced hc) s.m_results.length s.resultCount
    countP_le_length
  refine ⟨q', hle, hsync, hreached, ?_⟩
  rintro j item hj hitem ⟨hle', hlt'⟩
  obtain ⟨p, hp, hfind⟩ := hi.findResult_eq hc hj hitem hle' hlt'
  rw [hsync, hfind] at hend
  exact Store.findResult_ne_end hp _ hend

end ResultStoreBase

end QtBase.ResultStore
