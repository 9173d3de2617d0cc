import QtBase.Thread.ResultStoreOrder

/-! The results of a `ResultStoreBase` stand in the order of their batches, in whatever order these
are reported. -/
namespace QtBase.ResultStore

open QtBase.Lib List Nat ResultItem

variable {T : Type}

/-- What is reported at once: one result, or the ones that a filter left of `totalCount`. -/
inductive Batch (T : Type) where
  | single (result : Option T)
  | vector (results : List T) (totalCount : ℕ)

namespace Batch

/-- The values that are kept. -/
def kept : Batch T → List T
  | single result => result.toList
  | vector results _ => results

/-- The number of indices the batch takes up. -/
def size : Batch T → ℕ
  | single _ => 1
  | vector _ totalCount => totalCount

/-- Only a filter takes values away. -/
structure Fits (filterMode : Bool) (b : Batch T) : Prop where
  size_pos : 0 < b.size
  kept_le : b.kept.length ≤ b.size
  kept_eq : filterMode = false → b.kept.length = b.size

/-- The items that the store makes of a batch. -/
def items : Batch T → List (ResultItem T)
  | single result => [⟨0, result.map Result.single⟩]
  | vector results totalCount =>
    if results.length = totalCount then [⟨results.length, some (.vector results)⟩]
    else if results = [] then [⟨totalCount, none⟩]
    else [⟨results.length, some (.vector results)⟩, ⟨totalCount - results.length, none⟩]

variable {filterMode : Bool} {b : Batch T}

theorem items_ne_nil (b : Batch T) : b.items ≠ [] := by
  cases b with
  | single result => exact cons_ne_nil _ _
  | vector results totalCount =>
    rw [items]
    split
    · exact cons_ne_nil _ _
    · split <;> exact cons_ne_nil _ _

theorem Fits.wellFormed (h : b.Fits filterMode) : ∀ item ∈ b.items, item.WellFormed := by
  have hpos := h.size_pos
  have hle := h.kept_le
  cases b with
  | single result =>
    intro item hitem
    rw [items, mem_singleton] at hitem
    rw [hitem]
    cases result with
    | none => exact Int.le_refl 0
    | some value => exact rfl
  | vector results totalCount =>
    change 0 < totalCount at hpos
    change results.length ≤ totalCount at hle
    rw [items]
    split
    · intro item hitem
      rw [mem_singleton.mp hitem]
      exact ⟨rfl, ne_nil_of_length_pos (by omega)⟩
    · split
      · intro item hitem
        rw [mem_singleton.mp hitem]
        exact Int.natCast_nonneg _
      · next hne =>
        intro item hitem
        obtain rfl | hitem := mem_cons.mp hitem
        · exact ⟨rfl, hne⟩
        · rw [mem_singleton.mp hitem]
          show (0 : ℤ) ≤ totalCount - results.length
          omega

theorem Fits.isValid (h : b.Fits false) : ∀ item ∈ b.items, item.isValid = true := by
  have heq := h.kept_eq rfl
  cases b with
  | single result =>
    intro item hitem
    rw [items, mem_singleton] at hitem
    rw [hitem]
    cases result with
    | none => cases heq
    | some value => rfl
  | vector results totalCount =>
    change results.length = totalCount at heq
    intro item hitem
    rw [items, if_pos heq, mem_singleton] at hitem
    rw [hitem]
    rfl

theorem Fits.sum_count (h : b.Fits filterMode) : (b.items.map ResultItem.count).sum = b.size := by
  have hpos := h.size_pos
  cases b with
  | single result => rfl
  | vector results totalCount =>
    change 0 < totalCount at hpos
    have hcount : ∀ n r, n ≠ 0 → ResultItem.count (⟨n, r⟩ : ResultItem T) = n := by
      intro n r hn
      rw [ResultItem.count, if_neg hn]
    rw [items]
    split
    · next heq =>
      rw [map_singleton, sum_singleton, hcount _ _ (by omega), heq]
      rfl
    · split
      · rw [map_singleton, sum_singleton, hcount _ _ (by omega)]
        rfl
      · next hne hnil =>
        have hlen := length_pos_of_ne_nil hnil
        rw [map_cons, map_singleton, sum_cons, sum_singleton,
          hcount _ _ (by omega), hcount _ _ (by omega)]
        show (results.length : ℤ) + (totalCount - results.length) = totalCount
        omega

theorem flatMap_items (b : Batch T) : b.items.flatMap values = b.kept := by
  cases b with
  | single result => cases result <;> rfl
  | vector results totalCount =>
    rw [items]
    split
    · exact append_nil _
    · split
      · next hnil => exact hnil.symm
      · exact append_nil _

end Batch

namespace ResultStoreBase

/-- A batch is reported with its index. -/
def add (s : ResultStoreBase T) (index : ℤ) : Batch T → ResultStoreBase T × ℤ
  | .single result => s.addResult index result
  | .vector results totalCount => s.addResults index results totalCount

/-- Items are inserted one behind the other. -/
def insertItems (s : ResultStoreBase T) (index : ℤ) : List (ResultItem T) → ResultStoreBase T
  | [] => s
  | item :: rest => insertItems (s.insertResultItem index item).1 (index + item.count) rest

variable {s : ResultStoreBase T} {filterMode : Bool}

theorem add_eq {b : Batch T} (h : b.Fits filterMode) (hmode : s.m_filterMode = filterMode)
    {index : ℤ} (hnew : s.containsValidResultItem index = false) :
    (s.add index b).1 = s.insertItems index b.items := by
  have hpos := h.size_pos
  have hle := h.kept_le
  cases b with
  | single result =>
    show (s.addResult index result).1 = _
    unfold addResult
    rw [hnew, if_neg (by decide)]
    cases result <;> rfl
  | vector results totalCount =>
    change 0 < totalCount at hpos
    change results.length ≤ totalCount at hle
    show (s.addResults index results totalCount).1 = _
    rw [Batch.items]
    unfold addResults
    by_cases heq : results.length = totalCount
    · have hne : results ≠ [] := ne_nil_of_length_pos (by omega)
      have heq' : (results.length : ℤ) = totalCount := by omega
      rw [if_neg (by rintro ⟨_, hnil⟩; exact hne hnil), hnew, if_neg (by decide),
        if_neg (by rintro ⟨_, hne', _⟩; exact hne' heq'), if_pos heq]
      unfold addItems
      rw [if_pos (.inr heq')]
      rfl
    · have hfilter : s.m_filterMode ≠ false := by
        intro hfalse
        exact heq (h.kept_eq (hmode.symm.trans hfalse))
      have heq' : (results.length : ℤ) ≠ totalCount := by omega
      rw [if_neg (by rintro ⟨hor | hor, _⟩; exacts [hfilter hor, heq' hor]), hnew,
        if_neg (by decide), if_neg heq]
      by_cases hnil : results = []
      · have hzero : 0 = results.length := by rw [hnil]; rfl
        have hne : ¬(s.m_filterMode = false ∨ (0 : ℤ) = totalCount) := by
          rintro (hor | hor)
          · exact hfilter hor
          · omega
        rw [if_pos ⟨Bool.eq_true_of_not_eq_false hfilter, heq', hzero⟩, if_pos hnil]
        unfold addItems
        rw [if_neg hne, if_neg (by decide), Int.sub_zero, Int.add_zero]
        rfl
      · have hlen := length_pos_of_ne_nil hnil
        rw [if_neg (by rintro ⟨_, _, hzero⟩; omega), if_neg hnil]
        unfold addItems
        rw [if_neg (by rintro (hor | hor); exacts [hfilter hor, heq' hor]), if_pos (by omega)]
        have hcount : (⟨results.length, some (.vector results)⟩ : ResultItem T).count =
            results.length := by
          rw [ResultItem.count, if_neg]
          show (results.length : ℤ) ≠ 0
          omega
        unfold insertItems insertItems insertItems
        rw [hcount]

/-! ## Items that arrive -/

/-- The items of `A` have arrived, in either mode, and every one that can be counted is. -/
def Held (filterMode : Bool) (items : List (ResultItem T)) (A : ℕ → Prop) (p : ℕ)
    (s : ResultStoreBase T) : Prop :=
  (match filterMode with
    | true => FilterInv items A p s
    | false => PlainInv items A p s) ∧ Settled items A p

/-- The items of a computation: only a filter leaves invalid ones. -/
structure Sound (filterMode : Bool) (items : List (ResultItem T)) : Prop where
  wellFormed : ∀ item ∈ items, item.WellFormed
  isValid : filterMode = false → ∀ item ∈ items, item.isValid = true

namespace Held

variable {items : List (ResultItem T)} {A : ℕ → Prop} {p : ℕ}

theorem construct (filterMode : Bool) (items : List (ResultItem T)) :
    Held filterMode items (fun _ => False) 0 (construct filterMode) := by
  have hempty : ∀ (f : ResultItem T → ℤ) (B : ℕ → Prop), (∀ j, ¬B j) → Indexed f items B [] := by
    intro f B hB
    refine ⟨List.Pairwise.nil, fun e => ⟨fun he => absurd he not_mem_nil, ?_⟩⟩
    rintro ⟨j, hj, _⟩
    exact absurd hj (hB j)
  refine ⟨?_, .inr not_false⟩
  cases filterMode with
  | true =>
    refine ⟨rfl, fun j hj => absurd hj (not_lt_zero j), ?_, Int.le_refl 0, ?_⟩
    · exact ⟨zero_le _, hempty _ _ fun j hj => absurd hj.1 (not_lt_zero j), rfl, rfl⟩
    · exact hempty _ _ fun j hj => hj.1
  | false =>
    exact ⟨rfl, fun j hj => absurd hj (not_lt_zero j), zero_le _,
      hempty _ _ fun j hj => hj, rfl, rfl, rfl⟩

theorem mode (h : Held filterMode items A p s) : s.m_filterMode = filterMode := by
  cases filterMode with
  | true => exact h.1.mode
  | false => exact h.1.mode

theorem arrived (h : Held filterMode items A p s) : ∀ j, j < p → A j := by
  cases filterMode with
  | true => exact h.1.arrived
  | false => exact h.1.arrived

theorem le (h : Held filterMode items A p s) : p ≤ items.length := by
  cases filterMode with
  | true => exact h.1.consumed.le
  | false => exact h.1.le

theorem count_eq (h : Held filterMode items A p s) : s.count = kept items p := by
  cases filterMode with
  | true => exact h.1.consumed.count_eq
  | false => exact h.1.count_eq

/-- The results of the first `p` items are stored, each at its position. -/
theorem stored (h : Held filterMode items A p s) (hs : Sound filterMode items) :
    ∃ B, Indexed keptCount items B s.m_results ∧
      Counted keptCount items B ∧ (∀ j, B j → A j) ∧ Reached items B p := by
  cases filterMode with
  | true =>
    refine ⟨_, h.1.consumed.stored, counted_valid hs.wellFormed _,
      fun j hj => h.1.arrived j hj.1, ?_⟩
    intro j item hj hitem hv
    refine ⟨hj, fun it hit => ?_⟩
    rw [hitem, Option.some.injEq] at hit
    rw [← hit]
    exact hv
  | false =>
    exact ⟨_, h.1.stored, counted_kept hs.wellFormed (hs.isValid rfl) _, fun j hj => hj,
      fun j _ hj _ _ => h.1.arrived j hj⟩

/-- There is only one such `p`. -/
theorem eq (h : Held filterMode items A p s) {m : ℕ} (hA : ∀ j, j < m → A j)
    (hm : m ≤ items.length) (hsettled : Settled items A m) : p = m := by
  have harrived := h.arrived
  have hle := h.le
  obtain hlt | heq | hgt := lt_trichotomy p m
  · obtain hp | hp := h.2
    · omega
    · exact absurd (hA p hlt) hp
  · exact heq
  · obtain hp | hp := hsettled
    · omega
    · exact absurd (harrived m hgt) hp

theorem insertResultItem (h : Held filterMode items A p s) (hs : Sound filterMode items) {j : ℕ}
    {item : ResultItem T} (hitem : items[j]? = some item) (hj : ¬A j) :
    ∃ p', Held filterMode items (fun i => A i ∨ i = j) p'
      (s.insertResultItem (start items j) item).1 := by
  cases filterMode with
  | true => exact h.1.insertResultItem hs.wellFormed h.2 hitem hj
  | false => exact h.1.insertResultItem hs.wellFormed (hs.isValid rfl) hitem hj

theorem containsValidResultItem (h : Held filterMode items A p s) (hs : Sound filterMode items)
    {j : ℕ} (hlen : j < items.length) (hj : ¬A j) :
    s.containsValidResultItem (start items j) = false := by
  have hmode := h.mode
  unfold ResultStoreBase.containsValidResultItem
  cases filterMode with
  | true =>
    have hpj : p ≤ j := by
      by_contra hlt
      exact hj (h.arrived j (by omega))
    have hnonneg := start_nonneg hs.wellFormed j
    have hnotin : ∀ i item, A i ∧ p ≤ i → items[i]? = some item →
        ¬(position ResultItem.count items i ≤ start items j ∧
          start items j < position ResultItem.count items (i + 1)) := by
      rintro i item ⟨hi, _⟩ hitem ⟨hle, hlt⟩
      have hilen := (List.getElem?_eq_some_iff.mp hitem).1
      have hij : i ≠ j := by
        rintro rfl
        exact hj hi
      obtain hlt' | hgt := lt_or_gt_of_ne hij
      · have hmono := position_mono (counted_start hs.wellFormed fun _ => True).nonneg
          (show i + 1 ≤ j from hlt')
        change position _ items (i + 1) ≤ start items j at hmono
        omega
      · have hless := start_lt hs.wellFormed hgt hlen
        change start items i ≤ start items j at hle
        omega
    dsimp only
    rw [hmode, Bool.true_and, decide_eq_true (show start items j ≠ -1 by omega), Bool.true_and]
    by_cases hgt : start items j > s.insertIndex
    · rw [decide_eq_true hgt, if_pos rfl,
        h.1.pending.findResult_end (counted_start hs.wellFormed _) hnotin]
      simp
    · have hindex := h.1.index_le
      have hreach : ∀ i item, i < p ∧ ValidAt items i → items[i]? = some item →
          position ResultItem.keptCount items (i + 1) ≤ start items j := by
        rintro i item ⟨hi, _⟩ _
        have hmono := @kept_mono T items (i + 1) p hi
        have hle := kept_le_start hs.wellFormed p
        have hmono' := position_mono (counted_start hs.wellFormed fun _ => True).nonneg hpj
        change start items p ≤ start items j at hmono'
        change kept items (i + 1) ≤ start items j
        omega
      rw [decide_eq_false hgt, if_neg (by decide),
        h.1.consumed.stored.findResult_of_le (counted_valid hs.wellFormed _) hreach]
      simp
  | false =>
    have hv := hs.isValid rfl
    have hnotin : ∀ i item, A i → items[i]? = some item →
        ¬(position ResultItem.keptCount items i ≤ start items j ∧
          start items j < position ResultItem.keptCount items (i + 1)) := by
      rintro i item hi hitem ⟨hle, hlt⟩
      rw [start_eq_kept hs.wellFormed hv] at hle hlt
      have hij : i ≠ j := by
        rintro rfl
        exact hj hi
      obtain hlt' | hgt := lt_or_gt_of_ne hij
      · have hmono := @kept_mono T items (i + 1) j hlt'
        change kept items j < kept items (i + 1) at hlt
        omega
      · have hjt := List.getElem?_eq_getElem hlen
        have hless := kept_lt hs.wellFormed hgt hjt (hv _ (mem_of_getElem? hjt))
        change kept items i ≤ kept items j at hle
        omega
    dsimp only
    rw [hmode, Bool.false_and, Bool.false_and, if_neg (by decide),
      h.1.stored.findResult_end (counted_kept hs.wellFormed hv _) hnotin]
    simp

theorem insertItems (hs : Sound filterMode items) (news : List (ResultItem T)) {j : ℕ}
    (h : Held filterMode items A p s)
    (hnews : ∀ i, i < news.length → items[j + i]? = news[i]?)
    (hA : ∀ i, j ≤ i → i < j + news.length → ¬A i) :
    ∃ p', Held filterMode items (fun i => A i ∨ (j ≤ i ∧ i < j + news.length)) p'
      (s.insertItems (start items j) news) := by
  induction news generalizing s A p j with
  | nil =>
    refine ⟨p, ?_⟩
    have heq : (fun i => A i ∨ (j ≤ i ∧ i < j + ([] : List (ResultItem T)).length)) = A := by
      funext i
      have hno : ¬(j ≤ i ∧ i < j + 0) := by omega
      exact propext (or_iff_left hno)
    rw [heq]
    exact h
  | cons item rest ih =>
    have hitem : items[j]? = some item := hnews 0 (succ_pos _)
    rw [length_cons] at hA hnews
    obtain ⟨p', h'⟩ := h.insertResultItem hs hitem (hA j (le_refl j) (by omega))
    have hrest : ∀ i, i < rest.length → items[j + 1 + i]? = rest[i]? := by
      intro i hi
      have hi' := hnews (i + 1) (by omega)
      rw [List.getElem?_cons_succ] at hi'
      rw [← hi', add_assoc, add_comm 1 i]
    obtain ⟨p'', h''⟩ := ih h' hrest (by
      rintro i hji hij (hi | rfl)
      · exact hA i (by omega) (by omega) hi
      · omega)
    refine ⟨p'', ?_⟩
    have heq : (fun i => A i ∨ (j ≤ i ∧ i < j + (item :: rest).length)) =
        fun i => (A i ∨ i = j) ∨ (j + 1 ≤ i ∧ i < j + 1 + rest.length) := by
      funext i
      rw [length_cons, or_assoc]
      apply propext
      apply or_congr_right
      omega
    have hsucc : start items (j + 1) = start items j + item.count := position_succ hitem
    rw [heq]
    show Held _ _ _ _ (ResultStoreBase.insertItems _ (start items j + item.count) rest)
    rw [← hsucc]
    exact h''

end Held

end ResultStoreBase

end QtBase.ResultStore
