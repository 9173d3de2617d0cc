import QtBase.Tools.MultiHashModel

/-! Iterators of a `QMultiHash`: `erase` and the iterator it returns, and `unite`. -/
namespace QtBase.QMultiHash

open QHashPrivate LinearProbing PairLog List Function Option Bucket

variable {K V : Type} [DecidableEq K] {calculateHash : K → ℕ → ℕ} {d d' : Data K (List V)}
  {log log' : List (K × V)}

/-- The element at an iterator: its key, and the rest of the chain from its value on. -/
def element (d : Data K (List V)) : Option Iterator → Option (K × List V)
  | none => none
  | some it => (d.cell it.bucket).map fun n => (n.key, n.value.drop it.pos)

/-- The iterator at the first value of the next occupied bucket. -/
def firstFrom (d : Data K (List V)) (b : ℕ) : Option Iterator :=
  (nextOccupied d.numBuckets d.cell b).map fun bucket => ⟨bucket, 0⟩

omit [DecidableEq K] in
theorem element_firstFrom (d : Data K (List V)) (b : ℕ) : element d (firstFrom d b) =
    ((nextOccupied d.numBuckets d.cell b).bind d.cell).map fun n => (n.key, n.value) := by
  rw [firstFrom]
  cases nextOccupied d.numBuckets d.cell b <;> rfl

omit [DecidableEq K] in
theorem element_firstFrom_inj {b b' : ℕ} : element d' (firstFrom d' b') = element d (firstFrom d b) ↔
    (nextOccupied d'.numBuckets d'.cell b').bind d'.cell =
      (nextOccupied d.numBuckets d.cell b).bind d.cell := by
  rw [element_firstFrom, element_firstFrom]
  refine (map_injective ?_).eq_iff
  rintro ⟨k, v⟩ ⟨k', v'⟩ h
  simp only [Prod.mk.injEq] at h
  rw [h.1, h.2]

namespace Chains

theorem iterator_eq (hch : Chains calculateHash d log) (b : ℕ) :
    iterator d (nextOccupied d.numBuckets d.cell b) = .ok (firstFrom d b) := by
  rw [firstFrom]
  cases hn : nextOccupied d.numBuckets d.cell b with
  | none => rfl
  | some c =>
    obtain ⟨-, hcn, ⟨n, hc⟩, -⟩ := nextOccupied_eq_some.1 hn
    have hne : n.value.isEmpty = false := by
      rw [isEmpty_eq_false_iff]
      exact (hch.of_cell hcn hc).2
    simp only [iterator, hch.inv.node_eq hcn hc, ok_bind, qAssert_pos hne, map_some,
      pure_eq_ok]

theorem increment_eq (hch : Chains calculateHash d log) {b pos : ℕ} (hb : b < d.numBuckets)
    {n : Node K (List V)} (hc : d.cell b = some n) (hpos : pos < n.value.length) :
    increment d ⟨b, pos⟩ = .ok (if pos + 1 < n.value.length then some ⟨b, pos + 1⟩
      else firstFrom d (b + 1)) := by
  simp only [increment, hch.inv.node_eq hb hc, ok_bind, qAssert_pos hpos,
    hch.inv.increment_eq d.numBuckets hb (by omega), pure_eq_ok]
  split_ifs <;> rfl

end Chains

/-! ## erase -/

/-- After erasing at `it`, the element that followed is not overtaken by another: more values of
the key are left, or the bucket of the next key is as `KeepsNext` says. -/
def NextStays (calculateHash : K → ℕ → ℕ) (d : Data K (List V)) (it : Iterator) : Prop :=
  (∀ n, d.cell it.bucket = some n → n.value.length ≠ 1) ∨
    KeepsNext d.numBuckets (d.home calculateHash) d.cell it.bucket

omit [DecidableEq K] in
theorem drop_eraseIdx (l : List V) (i : ℕ) : (l.eraseIdx i).drop i = l.drop (i + 1) := by
  induction l generalizing i with
  | nil => simp
  | cons a l ih =>
    cases i with
    | zero => simp
    | succ i => simpa using ih i

theorem eraseLast_spec (hch : Chains calculateHash d log) {b pos : ℕ} (hb : b < d.numBuckets)
    {n : Node K (List V)} (hc : d.cell b = some n) (hlast : pos + 1 = n.value.length) :
    ∃ d' it', eraseLast calculateHash
        (d.construct (ofIndex b) { n with value := n.value.eraseIdx pos }) ⟨b, pos⟩ =
          .ok (d', it') ∧ Chains calculateHash d' (eraseAt n.key log pos) ∧
      (element d' it' = element d (firstFrom d (b + 1)) ↔
        NextStays calculateHash d ⟨b, pos⟩) := by
  obtain ⟨hval, hne⟩ := hch.of_cell hb hc
  have hother : ∀ k, k ≠ n.key → valuesOf (eraseAt n.key log pos) k = valuesOf log k :=
    fun k hkk => valuesOf_eraseAt_of_ne hkk log pos
  have hrest : valuesOf (eraseAt n.key log pos) n.key = n.value.eraseIdx pos := by
    rw [valuesOf_eraseAt, hval]
  have hlen : (n.value.eraseIdx pos).length = pos := by
    rw [length_eraseIdx_of_lt (by omega)]
    omega
  by_cases hpos : pos = 0
  · -- the only value of its key
    subst hpos
    have hnil : n.value.eraseIdx 0 = [] := eq_nil_of_length_eq_zero hlen
    obtain ⟨d', hole, hrun, hch', hnb, hsd, hshift⟩ :=
      hch.erase hb (n.value.eraseIdx 0) hc (hrest.trans hnil) hother
    have htab : Table d.numBuckets (d.home calculateHash) Node.key d.cell :=
      ⟨hch.inv.probed, hch.inv.distinct, hch.inv.exists_empty⟩
    obtain ⟨t', hole', hshift', hdel⟩ := htab.delete hb hc
    rw [hshift, some.injEq, Prod.mk.injEq] at hshift'
    obtain ⟨rfl, rfl⟩ := hshift'
    have hnext := hdel.next_iff htab hb
    refine ⟨d', firstFrom d' (if b + 1 = d'.numBuckets then d'.numBuckets else b), ?_, hch', ?_⟩
    · simp only [eraseLast, if_true, hrun, ok_bind]
      rcases hch'.inv.resume (hnb ▸ hb) with ⟨hstop, hinc⟩ | ⟨hstay, hsome⟩
      · rw [if_pos hstop, hinc, ok_bind, hch'.iterator_eq]
        rfl
      · rw [if_neg hstay, toBucketIndex_ofIndex, ← hsome, hch'.iterator_eq]
        rfl
    · rw [element_firstFrom_inj, hnb, hnext, NextStays]
      refine ⟨.inr, fun h => h.resolve_left fun h' => h' n hc hlast.symm⟩
  · have hne' : n.value.eraseIdx pos ≠ [] := by
      rw [← length_pos_iff_ne_nil, hlen]
      omega
    obtain ⟨hch', -⟩ := hch.assign hb hc hrest hne' hother
    have hcl := (hch.inv.assign hb hc (n.value.eraseIdx pos)).2
    have hnb : (d.construct (ofIndex b) ⟨n.key, n.value.eraseIdx pos⟩).numBuckets =
      d.numBuckets := rfl
    have hinc := hch'.inv.increment_eq d.numBuckets hb (by rw [hnb]; omega)
    refine ⟨_, firstFrom (d.construct (ofIndex b) ⟨n.key, n.value.eraseIdx pos⟩) (b + 1),
      ?_, hch', ?_⟩
    · simp only [eraseLast, if_neg hpos]
      rw [hnb, hinc, ok_bind, hch'.iterator_eq]
      rfl
    · refine iff_of_true ?_ (.inl fun n' hc' => ?_)
      · rw [element_firstFrom_inj, hcl]
        have hsame : ∀ x, b + 1 ≤ x → update d.cell b (some ⟨n.key, n.value.eraseIdx pos⟩) x =
            d.cell x := fun x hx => update_of_ne (by omega) _ _
        have hnext : nextOccupied d.numBuckets
            (update d.cell b (some ⟨n.key, n.value.eraseIdx pos⟩)) (b + 1) =
              nextOccupied d.numBuckets d.cell (b + 1) := nextOccupied_congr fun x hx _ => hsame x hx
        rw [hnb, hnext]
        cases hx : nextOccupied d.numBuckets d.cell (b + 1) with
        | none => rfl
        | some c => exact hsame c (nextOccupied_eq_some.1 hx).1
      · rw [hc, some.injEq] at hc'
        subst hc'
        omega

section SameTable

variable (hsame : Data.SameTable d d')
include hsame

omit [DecidableEq K] in
theorem element_firstFrom_congr (b : ℕ) : element d' (firstFrom d' b) = element d (firstFrom d b) := by
  rw [element_firstFrom_inj, hsame.numBuckets, nextOccupied_congr fun x _ hx => hsame.cell x hx]
  cases hn : nextOccupied d.numBuckets d.cell b with
  | none => rfl
  | some c => exact hsame.cell c (nextOccupied_eq_some.1 hn).2.1

omit [DecidableEq K] in
theorem NextStays.congr {it : Iterator} (hb : it.bucket < d.numBuckets)
    (h : NextStays calculateHash d it) : NextStays calculateHash d' it := by
  rcases h with h | h
  · exact .inl fun n hn => h n (by rwa [← hsame.cell _ hb])
  refine .inr ?_
  rw [KeepsNext, hsame.numBuckets, Data.home_congr hsame.numBuckets hsame.seed]
  by_cases hlast : it.bucket + 1 = d.numBuckets
  · exact .inl hlast
  rw [hsame.cell (it.bucket + 1) (by omega)]
  refine h.imp_right (Or.imp_right (Or.imp_right fun hno p hp hpb e he => ?_))
  exact hno p hp hpb e (by rwa [← hsame.cell p hp])

end SameTable

namespace Keeps

variable {h : QMultiHash K V} {l : Cow.Local (Data K (List V))} {it : Iterator} {n : Node K (List V)}

theorem detachAt (hk : h.Keeps calculateHash log) (hd : h.d = some l)
    (hb : it.bucket < l.data.numBuckets) (hc : l.data.cell it.bucket = some n)
    (hpos : it.pos < n.value.length) :
    ∃ d, h.detachAt calculateHash it = .ok d ∧ Chains calculateHash d log ∧
      Data.SameTable l.data d := by
  obtain ⟨m, hm, ha⟩ := hk.chains hd
  rw [QMultiHash.detachAt, hd]
  cases hsh : l.shared with
  | false => exact ⟨l.data, by simp [hsh], ⟨m, hm, ha⟩, Data.SameTable.refl _⟩
  | true =>
    obtain ⟨d, hrun, hm', hsame⟩ := hm.copy
    refine ⟨d, ?_, ⟨m, hm', ha⟩, hsame⟩
    simp only [hsh, if_true, hm.node_eq hb hc, ok_bind, qAssert_pos hpos, hrun]

/-- `erase` at a valid iterator removes its pair. The iterator it returns is at the element
that followed if and only if that element is not overtaken. -/
theorem erase (hk : h.Keeps calculateHash log) (hd : h.d = some l)
    (hb : it.bucket < l.data.numBuckets) (hc : l.data.cell it.bucket = some n)
    (hpos : it.pos < n.value.length) :
    ∃ d' it' next, h.erase calculateHash it = .ok (QMultiHash.own d' (h.m_size - 1), it') ∧
      (QMultiHash.own d' (h.m_size - 1)).Keeps calculateHash (eraseAt n.key log it.pos) ∧
      increment l.data it = .ok next ∧
      (element d' it' = element l.data next ↔ NextStays calculateHash l.data it) := by
  obtain ⟨d, hdet, hch, hsame⟩ := hk.detachAt hd hb hc hpos
  obtain ⟨b, pos⟩ := it
  simp only at hb hc hpos
  have hb' : b < d.numBuckets := by rwa [hsame.numBuckets]
  have hc' : d.cell b = some n := by rw [hsame.cell b hb, hc]
  obtain ⟨hval, hne⟩ := hch.of_cell hb' hc'
  have hpos' : pos < (valuesOf log n.key).length := by rwa [← hval]
  have hlen := length_eraseAt hpos'
  have hsize : h.m_size - 1 = ((eraseAt n.key log pos).length : ℤ) := by
    rw [hk.m_size]
    omega
  have hnonneg : h.m_size - 1 ≥ 0 := by omega
  have hinc := (hk.chains hd).increment_eq hb hc hpos
  have hstays : NextStays calculateHash d ⟨b, pos⟩ ↔ NextStays calculateHash l.data ⟨b, pos⟩ :=
    ⟨NextStays.congr hsame.symm hb', NextStays.congr hsame hb⟩
  simp only [QMultiHash.erase, hdet, ok_bind, hch.inv.node_eq hb' hc', qAssert_pos hpos]
  by_cases hnext : pos + 1 < n.value.length
  · have hrest : valuesOf (eraseAt n.key log pos) n.key = n.value.eraseIdx pos := by
      rw [valuesOf_eraseAt, hval]
    have hne' : n.value.eraseIdx pos ≠ [] := by
      rw [← length_pos_iff_ne_nil, length_eraseIdx_of_lt hpos]
      omega
    obtain ⟨hch', hcell'⟩ := hch.assign hb' hc' hrest hne'
      fun k hkk => valuesOf_eraseAt_of_ne hkk log pos
    rw [if_pos hnext] at hinc ⊢
    refine ⟨_, some ⟨b, pos⟩, some ⟨b, pos + 1⟩, ?_, own hch' hsize, hinc, iff_of_true ?_ ?_⟩
    · simp only [pure_eq_ok, ok_bind, qAssert_pos hnonneg]
    · simp only [element, hcell', hc, map_some, drop_eraseIdx]
    · refine .inl fun n' hn' => ?_
      rw [hc, some.injEq] at hn'
      subst hn'
      omega
  · have hlast : pos + 1 = n.value.length := by omega
    obtain ⟨d', it', hrun, hch', hiff⟩ := eraseLast_spec hch hb' hc' hlast
    rw [if_neg hnext] at hinc ⊢
    refine ⟨d', it', firstFrom l.data (b + 1), ?_, own hch' hsize, hinc, ?_⟩
    · simp only [hrun, ok_bind, qAssert_pos hnonneg, pure_eq_ok]
    · rw [← element_firstFrom_congr hsame, hiff, hstays]

end Keeps

/-! ## unite -/

/-- The pairs of a node. -/
def pairs (n : Node K (List V)) : List (K × V) := n.value.map fun v => (n.key, v)

/-- The pairs that an iterator goes on to visit. -/
def items (d : Data K (List V)) : Option Iterator → List (K × V)
  | none => []
  | some it => match d.cell it.bucket with
    | none => []
    | some n => (pairs n).drop it.pos ++ (entriesFrom d.numBuckets d.cell (it.bucket + 1)).flatMap pairs

omit [DecidableEq K] in
theorem items_firstFrom (d : Data K (List V)) (b : ℕ) :
    items d (firstFrom d b) = (entriesFrom d.numBuckets d.cell b).flatMap pairs := by
  rw [firstFrom]
  cases hn : nextOccupied d.numBuckets d.cell b with
  | none => rw [entriesFrom_none hn]; rfl
  | some c =>
    obtain ⟨-, -, ⟨n, hc⟩, -⟩ := nextOccupied_eq_some.1 hn
    rw [entriesFrom_some hn hc, flatMap_cons]
    simp only [map_some, items, hc, drop_zero]

/-- A valid iterator, or the end. -/
def Valid (d : Data K (List V)) : Option Iterator → Prop
  | none => True
  | some it => it.bucket < d.numBuckets ∧ ∃ n, d.cell it.bucket = some n ∧ it.pos < n.value.length

theorem Chains.valid_firstFrom (hch : Chains calculateHash d log) (b : ℕ) :
    Valid d (firstFrom d b) := by
  rw [firstFrom]
  cases hn : nextOccupied d.numBuckets d.cell b with
  | none => trivial
  | some c =>
    obtain ⟨-, hcn, ⟨n, hc⟩, -⟩ := nextOccupied_eq_some.1 hn
    exact ⟨hcn, n, hc, length_pos_of_ne_nil (hch.of_cell hcn hc).2⟩

theorem Chains.increment_items (hch : Chains calculateHash d log) {b pos : ℕ} (hb : b < d.numBuckets)
    {n : Node K (List V)} (hc : d.cell b = some n) (hpos : pos < n.value.length) :
    ∃ next, increment d ⟨b, pos⟩ = .ok next ∧ Valid d next ∧
      items d (some ⟨b, pos⟩) = (n.key, n.value[pos]) :: items d next := by
  have hdrop : (pairs n).drop pos = (n.key, n.value[pos]) :: (pairs n).drop (pos + 1) := by
    rw [pairs, drop_eq_getElem_cons (by simpa using hpos), getElem_map]
  refine ⟨_, hch.increment_eq hb hc hpos, ?_, ?_⟩
  · split_ifs with hnext
    · exact ⟨hb, n, hc, hnext⟩
    · exact hch.valid_firstFrom (b + 1)
  · split_ifs with hnext
    · simp only [items, hc, hdrop, cons_append]
    · have hnil : (pairs n).drop (pos + 1) = [] := drop_eq_nil_of_le (by simp [pairs]; omega)
      rw [items_firstFrom]
      simp only [items, hc, hdrop, hnil, cons_append, nil_append]

omit [DecidableEq K] in
theorem sum_entriesFrom {α : Type} (t : ℕ → Option α) (f : α → ℕ) (n : ℕ) :
    ((entriesFrom n t 0).map f).sum = ∑ b ∈ Finset.range n, ((t b).map f).getD 0 := by
  rw [entriesFrom, Nat.sub_zero, ← range_eq_range']
  induction n with
  | zero => rfl
  | succ n ih =>
    rw [range_succ, filterMap_append, map_append, sum_append, ih,
      Finset.sum_range_succ]
    cases hn : t n <;> simp [hn]

theorem Chains.length_items (hch : Chains calculateHash d log) :
    (items d (firstFrom d 0)).length = log.length := by
  rw [items_firstFrom, length_flatMap, sum_entriesFrom, ← hch.sum_length]
  refine Finset.sum_congr rfl fun b _ => ?_
  cases d.cell b <;> simp [pairs]

theorem valuesOf_pairs (n : Node K (List V)) (key : K) :
    valuesOf (pairs n) key = if n.key = key then n.value else [] := by
  obtain ⟨k, l⟩ := n
  simp only [pairs]
  induction l with
  | nil => simp
  | cons v l ih =>
    rw [map_cons, valuesOf_cons, ih]
    split_ifs <;> rfl

theorem Chains.valuesOf_entriesFrom (hch : Chains calculateHash d log) {key : K} {b : ℕ}
    {n : Node K (List V)} (hb : b < d.numBuckets) (hc : d.cell b = some n) (hk : n.key = key)
    (k : ℕ) {b₀ : ℕ} (hk₀ : d.numBuckets ≤ b₀ + k) :
    valuesOf ((entriesFrom d.numBuckets d.cell b₀).flatMap pairs) key =
      if b₀ ≤ b then n.value else [] := by
  induction k generalizing b₀ with
  | zero =>
    have hnil : entriesFrom d.numBuckets d.cell b₀ = [] :=
      entriesFrom_none (nextOccupied_of_le hk₀)
    rw [hnil, if_neg (by omega)]
    rfl
  | succ k ih =>
    by_cases hlt : b₀ < d.numBuckets
    · have hrest : valuesOf ((entriesFrom d.numBuckets d.cell (b₀ + 1)).flatMap pairs) key =
          if b₀ + 1 ≤ b then n.value else [] := ih (by omega)
      rw [entriesFrom_of_lt hlt, flatMap_append, valuesOf_append, hrest]
      by_cases hbb : b₀ = b
      · subst hbb
        simp only [hc, toList_some, flatMap_cons, flatMap_nil, append_nil,
          valuesOf_pairs, hk, if_true, le_refl]
        rw [if_neg (by omega), append_nil]
      · have hfst : valuesOf ((d.cell b₀).toList.flatMap pairs) key = [] := by
          cases hc₀ : d.cell b₀ with
          | none => rfl
          | some n₀ =>
            have hne : n₀.key ≠ key := fun h =>
              hbb (hch.inv.distinct b₀ hlt b hb n₀ n hc₀ hc (h.trans hk.symm))
            simp [valuesOf_pairs, hne]
        rw [hfst, nil_append]
        split_ifs <;> first | rfl | omega
    · have hnil : entriesFrom d.numBuckets d.cell b₀ = [] :=
        entriesFrom_none (nextOccupied_of_le (by omega))
      rw [hnil, if_neg (by omega)]
      rfl

theorem Chains.valuesOf_items (hch : Chains calculateHash d log) (key : K) :
    valuesOf (items d (firstFrom d 0)) key = valuesOf log key := by
  rw [items_firstFrom]
  by_cases hv : valuesOf log key = []
  · rw [hv, eq_nil_iff_forall_not_mem]
    intro v hmem
    rw [mem_valuesOf, mem_flatMap] at hmem
    obtain ⟨n, hn, hp⟩ := hmem
    obtain ⟨c, -, hcn, hc⟩ := mem_entriesFrom.1 hn
    obtain ⟨v', -, hv'⟩ := mem_map.mp hp
    have hkey : n.key = key := congrArg Prod.fst hv'
    have hcell := hch.of_cell hcn hc
    rw [hkey, hv] at hcell
    exact hcell.2 hcell.1
  · obtain ⟨b, hb, hc⟩ := hch.exists_cell hv
    rw [hch.valuesOf_entriesFrom hb hc rfl d.numBuckets (by omega), if_pos (Nat.zero_le b)]

/-- What an iteration over the whole hash visits. -/
def visited (h : QMultiHash K V) : List (K × V) := match h.d with
  | none => []
  | some l => items l.data (firstFrom l.data 0)

theorem Chains.size_le (hch : Chains calculateHash d log) : d.size ≤ log.length := by
  rw [← hch.sum_length, ← hch.inv.size_eq, occupied, Finset.card_filter]
  refine Finset.sum_le_sum fun b hb => ?_
  cases hc : d.cell b with
  | none => simp
  | some n =>
    simp only [isSome_some, if_true, map_some, getD_some]
    exact length_pos_of_ne_nil (hch.of_cell (Finset.mem_range.mp hb) hc).2

namespace Keeps

variable {h : QMultiHash K V}

theorem uniteFrom {copy : Data K (List V)} {clog : List (K × V)}
    (hcopy : Chains calculateHash copy clog) (globalSeed k : ℕ) {it : Option Iterator}
    (hit : Valid copy it) (hk : h.Keeps calculateHash log)
    (hown : ∃ d' m_size', h = QMultiHash.own d' m_size') (hfuel : (items copy it).length < k) :
    Ends (uniteFrom calculateHash globalSeed copy k h it)
      (∃ c ≤ log.length + (items copy it).length, TooLarge c) fun h' =>
        h'.Keeps calculateHash ((items copy it).reverse ++ log) ∧
          ∃ d' m_size', h' = QMultiHash.own d' m_size' := by
  induction k generalizing h log it with
  | zero => omega
  | succ k ih =>
    cases it with
    | none => exact Ends.ok ⟨hk, hown⟩
    | some it =>
      obtain ⟨b, pos⟩ := it
      obtain ⟨hb, n, hc, hpos⟩ := hit
      obtain ⟨next, hinc, hvalid, hitems⟩ := hcopy.increment_items hb hc hpos
      rw [hitems, length_cons] at hfuel
      simp only [QMultiHash.uniteFrom, hcopy.inv.node_eq hb hc, ok_bind,
        List.getElem?_eq_getElem hpos]
      have hsize : h.toQHash.size ≤ log.length := by
        obtain ⟨d, -, hch, -⟩ := hk.detach globalSeed
        rw [← hk.detach_size hch]
        exact hch.size_le
      refine ((hk.insert globalSeed n.key n.value[pos]).mono
        (fun hlarge => ⟨_, by rw [hitems, length_cons]; omega, hlarge⟩) fun _ h => h).bind ?_
      rintro ⟨h', it'⟩ ⟨hk', hown', -⟩
      simp only [hinc, ok_bind]
      refine (ih hvalid hk' hown' (by omega)).mono ?_ ?_
      · rintro ⟨c, hc, hlarge⟩
        rw [length_cons] at hc
        exact ⟨c, by rw [hitems, length_cons]; omega, hlarge⟩
      · rintro h'' ⟨hk'', hown''⟩
        refine ⟨?_, hown''⟩
        simp [hitems, hk'']

theorem withShare (hk : h.Keeps calculateHash log) (also : Bool) :
    (h.withShare also).Keeps calculateHash log := by
  obtain ⟨⟨m, hm, ha⟩, hs⟩ := hk
  refine ⟨⟨m, hm.of_data? ?_, ha⟩, hs⟩
  simp only [QMultiHash.withShare, toQHash]
  cases h.d <;> rfl

theorem visited (hk : h.Keeps calculateHash log) : h.visited.length = log.length ∧
    ∀ key, valuesOf h.visited key = valuesOf log key := by
  rw [QMultiHash.visited]
  cases hd : h.d with
  | none => simp [hk.eq_nil hd]
  | some l => exact ⟨(hk.chains hd).length_items, (hk.chains hd).valuesOf_items⟩

/-- `unite` inserts the pairs of the other hash in the order of iteration. -/
theorem unite {other : QMultiHash K V} {olog : List (K × V)} (hk : h.Keeps calculateHash log)
    (ho : other.Keeps calculateHash olog) (globalSeed : ℕ) (sameTable : Bool) :
    Ends (h.unite calculateHash globalSeed other sameTable)
      (∃ c ≤ log.length + olog.length, TooLarge c) fun h' => h.d.Legal h'.d ∧
        h'.Keeps calculateHash (other.visited.reverse ++ log) := by
  rw [QMultiHash.unite]
  cases hemp : other.isEmpty with
  | true =>
    have hnil : olog = [] := ho.isEmpty_iff.1 hemp
    subst hnil
    have hvis : other.visited = [] := eq_nil_of_length_eq_zero ho.visited.1
    rw [hvis]
    exact Ends.ok ⟨Cow.Handle.Legal.refl _, hk⟩
  | false =>
    cases hd : other.d with
    | none => simp [ho.isEmpty_iff.2 (ho.eq_nil hd)] at hemp
    | some copy =>
      have hcopy := ho.chains hd
      obtain ⟨d, hrun, hch, -⟩ := (hk.withShare sameTable).detach globalSeed
      have hbegin : other.constBegin = .ok (firstFrom copy.data 0) := by
        simp only [constBegin, hd, hcopy.inv.begin_eq, ok_bind, hcopy.iterator_eq]
      have hlen := hcopy.length_items
      have hfuel : (items copy.data (firstFrom copy.data 0)).length < other.m_size.toNat + 1 := by
        rw [ho.m_size, hlen]
        omega
      simp only [Bool.false_eq_true, if_false, hrun, ok_bind, hbegin]
      refine (uniteFrom hcopy globalSeed _ (hcopy.valid_firstFrom 0) (own hch hk.m_size) ⟨_, _, rfl⟩
        hfuel).mono ?_ ?_
      · rw [hlen]
        exact id
      · rintro h' ⟨hk', d', m_size', rfl⟩
        have hvis : other.visited = items copy.data (firstFrom copy.data 0) := by
          rw [QMultiHash.visited, hd]
        exact ⟨Cow.Handle.Legal.own _ d', by rw [hvis]; exact hk'⟩

end Keeps

end QtBase.QMultiHash
