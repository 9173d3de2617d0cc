import QtBase.Tools.HashTable

/-! The operations of `QHashPrivate::Data` that the containers call, each with the one lemma
that says what it does to a sound table: copying, insertion of a key, assignment to a node,
erasure. -/
namespace QtBase.QHashPrivate.Data

open LinearProbing Function Bucket

variable {K V : Type} {calculateHash : K → ℕ → ℕ} {d : Data K V}

/-! ## Copying to a table of the same size -/

section Copy

variable [DecidableEq K] {old : Data K V}

/-- The copy after its first `b` buckets have been filled. -/
structure Copied (old : Data K V) (b : ℕ) (d : Data K V) : Prop extends Storage d where
  numBuckets_eq : d.numBuckets = old.numBuckets
  seed_eq : d.seed = old.seed
  size_eq : d.size = old.size
  cell_eq : ∀ c, d.cell c = if c < b then old.cell c else none

theorem reinsert_copied (h : old.Storage) {s index : ℕ} (hidx : index < NEntries)
    (hb : s * 128 + index < old.numBuckets) (hc : Copied old (s * 128 + index) d) :
    ∃ d', reinsert calculateHash old.spans false s d index = .ok d' ∧
      Copied old (s * 128 + (index + 1)) d' := by
  rw [nEntries_eq] at hidx
  have hdiv : (s * 128 + index) / 128 = s := by omega
  have hmod : (s * 128 + index) % 128 = index := by omega
  have hsp := h.span_inv hb
  rw [hdiv] at hsp
  have hcell : old.cell (s * 128 + index) = (old.spans s).cell index := by
    simp [cell, hdiv, hmod]
  have hnext : ∀ c, (if c < s * 128 + (index + 1) then old.cell c else none) =
      if c = s * 128 + index then (old.spans s).cell index
      else if c < s * 128 + index then old.cell c else none := by
    intro c
    rcases lt_trichotomy c (s * 128 + index) with h' | rfl | h'
    · rw [if_pos (by omega), if_neg h'.ne, if_pos h']
    · rw [if_pos (by omega), if_pos rfl, hcell]
    · rw [if_neg (by omega), if_neg h'.ne', if_neg (by omega)]
  cases hcs : (old.spans s).cell index with
  | none =>
    have hu := (hsp.cell_eq_none hidx).mp hcs
    refine ⟨d, by simp [reinsert, Span.hasNode, hu], hc.toStorage, hc.numBuckets_eq, hc.seed_eq,
      hc.size_eq, fun c => ?_⟩
    rw [hnext, hc.cell_eq, hcs]
    by_cases hce : c = s * 128 + index
    · simp [hce]
    · rw [if_neg hce]
  | some n =>
    have hu := ((hsp.cell_eq_some hidx).mp hcs).1
    have hbd : s * 128 + index < d.numBuckets := by rwa [hc.numBuckets_eq]
    have hfree : d.cell (s * 128 + index) = none := by rw [hc.cell_eq, if_neg (lt_irrefl _)]
    have hof : ofIndex (s * 128 + index) = ⟨s, index⟩ := by
      rw [ofIndex_eq, hdiv, hmod]
    have hunused := (hc.isUnused_iff hbd).mpr hfree
    obtain ⟨d₁, hins, hnb, hsd, hsz, hcons⟩ := insertAt_spec hc.toStorage hbd hfree
    obtain ⟨hst, hcl⟩ := hcons n
    rw [hof] at hunused hins hst hcl
    refine ⟨d₁.construct ⟨s, index⟩ n, ?_, hst, hnb.trans hc.numBuckets_eq, hsd.trans hc.seed_eq,
      hsz.trans hc.size_eq, fun c => ?_⟩
    · simp only [reinsert, Span.hasNode, bne_iff_ne, ne_eq, hu, not_false_eq_true, if_true,
        hsp.at_eq hidx hcs, ok_bind, Bool.false_eq_true, if_false, pure_eq_ok, qAssert_pos hunused,
        hins]
    · rw [hcl, hnext, update_apply, hc.cell_eq, hcs]

theorem copy_spec (h : old.Inv calculateHash) :
    ∃ d', old.copy calculateHash = .ok d' ∧ d'.Inv calculateHash ∧
      d'.numBuckets = old.numBuckets ∧ d'.seed = old.seed ∧ d'.size = old.size ∧
      ∀ b < old.numBuckets, d'.cell b = old.cell b := by
  obtain ⟨m, -, hm⟩ := h.exists_mul
  have hshift : old.numBuckets >>> SpanShift = m := by
    rw [SpanShift, Nat.shiftRight_eq_div_pow, hm]
    exact Nat.mul_div_cancel_left m (by decide)
  have hcell : ∀ b, ({ old with spans := fun _ => Span.new } : Data K V).cell b = none :=
    fun b => Span.cell_new _
  have hstart : Copied old 0 { old with spans := fun _ => Span.new } :=
    ⟨⟨h.pow, h.le_max, fun _ _ => Span.inv_new⟩, rfl, rfl, rfl, fun c => by
      rw [hcell, if_neg (by omega)]⟩
  obtain ⟨d', hrun, hd'⟩ := foldlM_range (fun s d => Copied old (s * 128) d)
    (f := fun d s => (List.range NEntries).foldlM (reinsert calculateHash old.spans false s) d)
    (n := m) (by rw [Nat.zero_mul]; exact hstart) (fun s hs d hd => by
      obtain ⟨d₁, h₁, hd₁⟩ := foldlM_range (f := reinsert calculateHash old.spans false s)
        (fun i d => Copied old (s * 128 + i) d) (n := NEntries) (s := d) (by rwa [Nat.add_zero])
        (fun i hi d hd => reinsert_copied h.toStorage hi (by rw [nEntries_eq] at hi; omega) hd)
      refine ⟨d₁, h₁, ?_⟩
      rw [show (s + 1) * 128 = s * 128 + NEntries by rw [nEntries_eq]; ring]
      exact hd₁)
  have hsame : ∀ b < old.numBuckets, d'.cell b = old.cell b := by
    intro b hb
    rw [hd'.cell_eq, if_pos (by omega)]
  have hhome : d'.home calculateHash = old.home calculateHash :=
    home_congr hd'.numBuckets_eq hd'.seed_eq
  refine ⟨d', ?_, ⟨hd'.toStorage, ?_, ?_, ?_, ?_⟩, hd'.numBuckets_eq, hd'.seed_eq, hd'.size_eq, hsame⟩
  · rw [copy, allocateSpans, if_neg (not_lt.mpr h.le_max), ok_bind, reallocationHelper, hshift]
    exact hrun
  · rw [hd'.numBuckets_eq, hhome]
    exact h.probed.congr hsame
  · rw [hd'.numBuckets_eq]
    exact h.distinct.congr hsame
  · rw [hd'.numBuckets_eq, occupied_congr hsame, h.size_eq, hd'.size_eq]
  · rw [hd'.size_eq, hd'.numBuckets_eq]
    exact h.load

end Copy

/-! ## Insertion and assignment -/

theorem new_spec (calculateHash : K → ℕ → ℕ) (globalSeed reserve : ℕ) :
    ((new globalSeed reserve : Exec (Data K V)) = .error .badAlloc ∧
        MaxBucketCount < GrowthPolicy.bucketsForCapacity reserve) ∨
      ∃ d : Data K V, new globalSeed reserve = .ok d ∧ d.Inv calculateHash ∧ d.size = 0 ∧
        d.seed = globalSeed ∧ ∀ b, d.cell b = none := by
  by_cases hmax : GrowthPolicy.bucketsForCapacity reserve > MaxBucketCount
  · exact .inl ⟨by simp only [new, allocateSpans, if_pos hmax, error_bind], hmax⟩
  · obtain ⟨k, hk, -⟩ := two_pow_bucketsForCapacity (not_lt.mp hmax)
    have hcell : ∀ b, (⟨0, GrowthPolicy.bucketsForCapacity reserve, globalSeed, fun _ => Span.new⟩ :
        Data K V).cell b = none := fun b => Span.cell_new _
    refine .inr ⟨_, by simp only [new, allocateSpans, if_neg hmax, ok_bind, pure_eq_ok],
      ⟨⟨⟨k, hk⟩, not_lt.mp hmax, fun _ _ => Span.inv_new⟩, ?_, ?_, ?_, ?_⟩, rfl, rfl, hcell⟩
    · intro b _ n hn
      simp [hcell] at hn
    · intro b _ b' _ n n' hn
      simp [hcell] at hn
    · simp [occupied, hcell]
    · simp

/-- Assignment to the value of a node. -/
theorem Inv.assign (h : d.Inv calculateHash) {b : ℕ} (hb : b < d.numBuckets) {key : K} {v₀ : V}
    (hc : d.cell b = some ⟨key, v₀⟩) (v : V) :
    (d.construct (ofIndex b) ⟨key, v⟩).Inv calculateHash ∧
      (d.construct (ofIndex b) ⟨key, v⟩).cell = update d.cell b (some ⟨key, v⟩) := by
  obtain ⟨hst, hcl⟩ := construct_spec h.toStorage hb hc ⟨key, v⟩
  have hmem : b ∈ occupied d.numBuckets d.cell := mem_occupied.2 ⟨hb, _, hc⟩
  refine ⟨⟨hst, ?_, ?_, ?_, h.load⟩, hcl⟩
  · rw [hcl]
    exact h.probed.replace hc rfl
  · rw [hcl]
    refine h.distinct.update fun c hcn hcb n hn hk => hcb (h.distinct c hcn b hb _ _ hn hc hk)
  · rw [hcl]
    exact (congrArg Finset.card ((occupied_update_some hb).trans (Finset.insert_eq_of_mem hmem))).trans
      h.size_eq

section Insert

variable [DecidableEq K]

omit [DecidableEq K] in
theorem insert_at_free (h : d.Inv calculateHash) (hroom : 2 * (d.size + 1) ≤ d.numBuckets) {key : K}
    {r : ℕ} (hr : r < d.numBuckets) (hfree : d.cell r = none)
    (hnew : ∀ b < d.numBuckets, ∀ n, d.cell b = some n → n.key ≠ key)
    (hwalk : ∀ v x, x < d.numBuckets → Between (d.home calculateHash ⟨key, v⟩) x r → d.cell x ≠ none) :
    ∃ d₁, d.insertAt (ofIndex r) = .ok d₁ ∧ d₁.numBuckets = d.numBuckets ∧ d₁.seed = d.seed ∧
      d₁.size = d.size ∧ ∀ v, ∃ d₂, d₂ =
        ({ d₁ with size := d₁.size + 1 } : Data K V).construct (ofIndex r) ⟨key, v⟩ ∧
        d₂.Inv calculateHash ∧ d₂.cell = update d.cell r (some ⟨key, v⟩) := by
  obtain ⟨d₁, hins, hnb, hsd, hsz, hcons⟩ := insertAt_spec h.toStorage hr hfree
  refine ⟨d₁, hins, hnb, hsd, hsz, fun v => ⟨_, rfl, ?_, (hcons ⟨key, v⟩).2⟩⟩
  obtain ⟨hst, hcl⟩ := hcons ⟨key, v⟩
  have hnot : r ∉ occupied d.numBuckets d.cell := by simp [mem_occupied, hfree]
  have hhome : (({ d₁ with size := d₁.size + 1 } : Data K V).construct (ofIndex r)
      ⟨key, v⟩).home calculateHash = d.home calculateHash := home_congr hnb hsd
  have hcl' : (({ d₁ with size := d₁.size + 1 } : Data K V).construct (ofIndex r)
      ⟨key, v⟩).cell = update d.cell r (some ⟨key, v⟩) := hcl
  have hnb' : (({ d₁ with size := d₁.size + 1 } : Data K V).construct (ofIndex r)
      ⟨key, v⟩).numBuckets = d.numBuckets := hnb
  refine ⟨⟨hst.pow, hst.le_max, hst.spans⟩, ?_, ?_, ?_, ?_⟩
  · rw [hnb', hhome, hcl']
    exact h.probed.insert hfree (hwalk v)
  · rw [hnb', hcl']
    exact h.distinct.update fun c hc _ n hn => hnew c hc n hn
  · rw [hnb', hcl', occupied_update_some hr, Finset.card_insert_of_notMem hnot, h.size_eq, ← hsz]
    rfl
  · rw [hnb']
    change 2 * (d₁.size + 1) ≤ d.numBuckets
    omega

/-- `findOrInsert` finds the key, or makes room and reserves a bucket for it; constructing the
node there gives a sound table with the one new entry. -/
theorem findOrInsert_spec (h : d.Inv calculateHash) (key : K) :
    (findOrInsert calculateHash d key = .error .badAlloc ∧
        MaxBucketCount < GrowthPolicy.bucketsForCapacity (d.size + 1) ∧
        ∀ n, Holds d.numBuckets d.cell n → n.key ≠ key) ∨
      (∃ b < d.numBuckets, ∃ v, findOrInsert calculateHash d key = .ok (d, ofIndex b, true) ∧
        d.cell b = some ⟨key, v⟩) ∨
      ∃ d₁ b, findOrInsert calculateHash d key = .ok (d₁, ofIndex b, false) ∧
        b < d₁.numBuckets ∧ (∀ n, Holds d.numBuckets d.cell n → n.key ≠ key) ∧
        ∀ v, ∃ d₂, d₂ = d₁.construct (ofIndex b) ⟨key, v⟩ ∧ d₂.Inv calculateHash ∧
          d₂.cell b = some ⟨key, v⟩ ∧ d₂.size = d.size + 1 ∧ d₂.numBuckets = d₁.numBuckets ∧
          ∀ n, Holds d₂.numBuckets d₂.cell n ↔ Holds d.numBuckets d.cell n ∨ n = ⟨key, v⟩ := by
  obtain ⟨r, hr, hfind, hwalk, hres⟩ := findBucket_spec h.toStorage h.probed h.exists_empty key
  have hpos : 0 < d.numBuckets := h.numBuckets_pos
  rcases hres with ⟨v, hv⟩ | ⟨hfree, hnew⟩
  · refine .inr (.inl ⟨r, hr, v, ?_, hv⟩)
    have hused : d.isUnused (ofIndex r) = false := by
      rw [Bool.eq_false_iff, Ne, h.isUnused_iff hr, hv]
      exact Option.some_ne_none _
    simp [findOrInsert, hpos, hfind, hused, Except.map]
  have hunused := (h.isUnused_iff hr).mpr hfree
  have hplace : findOrInsert calculateHash d key =
      findOrInsert.place calculateHash key d (some (ofIndex r)) := by
    simp [findOrInsert, hpos, hfind, hunused, Except.map]
  have habsent : ∀ n, Holds d.numBuckets d.cell n → n.key ≠ key := by
    rintro n ⟨b, hb, hn⟩
    exact hnew b hb n hn
  have hhalf : d.numBuckets >>> 1 = d.numBuckets / 2 := by rw [Nat.shiftRight_eq_div_pow, pow_one]
  obtain ⟨m, -, hm⟩ := h.exists_mul
  rw [hplace]
  by_cases hgrow : d.shouldGrow = true
  · have hne : d.size + 1 ≠ 0 := by omega
    rcases rehash_spec h (d.size + 1) (by rw [if_neg hne]; omega) with ⟨herr, hmax⟩ |
      ⟨d', hrun, hinv, hnb, -, hsz, hholds⟩
    · rw [if_neg hne] at hmax
      exact .inl ⟨by simp [findOrInsert.place, hgrow, herr], hmax, habsent⟩
    rw [if_neg hne] at hnb
    obtain ⟨r', hr', hfind', hwalk', hres'⟩ :=
      findBucket_spec hinv.toStorage hinv.probed hinv.exists_empty key
    have hfree' : d'.cell r' = none ∧ ∀ b < d'.numBuckets, ∀ n, d'.cell b = some n → n.key ≠ key := by
      rcases hres' with ⟨v, hv⟩ | hres'
      · exact absurd rfl (habsent _ ((hholds ⟨key, v⟩).mp ⟨r', hr', hv⟩))
      · exact hres'
    have hroom : 2 * (d'.size + 1) ≤ d'.numBuckets := by
      obtain ⟨k, hk, hle⟩ := two_pow_bucketsForCapacity (hnb ▸ hinv.le_max)
      omega
    obtain ⟨d₁, hins, hnb₁, -, hsz₁, hcons⟩ :=
      insert_at_free hinv hroom hr' hfree'.1 hfree'.2 hwalk'
    refine .inr (.inr ⟨{ d₁ with size := d₁.size + 1 }, r', ?_, hnb₁ ▸ hr', habsent, fun v => ?_⟩)
    · simp [findOrInsert.place, hgrow, hrun, hfind', qAssert_pos ((hinv.isUnused_iff hr').mpr hfree'.1),
        hins]
    · obtain ⟨d₂, heq, hinv₂, hcl⟩ := hcons v
      have hn₂ : d₂.numBuckets = d'.numBuckets := by
        rw [heq]
        exact hnb₁
      refine ⟨d₂, heq, hinv₂, by rw [hcl, update_self], ?_, by rw [heq]; rfl, fun n => ?_⟩
      · rw [heq, ← hsz, ← hsz₁]
        rfl
      · rw [hn₂, hcl, holds_update_some hr' hfree'.1, hholds]
  · have hroom : 2 * (d.size + 1) ≤ d.numBuckets := by
      simp only [shouldGrow, ge_iff_le, decide_eq_true_eq, hhalf, not_le] at hgrow
      omega
    obtain ⟨d₁, hins, hnb₁, -, hsz₁, hcons⟩ := insert_at_free h hroom hr hfree hnew hwalk
    refine .inr (.inr ⟨{ d₁ with size := d₁.size + 1 }, r, ?_, hnb₁ ▸ hr, habsent, fun v => ?_⟩)
    · simp [findOrInsert.place, hgrow, qAssert_pos hunused, hins]
    · obtain ⟨d₂, heq, hinv₂, hcl⟩ := hcons v
      have hn₂ : d₂.numBuckets = d.numBuckets := by
        rw [heq]
        exact hnb₁
      refine ⟨d₂, heq, hinv₂, by rw [hcl, update_self], ?_, by rw [heq]; rfl, fun n => ?_⟩
      · rw [heq, ← hsz₁]
        rfl
      · rw [hn₂, hcl, holds_update_some hr hfree]

end Insert

/-! ## Erasure -/

theorem meetsHole_eq (hs : d.Storage) {nxt hole : ℕ} (hn : nxt < d.numBuckets)
    (hh : hole < d.numBuckets) (k : ℕ) {a : ℕ} (ha : a < d.numBuckets)
    (hk : dist d.numBuckets a nxt < k) :
    d.meetsHole (ofIndex nxt) (ofIndex hole) k (ofIndex a) =
      .ok (decide (Between a hole nxt)) := by
  induction k generalizing a with
  | zero => omega
  | succ k ih =>
    simp only [meetsHole, ofIndex_inj]
    by_cases han : a = nxt
    · rw [if_pos han, han, decide_eq_false (not_between_self nxt hole)]
    by_cases hah : a = hole
    · have hb : Between a hole nxt := by
        unfold Between
        omega
      rw [if_neg han, if_pos hah, decide_eq_true hb]
    · have hd := dist_succ ha hn han
      have hb : Between a hole nxt ↔ Between (succ d.numBuckets a) hole nxt := by
        rw [between_iff_succ ha hh hn han]
        exact or_iff_right (Ne.symm hah)
      rw [if_neg han, if_neg hah, hs.advance ha, ih (succ_lt ha) (by omega)]
      simp only [hb]

theorem closeHole_eq (k : ℕ) {hole nxt hole' : ℕ} {t' : ℕ → Option (Node K V)} (hs : d.Storage)
    (hh : hole < d.numBuckets) (hn : nxt < d.numBuckets) (hemp : d.cell hole = none)
    (hrun : backshift d.numBuckets (d.home calculateHash) k d.cell hole (succ d.numBuckets nxt) =
      some (t', hole')) :
    ∃ d', closeHole calculateHash k d (ofIndex hole) (ofIndex nxt) = .ok d' ∧
      d'.Storage ∧ d'.cell = t' ∧ d'.numBuckets = d.numBuckets ∧ d'.seed = d.seed ∧
      d'.size = d.size := by
  induction k generalizing d hole nxt with
  | zero => simp [backshift] at hrun
  | succ k ih =>
    have hn' := succ_lt hn
    simp only [closeHole, hs.advance hn]
    cases hc : d.cell (succ d.numBuckets nxt) with
    | none =>
      simp only [backshift, hc, Option.some.injEq, Prod.mk.injEq] at hrun
      rw [if_pos ((hs.offset_eq_unused hn').mpr hc)]
      exact ⟨d, rfl, hs, hrun.1, rfl, rfl, rfl⟩
    | some n =>
      have hne : hole ≠ succ d.numBuckets nxt := by
        intro h
        rw [← h, hemp] at hc
        cases hc
      have hused : ¬ (d.spans (ofIndex (succ d.numBuckets nxt)).span).offset
          (ofIndex (succ d.numBuckets nxt)).index = UnusedEntry := by
        rw [hs.offset_eq_unused hn', hc]
        exact Option.some_ne_none n
      have hhome := hs.home_lt calculateHash n
      have hmeets := meetsHole_eq hs hn' hh d.numBuckets hhome (dist_lt hhome hn')
      rw [home] at hmeets
      simp only [if_neg hused, hs.atOffset_eq hn' hc, ok_bind, hmeets]
      simp only [backshift, hc] at hrun
      by_cases hb : Between (d.home calculateHash n) hole (succ d.numBuckets nxt)
      · rw [if_pos hb] at hrun
        obtain ⟨d₁, hmv, hst, hcl, hnb, hsd, hsz⟩ := moveNode_spec hs hn' hh hc hemp
        have hhm : d₁.home calculateHash = d.home calculateHash := home_congr hnb hsd
        rw [home] at hb
        simp only [decide_eq_true hb, if_true, hmv, ok_bind]
        have hemp₁ : d₁.cell (succ d.numBuckets nxt) = none := by simp [hcl, move_apply]
        have hn₁ : succ d.numBuckets nxt < d₁.numBuckets := by rwa [hnb]
        obtain ⟨d', hrun', hst', hcl', hnb', hsd', hsz'⟩ := ih hst hn₁ hn₁ hemp₁
          (by rw [hnb, hhm, hcl]; exact hrun)
        exact ⟨d', hrun', hst', hcl', hnb'.trans hnb, hsd'.trans hsd, hsz'.trans hsz⟩
      · rw [if_neg hb] at hrun
        rw [home] at hb
        simp only [decide_eq_false hb, Bool.false_eq_true, if_false]
        exact ih hs hh hn' hemp hrun

theorem erase_spec (h : d.Inv calculateHash) {b : ℕ} (hb : b < d.numBuckets) {n : Node K V}
    (hc : d.cell b = some n) :
    ∃ d' hole, d.erase calculateHash (ofIndex b) = .ok d' ∧ d'.Inv calculateHash ∧
      d'.numBuckets = d.numBuckets ∧ d'.seed = d.seed ∧ d'.size + 1 = d.size ∧
      backshift d.numBuckets (d.home calculateHash) d.numBuckets (update d.cell b none) b
        (succ d.numBuckets b) = some (d'.cell, hole) ∧
      ∀ n', Holds d'.numBuckets d'.cell n' ↔ Holds d.numBuckets d.cell n' ∧ n'.key ≠ n.key := by
  have hmod : b % 128 < NEntries := Nat.mod_lt _ (by decide)
  obtain ⟨z, hz, htz⟩ := h.exists_empty
  obtain ⟨t', hole, hrun, hp, hd, hholds, hcard⟩ := delete_spec h.probed h.distinct hb hc hz htz
  have hused : (d.spans (b / 128)).hasNode (b % 128) = true := by
    have hne : (d.spans (b / 128)).offsets (b % 128) ≠ UnusedEntry :=
      (((h.span_inv hb).cell_eq_some hmod).mp hc).1
    simp [Span.hasNode, hne]
  obtain ⟨sp, hsp, hinv, hcell⟩ := (h.span_inv hb).erase hmod hc
  have hst : ({ d.setSpan (b / 128) sp with size := d.size - 1 } : Data K V).Storage := by
    have := h.toStorage.setSpan hinv (s := b / 128)
    exact ⟨this.pow, this.le_max, this.spans⟩
  have hcl : ({ d.setSpan (b / 128) sp with size := d.size - 1 } : Data K V).cell =
      update d.cell b none := cell_setSpan_update hcell
  obtain ⟨d', hclose, hst', hcl', hnb, hsd, hsz⟩ := closeHole_eq d.numBuckets hst hb hb
    (by rw [hcl, update_self]) (by rw [hcl]; exact hrun)
  have hpos : 0 < d.size := by
    have := h.size_eq
    omega
  have hsz' : d'.size = d.size - 1 := hsz
  have hhome : d'.home calculateHash = d.home calculateHash := home_congr hnb hsd
  have hnb' : d'.numBuckets = d.numBuckets := hnb
  refine ⟨d', hole, ?_, ⟨hst', ?_, ?_, ?_, ?_⟩, hnb, hsd, by omega, by rw [hcl']; exact hrun,
    fun n' => ?_⟩
  · rw [ofIndex_eq] at hclose ⊢
    rw [erase, qAssert_pos hused, ok_bind, hsp, ok_bind]
    exact hclose
  · rw [hnb', hhome, hcl']
    exact hp
  · rw [hnb', hcl']
    exact hd
  · have := h.size_eq
    rw [hnb', hcl']
    omega
  · have := h.load
    omega
  · rw [hnb', hcl']
    exact hholds n'

end QtBase.QHashPrivate.Data
