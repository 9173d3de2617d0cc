import QtBase.Gui.RegionMerge

/-! `QRegionPrivate::prepend` of a region, and when it gives the union. -/
namespace QtBase.QRegionPrivate

open QRect List

/-- The first rectangle and the second one can be merged, and a third one follows. -/
def MeetsSecond (nextToFirst : Option QRect) : List QRect → Prop
  | t :: c :: c' :: _ => canMergeFromBelow t c nextToFirst (some c')
  | _ => False

/-- What the merges come to: `pre` and `skipped` are counted by `numPrepend` and `numSkip`. -/
structure Merged (S : Set (ℤ × ℤ)) (e : QRect) (r d : QRegionPrivate)
    (pre skipped rest : List QRect) : Prop where
  front : Front S e d pre skipped rest
  pre_prefix : pre <+: r.rects
  rest_ne : rest ≠ []
  /-- A skipped rectangle was merged into the next one. -/
  skipped_inside : skipped = [] ∨ ∃ s m ms, skipped = [s] ∧ rest = m :: ms ∧ ¬ s.Before m

section Merging

variable {S : Set (ℤ × ℤ)} {e : QRect} {d r : QRegionPrivate} {pre as bs : List QRect}
  {t a b : QRect}

theorem not_before_of_top_left (ht : ¬ t.isEmpty) (htop : t.top = a.top)
    (hleft : t.left = a.left) : ¬ t.Before a := by
  rw [not_isEmpty] at ht
  unfold Before
  omega

theorem tryMergingSecond_spec (h : Front S e d pre [] (t :: as)) (hr : pre <+: r.rects) :
    ∃ d' skipped rest, d.tryMergingSecond r pre.length = .ok (d', pre.length, skipped.length) ∧
      Merged S e r d' pre skipped rest ∧
      (skipped ≠ [] ∧ 2 ≤ rest.length ↔ MeetsSecond pre.getLast? (t :: as)) := by
  unfold tryMergingSecond
  cases as with
  | nil =>
    rw [if_neg (by simp [h.numRects])]
    exact ⟨d, [], [t], rfl, ⟨h, hr, cons_ne_nil _ _, .inl rfl⟩, by simp [MeetsSecond]⟩
  | cons c cs =>
    obtain ⟨stale, hstale⟩ := hr
    have hnext : readIf (pre.length > 0) r.rects (pre.length - 1) = .ok pre.getLast? := by
      rw [← hstale]
      exact readIf_last length_pos_iff
    rw [if_pos (by simp [h.numRects]), h.readIf_next_next, ok_bind, hnext, ok_bind, h.read_first,
      ok_bind]
    by_cases hc : canMergeFromBelow t c pre.getLast? cs.head?
    · obtain ⟨d', hrun, hf⟩ := h.mergeSecond hc
      have ht := h.canonical.nonempty t (by simp)
      rw [hrun]
      refine ⟨_, [t], _, rfl, ⟨hf, ⟨stale, hstale⟩, cons_ne_nil _ _, .inr ?_⟩, ?_⟩
      · exact ⟨t, _, _, rfl, rfl, not_before_of_top_left ht rfl hc.2.2.2.1⟩
      · cases cs with
        | nil => simp [MeetsSecond]
        | cons c' cs => simpa [MeetsSecond] using hc
    · rw [mergeFromAbove_neg h.read_second hc]
      refine ⟨d, [], _, rfl, ⟨h, ⟨stale, hstale⟩, cons_ne_nil _ _, .inl rfl⟩, ?_⟩
      cases cs with
      | nil => simp [MeetsSecond]
      | cons c' cs => simpa [MeetsSecond] using hc

/-- The first rectangle was widened by the last one of the other list, and may be raised by the one
before it. -/
theorem tryMergingWidened_spec (h : Front S e d (bs ++ [t]) [] (a :: as))
    (hr : bs ++ [t] <+: r.rects) :
    ∃ merged d₁ pre d' skipped rest,
      d.mergeFromAbove (.rect 0) t as.head? bs.getLast? = .ok (merged, d₁) ∧
      d₁.tryMergingSecond r (if merged then bs.length + 1 - 1 else bs.length + 1) =
        .ok (d', pre.length, skipped.length) ∧ Merged S e r d' pre skipped rest ∧
      (pre = [] ∧ skipped ≠ [] ∧ 2 ≤ rest.length ↔
        bs = [] ∧ canMergeFromBelow t a bs.getLast? as.head? ∧
          MeetsSecond none ({ a with top := t.top } :: as)) := by
  by_cases hc : canMergeFromBelow t a bs.getLast? as.head?
  · obtain ⟨d₁, hrun, hf⟩ := h.mergeFromAbove hc
    obtain ⟨d', skipped, rest, hrun', hm, hmeets⟩ :=
      tryMergingSecond_spec hf ((prefix_append bs [t]).trans hr)
    refine ⟨true, d₁, bs, d', skipped, rest, hrun, hrun', hm, ?_⟩
    rw [hmeets]
    constructor
    · rintro ⟨rfl, hmeets⟩
      exact ⟨rfl, hc, hmeets⟩
    · rintro ⟨rfl, -, hmeets⟩
      exact ⟨rfl, hmeets⟩
  · obtain ⟨d', skipped, rest, hrun', hm, -⟩ := tryMergingSecond_spec h hr
    refine ⟨false, d, bs ++ [t], d', skipped, rest, mergeFromAbove_neg h.read_first hc, ?_, hm, ?_⟩
    · simpa using hrun'
    · simp [hc]

theorem threeMerges_iff (hbs : bs ≠ []) : ThreeMerges (a :: as) (bs ++ [b]) ↔
    canMergeFromLeft a b ∧ ∃ t, bs = [t] ∧
      canMergeFromBelow t { a with left := b.left } none as.head? ∧
      MeetsSecond none ({ a with left := b.left, top := t.top } :: as) := by
  match as, bs with
  | a₁ :: a₂ :: as, [t] => simp [ThreeMerges, MeetsSecond]
  | [], [t] => simp [ThreeMerges, MeetsSecond]
  | [a₁], [t] => simp [ThreeMerges, MeetsSecond]
  | [], t :: t' :: bs => simp [ThreeMerges]
  | [a₁], t :: t' :: bs => simp [ThreeMerges]
  | a₁ :: a₂ :: as, t :: t' :: bs => simp [ThreeMerges]
  | _, [] => exact absurd rfl hbs

theorem tryMerging_spec (h : Front S e d (bs ++ [b]) [] (a :: as)) (hbs : bs ≠ [])
    (hr : bs ++ [b] <+: r.rects) (hn : r.numRects = bs.length + 1) :
    ∃ d' pre skipped rest, d.tryMerging r = .ok (d', pre.length, skipped.length) ∧
      Merged S e r d' pre skipped rest ∧
      (pre = [] ∧ skipped ≠ [] ∧ 2 ≤ rest.length ↔ ThreeMerges (a :: as) (bs ++ [b])) := by
  obtain ⟨bs', t, rfl⟩ : ∃ bs' t, bs = bs' ++ [t] :=
    ⟨bs.dropLast, bs.getLast hbs, (dropLast_concat_getLast hbs).symm⟩
  obtain ⟨stale, hstale⟩ := hr
  have hlen : (bs' ++ [t]).length = bs'.length + 1 := by simp
  have hlast : readAt r.rects (r.numRects - 1) = .ok b := by
    have hlist : r.rects = (bs' ++ [t]) ++ b :: stale := by rw [← hstale]; simp
    rw [hlist, show r.numRects - 1 = (bs' ++ [t]).length by omega, readAt_append]
  have hnext : readIf (r.numRects > 1) r.rects (r.numRects - 2) = .ok (some t) := by
    rw [← hstale, append_assoc, show r.numRects - 2 = (bs' ++ [t]).length - 1 by omega,
      readIf_last (by simp [hn]), getLast?_concat]
  have hlast' : readAt r.rects (r.numRects - 1 - 1) = .ok t := by
    have hlist : r.rects = bs' ++ t :: (b :: stale) := by rw [← hstale]; simp
    rw [hlist, show r.numRects - 1 - 1 = bs'.length by omega, readAt_append]
  have hnext' : readIf (r.numRects - 1 > 1) r.rects (r.numRects - 1 - 2) = .ok bs'.getLast? := by
    have hlist : r.rects = bs' ++ (t :: b :: stale) := by rw [← hstale]; simp
    rw [hlist, show r.numRects - 1 - 2 = bs'.length - 1 by omega,
      readIf_last (by rw [← length_pos_iff]; omega)]
  unfold tryMerging
  rw [h.readIf_next, ok_bind, hlast, ok_bind, hnext, ok_bind]
  by_cases hleft : canMergeFromLeft a b
  · obtain ⟨d₁, hrun, hf⟩ := h.mergeFromLeft hleft
    obtain ⟨merged, d₂, pre, d', skipped, rest, hrun₁, hrun₂, hm, hiff⟩ :=
      tryMergingWidened_spec (r := r) hf ⟨b :: stale, by rw [← hstale]; simp⟩
    refine ⟨d', pre, skipped, rest, ?_, hm, ?_⟩
    · rw [hrun, ok_bind]
      simp only [if_true, hlast', hnext', hrun₁, ok_bind]
      rw [← hrun₂, show r.numRects - 1 = bs'.length + 1 by omega]
    · rw [hiff, threeMerges_iff hbs]
      constructor
      · rintro ⟨rfl, hc, hmeets⟩
        exact ⟨hleft, t, rfl, hc, hmeets⟩
      · rintro ⟨-, t', ht', hc, hmeets⟩
        obtain ⟨rfl, rfl⟩ : bs' = [] ∧ t = t' := by
          have := congrArg List.length ht'
          have hnil : bs' = [] := eq_nil_of_length_eq_zero (by simpa using this)
          subst hnil
          exact ⟨rfl, by simpa using ht'⟩
        exact ⟨rfl, hc, hmeets⟩
  · have hthree : ¬ ThreeMerges (a :: as) (bs' ++ [t] ++ [b]) := by
      rw [threeMerges_iff hbs]
      exact fun h => hleft h.1
    rw [mergeFromLeft_neg h.read_first hleft, ok_bind]
    dsimp only
    rw [if_neg (by simp)]
    by_cases habove : canMergeFromBelow b a (bs' ++ [t]).getLast? as.head?
    · obtain ⟨d', hrun, hf⟩ := h.mergeFromAbove habove
      rw [getLast?_concat] at hrun
      refine ⟨d', bs' ++ [t], [], _, ?_,
        ⟨hf, ⟨b :: stale, ?_⟩, cons_ne_nil _ _, .inl rfl⟩, ?_⟩
      · rw [hrun, ok_bind]
        simp [hn]
      · rw [← hstale]
        simp
      · exact iff_of_false (fun h => h.2.1 rfl) hthree
    · rw [getLast?_concat] at habove
      refine ⟨d, bs' ++ [t] ++ [b], [], _, ?_,
        ⟨h, ⟨stale, hstale⟩, cons_ne_nil _ _, .inl rfl⟩, ?_⟩
      · rw [mergeFromAbove_neg h.read_first habove, ok_bind]
        simp [hn]
      · exact iff_of_false (fun h => h.2.1 rfl) hthree

theorem insertFront_nil (d r : QRegionPrivate) (numSkip : ℕ) : d.insertFront r 0 numSkip = .ok d :=
  rfl

theorem insertFront_spec {skipped rest : List QRect} (h : Front S e d pre skipped rest)
    (hpre : pre ≠ []) (hr : pre <+: r.rects) :
    ∃ d', d.insertFront r pre.length skipped.length = .ok d' ∧
      Front S e d' [] [] (pre ++ rest) := by
  obtain ⟨stale, hs⟩ := h.rects
  obtain ⟨stale', hs'⟩ := hr
  have hpos : pre.length > 0 := length_pos_iff.mpr hpre
  obtain ⟨room, hroom⟩ : ∃ room, room = d.rects ++
      List.replicate (d.numRects + pre.length - d.rects.length) (default : QRect) := ⟨_, rfl⟩
  have hlen : d.rects.length = skipped.length + rest.length + stale.length := by
    simp [hs, Nat.add_assoc]
  have hlong : room.length = max d.rects.length (rest.length + pre.length) := by
    rw [hroom, length_append, length_replicate, h.numRects]
    omega
  have htake : (room.drop skipped.length).take rest.length = rest := by
    rw [hroom, hs]
    simp
  have hmove : memmoveRects room pre.length skipped.length rest.length =
      .ok (room.take pre.length ++ rest ++ room.drop (pre.length + rest.length)) := by
    unfold memmoveRects
    rw [if_pos (by omega), htake]
  have htakeLen : (room.take pre.length).length = pre.length := by
    simp
    omega
  have hcopy : memcpyRects (room.take pre.length ++ rest ++ room.drop (pre.length + rest.length))
      r.rects pre.length = .ok (pre ++ (rest ++ room.drop (pre.length + rest.length))) := by
    unfold memcpyRects
    rw [if_pos (by simp only [← hs', length_append]; omega), ← hs', append_assoc,
      drop_left' htakeLen, take_left' rfl]
  refine ⟨{ d with
      rects := pre ++ (rest ++ room.drop (pre.length + rest.length))
      numRects := d.numRects + pre.length }, ?_,
    ⟨room.drop (pre.length + rest.length), ?_⟩, ?_, ?_, ?_, ?_, ?_⟩
  · unfold insertFront
    rw [if_pos hpos]
    dsimp only
    rw [← hroom, h.numRects, hmove, ok_bind, hcopy]
    rfl
  · simp
  · simp [h.numRects, Nat.add_comm]
  · simpa using h.canonical
  · simpa using h.points
  · exact ⟨h.inner.subset, h.inner.area⟩
  · exact h.extents

theorem Front.takeInnerRect {skipped rest : List QRect} (h : Front S e d pre skipped rest)
    (hr : r.InnerIn S) : Front S e (d.takeInnerRect r) pre skipped rest :=
  ⟨by simpa using h.rects, by simpa using h.numRects, h.canonical, h.points,
    h.inner.takeInnerRect hr, by simpa using h.extents⟩

/-- A rectangle that was merged into the next one is still in front of it: the region is not in
bands. -/
theorem not_valid_of_skipped {s m : QRect} {ms : List QRect} (h : Front S e d pre [s] (m :: ms))
    (hsm : ¬ s.Before m) (hms : ms ≠ []) (extents : QRect) :
    ¬ ({ d with extents } : QRegionPrivate).Valid := by
  intro hv
  obtain ⟨stale, hs⟩ := h.rects
  have hpos : 0 < ms.length := length_pos_iff.mpr hms
  have hn : d.numRects = ms.length + 1 := h.numRects
  have hlist : ({ d with extents } : QRegionPrivate).list =
      s :: m :: (ms ++ stale).take (ms.length - 1) := by
    have hcut : ms.length + 1 = ms.length - 1 + 1 + 1 := by omega
    unfold list
    rw [if_neg (by dsimp only; omega)]
    simp [hn, hs, hcut]
  have hsorted := hv.canonical.sorted
  rw [hlist] at hsorted
  exact hsm ((pairwise_cons.mp hsorted).1 m (by simp))

end Merging

theorem canPrepend_last {d r : QRegionPrivate} {bs stale : List QRect} {b : QRect}
    (hn : r.numRects = bs.length + 1) (h1 : r.numRects ≠ 1) (hr : r.rects = bs ++ b :: stale)
    (hc : d.canPrepend r = .ok true) : d.canPrependRect b = .ok true := by
  have hread : r.read (.rect (r.numRects - 1)) = .ok b := by
    rw [hn, Nat.add_sub_cancel, read, hr, readAt_append]
  unfold canPrepend at hc
  rwa [if_neg h1, hread, ok_bind] at hc

theorem prepend_several {d r : QRegionPrivate} (hd : d.Valid) (hr : r.Valid)
    (h1 : r.numRects ≠ 1) (hc : d.canPrepend r = .ok true) :
    (∃ d', d.prepend r = .ok d' ∧ d'.Valid ∧ d'.points = d.points ∪ r.points) ↔
      ¬ ThreeMerges d.list r.list := by
  obtain ⟨b₀, b₁, bs₀, stale, hs, hn, hl⟩ := hr.exists_rects h1
  obtain ⟨bs, b, hbs, hlist⟩ : ∃ bs b, bs ≠ [] ∧ b₀ :: b₁ :: bs₀ = bs ++ [b] :=
    ⟨_, _, by simp, (dropLast_concat_getLast (cons_ne_nil _ _)).symm⟩
  have hlen := congrArg List.length hlist
  simp only [length_cons, length_append, length_nil] at hlen
  rw [hlist] at hs hl
  obtain ⟨a, as, hla, -⟩ := hd.read_first
  have hlast : r.rects = bs ++ b :: stale := by simpa using hs
  have hbefore := (before_of_canPrependRect hd hla (canPrepend_last (by omega) h1 hlast hc)).2
  have hcan : Canonical (r.list ++ d.list) := by
    rw [hl, hla, append_assoc]
    exact Canonical.append (hl ▸ hr.canonical) (hla ▸ hd.canonical) hbefore
  have hf := front_vectorize hd hcan
  have hS : d.points ∪ pointsOf r.list = d.points ∪ r.points := rfl
  rw [hS, hl, hla] at hf
  have hbox : IsBoundingBox (d.extents.united r.extents) (d.points ∪ r.points) :=
    hd.extents.union hr.extents
  have hin : r.InnerIn (d.points ∪ r.points) := hr.innerIn.mono Set.subset_union_right
  obtain ⟨d₁, pre, skipped, rest, hrun, hm, hiff⟩ :=
    tryMerging_spec hf hbs ⟨stale, hs.symm⟩ (by omega)
  have hprepend : d.prepend r = do
      let d ← d₁.insertFront r pre.length skipped.length
      let d := d.takeInnerRect r
      return { d with extents := d.extents.united r.extents } := by
    unfold prepend
    rw [qAssert_pos (by have := hr.pos; omega), ok_bind, if_neg h1, hrun, ok_bind]
  rw [hl, hla, ← hiff, hprepend]
  by_cases hpre : pre = []
  · subst hpre
    rw [length_nil, insertFront_nil, ok_bind]
    have hf₁ := hm.front.takeInnerRect hin
    rcases hm.skipped_inside with rfl | ⟨s, m, ms, rfl, rfl, hsm⟩
    · obtain ⟨hv, hp⟩ := hf₁.valid (fun _ => rfl) hm.rest_ne hbox
      exact iff_of_true ⟨_, rfl, hv, hp⟩ fun h => h.2.1 rfl
    · by_cases hms : ms = []
      · subst hms
        obtain ⟨hv, hp⟩ := hf₁.valid (fun h => absurd rfl h) hm.rest_ne hbox
        exact iff_of_true ⟨_, rfl, hv, hp⟩ fun h => by simpa using h.2.2
      · have hpos : 0 < ms.length := length_pos_iff.mpr hms
        refine iff_of_false ?_ (not_not.mpr ⟨rfl, by simp, by rw [length_cons]; omega⟩)
        rintro ⟨d', hd', hv, -⟩
        obtain rfl := Except.ok.inj hd'
        exact not_valid_of_skipped hf₁ hsm hms _ hv
  · obtain ⟨d₂, hrun₂, hf₂⟩ := insertFront_spec hm.front hpre hm.pre_prefix
    obtain ⟨hv, hp⟩ := (hf₂.takeInnerRect hin).valid (fun _ => rfl) (by simp [hpre]) hbox
    rw [hrun₂, ok_bind]
    exact iff_of_true ⟨_, rfl, hv, hp⟩ fun h => hpre h.1
theorem prepend_region {d r : QRegionPrivate} (hd : d.Valid) (hr : r.Valid)
    (hc : d.canPrepend r = .ok true) :
    (∃ d', d.prepend r = .ok d' ∧ d'.Valid ∧ d'.points = d.points ∪ r.points) ↔
      ¬ ThreeMerges d.list r.list := by
  by_cases h1 : r.numRects = 1
  · have hl := Valid.list_eq h1
    have hpts : r.points = r.extents.points := by simp [points, hl]
    have hcan : d.canPrependRect r.extents = .ok true := by
      unfold canPrepend at hc
      rwa [if_pos h1, read, ok_bind] at hc
    obtain ⟨d', hrun, hv, hp⟩ := prependRect_union hd hcan
    refine iff_of_true ⟨d', ?_, hv, hpts ▸ hp⟩ (by rw [hl]; simp [ThreeMerges])
    unfold prepend
    rw [qAssert_pos (by omega), ok_bind, if_pos h1, hrun]
  · exact prepend_several hd hr h1 hc

/-- What may be prepended is united with the region, and the region stays in bands, unless three
merges use up a region of two rectangles and the region it is put before has more than two. -/
theorem prepend_union_iff {d : QRegionPrivate} (hd : d.Valid) :
    (∀ r : QRect, d.canPrependRect r = .ok true →
      ∃ d', d.prependRect r = .ok d' ∧ d'.Valid ∧ d'.points = d.points ∪ r.points) ∧
    ∀ r : QRegionPrivate, r.Valid → d.canPrepend r = .ok true →
      ((∃ d', d.prepend r = .ok d' ∧ d'.Valid ∧ d'.points = d.points ∪ r.points) ↔
        ¬ ThreeMerges d.list r.list) :=
  ⟨fun _ hc => prependRect_union hd hc, fun _ hr hc => prepend_region hd hr hc⟩

theorem Valid.prependRect {d d' : QRegionPrivate} {r : QRect} (h : d.Valid)
    (hc : d.canPrependRect r = .ok true) (hrun : d.prependRect r = .ok d') : d'.Valid := by
  obtain ⟨d₁, hrun₁, hv, -⟩ := prependRect_union h hc
  obtain rfl : d₁ = d' := Except.ok.inj (hrun₁.symm.trans hrun)
  exact hv

section Examples

/-- A column of two steps. -/
def steps : QRegionPrivate := ⟨2, 50, [⟨0, 0, 9, 4⟩, ⟨0, 5, 4, 9⟩], ⟨0, 0, 9, 9⟩, ⟨0, 0, 9, 4⟩⟩

/-- A notch that `steps` fills, and the bands below it. -/
def bands : QRegionPrivate :=
  ⟨3, 50, [⟨5, 5, 9, 9⟩, ⟨0, 10, 9, 14⟩, ⟨0, 20, 3, 24⟩], ⟨0, 5, 9, 24⟩, ⟨0, 10, 9, 14⟩⟩

theorem valid_steps : steps.Valid :=
  (valid_ofRect (r := ⟨0, 5, 4, 9⟩) (by decide)).prependRect (r := ⟨0, 0, 9, 4⟩) (by decide)
    (by decide)

theorem valid_bands : bands.Valid := by
  have h₁ : (⟨2, 50, [⟨0, 10, 9, 14⟩, ⟨0, 20, 3, 24⟩], ⟨0, 10, 9, 24⟩, ⟨0, 10, 9, 14⟩⟩ :
      QRegionPrivate).Valid :=
    (valid_ofRect (r := ⟨0, 20, 3, 24⟩) (by decide)).prependRect (r := ⟨0, 10, 9, 14⟩) (by decide)
      (by decide)
  exact h₁.prependRect (r := ⟨5, 5, 9, 9⟩) (by decide) (by decide)

end Examples

/-- The region above the notch is left with its two bands. -/
theorem prepend_union_iff_notch :
    (∃ d', (ofRect ⟨5, 5, 9, 9⟩).prepend steps = .ok d' ∧ d'.Valid ∧
      d'.points = (ofRect ⟨5, 5, 9, 9⟩).points ∪ steps.points) :=
  ((prepend_union_iff (valid_ofRect (r := ⟨5, 5, 9, 9⟩) (by decide))).2 steps valid_steps
    (by decide)).mpr (by simp [ThreeMerges, list, ofRect])

/-- `steps` fills the notch: what was the last band is no longer in the region. -/
theorem prepend_loses_band : bands.Valid ∧ steps.Valid ∧ bands.canPrepend steps = .ok true ∧
    ∃ d', bands.prepend steps = .ok d' ∧ d'.list = [⟨0, 0, 9, 9⟩, ⟨0, 0, 9, 14⟩] ∧
      ¬ Canonical d'.list ∧ (0, 20) ∈ bands.points ∧ (0, 20) ∉ d'.points := by
  refine ⟨valid_bands, valid_steps, by decide, ⟨2, 150, [⟨0, 0, 9, 9⟩, ⟨0, 0, 9, 14⟩,
    ⟨0, 20, 3, 24⟩], ⟨0, 0, 9, 24⟩, ⟨0, 0, 9, 14⟩⟩, by decide, rfl, ?_, ?_, ?_⟩
  · intro h
    have hbefore : Before ⟨0, 0, 9, 9⟩ ⟨0, 0, 9, 14⟩ :=
      (pairwise_cons.mp h.sorted).1 _ (by simp)
    simp [Before] at hbefore
  · simp [points, list, bands, mem_points]
  · simp [points, list, mem_points]

end QtBase.QRegionPrivate
