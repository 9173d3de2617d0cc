import QtBase.Gui.RegionPrepend

/-! What the merges of `QRegionPrivate::prepend` keep, and what it comes to. -/
namespace QtBase.QRegionPrivate

open QRect List

/-- During `prepend` the region holds `rest` after the `skipped` ones, and `pre` is yet to be put
before `rest`. Together they are the points `S`. -/
structure Front (S : Set (ℤ × ℤ)) (e : QRect) (d : QRegionPrivate)
    (pre skipped rest : List QRect) : Prop where
  rects : ∃ stale, d.rects = skipped ++ rest ++ stale
  numRects : d.numRects = rest.length
  canonical : Canonical (pre ++ rest)
  points : pointsOf (pre ++ rest) = S
  inner : d.InnerIn S
  extents : d.extents = e

variable {r : QRect}

namespace Front

variable {S : Set (ℤ × ℤ)} {e : QRect} {d : QRegionPrivate} {pre as : List QRect} {t a b : QRect}

theorem read_first (h : Front S e d pre [] (a :: as)) : d.read (.rect 0) = .ok a := by
  obtain ⟨stale, hs⟩ := h.rects
  simp [read, readAt, hs]

theorem read_second (h : Front S e d pre [] (t :: a :: as)) : d.read (.rect 1) = .ok a := by
  obtain ⟨stale, hs⟩ := h.rects
  simp [read, readAt, hs]

theorem mergeFromLeft (h : Front S e d (pre ++ [b]) [] (a :: as)) (hc : canMergeFromLeft a b) :
    ∃ d', d.mergeFromLeft (.rect 0) b = .ok (true, d') ∧
      Front S e d' pre [] ({ a with left := b.left } :: as) := by
  obtain ⟨stale, hs⟩ := h.rects
  have hcan : Canonical (pre ++ b :: a :: as) := by simpa using h.canonical
  have hpts : pointsOf (pre ++ { a with left := b.left } :: as) = S := by
    rw [hcan.points_joinColumns hc.1.symm hc.2.1.symm hc.2.2, ← h.points]
    simp
  refine ⟨_, mergeFromLeft_pos h.read_first hc, ⟨stale, ?_⟩, ?_,
    hcan.joinColumns hc.1.symm hc.2.1.symm, hpts, ?_, ?_⟩
  · simp [write, hs]
  · simpa [write] using h.numRects
  · exact InnerIn.updateInnerRect (d := d.write _ _) ⟨h.inner.subset, h.inner.area⟩
      (hpts ▸ subset_pointsOf (by simp))
  · simpa [write] using h.extents

theorem joinRows (h : Canonical (pre ++ t :: a :: as))
    (hc : canMergeFromBelow t a pre.getLast? as.head?) :
    Canonical (pre ++ { a with top := t.top } :: as) ∧
      pointsOf (pre ++ { a with top := t.top } :: as) = pointsOf (pre ++ t :: a :: as) := by
  obtain ⟨hpre, hpost, htouch, hleft, hright⟩ := hc
  exact ⟨h.joinRows hleft hright hpre hpost, h.points_joinRows hleft hright (by omega)⟩

theorem mergeFromAbove (h : Front S e d (pre ++ [t]) [] (a :: as))
    (hc : canMergeFromBelow t a pre.getLast? as.head?) :
    ∃ d', d.mergeFromAbove (.rect 0) t as.head? pre.getLast? = .ok (true, d') ∧
      Front S e d' pre [] ({ a with top := t.top } :: as) := by
  obtain ⟨stale, hs⟩ := h.rects
  have hlist : pre ++ t :: a :: as = pre ++ [t] ++ a :: as := by simp
  obtain ⟨hcan, hpts⟩ := joinRows (hlist ▸ h.canonical) hc
  rw [hlist, h.points] at hpts
  refine ⟨_, mergeFromAbove_pos h.read_first hc, ⟨stale, ?_⟩, ?_, hcan, hpts, ?_, ?_⟩
  · simp [write, hs]
  · simpa [write] using h.numRects
  · exact InnerIn.updateInnerRect (d := d.write _ _) ⟨h.inner.subset, h.inner.area⟩
      (hpts ▸ subset_pointsOf (by simp))
  · simpa [write] using h.extents

theorem mergeSecond (h : Front S e d pre [] (t :: a :: as))
    (hc : canMergeFromBelow t a pre.getLast? as.head?) :
    ∃ d', d.mergeFromAbove (.rect 1) t as.head? pre.getLast? = .ok (true, d') ∧
      Front S e { d' with numRects := d'.numRects - 1 } pre [t]
        ({ a with top := t.top } :: as) := by
  obtain ⟨stale, hs⟩ := h.rects
  obtain ⟨hcan, hpts⟩ := joinRows h.canonical hc
  rw [h.points] at hpts
  refine ⟨_, mergeFromAbove_pos h.read_second hc, ⟨stale, ?_⟩, ?_, hcan, hpts, ?_, ?_⟩
  · simp [write, hs]
  · simp [write, h.numRects]
  · have hsub : QRect.points { a with top := t.top } ⊆ S := hpts ▸ subset_pointsOf (by simp)
    have hin := InnerIn.updateInnerRect (d := d.write (.rect 1) { a with top := t.top })
      ⟨h.inner.subset, h.inner.area⟩ hsub
    exact ⟨hin.subset, hin.area⟩
  · simpa [write] using h.extents

theorem readIf_next (h : Front S e d pre [] (t :: as)) :
    readIf (d.numRects > 1) d.rects 1 = .ok as.head? := by
  obtain ⟨stale, hs⟩ := h.rects
  have hlist : d.rects = [t] ++ (as ++ stale) := by simpa using hs
  rw [hlist]
  exact readIf_head (by cases as <;> simp [h.numRects])

theorem readIf_next_next (h : Front S e d pre [] (t :: a :: as)) :
    readIf (d.numRects > 2) d.rects 2 = .ok as.head? := by
  obtain ⟨stale, hs⟩ := h.rects
  have hlist : d.rects = [t, a] ++ (as ++ stale) := by simpa using hs
  rw [hlist]
  exact readIf_head (by cases as <;> simp [h.numRects])

/-- `extents` is drawn around what was put before the region, and the region is whole again. -/
theorem valid {skipped rest : List QRect} (h : Front S e d [] skipped rest)
    (hskip : rest.length ≠ 1 → skipped = []) (hne : rest ≠ [])
    (hbox : IsBoundingBox (e.united r) S) :
    ({ d with extents := d.extents.united r } : QRegionPrivate).Valid ∧
      ({ d with extents := d.extents.united r } : QRegionPrivate).points = S := by
  obtain ⟨stale, hs⟩ := h.rects
  have hpts : pointsOf rest = S := by simpa using h.points
  have hcan : Canonical rest := by simpa using h.canonical
  obtain ⟨hv, hp⟩ := valid_of_rects (d := { d with extents := d.extents.united r }) hcan hne
    h.numRects (fun h1 => ⟨stale, by simpa [hskip h1] using hs⟩)
    (by rw [hpts, h.extents]; exact hbox) (by rw [hpts]; exact ⟨h.inner.subset, h.inner.area⟩)
  exact ⟨hv, hp.trans hpts⟩

end Front

theorem valid_ofRect (h : ¬ r.isEmpty) : (ofRect r).Valid := by
  have hpts : (ofRect r).points = r.points := by simp [points, list, ofRect]
  refine ⟨le_rfl, fun h1 => absurd rfl h1, .singleton h, ?_, ?_, rfl⟩
  · rw [hpts]
    exact .of_rect h
  · rw [hpts]
    exact Set.Subset.rfl

theorem Valid.exists_rects {d : QRegionPrivate} (h : d.Valid) (h1 : d.numRects ≠ 1) :
    ∃ a b as stale, d.rects = a :: b :: as ++ stale ∧ d.numRects = as.length + 2 ∧
      d.list = a :: b :: as := by
  have hpos := h.pos
  have hsize := h.size h1
  have hlist : d.list = d.rects.take d.numRects := by rw [list, if_neg h1]
  have hlen : d.list.length = d.numRects := by rw [hlist, length_take]; omega
  match hl : d.list with
  | [] => rw [hl, length_nil] at hlen; omega
  | [a] => rw [hl, length_singleton] at hlen; omega
  | a :: b :: as =>
    rw [hl, length_cons, length_cons] at hlen
    refine ⟨a, b, as, d.rects.drop d.numRects, ?_, hlen.symm, rfl⟩
    rw [← hl, hlist, take_append_drop]

theorem Valid.list_eq {d : QRegionPrivate} (h1 : d.numRects = 1) : d.list = [d.extents] := by
  rw [list, if_pos h1]

theorem Valid.read_first {d : QRegionPrivate} (h : d.Valid) :
    ∃ a as, d.list = a :: as ∧ d.read (if d.numRects = 1 then .extents else .rect 0) = .ok a := by
  by_cases h1 : d.numRects = 1
  · exact ⟨_, _, Valid.list_eq h1, by rw [if_pos h1]; rfl⟩
  · obtain ⟨a, b, as, stale, hs, -, hl⟩ := h.exists_rects h1
    exact ⟨a, b :: as, hl, by rw [if_neg h1]; simp [read, readAt, hs]⟩

theorem before_of_canPrependRect {d : QRegionPrivate} {a : QRect} {as : List QRect} (h : d.Valid)
    (hl : d.list = a :: as) (hc : d.canPrependRect r = .ok true) :
    ¬ r.isEmpty ∧ r.Before a := by
  unfold canPrependRect at hc
  obtain ⟨⟨⟩, hr, hc⟩ := bind_eq_ok hc
  have hr : ¬ r.isEmpty := by
    by_contra hr'
    rw [qAssert_neg (not_not.mpr hr')] at hr
    cases hr
  obtain ⟨a', as', hl', hread⟩ := h.read_first
  obtain ⟨rfl, rfl⟩ : a' = a ∧ as' = as := by simpa using hl'.symm.trans hl
  rw [hread, ok_bind] at hc
  refine ⟨hr, ?_⟩
  unfold Before height at *
  by_cases h₁ : r.bottom < a'.top
  · exact .inr h₁
  · rw [if_neg h₁] at hc
    by_cases h₂ : r.top = a'.top ∧ r.bottom - r.top + 1 = a'.bottom - a'.top + 1 ∧ r.right < a'.left
    · omega
    · rw [if_neg h₂] at hc
      cases hc

/-- Once the rectangles are kept in `rects`, a list that goes before them can be put there. -/
theorem front_vectorize {d : QRegionPrivate} {pre : List QRect} (h : d.Valid)
    (hcan : Canonical (pre ++ d.list)) :
    Front (d.points ∪ pointsOf pre) d.extents d.vectorize pre [] d.list := by
  have hpts : pointsOf (pre ++ d.list) = d.points ∪ pointsOf pre := by
    rw [pointsOf_append, Set.union_comm]
    rfl
  have hin := h.innerIn.mono (T := d.points ∪ pointsOf pre) Set.subset_union_left
  by_cases h1 : d.numRects = 1
  · rw [Valid.list_eq h1] at hcan hpts ⊢
    refine ⟨?_, ?_, hcan, hpts, ?_, ?_⟩
    · cases hr : d.rects <;> simp [vectorize, h1, hr]
    · simp [vectorize, h1]
    · rw [vectorize, if_pos h1]
      exact ⟨hin.subset, hin.area⟩
    · simp [vectorize, h1]
  · have hv : d.vectorize = d := if_neg h1
    obtain ⟨a, b, as, stale, hs, hn, hl⟩ := h.exists_rects h1
    rw [hl] at hcan hpts ⊢
    rw [hv]
    exact ⟨⟨stale, hs⟩, hn, hcan, hpts, hin, rfl⟩

theorem prependNew_spec {d : QRegionPrivate} (h : d.Valid) (hcan : Canonical (r :: d.list))
    (hbox : IsBoundingBox (d.extents.united r) (d.points ∪ r.points)) :
    ({ d.prependNew r with extents := (d.prependNew r).extents.united r } : QRegionPrivate).Valid ∧
      ({ d.prependNew r with extents := (d.prependNew r).extents.united r } :
        QRegionPrivate).points = d.points ∪ r.points := by
  have hf := @front_vectorize d [r] h hcan
  rw [show pointsOf [r] = r.points by simp] at hf
  obtain ⟨stale, hs⟩ := hf.rects
  have hpts := hf.points
  rw [singleton_append] at hpts
  have hin := InnerIn.updateInnerRect
    (d := { d.vectorize with numRects := d.vectorize.numRects + 1 })
    ⟨hf.inner.subset, hf.inner.area⟩ (Set.subset_union_right (s := d.points) (t := r.points))
  obtain ⟨hv, hp⟩ := valid_of_rects
    (d := { d.prependNew r with extents := (d.prependNew r).extents.united r }) hcan (by simp)
    (by simp [prependNew, hf.numRects]) (fun _ => ⟨stale, by simp [prependNew, hs]⟩)
    (by rw [hpts]; simpa [prependNew, hf.extents] using hbox)
    (by rw [hpts]; exact ⟨hin.subset, hin.area⟩)
  exact ⟨hv, hp.trans hpts⟩

theorem valid_mergedOne {d : QRegionPrivate} {e : QRect} (h : d.Valid) (h1 : d.numRects = 1)
    (hr : ¬ r.isEmpty) (hcan : Canonical [e]) (hpts : pointsOf [e] = d.points ∪ r.points)
    (hunited : e.united r = d.extents.united r) :
    ({ ({ d with extents := e } : QRegionPrivate).updateInnerRect e with
        extents := e.united r } : QRegionPrivate).Valid ∧
      ({ ({ d with extents := e } : QRegionPrivate).updateInnerRect e with
        extents := e.united r } : QRegionPrivate).points = d.points ∪ r.points := by
  have hbox : IsBoundingBox (d.extents.united r) (d.points ∪ r.points) :=
    h.extents.union (.of_rect hr)
  have hsub : e.points ⊆ d.points ∪ r.points := hpts ▸ subset_pointsOf (by simp)
  have hin := InnerIn.updateInnerRect (d := { d with extents := e })
    ⟨h.innerIn.subset.trans (Set.subset_union_left (t := r.points)), h.innerArea⟩ hsub
  obtain ⟨hv, hp⟩ := valid_of_rects
    (d := { ({ d with extents := e } : QRegionPrivate).updateInnerRect e with
      extents := e.united r }) hcan (cons_ne_nil _ _) (by simp [h1])
    (fun hne => absurd rfl hne) (by rw [hpts]; exact hunited ▸ hbox)
    (by rw [hpts]; exact ⟨hin.subset, hin.area⟩)
  exact ⟨hv, hp.trans hpts⟩

theorem prependRect_one {d : QRegionPrivate} (h : d.Valid) (h1 : d.numRects = 1) (hr : ¬ r.isEmpty)
    (hbefore : r.Before d.extents) :
    ∃ d', d.prependRect r = .ok d' ∧ d'.Valid ∧ d'.points = d.points ∪ r.points := by
  have hl := Valid.list_eq h1
  have hcan : Canonical ([] ++ r :: d.extents :: []) :=
    Canonical.cons_iff.2 ⟨hr, hl ▸ h.canonical, by simpa using hbefore⟩
  have hpts : d.points = d.extents.points := by simp [points, hl]
  have hS : pointsOf ([] ++ r :: d.extents :: []) = d.points ∪ r.points := by
    simp [hpts, Set.union_comm]
  have hbox : IsBoundingBox (d.extents.united r) (d.points ∪ r.points) :=
    h.extents.union (.of_rect hr)
  have hread : d.read .extents = .ok d.extents := rfl
  by_cases hleft : canMergeFromLeft d.extents r
  · have hle : r.left ≤ d.extents.left := by
      rw [not_isEmpty] at hr
      unfold canMergeFromLeft canMergeFromRight at hleft
      unfold Before at hbefore
      omega
    refine ⟨_, ?_, valid_mergedOne (e := { d.extents with left := r.left }) h h1 hr
      (hcan.joinColumns hleft.1.symm hleft.2.1.symm)
      ((hcan.points_joinColumns hleft.1.symm hleft.2.1.symm hleft.2.2).trans hS)
      (by simp [united, hle])⟩
    simp [prependRect, hr, h1, mergeFromLeft_pos hread hleft, prependWidened, write]
  · have hnext : readIf (d.numRects > 1) d.rects 1 = .ok none := if_neg (by omega)
    by_cases habove : canMergeFromBelow r d.extents none none
    · have hle : r.top ≤ d.extents.top := by
        rw [not_isEmpty] at hr
        unfold Before at hbefore
        omega
      obtain ⟨hcan', hpts'⟩ := Front.joinRows hcan habove
      have hrun : d.prependAbove .extents r = .ok
          (({ d with extents := { d.extents with top := r.top } } : QRegionPrivate).updateInnerRect
            { d.extents with top := r.top }) := by
        unfold prependAbove
        rw [hnext, ok_bind, mergeFromAbove_pos hread habove]
        rfl
      refine ⟨_, ?_, valid_mergedOne (e := { d.extents with top := r.top }) h h1 hr hcan'
        (hpts'.trans hS) (by simp [united, hle])⟩
      simp [prependRect, hr, h1, mergeFromLeft_neg hread hleft, hrun]
    · have hrun : d.prependAbove .extents r = .ok (d.prependNew r) := by
        unfold prependAbove
        rw [hnext, ok_bind, mergeFromAbove_neg hread habove]
        rfl
      obtain ⟨hv, hp⟩ := prependNew_spec h (hl ▸ hcan) hbox
      refine ⟨_, ?_, hv, hp⟩
      simp [prependRect, hr, h1, mergeFromLeft_neg hread hleft, hrun]

theorem prependWidened_spec {S : Set (ℤ × ℤ)} {e : QRect} {d : QRegionPrivate} {a b : QRect}
    {as : List QRect} (h : Front S e d [] [] (a :: b :: as)) :
    ∃ d' rest, d.prependWidened (.rect 0) = .ok d' ∧ rest ≠ [] ∧ Front S e d' [] [] rest := by
  have hn : d.numRects > 1 := by simp [h.numRects]
  unfold prependWidened
  rw [if_pos hn, h.read_first, ok_bind, h.readIf_next_next, ok_bind]
  by_cases hc : canMergeFromBelow a b none as.head?
  · obtain ⟨d', hrun, hf⟩ := h.mergeSecond hc
    obtain ⟨stale, hs⟩ := hf.rects
    have hlen : d'.numRects - 1 = as.length + 1 := hf.numRects
    have hmove : memmoveRects d'.rects 0 1 (d'.numRects - 1) =
        .ok ({ b with top := a.top } :: as ++ d'.rects.drop (0 + (d'.numRects - 1))) := by
      have hs : d'.rects = a :: ({ b with top := a.top } :: as ++ stale) := by simpa using hs
      unfold memmoveRects
      rw [if_pos (by simp [hs, hlen]; omega), hlen]
      simp [hs]
    rw [List.getLast?_nil] at hrun
    rw [hrun, ok_bind]
    simp only [if_true, hmove, ok_bind]
    exact ⟨_, _, rfl, cons_ne_nil _ _, ⟨_, rfl⟩, hf.numRects, hf.canonical, hf.points,
      ⟨hf.inner.subset, hf.inner.area⟩, hf.extents⟩
  · rw [mergeFromAbove_neg h.read_second hc]
    exact ⟨d, _, rfl, cons_ne_nil _ _, h⟩

theorem prependRect_several {d : QRegionPrivate} {a : QRect} {as : List QRect} (h : d.Valid)
    (h1 : d.numRects ≠ 1) (hr : ¬ r.isEmpty) (hl : d.list = a :: as) (hbefore : r.Before a) :
    ∃ d', d.prependRect r = .ok d' ∧ d'.Valid ∧ d'.points = d.points ∪ r.points := by
  obtain ⟨a', b, as', stale, hs, hn, hl'⟩ := h.exists_rects h1
  obtain ⟨rfl, -⟩ : a' = a ∧ b :: as' = as := by simpa using hl'.symm.trans hl
  have hcan : Canonical (r :: d.list) := by
    rw [hl']
    exact @Canonical.append [] (b :: as') r a' (.singleton hr) (hl' ▸ h.canonical) hbefore
  have hbox : IsBoundingBox (d.extents.united r) (d.points ∪ r.points) :=
    h.extents.union (.of_rect hr)
  have hf : Front (d.points ∪ r.points) d.extents d ([] ++ [r]) [] (a' :: b :: as') := by
    have := @front_vectorize d [r] h hcan
    rwa [show d.vectorize = d from if_neg h1, hl', show pointsOf [r] = r.points by simp] at this
  by_cases hleft : canMergeFromLeft a' r
  · obtain ⟨d₁, hrun₁, hf₁⟩ := hf.mergeFromLeft hleft
    obtain ⟨d₂, rest, hrun₂, hne, hf₂⟩ := prependWidened_spec hf₁
    obtain ⟨hv, hp⟩ := hf₂.valid (fun _ => rfl) hne hbox
    refine ⟨_, ?_, hv, hp⟩
    simp [prependRect, hr, h1, hrun₁, hrun₂]
  · have hrun₁ := mergeFromLeft_neg hf.read_first hleft
    by_cases habove : canMergeFromBelow r a' none (some b)
    · obtain ⟨d₂, hrun, hf₂⟩ := hf.mergeFromAbove habove
      have hrun₂ : d.prependAbove (.rect 0) r = .ok d₂ := by
        unfold prependAbove
        rw [hf.readIf_next, ok_bind]
        exact congrArg (· >>= fun x => .ok (if x.1 then x.2 else x.2.prependNew r)) hrun
      obtain ⟨hv, hp⟩ := hf₂.valid (fun _ => rfl) (cons_ne_nil _ _) hbox
      refine ⟨_, ?_, hv, hp⟩
      simp [prependRect, hr, h1, hrun₁, hrun₂]
    · have hrun₂ : d.prependAbove (.rect 0) r = .ok (d.prependNew r) := by
        unfold prependAbove
        rw [hf.readIf_next, ok_bind, List.head?_cons, mergeFromAbove_neg hf.read_first habove]
        rfl
      obtain ⟨hv, hp⟩ := prependNew_spec h hcan hbox
      refine ⟨_, ?_, hv, hp⟩
      simp [prependRect, hr, h1, hrun₁, hrun₂]

theorem prependRect_union {d : QRegionPrivate} (h : d.Valid) (hc : d.canPrependRect r = .ok true) :
    ∃ d', d.prependRect r = .ok d' ∧ d'.Valid ∧ d'.points = d.points ∪ r.points := by
  obtain ⟨a, as, hl, -⟩ := h.read_first
  obtain ⟨hr, hbefore⟩ := before_of_canPrependRect h hl hc
  by_cases h1 : d.numRects = 1
  · obtain ⟨rfl, rfl⟩ : d.extents = a ∧ [] = as := by simpa using (Valid.list_eq h1).symm.trans hl
    exact prependRect_one h h1 hr hbefore
  · exact prependRect_several h h1 hr hl hbefore

end QtBase.QRegionPrivate
