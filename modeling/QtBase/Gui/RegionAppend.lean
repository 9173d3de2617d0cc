import QtBase.Gui.RegionMerge

/-! `QRegionPrivate::append`: a rectangle or a region is put behind a region. -/
namespace QtBase.QRegionPrivate

open QRect List

/-- `r->rects`, without what the storage has behind the last rectangle. -/
def source (r : QRegionPrivate) : List QRect := r.rects.take r.numRects

def mergeFromRight (d : QRegionPrivate) (left : Place) (right : QRect) :
    Exec (Bool × QRegionPrivate) := do
  let l ← d.read left
  if canMergeFromRight l right then
    let l := { l with right := right.right }
    return (true, (d.write left l).updateInnerRect l)
  else return (false, d)

def mergeFromBelow (d : QRegionPrivate) (top : Place) (bottom : QRect)
    (nextToTop nextToBottom : Option QRect) : Exec (Bool × QRegionPrivate) := do
  let t ← d.read top
  if canMergeFromBelow t bottom nextToTop nextToBottom then
    let t := { t with bottom := bottom.bottom }
    return (true, (d.write top t).updateInnerRect t)
  else return (false, d)

/-- The part of `append(const QRect *)` where `r` is not merged with the last rectangle. -/
def appendNew (d : QRegionPrivate) (r : QRect) : QRegionPrivate :=
  let d := d.vectorize
  let d := { d with numRects := d.numRects + 1 }
  let d := d.updateInnerRect r
  let rects := d.rects ++ List.replicate (d.numRects - d.rects.length) default
  { d with rects := rects.set (d.numRects - 1) r }

/-- The last two rectangles are merged, if `nextToBottom` is not in the way. -/
def mergeLastTwo (d : QRegionPrivate) (myLast : Place) (nextToBottom : Option QRect) :
    Exec QRegionPrivate := do
  let last ← d.read myLast
  let nextToTop ← readIf (d.numRects > 2) d.rects (d.numRects - 3)
  let (merged, d) ← d.mergeFromBelow (.rect (d.numRects - 2)) last nextToTop nextToBottom
  return if merged then { d with numRects := d.numRects - 1 } else d

/-- The part of `append(const QRect *)` where it was not widened to the right. -/
def appendBelow (d : QRegionPrivate) (myLast : Place) (r : QRect) : Exec QRegionPrivate := do
  let nextToLast ← readIf (d.numRects > 1) d.rects (d.numRects - 2)
  let (merged, d) ← d.mergeFromBelow myLast r nextToLast none
  return if merged then d else d.appendNew r

/-- `append(const QRect *)` -/
def appendRect (d : QRegionPrivate) (r : QRect) : Exec QRegionPrivate := do
  qAssert (¬ r.isEmpty)
  let myLast := if d.numRects = 1 then Place.extents else .rect (d.numRects - 1)
  let (merged, d) ← d.mergeFromRight myLast r
  let d ←
    if merged then if d.numRects > 1 then d.mergeLastTwo myLast none else pure d
    else d.appendBelow myLast r
  return { d with extents := d.extents.united r }

/-- The part of `// try merging` where the last two rectangles are merged. The `numAppend`
rectangles that are left of `r` are its last ones, here and below. -/
def tryMergingLastTwo (d r : QRegionPrivate) (numAppend : ℕ) : Exec (QRegionPrivate × ℕ) :=
  if d.numRects > 1 then do
    let rNextToFirst ← readIf (numAppend > 0) r.source (r.numRects - numAppend)
    return (← d.mergeLastTwo (.rect (d.numRects - 1)) rNextToFirst, numAppend)
  else return (d, numAppend)

/-- The part of `// try merging` where the last rectangle was widened by the first one of `r`. -/
def tryMergingRight (d r : QRegionPrivate) (nextToLast : Option QRect) :
    Exec (QRegionPrivate × ℕ) := do
  let numAppend := r.numRects - 1
  let rNextToFirst ← readIf (numAppend > 1) r.source 2
  let rSecond ← readAt r.source 1
  let (merged, d) ← d.mergeFromBelow (.rect (d.numRects - 1)) rSecond nextToLast rNextToFirst
  d.tryMergingLastTwo r (if merged then numAppend - 1 else numAppend)

/-- The block `// try merging` of `append(const QRegionPrivate *)`. -/
def tryMergingLast (d r : QRegionPrivate) : Exec (QRegionPrivate × ℕ) := do
  let rFirst ← readAt r.source 0
  let nextToLast ← readIf (d.numRects > 1) d.rects (d.numRects - 2)
  let (merged, d) ← d.mergeFromRight (.rect (d.numRects - 1)) rFirst
  if merged then d.tryMergingRight r nextToLast
  else
    let rSecond ← readAt r.source 1
    let (merged, d) ← d.mergeFromBelow (.rect (d.numRects - 1)) rFirst nextToLast (some rSecond)
    return (d, if merged then r.numRects - 1 else r.numRects)

/-- `// append rectangles` -/
def insertBack (d r : QRegionPrivate) (numAppend : ℕ) : Exec QRegionPrivate :=
  if numAppend > 0 then do
    let newNumRects := d.numRects + numAppend
    let rects := d.rects ++ List.replicate (newNumRects - d.rects.length) default
    let source := r.source.drop (r.numRects - numAppend)
    let copied ← memcpyRects (rects.drop d.numRects) source numAppend
    return { d with rects := rects.take d.numRects ++ copied, numRects := newNumRects }
  else return d

/-- `append(const QRegionPrivate *)` -/
def append (d r : QRegionPrivate) : Exec QRegionPrivate := do
  qAssert (¬ r.numRects = 0)
  if r.numRects = 1 then d.appendRect r.extents
  else
    let (d, numAppend) ← d.vectorize.tryMergingLast r
    let d ← d.insertBack r numAppend
    let d := d.takeInnerRect r
    return { d with extents := d.extents.united r.extents }

/-- `canAppend(const QRect *)` -/
def canAppendRect (d : QRegionPrivate) (r : QRect) : Exec Bool := do
  qAssert (¬ r.isEmpty)
  let myLast ← d.read (if d.numRects = 1 then Place.extents else .rect (d.numRects - 1))
  if r.top > myLast.bottom then return true
  if r.top = myLast.top ∧ r.height = myLast.height ∧ r.left > myLast.right then return true
  return false

/-- `canAppend(const QRegionPrivate *)` -/
def canAppend (d r : QRegionPrivate) : Exec Bool := do
  let rFirst ← if r.numRects = 1 then pure r.extents else readAt r.source 0
  d.canAppendRect rFirst

/-- During `append` the region holds `mine`, and `post` is yet to be put behind it. Together they
are the points `S`. -/
structure Back (S : Set (ℤ × ℤ)) (e : QRect) (d : QRegionPrivate) (mine post : List QRect) :
    Prop where
  rects : ∃ stale, d.rects = mine ++ stale
  numRects : d.numRects = mine.length
  canonical : Canonical (mine ++ post)
  points : pointsOf (mine ++ post) = S
  inner : d.InnerIn S
  extents : d.extents = e

theorem mergeFromRight_pos {d : QRegionPrivate} {p : Place} {a b : QRect} (hp : d.read p = .ok a)
    (h : canMergeFromRight a b) :
    d.mergeFromRight p b = .ok (true, (d.write p { a with right := b.right }).updateInnerRect
      { a with right := b.right }) := by
  unfold mergeFromRight
  rw [hp, ok_bind, if_pos h]
  rfl

theorem mergeFromRight_neg {d : QRegionPrivate} {p : Place} {a b : QRect} (hp : d.read p = .ok a)
    (h : ¬ canMergeFromRight a b) : d.mergeFromRight p b = .ok (false, d) := by
  unfold mergeFromRight
  rw [hp, ok_bind, if_neg h]
  rfl

theorem mergeFromBelow_pos {d : QRegionPrivate} {p : Place} {a b : QRect} {na nb : Option QRect}
    (hp : d.read p = .ok a) (h : canMergeFromBelow a b na nb) :
    d.mergeFromBelow p b na nb = .ok (true,
      (d.write p { a with bottom := b.bottom }).updateInnerRect { a with bottom := b.bottom }) := by
  unfold mergeFromBelow
  rw [hp, ok_bind, if_pos h]
  rfl

theorem mergeFromBelow_neg {d : QRegionPrivate} {p : Place} {a b : QRect} {na nb : Option QRect}
    (hp : d.read p = .ok a) (h : ¬ canMergeFromBelow a b na nb) :
    d.mergeFromBelow p b na nb = .ok (false, d) := by
  unfold mergeFromBelow
  rw [hp, ok_bind, if_neg h]
  rfl

theorem joinRight {pre post : List QRect} {a b : QRect} (h : Canonical (pre ++ a :: b :: post))
    (hc : canMergeFromRight a b) :
    Canonical (pre ++ { a with right := b.right } :: post) ∧
      pointsOf (pre ++ { a with right := b.right } :: post) = pointsOf (pre ++ a :: b :: post) := by
  obtain ⟨htop, hbottom, htouch⟩ := hc
  have hjoin : ({ a with right := b.right } : QRect) = { b with left := a.left } := by
    ext <;> simp [htop, hbottom]
  rw [hjoin]
  exact ⟨h.joinColumns htop.symm hbottom.symm, h.points_joinColumns htop.symm hbottom.symm htouch⟩

theorem joinBelow {pre post : List QRect} {a b : QRect} (h : Canonical (pre ++ a :: b :: post))
    (hc : canMergeFromBelow a b pre.getLast? post.head?) :
    Canonical (pre ++ { a with bottom := b.bottom } :: post) ∧
      pointsOf (pre ++ { a with bottom := b.bottom } :: post) =
        pointsOf (pre ++ a :: b :: post) := by
  obtain ⟨hpre, hpost, htouch, hleft, hright⟩ := hc
  have hjoin : ({ a with bottom := b.bottom } : QRect) = { b with top := a.top } := by
    ext <;> simp [hleft, hright]
  rw [hjoin]
  exact ⟨h.joinRows hleft hright hpre hpost, h.points_joinRows hleft hright (by omega)⟩

namespace Back

variable {S : Set (ℤ × ℤ)} {e : QRect} {d : QRegionPrivate} {as post : List QRect} {t a b : QRect}

theorem read_last (h : Back S e d (as ++ [a]) post) : d.read (.rect (d.numRects - 1)) = .ok a := by
  obtain ⟨stale, hs⟩ := h.rects
  simp [read, readAt, hs, h.numRects]

theorem read_nextToLast (h : Back S e d (as ++ [t, a]) post) :
    d.read (.rect (d.numRects - 2)) = .ok t := by
  obtain ⟨stale, hs⟩ := h.rects
  simp [read, readAt, hs, h.numRects]

theorem readIf_nextToLast (h : Back S e d (as ++ [a]) post) :
    readIf (d.numRects > 1) d.rects (d.numRects - 2) = .ok as.getLast? := by
  obtain ⟨stale, hs⟩ := h.rects
  have hlen : d.numRects = as.length + 1 := by simp [h.numRects]
  rw [hs, append_assoc, show d.numRects - 2 = as.length - 1 by omega]
  exact readIf_last (by rw [← length_pos_iff]; omega)

theorem readIf_nextToNext (h : Back S e d (as ++ [t, a]) post) :
    readIf (d.numRects > 2) d.rects (d.numRects - 3) = .ok as.getLast? := by
  obtain ⟨stale, hs⟩ := h.rects
  have hlen : d.numRects = as.length + 2 := by simp [h.numRects]
  rw [hs, append_assoc, show d.numRects - 3 = as.length - 1 by omega]
  exact readIf_last (by rw [← length_pos_iff]; omega)

theorem mergeFromRight (h : Back S e d (as ++ [a]) (b :: post)) (hc : canMergeFromRight a b) :
    ∃ d', d.mergeFromRight (.rect (d.numRects - 1)) b = .ok (true, d') ∧
      Back S e d' (as ++ [{ a with right := b.right }]) post := by
  obtain ⟨stale, hs⟩ := h.rects
  have hlist : as ++ a :: b :: post = as ++ [a] ++ b :: post := by simp
  obtain ⟨hcan, hpts⟩ := joinRight (hlist ▸ h.canonical) hc
  rw [hlist, h.points] at hpts
  refine ⟨_, mergeFromRight_pos h.read_last hc, ⟨stale, ?_⟩, ?_, by simpa using hcan,
    by simpa using hpts, ?_, ?_⟩
  · simp [write, hs, h.numRects]
  · simpa [write] using h.numRects
  · exact InnerIn.updateInnerRect (d := d.write _ _) ⟨h.inner.subset, h.inner.area⟩
      (hpts ▸ subset_pointsOf (by simp))
  · simpa [write] using h.extents

theorem mergeFromBelow (h : Back S e d (as ++ [a]) (b :: post))
    (hc : canMergeFromBelow a b as.getLast? post.head?) :
    ∃ d', d.mergeFromBelow (.rect (d.numRects - 1)) b as.getLast? post.head? = .ok (true, d') ∧
      Back S e d' (as ++ [{ a with bottom := b.bottom }]) post := by
  obtain ⟨stale, hs⟩ := h.rects
  have hlist : as ++ a :: b :: post = as ++ [a] ++ b :: post := by simp
  obtain ⟨hcan, hpts⟩ := joinBelow (hlist ▸ h.canonical) hc
  rw [hlist, h.points] at hpts
  refine ⟨_, mergeFromBelow_pos h.read_last hc, ⟨stale, ?_⟩, ?_, by simpa using hcan,
    by simpa using hpts, ?_, ?_⟩
  · simp [write, hs, h.numRects]
  · simpa [write] using h.numRects
  · exact InnerIn.updateInnerRect (d := d.write _ _) ⟨h.inner.subset, h.inner.area⟩
      (hpts ▸ subset_pointsOf (by simp))
  · simpa [write] using h.extents

theorem mergeLastTwo (h : Back S e d (as ++ [t, a]) post) :
    ∃ d' mine, d.mergeLastTwo (.rect (d.numRects - 1)) post.head? = .ok d' ∧ mine ≠ [] ∧
      Back S e d' mine post := by
  have hlist : as ++ t :: a :: post = as ++ [t, a] ++ post := by simp
  have hread : d.read (.rect (d.numRects - 1)) = .ok a := by
    have h' : Back S e d ((as ++ [t]) ++ [a]) post := by simpa using h
    exact h'.read_last
  unfold QRegionPrivate.mergeLastTwo
  rw [hread, ok_bind, h.readIf_nextToNext, ok_bind]
  by_cases hc : canMergeFromBelow t a as.getLast? post.head?
  · obtain ⟨stale, hs⟩ := h.rects
    obtain ⟨hcan, hpts⟩ := joinBelow (hlist ▸ h.canonical) hc
    rw [hlist, h.points] at hpts
    rw [mergeFromBelow_pos h.read_nextToLast hc]
    refine ⟨_, as ++ [{ t with bottom := a.bottom }], rfl, by simp, ⟨a :: stale, ?_⟩, ?_,
      by simpa using hcan, by simpa using hpts, ?_, ?_⟩
    · simp [write, hs, h.numRects]
    · simp [write, h.numRects]
    · have hsub : QRect.points { t with bottom := a.bottom } ⊆ S := hpts ▸ subset_pointsOf (by simp)
      have hin := InnerIn.updateInnerRect
        (d := d.write (.rect (d.numRects - 2)) { t with bottom := a.bottom })
        ⟨h.inner.subset, h.inner.area⟩ hsub
      exact ⟨hin.subset, hin.area⟩
    · simpa [write] using h.extents
  · rw [mergeFromBelow_neg h.read_nextToLast hc]
    exact ⟨d, _, rfl, by simp, h⟩

end Back

/-- `extents` is drawn around what was put behind the region, and the region is whole again. -/
theorem Back.valid {S : Set (ℤ × ℤ)} {e r : QRect} {d : QRegionPrivate} {mine : List QRect}
    (h : Back S e d mine []) (hne : mine ≠ []) (hbox : IsBoundingBox (e.united r) S) :
    ({ d with extents := d.extents.united r } : QRegionPrivate).Valid ∧
      ({ d with extents := d.extents.united r } : QRegionPrivate).points = S := by
  obtain ⟨stale, hs⟩ := h.rects
  have hpts : pointsOf mine = S := by simpa using h.points
  have hcan : Canonical mine := by simpa using h.canonical
  obtain ⟨hv, hp⟩ := valid_of_rects (d := { d with extents := d.extents.united r }) hcan hne
    h.numRects (fun _ => ⟨stale, hs⟩) (by rw [hpts, h.extents]; exact hbox)
    (by rw [hpts]; exact ⟨h.inner.subset, h.inner.area⟩)
  exact ⟨hv, hp.trans hpts⟩

theorem Valid.read_last {d : QRegionPrivate} (h : d.Valid) :
    ∃ as a, d.list = as ++ [a] ∧
      d.read (if d.numRects = 1 then .extents else .rect (d.numRects - 1)) = .ok a := by
  by_cases h1 : d.numRects = 1
  · exact ⟨[], d.extents, Valid.list_eq h1, by rw [if_pos h1]; rfl⟩
  · obtain ⟨a, b, as, stale, hs, hn, hl⟩ := h.exists_rects h1
    obtain ⟨bs, c, hbs⟩ : ∃ bs c, a :: b :: as = bs ++ [c] :=
      ⟨_, _, (dropLast_concat_getLast (cons_ne_nil _ _)).symm⟩
    have hlen := congrArg List.length hbs
    simp only [length_cons, length_append, length_nil] at hlen
    refine ⟨bs, c, hl.trans hbs, ?_⟩
    rw [if_neg h1, read, hs, hbs, append_assoc, show d.numRects - 1 = bs.length by omega]
    exact readAt_append

theorem before_of_canAppendRect {d : QRegionPrivate} {r a : QRect} {as : List QRect}
    (h : d.Valid) (hl : d.list = as ++ [a]) (hc : d.canAppendRect r = .ok true) :
    ¬ r.isEmpty ∧ a.Before r := by
  unfold canAppendRect at hc
  obtain ⟨⟨⟩, hr, hc⟩ := bind_eq_ok hc
  have hr : ¬ r.isEmpty := by
    by_contra hr'
    rw [qAssert_neg (not_not.mpr hr')] at hr
    cases hr
  obtain ⟨as', a', hl', hread⟩ := h.read_last
  obtain ⟨rfl, rfl⟩ : as' = as ∧ a' = a := by simpa using hl'.symm.trans hl
  rw [hread, ok_bind] at hc
  refine ⟨hr, ?_⟩
  unfold Before height at *
  by_cases h₁ : r.top > a'.bottom
  · exact .inr h₁
  · rw [if_neg h₁] at hc
    by_cases h₂ : r.top = a'.top ∧ r.bottom - r.top + 1 = a'.bottom - a'.top + 1 ∧ r.left > a'.right
    · omega
    · rw [if_neg h₂] at hc
      cases hc

/-- Once the rectangles are kept in `rects`, a list that goes behind them can be put there. -/
theorem back_vectorize {d : QRegionPrivate} {post : List QRect} (h : d.Valid)
    (hcan : Canonical (d.list ++ post)) :
    Back (d.points ∪ pointsOf post) d.extents d.vectorize d.list post := by
  have hf := @front_vectorize d [] h h.canonical
  obtain ⟨stale, hs⟩ := hf.rects
  exact ⟨⟨stale, hs⟩, hf.numRects, hcan, pointsOf_append _ _,
    (hf.inner.mono (by simp) : d.vectorize.InnerIn (d.points ∪ pointsOf post)), hf.extents⟩

theorem appendNew_spec {d : QRegionPrivate} {r : QRect} (h : d.Valid)
    (hcan : Canonical (d.list ++ [r]))
    (hbox : IsBoundingBox (d.extents.united r) (d.points ∪ r.points)) :
    ({ d.appendNew r with extents := (d.appendNew r).extents.united r } : QRegionPrivate).Valid ∧
      ({ d.appendNew r with extents := (d.appendNew r).extents.united r } :
        QRegionPrivate).points = d.points ∪ r.points := by
  have hb := back_vectorize h hcan
  rw [show pointsOf [r] = r.points by simp] at hb
  obtain ⟨stale, hs⟩ := hb.rects
  have hin := InnerIn.updateInnerRect
    (d := { d.vectorize with numRects := d.vectorize.numRects + 1 })
    ⟨hb.inner.subset, hb.inner.area⟩ (Set.subset_union_right (s := d.points) (t := r.points))
  have hnew : Back (d.points ∪ r.points) d.extents (d.appendNew r) (d.list ++ [r]) [] := by
    refine ⟨?_, ?_, ?_, ?_, ?_, ?_⟩
    · refine ⟨stale.tail, ?_⟩
      cases stale <;> simp [appendNew, hs, hb.numRects]
    · simp [appendNew, hb.numRects]
    · simpa using hcan
    · simpa using hb.points
    · exact ⟨hin.subset, hin.area⟩
    · simp [appendNew, hb.extents]
  exact hnew.valid (by simp) hbox

theorem appendRect_one {d : QRegionPrivate} {r : QRect} (h : d.Valid) (h1 : d.numRects = 1)
    (hr : ¬ r.isEmpty) (hbefore : d.extents.Before r) :
    ∃ d', d.appendRect r = .ok d' ∧ d'.Valid ∧ d'.points = d.points ∪ r.points := by
  have hl := Valid.list_eq h1
  have hcan : Canonical ([] ++ d.extents :: r :: []) :=
    Canonical.append (hl ▸ h.canonical) (.singleton hr) hbefore
  have hS : pointsOf ([] ++ d.extents :: r :: []) = d.points ∪ r.points := by
    simp [points, hl]
  have hbox : IsBoundingBox (d.extents.united r) (d.points ∪ r.points) :=
    h.extents.union (.of_rect hr)
  have hread : d.read .extents = .ok d.extents := rfl
  by_cases hright : canMergeFromRight d.extents r
  · have hle : d.extents.right ≤ r.right := by
      rw [not_isEmpty] at hr
      unfold canMergeFromRight at hright
      unfold Before at hbefore
      omega
    obtain ⟨hcan', hpts'⟩ := joinRight hcan hright
    refine ⟨_, ?_, valid_mergedOne (e := { d.extents with right := r.right }) h h1 hr hcan'
      (hpts'.trans hS) (by simp [united, hle])⟩
    simp [appendRect, hr, h1, mergeFromRight_pos hread hright, write]
  · have hnext : readIf (d.numRects > 1) d.rects (d.numRects - 2) = .ok none := if_neg (by omega)
    by_cases hbelow : canMergeFromBelow d.extents r none none
    · have hle : d.extents.bottom ≤ r.bottom := by
        rw [not_isEmpty] at hr
        unfold Before at hbefore
        omega
      obtain ⟨hcan', hpts'⟩ := joinBelow hcan hbelow
      have hrun : d.appendBelow .extents r = .ok
          (({ d with extents := { d.extents with bottom := r.bottom } } :
            QRegionPrivate).updateInnerRect { d.extents with bottom := r.bottom }) := by
        unfold appendBelow
        rw [hnext, ok_bind, mergeFromBelow_pos hread hbelow]
        rfl
      refine ⟨_, ?_, valid_mergedOne (e := { d.extents with bottom := r.bottom }) h h1 hr hcan'
        (hpts'.trans hS) (by simp [united, hle])⟩
      simp [appendRect, hr, h1, mergeFromRight_neg hread hright, hrun]
    · have hrun : d.appendBelow .extents r = .ok (d.appendNew r) := by
        unfold appendBelow
        rw [hnext, ok_bind, mergeFromBelow_neg hread hbelow]
        rfl
      obtain ⟨hv, hp⟩ := appendNew_spec h (hl ▸ hcan) hbox
      refine ⟨_, ?_, hv, hp⟩
      simp [appendRect, hr, h1, mergeFromRight_neg hread hright, hrun]

theorem appendRect_several {d : QRegionPrivate} {r t a : QRect} {as : List QRect} (h : d.Valid)
    (h1 : d.numRects ≠ 1) (hr : ¬ r.isEmpty) (hl : d.list = as ++ [t, a]) (hbefore : a.Before r) :
    ∃ d', d.appendRect r = .ok d' ∧ d'.Valid ∧ d'.points = d.points ∪ r.points := by
  have hl' : d.list = (as ++ [t]) ++ [a] := by simpa using hl
  have hcan : Canonical (d.list ++ [r]) := by
    rw [hl', append_assoc]
    exact Canonical.append (hl' ▸ h.canonical) (.singleton hr) hbefore
  have hbox : IsBoundingBox (d.extents.united r) (d.points ∪ r.points) :=
    h.extents.union (.of_rect hr)
  have hb : Back (d.points ∪ r.points) d.extents d ((as ++ [t]) ++ [a]) [r] := by
    have hv := back_vectorize h hcan
    rwa [show d.vectorize = d from if_neg h1, hl', show pointsOf [r] = r.points by simp] at hv
  have hn : d.numRects > 1 := by simp [hb.numRects]
  by_cases hright : canMergeFromRight a r
  · obtain ⟨d₁, hrun₁, hb₁⟩ := hb.mergeFromRight hright
    rw [append_assoc, singleton_append] at hb₁
    obtain ⟨d₂, mine, hrun₂, hne, hb₂⟩ := hb₁.mergeLastTwo
    obtain ⟨hv, hp⟩ := hb₂.valid hne hbox
    have hn₁ : d₁.numRects = d.numRects := by rw [hb.numRects, hb₁.numRects]; simp
    rw [hn₁, List.head?_nil] at hrun₂
    refine ⟨_, ?_, hv, hp⟩
    simp [appendRect, hr, h1, hrun₁, hrun₂, hn₁, hn]
  · have hrun₁ := mergeFromRight_neg hb.read_last hright
    by_cases hbelow : canMergeFromBelow a r (as ++ [t]).getLast? none
    · obtain ⟨d₂, hrun, hb₂⟩ := hb.mergeFromBelow hbelow
      have hrun₂ : d.appendBelow (.rect (d.numRects - 1)) r = .ok d₂ := by
        unfold appendBelow
        rw [hb.readIf_nextToLast, ok_bind]
        exact congrArg (· >>= fun x => .ok (if x.1 then x.2 else x.2.appendNew r)) hrun
      obtain ⟨hv, hp⟩ := hb₂.valid (by simp) hbox
      refine ⟨_, ?_, hv, hp⟩
      simp [appendRect, hr, h1, hrun₁, hrun₂]
    · have hrun₂ : d.appendBelow (.rect (d.numRects - 1)) r = .ok (d.appendNew r) := by
        unfold appendBelow
        rw [hb.readIf_nextToLast, ok_bind, mergeFromBelow_neg hb.read_last hbelow]
        rfl
      obtain ⟨hv, hp⟩ := appendNew_spec h hcan hbox
      refine ⟨_, ?_, hv, hp⟩
      simp [appendRect, hr, h1, hrun₁, hrun₂]

theorem appendRect_union {d : QRegionPrivate} {r : QRect} (h : d.Valid)
    (hc : d.canAppendRect r = .ok true) :
    ∃ d', d.appendRect r = .ok d' ∧ d'.Valid ∧ d'.points = d.points ∪ r.points := by
  obtain ⟨as, a, hl, -⟩ := h.read_last
  obtain ⟨hr, hbefore⟩ := before_of_canAppendRect h hl hc
  by_cases h1 : d.numRects = 1
  · have hone := (Valid.list_eq h1).symm.trans hl
    cases as with
    | nil => exact appendRect_one h h1 hr ((List.cons.inj hone).1 ▸ hbefore)
    | cons a' as => simp at hone
  · obtain ⟨t, as', hnext⟩ : ∃ t as', as = as' ++ [t] := by
      obtain ⟨a', b, as', -, -, -, hl'⟩ := h.exists_rects h1
      rcases eq_nil_or_concat as with rfl | ⟨as', t, rfl⟩
      · simp [hl'] at hl
      · exact ⟨t, as', concat_eq_append⟩
    rw [hnext, append_assoc, singleton_append] at hl
    exact appendRect_several h h1 hr hl hbefore

section Merging

variable {S : Set (ℤ × ℤ)} {e : QRect} {d r : QRegionPrivate} {as bs : List QRect} {a b b₁ : QRect}

theorem readIf_source {post : List QRect} (hr : post <:+ r.source)
    (hn : r.source.length = r.numRects) :
    readIf (post.length > 0) r.source (r.numRects - post.length) = .ok post.head? := by
  obtain ⟨pre, hpre⟩ := hr
  have hlen := congrArg List.length hpre
  rw [length_append] at hlen
  have hhead := @readIf_head (post.length > 0) _ pre post [] length_pos_iff
  rwa [append_nil, hpre, show pre.length = r.numRects - post.length by omega] at hhead

theorem tryMergingLastTwo_spec {post : List QRect} (h : Back S e d (as ++ [a]) post)
    (hr : post <:+ r.source) (hn : r.source.length = r.numRects) :
    ∃ d' mine, d.tryMergingLastTwo r post.length = .ok (d', post.length) ∧ mine ≠ [] ∧
      Back S e d' mine post := by
  unfold tryMergingLastTwo
  rcases eq_nil_or_concat as with rfl | ⟨as, t, rfl⟩
  · rw [if_neg (by simp [h.numRects])]
    exact ⟨d, _, rfl, by simp, h⟩
  · rw [concat_eq_append, append_assoc, singleton_append] at h
    obtain ⟨d', mine, hrun, hne, hb⟩ := h.mergeLastTwo
    refine ⟨d', mine, ?_, hne, hb⟩
    rw [if_pos (by simp [h.numRects]), readIf_source hr hn, ok_bind, hrun]
    rfl

theorem tryMergingRight_spec (h : Back S e d (as ++ [a]) (b₁ :: bs))
    (hr : r.source = b :: b₁ :: bs) (hn : r.numRects = bs.length + 2) :
    ∃ d' mine post, d.tryMergingRight r as.getLast? = .ok (d', post.length) ∧ mine ≠ [] ∧
      post <:+ r.source ∧ Back S e d' mine post := by
  have hlen : r.source.length = r.numRects := by simp [hr, hn]
  have hthird : readIf (r.numRects - 1 > 1) r.source 2 = .ok bs.head? := by
    have hmore : r.numRects - 1 > 1 ↔ bs ≠ [] := by
      rw [← length_pos_iff]
      omega
    have hhead := @readIf_head (r.numRects - 1 > 1) _ [b, b₁] bs [] hmore
    rw [append_nil] at hhead
    rw [hr]
    exact hhead
  have hsecond : readAt r.source 1 = .ok b₁ := by simp [readAt, hr]
  unfold tryMergingRight
  dsimp only
  rw [hthird, ok_bind, hsecond, ok_bind]
  by_cases hbelow : canMergeFromBelow a b₁ as.getLast? bs.head?
  · obtain ⟨d₁, hrun, hb⟩ := h.mergeFromBelow hbelow
    have hpost : bs <:+ r.source := by
      rw [hr]
      exact (suffix_cons _ _).trans (suffix_cons _ _)
    obtain ⟨d', mine, hrun', hne, hb'⟩ := tryMergingLastTwo_spec hb hpost hlen
    refine ⟨d', mine, bs, ?_, hne, hpost, hb'⟩
    rw [hrun, ok_bind, ← hrun', hn]
    rfl
  · have hpost : b₁ :: bs <:+ r.source := hr ▸ suffix_cons _ _
    obtain ⟨d', mine, hrun', hne, hb'⟩ := tryMergingLastTwo_spec h hpost hlen
    refine ⟨d', mine, b₁ :: bs, ?_, hne, hpost, hb'⟩
    rw [mergeFromBelow_neg h.read_last hbelow, ok_bind, ← hrun', hn]
    rfl

theorem tryMergingLast_spec (h : Back S e d (as ++ [a]) (b :: b₁ :: bs))
    (hr : r.source = b :: b₁ :: bs) (hn : r.numRects = bs.length + 2) :
    ∃ d' mine post, d.tryMergingLast r = .ok (d', post.length) ∧ mine ≠ [] ∧
      post <:+ r.source ∧ Back S e d' mine post := by
  have hfirst : readAt r.source 0 = .ok b := by simp [readAt, hr]
  have hsecond : readAt r.source 1 = .ok b₁ := by simp [readAt, hr]
  have hlen : r.numRects = (b :: b₁ :: bs).length := by simp [hn]
  unfold tryMergingLast
  rw [hfirst, ok_bind, h.readIf_nextToLast, ok_bind]
  by_cases hright : canMergeFromRight a b
  · obtain ⟨d₁, hrun, hb⟩ := h.mergeFromRight hright
    obtain ⟨d', mine, post, hrun', hne, hpost, hb'⟩ :=
      tryMergingRight_spec hb hr hn
    refine ⟨d', mine, post, ?_, hne, hpost, hb'⟩
    rw [hrun, ok_bind]
    exact hrun'
  · rw [mergeFromRight_neg h.read_last hright, ok_bind]
    dsimp only
    rw [if_neg Bool.false_ne_true, hsecond, ok_bind]
    by_cases hbelow : canMergeFromBelow a b as.getLast? (some b₁)
    · obtain ⟨d', hrun, hb⟩ := h.mergeFromBelow hbelow
      rw [List.head?_cons] at hrun
      refine ⟨d', _, b₁ :: bs, ?_, by simp, hr ▸ suffix_cons _ _, hb⟩
      rw [hrun, ok_bind]
      simp [hn]
    · refine ⟨d, _, b :: b₁ :: bs, ?_, by simp, hr ▸ suffix_refl _, h⟩
      rw [mergeFromBelow_neg h.read_last hbelow, ok_bind]
      simp [hn]

theorem insertBack_spec {mine post : List QRect} (h : Back S e d mine post)
    (hr : post <:+ r.source) (hn : r.source.length = r.numRects) :
    ∃ d', d.insertBack r post.length = .ok d' ∧ Back S e d' (mine ++ post) [] := by
  obtain ⟨stale, hs⟩ := h.rects
  obtain ⟨pre, hpre⟩ := hr
  unfold insertBack
  split
  · rename_i hpos
    have hlen := congrArg List.length hpre
    rw [length_append] at hlen
    obtain ⟨room, hroom⟩ : ∃ room, stale ++
        List.replicate (d.numRects + post.length - d.rects.length) (default : QRect) = room :=
      ⟨_, rfl⟩
    have hlong : post.length ≤ room.length := by
      rw [← hroom, length_append, length_replicate, hs, length_append, h.numRects]
      omega
    have hrects : d.rects ++ List.replicate (d.numRects + post.length - d.rects.length) default =
        mine ++ room := by
      rw [← hroom, ← append_assoc, ← hs]
    have hsource : r.source.drop (r.numRects - post.length) = post := by
      rw [← hpre, show r.numRects - post.length = pre.length by omega, drop_left]
    have hcopy : memcpyRects room post post.length = .ok (post ++ room.drop post.length) := by
      rw [memcpyRects, if_pos ⟨Nat.le_refl _, hlong⟩, take_length]
    dsimp only
    rw [hrects, hsource, h.numRects, drop_left, hcopy, ok_bind, take_left]
    refine ⟨_, rfl, ⟨room.drop post.length, by simp⟩, by simp, ?_, ?_, ?_, h.extents⟩
    · simpa using h.canonical
    · simpa using h.points
    · exact ⟨h.inner.subset, h.inner.area⟩
  · rename_i hpos
    obtain rfl : post = [] := by simpa using hpos
    exact ⟨d, rfl, ⟨stale, by simpa using hs⟩, by simpa using h.numRects,
      by simpa using h.canonical, by simpa using h.points, h.inner, h.extents⟩

theorem Back.takeInnerRect {mine post : List QRect} (h : Back S e d mine post)
    (hr : r.InnerIn S) : Back S e (d.takeInnerRect r) mine post :=
  ⟨by simpa using h.rects, by simpa using h.numRects, h.canonical, h.points,
    h.inner.takeInnerRect hr, by simpa using h.extents⟩

end Merging

theorem append_several {d r : QRegionPrivate} (hd : d.Valid) (hr : r.Valid)
    (h1 : r.numRects ≠ 1) (hc : d.canAppend r = .ok true) :
    ∃ d', d.append r = .ok d' ∧ d'.Valid ∧ d'.points = d.points ∪ r.points := by
  obtain ⟨b, b₁, bs, stale, hs, hn, hl⟩ := hr.exists_rects h1
  obtain ⟨as, a, hla, -⟩ := hd.read_last
  have hsource : r.source = b :: b₁ :: bs := by
    rw [source, hn, hs]
    simp
  have hcan : d.canAppendRect b = .ok true := by
    unfold canAppend at hc
    rw [if_neg h1, hsource] at hc
    exact hc
  obtain ⟨hb, hbefore⟩ := before_of_canAppendRect hd hla hcan
  have hcan : Canonical (d.list ++ r.list) := by
    rw [hl, hla, append_assoc]
    exact Canonical.append (hla ▸ hd.canonical) (hl ▸ hr.canonical) hbefore
  have hback := back_vectorize hd hcan
  have hS : d.points ∪ pointsOf r.list = d.points ∪ r.points := rfl
  rw [hS, hl, hla] at hback
  have hbox : IsBoundingBox (d.extents.united r.extents) (d.points ∪ r.points) :=
    hd.extents.union hr.extents
  have hin : r.InnerIn (d.points ∪ r.points) := hr.innerIn.mono Set.subset_union_right
  obtain ⟨d₁, mine, post, hrun, hne, hpost, hb₁⟩ := tryMergingLast_spec hback hsource hn
  obtain ⟨d₂, hrun₂, hb₂⟩ := insertBack_spec hb₁ hpost (by simp [hsource, hn])
  obtain ⟨hv, hp⟩ := (hb₂.takeInnerRect hin).valid (by simp [hne]) hbox
  refine ⟨_, ?_, hv, hp⟩
  unfold append
  rw [qAssert_pos (by omega), ok_bind, if_neg h1, hrun, ok_bind]
  simp [hrun₂]

theorem append_region {d r : QRegionPrivate} (hd : d.Valid) (hr : r.Valid)
    (hc : d.canAppend r = .ok true) :
    ∃ d', d.append r = .ok d' ∧ d'.Valid ∧ d'.points = d.points ∪ r.points := by
  by_cases h1 : r.numRects = 1
  · have hpts : r.points = r.extents.points := by simp [points, Valid.list_eq h1]
    have hcan : d.canAppendRect r.extents = .ok true := by
      unfold canAppend at hc
      rw [if_pos h1] at hc
      exact hc
    obtain ⟨d', hrun, hv, hp⟩ := appendRect_union hd hcan
    refine ⟨d', ?_, hv, hpts ▸ hp⟩
    unfold append
    rw [qAssert_pos (by omega), ok_bind, if_pos h1, hrun]
  · exact append_several hd hr h1 hc

example : (ofRect ⟨0, 0, 9, 4⟩).appendRect ⟨0, 5, 9, 9⟩ = .ok (ofRect ⟨0, 0, 9, 9⟩) := by decide

end QtBase.QRegionPrivate
