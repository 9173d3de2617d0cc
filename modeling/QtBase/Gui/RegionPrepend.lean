import QtBase.Core.Exec
import QtBase.Gui.RectBands
import Mathlib.Algebra.Order.Ring.Int

/-! `QRegionPrivate::prepend`: a rectangle or a region is put before a region. -/
namespace QtBase

open List

namespace QRect

/-- `QRect()` -/
instance : Inhabited QRect := ⟨⟨0, 0, -1, -1⟩⟩

def width (r : QRect) : ℤ := r.right - r.left + 1

def height (r : QRect) : ℤ := r.bottom - r.top + 1

/-- `r.width() * r.height()`, as an `int`. -/
def area (r : QRect) : ℤ := (r.width * r.height).bmod (2 ^ 32)

def canMergeFromRight (left right : QRect) : Prop :=
  right.top = left.top ∧ right.bottom = left.bottom ∧ right.left ≤ left.right + 1

instance (left right : QRect) : Decidable (canMergeFromRight left right) :=
  inferInstanceAs (Decidable (_ ∧ _))

def canMergeFromLeft (right left : QRect) : Prop := canMergeFromRight left right

instance (right left : QRect) : Decidable (canMergeFromLeft right left) :=
  inferInstanceAs (Decidable (canMergeFromRight left right))

def canMergeFromBelow (top bottom : QRect) (nextToTop nextToBottom : Option QRect) : Prop :=
  (∀ next ∈ nextToTop, next.top ≠ top.top) ∧ (∀ next ∈ nextToBottom, next.top ≠ bottom.top) ∧
    top.bottom ≥ bottom.top - 1 ∧ top.left = bottom.left ∧ top.right = bottom.right

instance (top bottom : QRect) (nextToTop nextToBottom : Option QRect) :
    Decidable (canMergeFromBelow top bottom nextToTop nextToBottom) :=
  inferInstanceAs (Decidable (_ ∧ _))

/-- `extents.setCoords(qMin(…), qMin(…), qMax(…), qMax(…))` -/
def united (r s : QRect) : QRect :=
  ⟨min r.left s.left, min r.top s.top, max r.right s.right, max r.bottom s.bottom⟩

end QRect

open QRect

/-- `*(rects + i)` -/
def readAt (rects : List QRect) (i : ℕ) : Exec QRect :=
  match rects[i]? with
  | some r => .ok r
  | none => .error .undefined

/-- What `condition ? rects + i : nullptr` points to. -/
def readIf (condition : Prop) [Decidable condition] (rects : List QRect) (i : ℕ) :
    Exec (Option QRect) :=
  if condition then do
    let r ← readAt rects i
    return some r
  else .ok none

/-- `memmove(rects + dest, rects + source, count * sizeof(QRect))` -/
def memmoveRects (rects : List QRect) (dest source count : ℕ) : Exec (List QRect) :=
  if source + count ≤ rects.length ∧ dest + count ≤ rects.length then
    .ok (rects.take dest ++ (rects.drop source).take count ++ rects.drop (dest + count))
  else .error .undefined

/-- `memcpy(rects, source, count * sizeof(QRect))` -/
def memcpyRects (rects source : List QRect) (count : ℕ) : Exec (List QRect) :=
  if count ≤ source.length ∧ count ≤ rects.length then
    .ok (source.take count ++ rects.drop count)
  else .error .undefined

structure QRegionPrivate where
  numRects : ℕ
  innerArea : ℤ
  rects : List QRect
  extents : QRect
  innerRect : QRect
  deriving DecidableEq

namespace QRegionPrivate

/-- `QRegionPrivate(const QRect &r)` -/
def ofRect (r : QRect) : QRegionPrivate := ⟨1, r.area, [], r, r⟩

/-- Where a `QRect *` into the region points. -/
inductive Place
  | extents
  | rect (i : ℕ)

def read (d : QRegionPrivate) : Place → Exec QRect
  | .extents => .ok d.extents
  | .rect i => readAt d.rects i

def write (d : QRegionPrivate) : Place → QRect → QRegionPrivate
  | .extents, r => { d with extents := r }
  | .rect i, r => { d with rects := d.rects.set i r }

/-- The rectangles from `begin()` to `end()`. -/
def list (d : QRegionPrivate) : List QRect :=
  if d.numRects = 1 then [d.extents] else d.rects.take d.numRects

def points (d : QRegionPrivate) : Set (ℤ × ℤ) := pointsOf d.list

def updateInnerRect (d : QRegionPrivate) (rect : QRect) : QRegionPrivate :=
  if rect.area > d.innerArea then { d with innerArea := rect.area, innerRect := rect } else d

def vectorize (d : QRegionPrivate) : QRegionPrivate :=
  if d.numRects = 1 then
    let rects := if d.rects.length = 0 then [default] else d.rects
    { d with rects := rects.set 0 d.extents }
  else d

def mergeFromLeft (d : QRegionPrivate) (right : Place) (left : QRect) :
    Exec (Bool × QRegionPrivate) := do
  let r ← d.read right
  if canMergeFromLeft r left then
    let r := { r with left := left.left }
    return (true, (d.write right r).updateInnerRect r)
  else return (false, d)

def mergeFromAbove (d : QRegionPrivate) (bottom : Place) (top : QRect)
    (nextToBottom nextToTop : Option QRect) : Exec (Bool × QRegionPrivate) := do
  let r ← d.read bottom
  if canMergeFromBelow top r nextToTop nextToBottom then
    let r := { r with top := top.top }
    return (true, (d.write bottom r).updateInnerRect r)
  else return (false, d)

/-- The part of `prepend(const QRect *)` where `r` is not merged with the first rectangle. -/
def prependNew (d : QRegionPrivate) (r : QRect) : QRegionPrivate :=
  let d := d.vectorize
  let d := { d with numRects := d.numRects + 1 }
  let d := d.updateInnerRect r
  { d with rects := r :: d.rects }

/-- The part of `prepend(const QRect *)` where the first rectangle was widened to the left. -/
def prependWidened (d : QRegionPrivate) (myFirst : Place) : Exec QRegionPrivate :=
  if d.numRects > 1 then do
    let first ← d.read myFirst
    let nextToFirst ← readIf (d.numRects > 2) d.rects 2
    let (merged, d) ← d.mergeFromAbove (.rect 1) first nextToFirst none
    if merged then
      let d := { d with numRects := d.numRects - 1 }
      let rects ← memmoveRects d.rects 0 1 d.numRects
      return { d with rects := rects }
    else return d
  else return d

/-- The part of `prepend(const QRect *)` where it was not. -/
def prependAbove (d : QRegionPrivate) (myFirst : Place) (r : QRect) : Exec QRegionPrivate := do
  let nextToFirst ← readIf (d.numRects > 1) d.rects 1
  let (merged, d) ← d.mergeFromAbove myFirst r nextToFirst none
  return if merged then d else d.prependNew r

/-- `prepend(const QRect *)` -/
def prependRect (d : QRegionPrivate) (r : QRect) : Exec QRegionPrivate := do
  qAssert (¬ r.isEmpty)
  let myFirst := if d.numRects = 1 then Place.extents else .rect 0
  let (merged, d) ← d.mergeFromLeft myFirst r
  let d ← if merged then d.prependWidened myFirst else d.prependAbove myFirst r
  return { d with extents := d.extents.united r }

/-- The part of `// try merging` where the first rectangle was widened to the left and is merged
with the second. -/
def tryMergingSecond (d r : QRegionPrivate) (numPrepend : ℕ) :
    Exec (QRegionPrivate × ℕ × ℕ) :=
  if d.numRects > 1 then do
    let nextToFirst ← readIf (d.numRects > 2) d.rects 2
    let rNextToLast ← readIf (numPrepend > 0) r.rects (numPrepend - 1)
    let first ← d.read (.rect 0)
    let (merged, d) ← d.mergeFromAbove (.rect 1) first nextToFirst rNextToLast
    if merged then return ({ d with numRects := d.numRects - 1 }, numPrepend, 1)
    else return (d, numPrepend, 0)
  else return (d, numPrepend, 0)

/-- The block `// try merging` of `prepend(const QRegionPrivate *)`. It gives the region,
`numPrepend` and `numSkip`. `rLast` is at `numPrepend - 1` throughout. -/
def tryMerging (d r : QRegionPrivate) : Exec (QRegionPrivate × ℕ × ℕ) := do
  let numPrepend := r.numRects
  let nextToFirst ← readIf (d.numRects > 1) d.rects 1
  let rLast ← readAt r.rects (numPrepend - 1)
  let rNextToLast ← readIf (r.numRects > 1) r.rects (numPrepend - 2)
  let (merged, d) ← d.mergeFromLeft (.rect 0) rLast
  if merged then
    let numPrepend := numPrepend - 1
    let rLast ← readAt r.rects (numPrepend - 1)
    let rNextToLast ← readIf (numPrepend > 1) r.rects (numPrepend - 2)
    let (merged, d) ← d.mergeFromAbove (.rect 0) rLast nextToFirst rNextToLast
    d.tryMergingSecond r (if merged then numPrepend - 1 else numPrepend)
  else
    let (merged, d) ← d.mergeFromAbove (.rect 0) rLast nextToFirst rNextToLast
    return (d, if merged then numPrepend - 1 else numPrepend, 0)

/-- The rectangles that are left are moved, and `numPrepend` of `r` are put before them. -/
def insertFront (d r : QRegionPrivate) (numPrepend numSkip : ℕ) : Exec QRegionPrivate :=
  if numPrepend > 0 then do
    let newNumRects := d.numRects + numPrepend
    let rects := d.rects ++ List.replicate (newNumRects - d.rects.length) default
    let rects ← memmoveRects rects numPrepend numSkip d.numRects
    let rects ← memcpyRects rects r.rects numPrepend
    return { d with rects := rects, numRects := newNumRects }
  else return d

def takeInnerRect (d r : QRegionPrivate) : QRegionPrivate :=
  if d.innerArea < r.innerArea then
    { d with innerArea := r.innerArea, innerRect := r.innerRect }
  else d

/-- `prepend(const QRegionPrivate *)` -/
def prepend (d r : QRegionPrivate) : Exec QRegionPrivate := do
  qAssert (¬ r.numRects = 0)
  if r.numRects = 1 then d.prependRect r.extents
  else do
    let (d, numPrepend, numSkip) ← d.vectorize.tryMerging r
    let d ← d.insertFront r numPrepend numSkip
    let d := d.takeInnerRect r
    return { d with extents := d.extents.united r.extents }

/-- `canPrepend(const QRect *)` -/
def canPrependRect (d : QRegionPrivate) (r : QRect) : Exec Bool := do
  qAssert (¬ r.isEmpty)
  let myFirst ← d.read (if d.numRects = 1 then Place.extents else .rect 0)
  if r.bottom < myFirst.top then return true
  if r.top = myFirst.top ∧ r.height = myFirst.height ∧ r.right < myFirst.left then return true
  return false

/-- `canPrepend(const QRegionPrivate *)` -/
def canPrepend (d r : QRegionPrivate) : Exec Bool := do
  let rLast ← r.read (if r.numRects = 1 then Place.extents else .rect (r.numRects - 1))
  d.canPrependRect rLast

/-- The region has rectangles, in bands, and `extents` and `innerRect` go with them. -/
structure Valid (d : QRegionPrivate) : Prop where
  pos : 1 ≤ d.numRects
  size : d.numRects ≠ 1 → d.numRects ≤ d.rects.length
  canonical : Canonical d.list
  extents : IsBoundingBox d.extents d.points
  innerRect : d.innerRect.points ⊆ d.points
  innerArea : d.innerArea = d.innerRect.area

/-- Three merges: the last rectangle of the second list widens the first one of the other, the first
of the second list raises it, and so it meets the second one. The second list is used up, and the
other has a third rectangle. -/
def ThreeMerges : List QRect → List QRect → Prop
  | a₀ :: a₁ :: a₂ :: _, [b₀, b₁] =>
    canMergeFromLeft a₀ b₁ ∧
      canMergeFromBelow b₀ { a₀ with left := b₁.left } none (some a₁) ∧
      canMergeFromBelow { a₀ with left := b₁.left, top := b₀.top } a₁ none (some a₂)
  | _, _ => False

@[simp] theorem updateInnerRect_numRects (d : QRegionPrivate) (r : QRect) :
    (d.updateInnerRect r).numRects = d.numRects := by
  unfold updateInnerRect
  split_ifs <;> rfl

@[simp] theorem updateInnerRect_rects (d : QRegionPrivate) (r : QRect) :
    (d.updateInnerRect r).rects = d.rects := by
  unfold updateInnerRect
  split_ifs <;> rfl

@[simp] theorem updateInnerRect_extents (d : QRegionPrivate) (r : QRect) :
    (d.updateInnerRect r).extents = d.extents := by
  unfold updateInnerRect
  split_ifs <;> rfl

@[simp] theorem takeInnerRect_numRects (d r : QRegionPrivate) :
    (d.takeInnerRect r).numRects = d.numRects := by
  unfold takeInnerRect
  split_ifs <;> rfl

@[simp] theorem takeInnerRect_rects (d r : QRegionPrivate) :
    (d.takeInnerRect r).rects = d.rects := by
  unfold takeInnerRect
  split_ifs <;> rfl

@[simp] theorem takeInnerRect_extents (d r : QRegionPrivate) :
    (d.takeInnerRect r).extents = d.extents := by
  unfold takeInnerRect
  split_ifs <;> rfl

/-- `innerRect` is a part of `S`, and `innerArea` its area. -/
structure InnerIn (d : QRegionPrivate) (S : Set (ℤ × ℤ)) : Prop where
  subset : d.innerRect.points ⊆ S
  area : d.innerArea = d.innerRect.area

variable {d : QRegionPrivate}

theorem InnerIn.mono {S T : Set (ℤ × ℤ)} (h : d.InnerIn S) (hST : S ⊆ T) :
    d.InnerIn T := ⟨h.subset.trans hST, h.area⟩

theorem InnerIn.updateInnerRect {S : Set (ℤ × ℤ)} {r : QRect} (h : d.InnerIn S)
    (hr : r.points ⊆ S) : (d.updateInnerRect r).InnerIn S := by
  unfold QRegionPrivate.updateInnerRect
  split_ifs
  · exact ⟨hr, rfl⟩
  · exact h

theorem InnerIn.takeInnerRect {r : QRegionPrivate} {S : Set (ℤ × ℤ)} (h : d.InnerIn S)
    (hr : r.InnerIn S) : (d.takeInnerRect r).InnerIn S := by
  unfold QRegionPrivate.takeInnerRect
  split_ifs
  · exact ⟨hr.subset, hr.area⟩
  · exact h

theorem Valid.innerIn (h : d.Valid) : d.InnerIn d.points :=
  ⟨h.innerRect, h.innerArea⟩

variable {l : List QRect}

theorem subset_pointsOf {r : QRect} (h : r ∈ l) : r.points ⊆ pointsOf l :=
  fun _ hp => ⟨r, h, hp⟩

/-- A region whose rectangles are `l`. One alone is kept in `extents`, where the box around it
puts it. -/
theorem valid_of_rects (hl : Canonical l) (hne : l ≠ []) (hn : d.numRects = l.length)
    (hrects : l.length ≠ 1 → ∃ stale, d.rects = l ++ stale)
    (hbox : IsBoundingBox d.extents (pointsOf l)) (hin : d.InnerIn (pointsOf l)) :
    d.Valid ∧ d.points = pointsOf l := by
  have hpos : 0 < l.length := length_pos_iff.mpr hne
  have hlist : d.list = l := by
    unfold list
    by_cases h1 : l.length = 1
    · obtain ⟨c, rfl⟩ := length_eq_one_iff.mp h1
      have hc : pointsOf [c] = c.points := by simp
      rw [hc] at hbox
      rw [if_pos (hn.trans h1), hbox.unique (.of_rect (hl.nonempty c (by simp)))]
    · obtain ⟨stale, hs⟩ := hrects h1
      rw [if_neg (by omega), hn, hs, take_left']
      rfl
  have hpoints : d.points = pointsOf l := congrArg pointsOf hlist
  refine ⟨⟨by omega, fun h1 => ?_, hlist ▸ hl, hpoints ▸ hbox, hpoints ▸ hin.subset, hin.area⟩,
    hpoints⟩
  obtain ⟨stale, hs⟩ := hrects (hn ▸ h1)
  simp [hn, hs]

theorem mergeFromLeft_pos {p : Place} {a b : QRect} (hp : d.read p = .ok a)
    (h : canMergeFromLeft a b) :
    d.mergeFromLeft p b = .ok (true, (d.write p { a with left := b.left }).updateInnerRect
      { a with left := b.left }) := by
  unfold mergeFromLeft
  rw [hp, ok_bind, if_pos h]
  rfl

theorem mergeFromLeft_neg {p : Place} {a b : QRect} (hp : d.read p = .ok a)
    (h : ¬ canMergeFromLeft a b) : d.mergeFromLeft p b = .ok (false, d) := by
  unfold mergeFromLeft
  rw [hp, ok_bind, if_neg h]
  rfl

theorem mergeFromAbove_pos {p : Place} {a t : QRect} {na nt : Option QRect} (hp : d.read p = .ok a)
    (h : canMergeFromBelow t a nt na) :
    d.mergeFromAbove p t na nt = .ok (true, (d.write p { a with top := t.top }).updateInnerRect
      { a with top := t.top }) := by
  unfold mergeFromAbove
  rw [hp, ok_bind, if_pos h]
  rfl

theorem mergeFromAbove_neg {p : Place} {a t : QRect} {na nt : Option QRect} (hp : d.read p = .ok a)
    (h : ¬ canMergeFromBelow t a nt na) :
    d.mergeFromAbove p t na nt = .ok (false, d) := by
  unfold mergeFromAbove
  rw [hp, ok_bind, if_neg h]
  rfl

theorem readAt_append {m : List QRect} {r : QRect} : readAt (l ++ r :: m) l.length = .ok r := by
  simp [readAt]

theorem readIf_head {condition : Prop} [Decidable condition] {l m stale : List QRect}
    (h : condition ↔ m ≠ []) : readIf condition (l ++ (m ++ stale)) l.length = .ok m.head? := by
  unfold readIf
  cases m with
  | nil => rw [if_neg (by simpa using h)]; rfl
  | cons r m =>
    rw [if_pos (h.mpr (by simp)), cons_append, readAt_append]
    rfl

theorem readIf_last {condition : Prop} [Decidable condition] {stale : List QRect}
    (h : condition ↔ l ≠ []) : readIf condition (l ++ stale) (l.length - 1) = .ok l.getLast? := by
  unfold readIf
  rcases eq_nil_or_concat l with rfl | ⟨l, r, rfl⟩
  · rw [if_neg (by simpa using h)]
    rfl
  · rw [if_pos (h.mpr (by simp))]
    simp [readAt]

end QRegionPrivate
end QtBase
