import Mathlib.Data.List.Infix
import QtBase.Gui.RegionAppend

/-! `QRegionPrivate::intersect`: a region is clipped to a rectangle, in place. -/
namespace QtBase

open List

namespace QRect

/-- `normalized()` -/
def normalized (r : QRect) : QRect :=
  let r := if r.right < r.left then { r with left := r.right + 1, right := r.left - 1 } else r
  if r.bottom < r.top then { r with top := r.bottom + 1, bottom := r.top - 1 } else r

def isNull (r : QRect) : Prop := r.right = r.left - 1 ∧ r.bottom = r.top - 1

instance (r : QRect) : Decidable r.isNull := inferInstanceAs (Decidable (_ ∧ _))

/-- The edges that `intersects` compares, for one direction. -/
def ordered (x₁ x₂ : ℤ) : ℤ × ℤ := if x₂ < x₁ - 1 then (x₂ + 1, x₁ - 1) else (x₁, x₂)

/-- `intersects(const QRect &r)` -/
def intersects (s r : QRect) : Prop :=
  ¬ (s.isNull ∨ r.isNull) ∧
    ¬ ((ordered s.left s.right).1 > (ordered r.left r.right).2 ∨
      (ordered r.left r.right).1 > (ordered s.left s.right).2) ∧
    ¬ ((ordered s.top s.bottom).1 > (ordered r.top r.bottom).2 ∨
      (ordered r.top r.bottom).1 > (ordered s.top s.bottom).2)

instance (s r : QRect) : Decidable (s.intersects r) := inferInstanceAs (Decidable (_ ∧ _))

def qt_rect_intersect_normalized (r₁ r₂ : QRect) : QRect :=
  ⟨max r₁.left r₂.left, max r₁.top r₂.top, min r₁.right r₂.right, min r₁.bottom r₂.bottom⟩

theorem points_intersect (s r : QRect) :
    (qt_rect_intersect_normalized s r).points = s.points ∩ r.points := by
  ext p
  simp only [Set.mem_inter_iff, mem_points, qt_rect_intersect_normalized, max_le_iff, le_min_iff]
  omega

theorem points_eq_empty {r : QRect} (h : r.isEmpty) : r.points = ∅ := by
  ext p
  simp only [mem_points, Set.mem_empty_iff_false, iff_false]
  unfold isEmpty at h
  omega

theorem Before.intersect {s t : QRect} (h : s.Before t) (r : QRect) :
    (qt_rect_intersect_normalized s r).Before (qt_rect_intersect_normalized t r) := by
  unfold Before qt_rect_intersect_normalized at *
  dsimp only
  omega

end QRect

namespace QRegionPrivate

open QRect

/-- Whether the clipped band ends with `dest`: `!n || src->y() != dest->y() || src->left() >
r.right()`. -/
def bandEnds (d : QRegionPrivate) (r dest : QRect) (n src : ℕ) : Exec Bool :=
  if n = 0 then .ok true
  else do
    let next ← readAt d.rects src
    return next.top ≠ dest.top ∨ next.left > r.right

/-- `updateInnerRect(*dest); ++dest; ++numRects;` -/
def keepDest (d : QRegionPrivate) (dest : QRect) : QRegionPrivate :=
  { d.updateInnerRect dest with numRects := d.numRects + 1 }

/-- A round of the loop, after which `n` are left. What it keeps is at `rects + numRects`. -/
def intersectOne (d : QRegionPrivate) (r : QRect) (n src : ℕ) : Exec QRegionPrivate := do
  let dest := qt_rect_intersect_normalized (← readAt d.rects src) r
  qAssert (d.numRects < d.rects.length)
  let d := d.write (.rect d.numRects) dest
  if dest.isEmpty then return d
  else if d.numRects = 0 then return { d with extents := dest }.keepDest dest
  else
    let d := { d with
      extents := ⟨min d.extents.left dest.left, d.extents.top, max d.extents.right dest.right,
        max d.extents.bottom dest.bottom⟩ }
    let nextToLast ← readIf (d.numRects > 1) d.rects (d.numRects - 2)
    let prev ← readAt d.rects (d.numRects - 1)
    if canMergeFromBelow prev dest nextToLast none then
      if ← d.bandEnds r dest n (src + 1) then
        let prev := { prev with bottom := dest.bottom }
        return (d.write (.rect (d.numRects - 1)) prev).updateInnerRect prev
      else return d.keepDest dest
    else return d.keepDest dest

def intersectLoop (r : QRect) : ℕ → ℕ → QRegionPrivate → Exec QRegionPrivate
  | 0, _, d => .ok d
  | n + 1, src, d => do intersectLoop r n (src + 1) (← d.intersectOne r n src)

/-- `intersect(const QRect &rect)` -/
def intersect (d : QRegionPrivate) (rect : QRect) : Exec QRegionPrivate := do
  qAssert (d.extents.intersects rect)
  qAssert (d.numRects > 1)
  intersectLoop rect.normalized d.numRects 0
    { d with extents := default, innerRect := default, innerArea := -1, numRects := 0 }

/-- What is left of the rectangles of a region. -/
def clipped (r : QRect) (rects : List QRect) : List QRect :=
  (rects.map (qt_rect_intersect_normalized · r)).filter fun s => ¬ s.isEmpty

/-- Whether the nearest of the rectangles `above`, which is their first, can be merged with `r`. -/
def Joins (above : List QRect) (r : QRect) (next : Option QRect) : Prop :=
  match above with
  | [] => False
  | last :: above => canMergeFromBelow last r above.head? next

instance : ∀ (above : List QRect) (r : QRect) (next : Option QRect), Decidable (Joins above r next)
  | [], _, _ => inferInstanceAs (Decidable False)
  | last :: above, r, next =>
    inferInstanceAs (Decidable (canMergeFromBelow last r above.head? next))

def towersBelow : List QRect → ℤ → List QRect → List QRect
  | _, _, [] => []
  | above, top, r :: rects =>
    let top := if Joins above r rects.head? then top else r.top
    { r with top } :: towersBelow (r :: above) top rects

/-- Every rectangle, raised by those above it that fill their bands between the same columns. -/
def towers (rects : List QRect) : List QRect := towersBelow [] 0 rects

/-- The first of the towers with the largest `int` area is as high as any that begins where it
does. -/
def LargestIsWhole (towers : List QRect) : Prop :=
  ∃ l s m, towers = l ++ s :: m ∧ 0 ≤ s.area ∧ (∀ t ∈ l, t.area < s.area) ∧
    (∀ t ∈ m, t.area ≤ s.area) ∧
    ∀ t ∈ towers, t.left = s.left → t.top = s.top → t.bottom ≤ s.bottom

section Clipped

variable {r s : QRect} {rects : List QRect}

theorem clipped_cons_empty (h : (qt_rect_intersect_normalized s r).isEmpty) :
    clipped r (s :: rects) = clipped r rects := by
  rw [clipped, map_cons, filter_cons_of_neg (by simpa using h), clipped]

theorem clipped_cons (h : ¬ (qt_rect_intersect_normalized s r).isEmpty) :
    clipped r (s :: rects) = qt_rect_intersect_normalized s r :: clipped r rects := by
  rw [clipped, map_cons, filter_cons_of_pos (by simpa using h), clipped]

theorem mem_clipped {t : QRect} : t ∈ clipped r rects ↔
    (∃ s ∈ rects, qt_rect_intersect_normalized s r = t) ∧ ¬ t.isEmpty := by
  simp [clipped]

theorem canonical_clipped (h : Canonical rects) (r : QRect) : Canonical (clipped r rects) := by
  induction rects with
  | nil => exact ⟨by simp [clipped], List.Pairwise.nil⟩
  | cons s rects ih =>
    obtain ⟨hs, hrects, hbefore⟩ := Canonical.cons_iff.1 h
    by_cases hempty : (qt_rect_intersect_normalized s r).isEmpty
    · rw [clipped_cons_empty hempty]
      exact ih hrects
    · rw [clipped_cons hempty]
      refine Canonical.cons_iff.2 ⟨hempty, ih hrects, fun t ht => ?_⟩
      obtain ⟨⟨u, hu, rfl⟩, -⟩ := mem_clipped.1 ht
      exact (hbefore u hu).intersect r

theorem pointsOf_clipped (r : QRect) (rects : List QRect) :
    pointsOf (clipped r rects) = pointsOf rects ∩ r.points := by
  induction rects with
  | nil => simp [clipped]
  | cons s rects ih =>
    by_cases hempty : (qt_rect_intersect_normalized s r).isEmpty
    · have hpts := points_intersect s r
      rw [points_eq_empty hempty] at hpts
      rw [clipped_cons_empty hempty, ih, pointsOf_cons, Set.union_inter_distrib_right, ← hpts,
        Set.empty_union]
    · rw [clipped_cons hempty, pointsOf_cons, pointsOf_cons, ih, points_intersect,
        Set.union_inter_distrib_right]

end Clipped

/-- What `updateInnerRect` makes of `innerArea` and `innerRect`. -/
def keepLarger (best : ℤ × QRect) (s : QRect) : ℤ × QRect :=
  if s.area > best.1 then (s.area, s) else best

theorem updateInnerRect_inner (d : QRegionPrivate) (s : QRect) :
    ((d.updateInnerRect s).innerArea, (d.updateInnerRect s).innerRect) =
      keepLarger (d.innerArea, d.innerRect) s := by
  unfold updateInnerRect keepLarger
  split_ifs <;> rfl

section Largest

variable {best : ℤ × QRect} {K m : List QRect} {s : QRect}

theorem keepLarger_all_lt (hbest : best.1 < s.area) (hm : ∀ t ∈ m, t.area < s.area) :
    (m.foldl keepLarger best).1 < s.area := by
  induction m generalizing best with
  | nil => exact hbest
  | cons t m ih =>
    rw [foldl_cons]
    refine ih ?_ fun u hu => hm u (by simp [hu])
    unfold keepLarger
    split_ifs
    · exact hm t (by simp)
    · exact hbest

theorem keepLarger_all_le (hm : ∀ t ∈ m, t.area ≤ s.area) :
    m.foldl keepLarger (s.area, s) = (s.area, s) := by
  induction m with
  | nil => rfl
  | cons t m ih =>
    have ht : keepLarger (s.area, s) t = (s.area, s) := if_neg (by simpa using hm t (by simp))
    rw [foldl_cons, ht]
    exact ih fun u hu => hm u (by simp [hu])

theorem foldl_keepLarger (K : List QRect) :
    K.foldl keepLarger (-1, default) = (-1, default) ∧ (∀ t ∈ K, t.area ≤ -1) ∨
      ∃ l s m, K = l ++ s :: m ∧ K.foldl keepLarger (-1, default) = (s.area, s) ∧ 0 ≤ s.area ∧
        (∀ t ∈ l, t.area < s.area) ∧ ∀ t ∈ m, t.area ≤ s.area := by
  induction K using List.reverseRecOn with
  | nil => exact .inl ⟨rfl, by simp⟩
  | append_singleton K t ih =>
    rw [foldl_append, foldl_cons, foldl_nil]
    rcases ih with ⟨hfold, hall⟩ | ⟨l, s, m, rfl, hfold, hs, hl, hm⟩
    · rw [hfold]
      by_cases ht : t.area > -1
      · refine .inr ⟨K, t, [], rfl, if_pos ht, by omega, fun u hu => ?_, by simp⟩
        have := hall u hu
        omega
      · refine .inl ⟨if_neg ht, fun u hu => ?_⟩
        rcases mem_append.mp hu with hu | hu
        · exact hall u hu
        · rw [mem_singleton.mp hu]
          omega
    · rw [hfold]
      by_cases ht : t.area > s.area
      · refine .inr ⟨l ++ s :: m, t, [], rfl, if_pos ht, by omega, fun u hu => ?_, by simp⟩
        rcases mem_append.mp hu with hu | hu
        · exact (hl u hu).trans ht
        · rcases mem_cons.mp hu with rfl | hu
          · exact ht
          · exact (hm u hu).trans_lt ht
      · refine .inr ⟨l, s, m ++ [t], by simp, if_neg ht, hs, hl, fun u hu => ?_⟩
        rcases mem_append.mp hu with hu | hu
        · exact hm u hu
        · rw [mem_singleton.mp hu]
          omega

theorem largestIsWhole_iff {out : List QRect} (hcan : Canonical out)
    (hwhole : ∀ s, s ∈ out ↔
      s ∈ K ∧ ∀ t ∈ K, t.left = s.left → t.top = s.top → t.bottom ≤ s.bottom) :
    (K.foldl keepLarger (-1, default)).2 ∈ out ↔ LargestIsWhole K := by
  constructor
  · intro h
    rcases foldl_keepLarger K with ⟨hfold, -⟩ | ⟨l, s, m, hK, hfold, hs, hl, hm⟩
    · rw [hfold] at h
      exact absurd (by decide) (hcan.nonempty _ h)
    · rw [hfold] at h
      exact ⟨l, s, m, hK, hs, hl, hm, ((hwhole s).1 h).2⟩
  · rintro ⟨l, s, m, rfl, hs, hl, hm, htop⟩
    have hfirst : (-1 : ℤ) < s.area := by omega
    have hlt := @keepLarger_all_lt (-1, default) l s hfirst hl
    rw [foldl_append, foldl_cons, keepLarger, if_pos hlt, keepLarger_all_le hm]
    exact (hwhole s).2 ⟨by simp, htop⟩

theorem area_eq {r : QRect} (hr : ¬ r.isEmpty) (hfit : r.width * r.height < 2 ^ 31) :
    r.area = r.width * r.height ∧ 0 < r.area := by
  rw [not_isEmpty] at hr
  have hpos : 0 < r.width * r.height := by
    unfold width height
    exact Int.mul_pos (by omega) (by omega)
  have harea : r.area = r.width * r.height := by
    unfold area
    rw [Int.bmod_eq_of_le] <;> omega
  exact ⟨harea, harea ▸ hpos⟩

theorem largestIsWhole_of_fit (hne : K ≠ []) (hK : ∀ s ∈ K, ¬ s.isEmpty)
    (hright : ∀ s ∈ K, ∀ t ∈ K, t.left = s.left → t.top = s.top → t.right = s.right)
    (hfit : ∀ s ∈ K, s.width * s.height < 2 ^ 31) : LargestIsWhole K := by
  rcases foldl_keepLarger K with ⟨-, hall⟩ | ⟨l, s, m, rfl, -, hs, hl, hm⟩
  · obtain ⟨s, l, rfl⟩ := exists_cons_of_ne_nil hne
    have hpos := (area_eq (hK s (by simp)) (hfit s (by simp))).2
    have hle := hall s (by simp)
    omega
  · refine ⟨l, s, m, rfl, hs, hl, hm, fun t ht hleft htop => ?_⟩
    have hmax : t.area ≤ s.area := by
      rcases mem_append.mp ht with h | h
      · exact (hl t h).le
      · rcases mem_cons.mp h with rfl | h
        · exact le_rfl
        · exact hm t h
    have hsmem : s ∈ l ++ s :: m := by simp
    have hr := hright s hsmem t ht hleft htop
    have hne' := hK s hsmem
    rw [(area_eq (hK t ht) (hfit t ht)).1, (area_eq hne' (hfit s hsmem)).1] at hmax
    rw [not_isEmpty] at hne'
    unfold width height at hmax
    rw [hleft, hr, htop] at hmax
    have := Int.le_of_mul_le_mul_left hmax (by omega)
    omega

end Largest

/-- `src` stands at the next rectangle of the band, and it is not right of `r`. -/
def BandEnds (r dest : QRect) (rest : List QRect) : Prop :=
  ∀ next ∈ rest.head?, next.top ≠ dest.top ∨ next.left > r.right

instance (r dest : QRect) (rest : List QRect) : Decidable (BandEnds r dest rest) :=
  inferInstanceAs (Decidable (∀ next ∈ _, _))

theorem bandEnds_eq {d : QRegionPrivate} {r dest : QRect} {front rest stale : List QRect}
    (h : d.rects = front ++ (rest ++ stale)) :
    d.bandEnds r dest rest.length front.length = .ok (decide (BandEnds r dest rest)) := by
  unfold bandEnds
  cases rest with
  | nil =>
    rw [length_nil, if_pos rfl]
    simp [BandEnds]
  | cons next rest =>
    rw [if_neg (by simp), h, cons_append, readAt_append, ok_bind]
    simp [BandEnds]

theorem bandEnds_iff {r s : QRect} {rest : List QRect} (h : Canonical (s :: rest))
    (hclip : ¬ (qt_rect_intersect_normalized s r).isEmpty) (htop : r.top < s.top) :
    BandEnds r (qt_rect_intersect_normalized s r) rest ↔
      ∀ next ∈ (clipped r rest).head?, next.top ≠ (qt_rect_intersect_normalized s r).top := by
  obtain ⟨hs, hrest, hsr⟩ := Canonical.cons_iff.1 h
  rw [not_isEmpty] at hs hclip
  simp only [qt_rect_intersect_normalized] at hclip ⊢
  constructor
  · intro hends t ht heq
    obtain ⟨⟨u, hu, rfl⟩, hne⟩ := mem_clipped.1 (mem_of_mem_head? ht)
    rw [not_isEmpty] at hne
    simp only [qt_rect_intersect_normalized] at hne heq
    cases rest with
    | nil => cases hu
    | cons next rest =>
      obtain ⟨hn, -, hnr⟩ := Canonical.cons_iff.1 hrest
      have hnext := hends next (by simp)
      have hsn := hsr next (by simp)
      rw [not_isEmpty] at hn
      simp only at hnext
      unfold Before at hsn
      rcases mem_cons.mp hu with rfl | hu
      · omega
      · have hnu := hnr u hu
        unfold Before at hnu
        rw [max_eq_left htop.le] at heq hnext
        clear hclip
        omega
  · intro hends next hnext
    cases rest with
    | nil => cases hnext
    | cons s' rest =>
      obtain rfl : s' = next := by simpa using hnext
      by_contra hcont
      have hsn := hsr s' (by simp)
      have hn := hrest.nonempty s' (by simp)
      rw [not_isEmpty] at hn
      simp only at hcont
      unfold Before at hsn
      have hclip' : ¬ (qt_rect_intersect_normalized s' r).isEmpty := by
        rw [not_isEmpty]
        simp only [qt_rect_intersect_normalized]
        omega
      have hhead := hends (qt_rect_intersect_normalized s' r) (by rw [clipped_cons hclip']; simp)
      simp only [qt_rect_intersect_normalized] at hhead
      omega

/-- `e`, kept after those in `kept`, is what became of `x`, the last of the clipped rectangles so
far. Those in `above` came before it, and `ahead` come after it. -/
structure Linked (r : QRect) (kept : List QRect) (e x : QRect) (above ahead : List QRect) :
    Prop where
  tower : e = { x with top := e.top }
  nonempty : ¬ x.isEmpty
  inside : r.top ≤ x.top
  top_le : e.top ≤ x.top
  before : ∀ t ∈ ahead, x.Before t
  continued : ∀ t ∈ ahead.head?, t.top = x.top → e.top = x.top
  alone : (∀ w ∈ kept.getLast?, w.top ≠ e.top) ↔ ∀ z ∈ above.head?, z.top ≠ x.top

namespace Linked

variable {r e x y : QRect} {kept above ahead : List QRect}

theorem edges (h : Linked r kept e x above ahead) :
    e.left = x.left ∧ e.right = x.right ∧ e.bottom = x.bottom := by
  rw [h.tower]
  exact ⟨rfl, rfl, rfl⟩

/-- The code compares `e` with the next rectangle, and so decides what `x` would decide. -/
theorem joins_iff (h : Linked r kept e x above (y :: ahead)) :
    canMergeFromBelow e y kept.getLast? none ∧ (∀ next ∈ ahead.head?, next.top ≠ y.top) ↔
      Joins (x :: above) y ahead.head? := by
  obtain ⟨hleft, hright, hbottom⟩ := h.edges
  have halone := h.alone
  unfold Joins canMergeFromBelow
  rw [hleft, hright, hbottom]
  simp only [Option.mem_def, reduceCtorEq, false_imp_iff, implies_true, true_and] at halone ⊢
  rw [halone]
  tauto

theorem top_lt (h : Linked r kept e x above (y :: ahead)) (hleft : x.left = y.left) :
    x.bottom < y.top := by
  have hx := h.nonempty
  have hxy := h.before y (by simp)
  rw [not_isEmpty] at hx
  unfold Before at hxy
  omega

theorem keep (h : Linked r kept e x above (y :: ahead)) (hcan : Canonical (y :: ahead)) :
    Linked r (kept ++ [e]) y y (x :: above) ahead := by
  obtain ⟨hy, -, hahead⟩ := Canonical.cons_iff.1 hcan
  have hx := h.nonempty
  have htop := h.top_le
  have hxy := h.before y (by simp)
  have hcont := h.continued y (by simp)
  rw [not_isEmpty] at hx
  have hle : x.top ≤ y.top := by
    unfold Before at hxy
    omega
  refine ⟨rfl, hy, h.inside.trans hle, le_rfl, hahead, fun _ _ _ => rfl, ?_⟩
  simp only [getLast?_concat, Option.mem_some_iff, forall_eq', head?_cons]
  omega

theorem merge (h : Linked r kept e x above (y :: ahead)) (hcan : Canonical (y :: ahead))
    (hc : Joins (x :: above) y ahead.head?) :
    Linked r kept { e with bottom := y.bottom } y (x :: above) ahead := by
  obtain ⟨hy, -, hahead⟩ := Canonical.cons_iff.1 hcan
  obtain ⟨habove, hnext, -, hleft, hright⟩ := hc
  obtain ⟨hl, hr, -⟩ := h.edges
  have hx := h.nonempty
  have htop := h.top_le
  have hlt := h.top_lt hleft
  have hinside := h.inside
  rw [not_isEmpty] at hx
  refine ⟨?_, hy, by omega, ?_, hahead, fun t ht heq => absurd heq (hnext t ht), ?_⟩
  · ext <;> simp [hl, hr, hleft, hright]
  · dsimp only
    omega
  · refine iff_of_true (h.alone.2 habove) ?_
    simp only [head?_cons, Option.mem_some_iff, forall_eq']
    omega

end Linked

/-- During `intersect` the region has kept `out`, and `rest` begins at `src`. `K` are the towers so
far. Together, what is kept and what is left are the points `S`. -/
structure Clipping (S : Set (ℤ × ℤ)) (r : QRect) (d : QRegionPrivate) (src : ℕ)
    (rest out K : List QRect) : Prop where
  rects : ∃ junk stale, d.rects = out ++ junk ++ (rest ++ stale) ∧ (out ++ junk).length = src
  numRects : d.numRects = out.length
  source : Canonical rest
  canonical : Canonical (out ++ clipped r rest)
  points : pointsOf (out ++ clipped r rest) = S
  extents : if out = [] then d.extents = default else IsBoundingBox d.extents (pointsOf out)
  inner : (d.innerArea, d.innerRect) = K.foldl keepLarger (-1, default)
  whole : ∀ s, s ∈ out ↔
    s ∈ K ∧ ∀ t ∈ K, t.left = s.left → t.top = s.top → t.bottom ≤ s.bottom
  grown : ∀ s ∈ K, ∃ t ∈ out, t.left = s.left ∧ t.top = s.top ∧ t.right = s.right
  before : ∀ s ∈ K, ¬ s.isEmpty ∧ ∀ t ∈ clipped r rest, s.Before t

namespace Clipping

variable {S : Set (ℤ × ℤ)} {r s : QRect} {d : QRegionPrivate} {src : ℕ}
  {rest out kept K : List QRect} {e : QRect}

theorem read_src (h : Clipping S r d src (s :: rest) out K) : readAt d.rects src = .ok s := by
  obtain ⟨junk, stale, hs, hlen⟩ := h.rects
  rw [hs, ← hlen]
  exact readAt_append

theorem room (h : Clipping S r d src (s :: rest) out K) : d.numRects < d.rects.length := by
  obtain ⟨junk, stale, hs, hlen⟩ := h.rects
  simp only [hs, h.numRects, length_append, length_cons]
  omega

theorem write_dest (h : Clipping S r d src (s :: rest) out K) (y : QRect) :
    ∃ junk stale, (d.write (.rect d.numRects) y).rects = out ++ y :: junk ++ (rest ++ stale) ∧
      (out ++ y :: junk).length = src + 1 := by
  obtain ⟨junk, stale, hs, hlen⟩ := h.rects
  cases junk with
  | nil => exact ⟨[], stale, by simp [write, hs, h.numRects], by simpa using hlen⟩
  | cons j junk =>
    refine ⟨junk ++ [s], stale, by simp [write, hs, h.numRects], ?_⟩
    simp only [length_append, length_cons] at hlen ⊢
    simp
    omega

/-- Nothing is left of the rectangle. -/
theorem skip (h : Clipping S r d src (s :: rest) out K)
    (hclip : (qt_rect_intersect_normalized s r).isEmpty) :
    Clipping S r (d.write (.rect d.numRects) (qt_rect_intersect_normalized s r)) (src + 1) rest
      out K := by
  obtain ⟨junk, stale, hs, hlen⟩ := h.write_dest (qt_rect_intersect_normalized s r)
  have hrest := @clipped_cons_empty r s rest hclip
  refine ⟨⟨_ :: junk, stale, hs, hlen⟩, h.numRects, (Canonical.cons_iff.1 h.source).2.1,
    hrest ▸ h.canonical, hrest ▸ h.points, h.extents, h.inner, h.whole, h.grown,
    hrest ▸ h.before⟩

/-- The rectangle is kept as one of its own. -/
theorem keep (h : Clipping S r d src (s :: rest) out K)
    (hclip : ¬ (qt_rect_intersect_normalized s r).isEmpty) {box : QRect}
    (hbox : IsBoundingBox box (pointsOf (out ++ [qt_rect_intersect_normalized s r]))) :
    Clipping S r (QRegionPrivate.keepDest
      { d.write (.rect d.numRects) (qt_rect_intersect_normalized s r) with extents := box }
      (qt_rect_intersect_normalized s r)) (src + 1) rest
      (out ++ [qt_rect_intersect_normalized s r]) (K ++ [qt_rect_intersect_normalized s r]) := by
  have hwrite := h.write_dest (qt_rect_intersect_normalized s r)
  have hcan := h.canonical
  have hpoints := h.points
  have hbefore := h.before
  rw [clipped_cons hclip] at hcan hpoints hbefore
  generalize qt_rect_intersect_normalized s r = y at *
  obtain ⟨junk, stale, hs, hlen⟩ := hwrite
  obtain ⟨hy, -, hyr⟩ := Canonical.cons_iff.1 (Canonical.append_iff.1 hcan).2.1
  -- no tower so far begins where the new one does
  have hcorner : ∀ t ∈ K, t.left = y.left → t.top ≠ y.top := by
    intro t ht hleft htop
    obtain ⟨hne, hty⟩ := hbefore t ht
    have hty := hty y (by simp)
    rw [not_isEmpty] at hne
    unfold Before at hty
    omega
  refine ⟨⟨junk, stale, ?_, by simpa using hlen⟩, ?_, (Canonical.cons_iff.1 h.source).2.1,
    by simpa using hcan, by simpa using hpoints, ?_, ?_, fun u => ?_, fun u hu => ?_,
    fun u hu => ?_⟩
  · simpa [keepDest] using hs
  · simp [keepDest, write, h.numRects]
  · rw [if_neg (by simp)]
    simpa [keepDest] using hbox
  · rw [foldl_append, ← h.inner]
    exact updateInnerRect_inner _ y
  · rw [mem_append, mem_append, h.whole, mem_singleton]
    constructor
    · rintro (⟨hu, hall⟩ | rfl)
      · refine ⟨.inl hu, fun t ht hleft htop => ?_⟩
        rcases mem_append.mp ht with ht | ht
        · exact hall t ht hleft htop
        · rw [mem_singleton.mp ht] at hleft htop
          exact absurd htop.symm (hcorner u hu hleft.symm)
      · refine ⟨.inr rfl, fun t ht hleft htop => ?_⟩
        rcases mem_append.mp ht with ht | ht
        · exact absurd htop (hcorner t ht hleft)
        · rw [mem_singleton.mp ht]
    · rintro ⟨hu | rfl, hall⟩
      · exact .inl ⟨hu, fun t ht => hall t (by simp [ht])⟩
      · exact .inr rfl
  · rcases mem_append.mp hu with hu | hu
    · obtain ⟨t, ht, hsame⟩ := h.grown u hu
      exact ⟨t, by simp [ht], hsame⟩
    · exact ⟨y, by simp, by simp [mem_singleton.mp hu]⟩
  · rcases mem_append.mp hu with hu | hu
    · exact ⟨(hbefore u hu).1, fun t ht => (hbefore u hu).2 t (by simp [ht])⟩
    · rw [mem_singleton.mp hu]
      exact ⟨hy, hyr⟩

/-- The rectangle raises the last one kept. -/
theorem merge (h : Clipping S r d src (s :: rest) (kept ++ [e]) K)
    (hclip : ¬ (qt_rect_intersect_normalized s r).isEmpty) {box : QRect}
    (hbox : IsBoundingBox box (pointsOf (kept ++ [e, qt_rect_intersect_normalized s r])))
    (hc : canMergeFromBelow e (qt_rect_intersect_normalized s r) kept.getLast?
      (clipped r rest).head?) :
    Clipping S r (QRegionPrivate.updateInnerRect
      (QRegionPrivate.write
        { d.write (.rect d.numRects) (qt_rect_intersect_normalized s r) with extents := box }
        (.rect (d.numRects - 1)) { e with bottom := (qt_rect_intersect_normalized s r).bottom })
      { e with bottom := (qt_rect_intersect_normalized s r).bottom }) (src + 1) rest
      (kept ++ [{ e with bottom := (qt_rect_intersect_normalized s r).bottom }])
      (K ++ [{ e with bottom := (qt_rect_intersect_normalized s r).bottom }]) := by
  have hwrite := h.write_dest (qt_rect_intersect_normalized s r)
  have hcan := h.canonical
  have hpoints := h.points
  have hbefore := h.before
  rw [clipped_cons hclip] at hcan hpoints hbefore
  generalize qt_rect_intersect_normalized s r = y at *
  obtain ⟨junk, stale, hs, hlen⟩ := hwrite
  have hlist : kept ++ [e] ++ y :: clipped r rest = kept ++ e :: y :: clipped r rest := by simp
  rw [hlist] at hcan hpoints
  obtain ⟨hjoined, hjoinedPts⟩ := joinBelow hcan hc
  have hkept : pointsOf (kept ++ [{ e with bottom := y.bottom }]) = pointsOf (kept ++ [e, y]) := by
    have hcan' : Canonical (kept ++ [e, y]) :=
      (Canonical.append_iff.1 (show Canonical (kept ++ [e, y] ++ clipped r rest) by simpa)).1
    exact (joinBelow hcan' ⟨hc.1, by simp, hc.2.2⟩).2
  have hgrown : e.bottom < y.bottom := by
    obtain ⟨he, hyr, hey⟩ := Canonical.cons_iff.1 (Canonical.append_iff.1 hcan).2.1
    have hy := hyr.nonempty y (by simp)
    have hey := hey y (by simp)
    have hleft := hc.2.2.2.1
    rw [not_isEmpty] at he hy
    unfold Before at hey
    omega
  -- none of those kept before begins where `e` does
  have hcorner : ∀ u ∈ kept, u.left = e.left → u.top ≠ e.top := by
    intro u hu hleft htop
    have hue := (Canonical.append_iff.1 hcan).2.2 u hu e (by simp)
    have hne := hcan.nonempty u (by simp [hu])
    rw [not_isEmpty] at hne
    unfold Before at hue
    omega
  obtain ⟨he, -, her⟩ := Canonical.cons_iff.1 (Canonical.append_iff.1 hjoined).2.1
  obtain ⟨-, heK⟩ := (h.whole e).1 (by simp)
  refine ⟨⟨y :: junk, stale, ?_, by simpa using hlen⟩, ?_, (Canonical.cons_iff.1 h.source).2.1,
    by simpa using hjoined, ?_, ?_, ?_, fun u => ?_, fun u hu => ?_, fun u hu => ?_⟩
  · have hn : d.numRects - 1 = kept.length := by simp [h.numRects]
    have hset : (kept ++ e :: y :: (junk ++ (rest ++ stale))).set kept.length
        { e with bottom := y.bottom } =
          kept ++ { e with bottom := y.bottom } :: y :: (junk ++ (rest ++ stale)) := by simp
    rw [updateInnerRect_rects]
    simpa [write, hn, hset] using congrArg (·.set kept.length { e with bottom := y.bottom }) hs
  · simp [write, h.numRects]
  · rw [← hpoints, ← hjoinedPts]
    simp
  · rw [if_neg (by simp), hkept]
    simpa [write] using hbox
  · rw [foldl_append, ← h.inner]
    exact updateInnerRect_inner _ _
  · rw [mem_append, mem_append, mem_singleton]
    constructor
    · rintro (hu | rfl)
      · obtain ⟨huK, hall⟩ := (h.whole u).1 (by simp [hu])
        refine ⟨.inl huK, fun t ht hleft htop => ?_⟩
        rcases mem_append.mp ht with ht | ht
        · exact hall t ht hleft htop
        · rw [mem_singleton.mp ht] at hleft htop
          exact absurd htop.symm (hcorner u hu hleft.symm)
      · refine ⟨.inr rfl, fun t ht hleft htop => ?_⟩
        rcases mem_append.mp ht with ht | ht
        · exact (heK t ht hleft htop).trans hgrown.le
        · rw [mem_singleton.mp ht]
    · rintro ⟨hu | rfl, hall⟩
      · have huout := (h.whole u).2 ⟨hu, fun t ht => hall t (by simp [ht])⟩
        rcases mem_append.mp huout with hu | hu
        · exact .inl hu
        · have hle := hall { e with bottom := y.bottom } (by simp)
          rw [mem_singleton.mp hu] at hle
          exact absurd (hle rfl rfl) (not_le.2 hgrown)
      · exact .inr rfl
  · have hlast : { e with bottom := y.bottom } ∈ kept ++ [{ e with bottom := y.bottom }] := by simp
    rcases mem_append.mp hu with hu | hu
    · obtain ⟨t, ht, hsame⟩ := h.grown u hu
      rcases mem_append.mp ht with ht | ht
      · exact ⟨t, by simp [ht], hsame⟩
      · rw [mem_singleton.mp ht] at hsame
        exact ⟨_, hlast, hsame⟩
    · exact ⟨_, hlast, by simp [mem_singleton.mp hu]⟩
  · rcases mem_append.mp hu with hu | hu
    · exact ⟨(hbefore u hu).1, fun t ht => (hbefore u hu).2 t (by simp [ht])⟩
    · rw [mem_singleton.mp hu]
      exact ⟨he, her⟩

theorem extents_top (h : Clipping S r d src (s :: rest) (kept ++ [e]) K)
    (hclip : ¬ (qt_rect_intersect_normalized s r).isEmpty) :
    d.extents.top ≤ (qt_rect_intersect_normalized s r).top := by
  have hbox := h.extents
  have hcan := h.canonical
  rw [if_neg (by simp)] at hbox
  rw [clipped_cons hclip] at hcan
  have hbefore := (Canonical.append_iff.1 hcan).2.2 e (by simp) _ (mem_cons_self ..)
  have he := hcan.nonempty e (by simp)
  rw [not_isEmpty] at he
  have hcorner : (e.left, e.top) ∈ d.extents.points :=
    hbox.subset (subset_pointsOf (r := e) (by simp) ⟨⟨le_rfl, he.1⟩, le_rfl, he.2⟩)
  have htop := (mem_points.1 hcorner).2.1
  unfold Before at hbefore
  dsimp only at htop
  omega

theorem extents_spec (h : Clipping S r d src (s :: rest) (kept ++ [e]) K)
    (hclip : ¬ (qt_rect_intersect_normalized s r).isEmpty) :
    IsBoundingBox ⟨min d.extents.left (qt_rect_intersect_normalized s r).left, d.extents.top,
      max d.extents.right (qt_rect_intersect_normalized s r).right,
      max d.extents.bottom (qt_rect_intersect_normalized s r).bottom⟩
      (pointsOf (kept ++ [e, qt_rect_intersect_normalized s r])) := by
  have hbox := h.extents
  rw [if_neg (by simp)] at hbox
  have hunion := hbox.union (.of_rect hclip)
  rw [min_eq_left (h.extents_top hclip)] at hunion
  convert hunion using 1
  simp [Set.union_assoc]

end Clipping

/-- The towers `T` are those in `K` and those that grow from what is left. -/
def Pending (T : List QRect) (r : QRect) (rest out K : List QRect) : Prop :=
  out = [] ∧ K = [] ∧ T = towersBelow [] 0 (clipped r rest) ∨
    ∃ kept e x above, out = kept ++ [e] ∧
      T = K ++ towersBelow (x :: above) e.top (clipped r rest) ∧
      Linked r kept e x above (clipped r rest)

section Loop

variable {S : Set (ℤ × ℤ)} {T : List QRect} {r s : QRect} {d : QRegionPrivate} {src : ℕ}
  {rest out kept K : List QRect} {e : QRect}

theorem intersectOne_first (h : Clipping S r d src (s :: rest) [] K)
    (hclip : ¬ (qt_rect_intersect_normalized s r).isEmpty) :
    d.intersectOne r rest.length src = .ok (QRegionPrivate.keepDest
      { d.write (.rect d.numRects) (qt_rect_intersect_normalized s r) with
        extents := qt_rect_intersect_normalized s r } (qt_rect_intersect_normalized s r)) := by
  have hn : (d.write (.rect d.numRects) (qt_rect_intersect_normalized s r)).numRects = 0 :=
    h.numRects
  unfold intersectOne
  rw [h.read_src, ok_bind, qAssert_pos h.room, ok_bind]
  simp [hclip, hn]

theorem intersectOne_next (h : Clipping S r d src (s :: rest) (kept ++ [e]) K)
    (hclip : ¬ (qt_rect_intersect_normalized s r).isEmpty) {box : QRect}
    (hbox : box = ⟨min d.extents.left (qt_rect_intersect_normalized s r).left, d.extents.top,
      max d.extents.right (qt_rect_intersect_normalized s r).right,
      max d.extents.bottom (qt_rect_intersect_normalized s r).bottom⟩) :
    d.intersectOne r rest.length src = .ok
      (if canMergeFromBelow e (qt_rect_intersect_normalized s r) kept.getLast? none ∧
          BandEnds r (qt_rect_intersect_normalized s r) rest then
        QRegionPrivate.updateInnerRect
          (QRegionPrivate.write
            { d.write (.rect d.numRects) (qt_rect_intersect_normalized s r) with extents := box }
            (.rect (d.numRects - 1)) { e with bottom := (qt_rect_intersect_normalized s r).bottom })
          { e with bottom := (qt_rect_intersect_normalized s r).bottom }
      else QRegionPrivate.keepDest
        { d.write (.rect d.numRects) (qt_rect_intersect_normalized s r) with extents := box }
        (qt_rect_intersect_normalized s r)) := by
  obtain ⟨junk, stale, hs, hlen⟩ := h.write_dest (qt_rect_intersect_normalized s r)
  have hn : d.numRects = kept.length + 1 := by simp [h.numRects]
  unfold intersectOne
  rw [h.read_src, ok_bind, qAssert_pos h.room, ok_bind]
  dsimp only
  rw [if_neg hclip]
  generalize qt_rect_intersect_normalized s r = y at *
  obtain ⟨dw, hdw⟩ : ∃ dw, dw = d.write (.rect d.numRects) y := ⟨_, rfl⟩
  have hwn : dw.numRects = kept.length + 1 := hdw ▸ hn
  have hwe : dw.extents = d.extents := hdw ▸ rfl
  have hwr : dw.rects = kept ++ e :: (y :: junk ++ (rest ++ stale)) := by
    rw [hdw, hs]
    simp
  have hlast : readAt dw.rects (dw.numRects - 1) = .ok e := by
    rw [hwr, hwn]
    exact readAt_append
  have hnext : readIf (dw.numRects > 1) dw.rects (dw.numRects - 2) = .ok kept.getLast? := by
    rw [hwr, show dw.numRects - 2 = kept.length - 1 by omega]
    exact readIf_last (by rw [← length_pos_iff]; omega)
  have hends : ({ dw with extents := box } : QRegionPrivate).bandEnds r y rest.length (src + 1) =
      .ok (decide (BandEnds r y rest)) := by
    rw [← hlen]
    exact bandEnds_eq (hdw ▸ hs)
  rw [← hdw, if_neg (by omega), hwe, ← hbox]
  rw [hnext, ok_bind, hlast, ok_bind]
  by_cases hc : canMergeFromBelow e y kept.getLast? none
  · rw [if_pos hc, hends, ok_bind]
    by_cases hb : BandEnds r y rest
    · rw [if_pos (decide_eq_true hb), if_pos ⟨hc, hb⟩, hn, ← hwn]
      rfl
    · rw [if_neg (by simpa using hb), if_neg fun hcb => hb hcb.2]
      rfl
  · rw [if_neg hc, if_neg fun h => hc h.1]
    rfl

theorem merges_iff {x : QRect} {above : List QRect} (hsource : Canonical (s :: rest))
    (hclip : ¬ (qt_rect_intersect_normalized s r).isEmpty)
    (hl : Linked r kept e x above (clipped r (s :: rest))) :
    canMergeFromBelow e (qt_rect_intersect_normalized s r) kept.getLast? none ∧
        BandEnds r (qt_rect_intersect_normalized s r) rest ↔
      Joins (x :: above) (qt_rect_intersect_normalized s r) (clipped r rest).head? := by
  rw [clipped_cons hclip] at hl
  rw [← hl.joins_iff]
  refine and_congr_right fun hc => bandEnds_iff hsource hclip ?_
  have hlt := hl.top_lt (hl.edges.1.symm.trans hc.2.2.2.1)
  have hx := hl.nonempty
  have hinside := hl.inside
  rw [not_isEmpty] at hx
  simp only [qt_rect_intersect_normalized] at hlt
  omega

theorem intersectOne_spec {T : List QRect} (h : Clipping S r d src (s :: rest) out K)
    (hp : Pending T r (s :: rest) out K) :
    ∃ d' out' K', d.intersectOne r rest.length src = .ok d' ∧
      Clipping S r d' (src + 1) rest out' K' ∧ Pending T r rest out' K' := by
  by_cases hclip : (qt_rect_intersect_normalized s r).isEmpty
  · refine ⟨_, out, K, ?_, h.skip hclip, ?_⟩
    · unfold intersectOne
      rw [h.read_src, ok_bind, qAssert_pos h.room, ok_bind]
      simp [hclip]
    · unfold Pending at hp ⊢
      rwa [clipped_cons_empty hclip] at hp
  have hcan := (Canonical.append_iff.1 h.canonical).2.1
  rw [clipped_cons hclip] at hcan
  obtain ⟨hy, -, hyr⟩ := Canonical.cons_iff.1 hcan
  rcases hp with ⟨rfl, rfl, hT⟩ | ⟨kept, e, x, above, rfl, hT, hl⟩
  · refine ⟨_, _, _, intersectOne_first h hclip, h.keep hclip (by simpa using .of_rect hclip),
      .inr ⟨[], _, _, [], rfl, ?_, rfl, hy, ?_, le_rfl, hyr, fun _ _ _ => rfl, by simp⟩⟩
    · rw [hT, clipped_cons hclip]
      simp [towersBelow, Joins]
    · simp [qt_rect_intersect_normalized]
  · have hrun := intersectOne_next h hclip rfl
    have hmerges := merges_iff h.source hclip hl
    rw [clipped_cons hclip] at hl hT
    rw [towersBelow] at hT
    by_cases hc : Joins (x :: above) (qt_rect_intersect_normalized s r) (clipped r rest).head?
    · obtain ⟨hbelow, hnext⟩ := hl.joins_iff.2 hc
      rw [if_pos (hmerges.2 hc)] at hrun
      refine ⟨_, _, _, hrun, h.merge hclip (h.extents_spec hclip) ⟨hbelow.1, hnext, hbelow.2.2⟩,
        .inr ⟨kept, _, _, _, rfl, ?_, hl.merge hcan hc⟩⟩
      have htower := (hl.merge hcan hc).tower
      dsimp only at htower
      rw [if_pos hc, ← htower] at hT
      simpa using hT
    · rw [if_neg fun hm => hc (hmerges.1 hm)] at hrun
      refine ⟨_, _, _, hrun, h.keep hclip (by simpa using h.extents_spec hclip),
        .inr ⟨kept ++ [e], _, _, _, rfl, ?_, hl.keep hcan⟩⟩
      rw [if_neg hc] at hT
      simpa using hT

theorem intersectLoop_spec {T : List QRect} (h : Clipping S r d src rest out K)
    (hp : Pending T r rest out K) :
    ∃ d' out' src', intersectLoop r rest.length src d = .ok d' ∧
      Clipping S r d' src' [] out' T := by
  induction rest generalizing d src out K with
  | nil =>
    have hT : T = K := by
      rcases hp with ⟨-, rfl, hT⟩ | ⟨kept, e, x, above, -, hT, -⟩
      · exact hT
      · exact hT.trans (append_nil K)
    exact ⟨d, out, src, rfl, hT ▸ h⟩
  | cons s rest ih =>
    obtain ⟨d', out', K', hrun, h', hp'⟩ := intersectOne_spec h hp
    obtain ⟨d'', out'', src'', hrun', h''⟩ := ih h' hp'
    refine ⟨d'', out'', src'', ?_, h''⟩
    rw [length_cons, intersectLoop, hrun, ok_bind, hrun']

end Loop

/-- The rectangle that `extents` or `rects` hold when the loop is done. -/
theorem Clipping.list_eq {S : Set (ℤ × ℤ)} {r : QRect} {d : QRegionPrivate} {src : ℕ}
    {out K : List QRect} (h : Clipping S r d src [] out K) : d.list = out := by
  obtain ⟨junk, stale, hs, -⟩ := h.rects
  have hcan := (Canonical.append_iff.1 h.canonical).1
  have hbox := h.extents
  unfold list
  by_cases h1 : d.numRects = 1
  · obtain ⟨e, rfl⟩ := length_eq_one_iff.mp (h.numRects.symm.trans h1)
    rw [if_neg (by simp)] at hbox
    have hpts : pointsOf [e] = e.points := by simp
    rw [hpts] at hbox
    rw [if_pos h1, hbox.unique (.of_rect (hcan.nonempty e (by simp)))]
  · rw [if_neg h1, hs, h.numRects]
    simp

theorem Clipping.right_eq {S : Set (ℤ × ℤ)} {r : QRect} {d : QRegionPrivate} {src : ℕ}
    {rest out K : List QRect} (h : Clipping S r d src rest out K) :
    ∀ s ∈ K, ∀ t ∈ K, t.left = s.left → t.top = s.top → t.right = s.right := by
  intro s hs t ht hleft htop
  obtain ⟨u, hu, hul, hut, hur⟩ := h.grown s hs
  obtain ⟨v, hv, hvl, hvt, hvr⟩ := h.grown t ht
  have hcan := (Canonical.append_iff.1 h.canonical).1
  have hpair : ∀ {u v : QRect}, u ∈ out → v ∈ out → u.Before v →
      u.left = v.left → u.top = v.top → u = v := by
    intro u v hu _ huv hleft htop
    have hne := hcan.nonempty u hu
    rw [not_isEmpty] at hne
    unfold Before at huv
    omega
  have huv : u = v :=
    List.Pairwise.forall_of_forall_of_flip (R := fun u v => u.left = v.left → u.top = v.top → u = v)
      (fun _ _ _ _ => rfl) (hcan.sorted.imp_of_mem hpair)
      (hcan.sorted.imp_of_mem fun hu hv huv hl ht => (hpair hu hv huv hl.symm ht.symm).symm)
      hu hv (by omega) (by omega)
  rw [← hur, ← hvr, huv]

theorem intersect_clips {d : QRegionPrivate} {rect : QRect} (hcan : Canonical d.list)
    (hsize : d.numRects ≤ d.rects.length) (hn : 1 < d.numRects)
    (hmeets : d.extents.intersects rect) :
    ∃ d', d.intersect rect = .ok d' ∧ Canonical d'.list ∧
      d'.points = d.points ∩ rect.normalized.points ∧
      (if d'.list = [] then d'.extents = default else IsBoundingBox d'.extents d'.points) ∧
      (d'.list = [] ∨ d'.innerRect ∈ d'.list ↔
        d.points ∩ rect.normalized.points = ∅ ∨
          LargestIsWhole (towers (clipped rect.normalized d.list))) ∧
      ((∀ s ∈ towers (clipped rect.normalized d.list), s.width * s.height < 2 ^ 31) →
        d'.list = [] ∨ d'.innerRect ∈ d'.list) := by
  have hlist : d.list = d.rects.take d.numRects := if_neg (by omega)
  have hlen : d.list.length = d.numRects := by rw [hlist, length_take]; omega
  have hstart : Clipping (pointsOf d.list ∩ rect.normalized.points) rect.normalized
      { d with extents := default, innerRect := default, innerArea := -1, numRects := 0 } 0 d.list
      [] [] := by
    refine ⟨⟨[], d.rects.drop d.numRects, ?_, rfl⟩, rfl, hcan,
      by simpa using canonical_clipped hcan _, by simpa using pointsOf_clipped _ _, by simp, rfl,
      by simp, by simp, by simp⟩
    rw [hlist]
    simp
  obtain ⟨d', out, src, hrun, h⟩ := intersectLoop_spec hstart (.inl ⟨rfl, rfl, rfl⟩)
  have hlist' := h.list_eq
  have hout : Canonical out := (Canonical.append_iff.1 h.canonical).1
  have hpts : pointsOf out = d.points ∩ rect.normalized.points := by
    simpa [clipped, points] using h.points
  have hempty : out = [] ↔ d.points ∩ rect.normalized.points = ∅ := by
    rw [← hpts]
    constructor
    · rintro rfl
      simp
    · intro hnone
      by_contra hne
      obtain ⟨e, l, rfl⟩ := exists_cons_of_ne_nil hne
      have he := hout.nonempty e (by simp)
      rw [not_isEmpty] at he
      have hmem : (e.left, e.top) ∈ pointsOf (e :: l) :=
        subset_pointsOf (r := e) (by simp) ⟨⟨le_rfl, he.1⟩, le_rfl, he.2⟩
      rw [hnone] at hmem
      exact hmem
  have hinner : d'.innerRect ∈ out ↔ LargestIsWhole (towers (clipped rect.normalized d.list)) := by
    have hbest := congrArg Prod.snd h.inner
    dsimp only at hbest
    rw [hbest, largestIsWhole_iff hout h.whole]
    rfl
  refine ⟨d', ?_, hlist' ▸ hout, (congrArg pointsOf hlist').trans hpts, ?_, ?_, fun hfit => ?_⟩
  · unfold intersect
    rw [qAssert_pos hmeets, ok_bind, qAssert_pos hn, ok_bind, ← hlen]
    exact hrun
  · rw [hlist', points, hlist']
    exact h.extents
  · rw [hlist', hempty, hinner]
  · rw [hlist', hinner, or_iff_not_imp_left]
    intro hne
    obtain ⟨e, l, rfl⟩ := exists_cons_of_ne_nil hne
    have he := ((h.whole e).1 (by simp)).1
    exact largestIsWhole_of_fit (ne_nil_of_mem he) (fun s hs => (h.before s hs).1)
      h.right_eq hfit

/-- A band of 10 columns above one of 5. -/
def ledge : QRegionPrivate :=
  ⟨2, 50, [⟨0, 0, 9, 4⟩, ⟨0, 5, 4, 9⟩], ⟨0, 0, 9, 9⟩, ⟨0, 0, 9, 4⟩⟩

theorem intersect_clips_ledge :
    ∃ d', ledge.intersect ⟨0, 0, 5, 9⟩ = .ok d' ∧ Canonical d'.list ∧
      d'.points = ledge.points ∩ QRect.points (QRect.normalized ⟨0, 0, 5, 9⟩) ∧
      (if d'.list = [] then d'.extents = default else IsBoundingBox d'.extents d'.points) ∧
      (d'.list = [] ∨ d'.innerRect ∈ d'.list ↔
        ledge.points ∩ QRect.points (QRect.normalized ⟨0, 0, 5, 9⟩) = ∅ ∨
          LargestIsWhole (towers (clipped (QRect.normalized ⟨0, 0, 5, 9⟩) ledge.list))) ∧
      ((∀ s ∈ towers (clipped (QRect.normalized ⟨0, 0, 5, 9⟩) ledge.list),
        s.width * s.height < 2 ^ 31) → d'.list = [] ∨ d'.innerRect ∈ d'.list) :=
  intersect_clips ⟨by decide, by decide⟩ (by decide) (by decide) (by decide)

example : ledge.intersect ⟨0, 0, 4, 7⟩ =
    .ok ⟨1, 40, [⟨0, 0, 4, 7⟩, ⟨0, 5, 4, 7⟩], ⟨0, 0, 4, 7⟩, ⟨0, 0, 4, 7⟩⟩ := by decide

/-- The upper band has 2³¹ points, one more than an `int` holds. -/
def wide : QRegionPrivate :=
  ⟨2, 100, [⟨0, 0, 65535, 32767⟩, ⟨0, 32768, 9, 32777⟩], ⟨0, 0, 65535, 32777⟩,
    ⟨0, 32768, 9, 32777⟩⟩

theorem wide_valid : wide.Valid := by
  have hrun : (ofRect ⟨0, 0, 65535, 32767⟩).appendRect ⟨0, 32768, 9, 32777⟩ = .ok wide := by decide
  obtain ⟨d, hd, hvalid, -⟩ := appendRect_union
    (valid_ofRect (show ¬ QRect.isEmpty ⟨0, 0, 65535, 32767⟩ by decide))
    (show (ofRect ⟨0, 0, 65535, 32767⟩).canAppendRect ⟨0, 32768, 9, 32777⟩ = .ok true by decide)
  obtain rfl : wide = d := Except.ok.inj (hrun.symm.trans hd)
  exact hvalid

/-- What is left is the upper band, but `innerRect` stays empty. -/
theorem intersect_wide : wide.Valid ∧ wide.extents.intersects ⟨0, 0, 65535, 32767⟩ ∧
    ∃ d, wide.intersect ⟨0, 0, 65535, 32767⟩ = .ok d ∧ d.list = [⟨0, 0, 65535, 32767⟩] ∧
      d.innerRect = default ∧ d.innerRect ∉ d.list :=
  ⟨wide_valid, by decide, ⟨1, -1, [⟨0, 0, 65535, 32767⟩, ⟨0, 32768, 9, 32767⟩],
    ⟨0, 0, 65535, 32767⟩, default⟩, by decide, by decide, rfl, by decide⟩

end QRegionPrivate
end QtBase
