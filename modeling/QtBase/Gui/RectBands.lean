import Mathlib.Data.Int.Order.Basic
import Mathlib.Data.Set.Basic
import Mathlib.Order.MinMax
import Mathlib.Tactic.Tauto

/-! Lists of rectangles in bands, and the sets of points they stand for. -/
namespace QtBase

open List

/-- A `QRect`. Its edges belong to it. -/
@[ext] structure QRect where
  left : ℤ
  top : ℤ
  right : ℤ
  bottom : ℤ
  deriving DecidableEq, Repr

namespace QRect

def isEmpty (r : QRect) : Prop := r.left > r.right ∨ r.top > r.bottom

instance (r : QRect) : Decidable r.isEmpty := inferInstanceAs (Decidable (_ ∨ _))

def points (r : QRect) : Set (ℤ × ℤ) :=
  {p | (r.left ≤ p.1 ∧ p.1 ≤ r.right) ∧ r.top ≤ p.2 ∧ p.2 ≤ r.bottom}

theorem mem_points {r : QRect} {p : ℤ × ℤ} :
    p ∈ r.points ↔ (r.left ≤ p.1 ∧ p.1 ≤ r.right) ∧ r.top ≤ p.2 ∧ p.2 ≤ r.bottom := Iff.rfl

theorem not_isEmpty {r : QRect} : ¬ r.isEmpty ↔ r.left ≤ r.right ∧ r.top ≤ r.bottom := by
  simp [isEmpty]

/-- `r` stands in the same band to the left of `s`, or its band ends above that of `s`. -/
def Before (r s : QRect) : Prop :=
  (r.top = s.top ∧ r.bottom = s.bottom ∧ r.right < s.left) ∨ r.bottom < s.top

instance (r s : QRect) : Decidable (r.Before s) := inferInstanceAs (Decidable (_ ∨ _))

theorem Before.trans {r s t : QRect} (hs : ¬ s.isEmpty) (hrs : r.Before s) (hst : s.Before t) :
    r.Before t := by
  rw [not_isEmpty] at hs
  unfold Before at *
  omega

theorem Before.bottom_lt {r s : QRect} (h : r.Before s) (htop : r.top ≠ s.top) :
    r.bottom < s.top := by
  rcases h with h | h
  · exact absurd h.1 htop
  · exact h

theorem Before.above {r s t : QRect} (hs : ¬ s.isEmpty) (hrs : r.Before s)
    (hst : s.bottom < t.top) : r.bottom < t.top := by
  rw [not_isEmpty] at hs
  unfold Before at hrs
  omega

theorem Before.below {r s t : QRect} (hs : ¬ s.isEmpty) (hrs : r.bottom < s.top)
    (hst : s.Before t) : r.bottom < t.top := by
  rw [not_isEmpty] at hs
  unfold Before at hst
  omega

end QRect

open QRect

/-- The rectangles have points, and every one stands before those that follow it. -/
structure Canonical (rects : List QRect) : Prop where
  nonempty : ∀ r ∈ rects, ¬ r.isEmpty
  sorted : rects.Pairwise Before

def pointsOf (rects : List QRect) : Set (ℤ × ℤ) := {p | ∃ r ∈ rects, p ∈ r.points}

theorem mem_pointsOf {rects : List QRect} {p : ℤ × ℤ} :
    p ∈ pointsOf rects ↔ ∃ r ∈ rects, p ∈ r.points := Iff.rfl

@[simp] theorem pointsOf_nil : pointsOf [] = ∅ := by
  ext p
  simp [mem_pointsOf]

@[simp] theorem pointsOf_cons (r : QRect) (rects : List QRect) :
    pointsOf (r :: rects) = r.points ∪ pointsOf rects := by
  ext p
  simp [mem_pointsOf]

@[simp] theorem pointsOf_append (l m : List QRect) :
    pointsOf (l ++ m) = pointsOf l ∪ pointsOf m := by
  ext p
  simp [mem_pointsOf, or_and_right, exists_or]

namespace Canonical

variable {l m pre post : List QRect} {r s : QRect}

theorem singleton (h : ¬ r.isEmpty) : Canonical [r] :=
  ⟨by simpa using h, pairwise_singleton _ _⟩

theorem append_iff : Canonical (l ++ m) ↔
    Canonical l ∧ Canonical m ∧ ∀ r ∈ l, ∀ s ∈ m, r.Before s := by
  constructor
  · intro h
    obtain ⟨hl, hm, hlm⟩ := pairwise_append.mp h.sorted
    exact ⟨⟨fun r hr => h.nonempty r (by simp [hr]), hl⟩,
      ⟨fun r hr => h.nonempty r (by simp [hr]), hm⟩, hlm⟩
  · rintro ⟨hl, hm, hlm⟩
    refine ⟨fun r hr => ?_, pairwise_append.mpr ⟨hl.sorted, hm.sorted, hlm⟩⟩
    rcases mem_append.mp hr with hr | hr
    · exact hl.nonempty r hr
    · exact hm.nonempty r hr

theorem cons_iff : Canonical (r :: m) ↔
    ¬ r.isEmpty ∧ Canonical m ∧ ∀ s ∈ m, r.Before s := by
  rw [← singleton_append, append_iff]
  constructor
  · rintro ⟨hr, hm, hrm⟩
    exact ⟨hr.nonempty r (by simp), hm, hrm r (by simp)⟩
  · rintro ⟨hr, hm, hrm⟩
    exact ⟨singleton hr, hm, by simpa using hrm⟩

/-- Two lists can be joined when the last of one stands before the first of the other. -/
theorem append (hl : Canonical (l ++ [r])) (hm : Canonical (s :: m)) (h : r.Before s) :
    Canonical (l ++ r :: s :: m) := by
  obtain ⟨hl', hr, hlr⟩ := append_iff.1 hl
  obtain ⟨hs, hm', hsm⟩ := cons_iff.1 hm
  have hr' := hr.nonempty r (by simp)
  have hrm : ∀ t ∈ s :: m, r.Before t := by
    intro t ht
    rcases mem_cons.mp ht with rfl | ht
    · exact h
    · exact h.trans hs (hsm t ht)
  refine append_iff.2 ⟨hl', cons_iff.2 ⟨hr', hm, hrm⟩, fun q hq t ht => ?_⟩
  have hqr := hlr q hq r (by simp)
  rcases mem_cons.mp ht with rfl | ht
  · exact hqr
  · exact hqr.trans hr' (hrm t ht)

theorem above_of_last (h : Canonical (pre ++ r :: post))
    (hlast : ∀ z ∈ pre.getLast?, z.top ≠ r.top) : ∀ q ∈ pre, q.bottom < r.top := by
  intro q hq
  obtain ⟨pre', z, rfl⟩ : ∃ pre' z, pre = pre' ++ [z] :=
    ⟨pre.dropLast, pre.getLast (ne_nil_of_mem hq), (dropLast_concat_getLast _).symm⟩
  obtain ⟨hpre, -, hpr⟩ := append_iff.1 h
  obtain ⟨-, hz, hpz⟩ := append_iff.1 hpre
  have hzr : z.bottom < r.top :=
    (hpr z (by simp) r (by simp)).bottom_lt (hlast z (by simp))
  rcases mem_append.mp hq with hq | hq
  · exact (hpz q hq z (by simp)).above (hz.nonempty z (by simp)) hzr
  · rw [mem_singleton.mp hq]
    exact hzr

theorem below_of_head (h : Canonical (s :: post))
    (hhead : ∀ w ∈ post.head?, w.top ≠ s.top) : ∀ q ∈ post, s.bottom < q.top := by
  intro q hq
  obtain ⟨-, hpost, hsp⟩ := cons_iff.1 h
  cases post with
  | nil => cases hq
  | cons w post =>
    obtain ⟨hw, -, hwp⟩ := cons_iff.1 hpost
    have hsw : s.bottom < w.top := (hsp w (by simp)).bottom_lt (hhead w (by simp)).symm
    rcases mem_cons.mp hq with rfl | hq
    · exact hsw
    · exact Before.below hw hsw (hwp q hq)

theorem joinColumns (h : Canonical (pre ++ r :: s :: post)) (htop : r.top = s.top)
    (hbottom : r.bottom = s.bottom) :
    Canonical (pre ++ { s with left := r.left } :: post) := by
  obtain ⟨hpre, hrs, hpr⟩ := append_iff.1 h
  obtain ⟨hr, hs, hrs⟩ := cons_iff.1 hrs
  obtain ⟨hs', hpost, hsp⟩ := cons_iff.1 hs
  have hbefore := hrs s (by simp)
  rw [not_isEmpty] at hr hs'
  refine append_iff.2 ⟨hpre, cons_iff.2 ⟨?_, hpost, fun q hq => hsp q hq⟩, fun q hq t ht => ?_⟩
  · unfold Before at hbefore
    rw [not_isEmpty]
    dsimp only
    omega
  · rcases mem_cons.mp ht with rfl | ht
    · have := hpr q hq r (by simp)
      unfold Before at this ⊢
      dsimp only
      omega
    · exact hpr q hq t (by simp [ht])

theorem points_joinColumns (h : Canonical (pre ++ r :: s :: post)) (htop : r.top = s.top)
    (hbottom : r.bottom = s.bottom) (htouch : s.left ≤ r.right + 1) :
    pointsOf (pre ++ { s with left := r.left } :: post) = pointsOf (pre ++ r :: s :: post) := by
  obtain ⟨-, hrs, -⟩ := append_iff.1 h
  obtain ⟨hr, hs, hrs⟩ := cons_iff.1 hrs
  have hbefore := hrs s (by simp)
  have hs' := hs.nonempty s (by simp)
  rw [not_isEmpty] at hr hs'
  have hjoin : QRect.points { s with left := r.left } = r.points ∪ s.points := by
    ext p
    simp only [Set.mem_union, mem_points]
    unfold Before at hbefore
    omega
  simp [hjoin, Set.union_assoc]

/-- Rectangles that fill their bands between the same columns, one right above the other, can be
made one. -/
theorem joinRows (h : Canonical (pre ++ r :: s :: post)) (hleft : r.left = s.left)
    (hright : r.right = s.right) (hpre : ∀ z ∈ pre.getLast?, z.top ≠ r.top)
    (hpost : ∀ w ∈ post.head?, w.top ≠ s.top) :
    Canonical (pre ++ { s with top := r.top } :: post) := by
  have habove := h.above_of_last hpre
  obtain ⟨hpre, hrs, hpr⟩ := append_iff.1 h
  obtain ⟨hr, hs, hrs⟩ := cons_iff.1 hrs
  have hbelow := hs.below_of_head hpost
  obtain ⟨hs', hpost, -⟩ := cons_iff.1 hs
  have hbefore := hrs s (by simp)
  rw [not_isEmpty] at hr hs'
  refine append_iff.2 ⟨hpre, cons_iff.2 ⟨?_, hpost, fun q hq => .inr (hbelow q hq)⟩,
    fun q hq t ht => ?_⟩
  · unfold Before at hbefore
    rw [not_isEmpty]
    dsimp only
    omega
  · rcases mem_cons.mp ht with rfl | ht
    · exact .inr (habove q hq)
    · exact hpr q hq t (by simp [ht])

theorem points_joinRows (h : Canonical (pre ++ r :: s :: post)) (hleft : r.left = s.left)
    (hright : r.right = s.right) (htouch : s.top ≤ r.bottom + 1) :
    pointsOf (pre ++ { s with top := r.top } :: post) = pointsOf (pre ++ r :: s :: post) := by
  obtain ⟨-, hrs, -⟩ := append_iff.1 h
  obtain ⟨hr, hs, hrs⟩ := cons_iff.1 hrs
  have hbefore := hrs s (by simp)
  have hs' := hs.nonempty s (by simp)
  rw [not_isEmpty] at hr hs'
  have hjoin : QRect.points { s with top := r.top } = r.points ∪ s.points := by
    ext p
    simp only [Set.mem_union, mem_points]
    unfold Before at hbefore
    omega
  simp [hjoin, Set.union_assoc]

end Canonical

/-- `extents` holds the points, and each of its sides touches one of them. -/
structure IsBoundingBox (extents : QRect) (S : Set (ℤ × ℤ)) : Prop where
  subset : S ⊆ extents.points
  left : ∃ p ∈ S, p.1 = extents.left
  top : ∃ p ∈ S, p.2 = extents.top
  right : ∃ p ∈ S, p.1 = extents.right
  bottom : ∃ p ∈ S, p.2 = extents.bottom

namespace IsBoundingBox

variable {e f r : QRect} {S T : Set (ℤ × ℤ)}

theorem of_rect (h : ¬ r.isEmpty) : IsBoundingBox r r.points := by
  rw [not_isEmpty] at h
  have hfirst : (r.left, r.top) ∈ r.points := ⟨⟨le_rfl, h.1⟩, le_rfl, h.2⟩
  have hlast : (r.right, r.bottom) ∈ r.points := ⟨⟨h.1, le_rfl⟩, h.2, le_rfl⟩
  exact ⟨Set.Subset.rfl, ⟨_, hfirst, rfl⟩, ⟨_, hfirst, rfl⟩, ⟨_, hlast, rfl⟩, ⟨_, hlast, rfl⟩⟩

theorem unique (he : IsBoundingBox e S) (hf : IsBoundingBox f S) : e = f := by
  obtain ⟨p₁, h₁, e₁⟩ := he.left
  obtain ⟨p₂, h₂, e₂⟩ := he.top
  obtain ⟨p₃, h₃, e₃⟩ := he.right
  obtain ⟨p₄, h₄, e₄⟩ := he.bottom
  obtain ⟨q₁, g₁, f₁⟩ := hf.left
  obtain ⟨q₂, g₂, f₂⟩ := hf.top
  obtain ⟨q₃, g₃, f₃⟩ := hf.right
  obtain ⟨q₄, g₄, f₄⟩ := hf.bottom
  have a₁ := hf.subset h₁
  have a₂ := hf.subset h₂
  have a₃ := hf.subset h₃
  have a₄ := hf.subset h₄
  have b₁ := he.subset g₁
  have b₂ := he.subset g₂
  have b₃ := he.subset g₃
  have b₄ := he.subset g₄
  rw [mem_points] at *
  refine QRect.ext ?_ ?_ ?_ ?_ <;> omega

/-- The box around two sets of points is the one around their boxes. -/
theorem union (he : IsBoundingBox e S) (hf : IsBoundingBox f T) :
    IsBoundingBox ⟨min e.left f.left, min e.top f.top, max e.right f.right,
      max e.bottom f.bottom⟩ (S ∪ T) := by
  refine ⟨?_, ?_, ?_, ?_, ?_⟩
  · rintro p (hp | hp)
    · have := he.subset hp
      rw [mem_points] at *
      dsimp only
      omega
    · have := hf.subset hp
      rw [mem_points] at *
      dsimp only
      omega
  · rcases min_choice e.left f.left with h | h <;> dsimp only <;> rw [h]
    · exact he.left.imp fun _ hp => ⟨.inl hp.1, hp.2⟩
    · exact hf.left.imp fun _ hp => ⟨.inr hp.1, hp.2⟩
  · rcases min_choice e.top f.top with h | h <;> dsimp only <;> rw [h]
    · exact he.top.imp fun _ hp => ⟨.inl hp.1, hp.2⟩
    · exact hf.top.imp fun _ hp => ⟨.inr hp.1, hp.2⟩
  · rcases max_choice e.right f.right with h | h <;> dsimp only <;> rw [h]
    · exact he.right.imp fun _ hp => ⟨.inl hp.1, hp.2⟩
    · exact hf.right.imp fun _ hp => ⟨.inr hp.1, hp.2⟩
  · rcases max_choice e.bottom f.bottom with h | h <;> dsimp only <;> rw [h]
    · exact he.bottom.imp fun _ hp => ⟨.inl hp.1, hp.2⟩
    · exact hf.bottom.imp fun _ hp => ⟨.inr hp.1, hp.2⟩

end IsBoundingBox
end QtBase
