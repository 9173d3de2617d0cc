import QtBase.Lib.LowerBound
import Mathlib.Data.List.Basic
import Mathlib.Data.List.Nodup
import Mathlib.Data.List.TakeDrop
import Mathlib.Data.List.Sort
import Mathlib.Data.List.Induction
import Mathlib.Tactic.Common

/-! The streams that were reset: `QHttp2ProtocolHandler` keeps their ids sorted, and drops the lower
half of them when there are too many. -/
namespace QtBase

open List

namespace Http2

def maxRecycledStreams : ℕ := 10000

/-- `std::lower_bound` in `recycledStreams` -/
def lower_bound (recycledStreams : List ℕ) (streamID : ℕ) : ℕ :=
  lowerBound (fun i => decide (recycledStreams.getD i 0 < streamID)) recycledStreams.length 0
    recycledStreams.length

/-- What stays when there are too many. -/
def kept (recycledStreams : List ℕ) : List ℕ :=
  if recycledStreams.length > maxRecycledStreams then
    recycledStreams.drop (recycledStreams.length / 2)
  else recycledStreams

def markAsReset (recycledStreams : List ℕ) (streamID : ℕ) : List ℕ :=
  let recycledStreams := kept recycledStreams
  let it := lower_bound recycledStreams streamID
  if recycledStreams[it]? = some streamID then recycledStreams
  else recycledStreams.take it ++ streamID :: recycledStreams.drop it

def streamWasReset (recycledStreams : List ℕ) (streamID : ℕ) : Bool :=
  decide (recycledStreams[lower_bound recycledStreams streamID]? = some streamID)

/-- `recycledStreams` after a sequence of calls of `markAsReset`. -/
def recycledAfter (marks : List ℕ) : List ℕ := marks.foldl markAsReset []

/-- The distinct ids that were marked, the last one first. -/
def recent (marks : List ℕ) : List ℕ := marks.foldl (fun ids id => id :: ids.erase id) []

/-! ## One call -/

variable {ids : List ℕ} {id x : ℕ}

theorem lower_bound_spec (h : ids.Pairwise (· < ·)) (id : ℕ) :
    (∀ x ∈ ids.take (lower_bound ids id), x < id) ∧
      ∀ x ∈ ids.drop (lower_bound ids id), id ≤ x := by
  have hget (i : ℕ) (hi : i < ids.length) : ids.getD i 0 = ids[i] := by
    rw [getD_eq_getElem?_getD, getElem?_eq_getElem hi]
    rfl
  obtain ⟨-, -, hlow, hhigh⟩ := @lowerBound_spec
    (fun i => decide (ids.getD i 0 < id)) ids.length 0 ids.length (Nat.le_refl _) (by
      intro i j _ hij hj hless
      have hlt := of_decide_eq_true hless
      rw [hget j (by omega)] at hlt
      refine decide_eq_true ?_
      rw [hget i (by omega)]
      rcases Nat.eq_or_lt_of_le hij with rfl | hij
      · exact hlt
      · exact Nat.lt_trans (pairwise_iff_getElem.mp h i j (by omega) (by omega) hij) hlt)
  constructor
  · intro x hx
    obtain ⟨i, hi, rfl⟩ := mem_iff_getElem.mp hx
    have hi' := length_take_le' (lower_bound ids id) ids
    have hless := of_decide_eq_true (hlow i (Nat.zero_le _) (by
      rw [length_take] at hi
      exact Nat.lt_of_lt_of_le hi (Nat.min_le_left _ _)))
    rw [hget i (by omega)] at hless
    rwa [getElem_take]
  · intro x hx
    obtain ⟨i, hi, rfl⟩ := mem_iff_getElem.mp hx
    rw [length_drop] at hi
    have hless := of_decide_eq_false (hhigh (lower_bound ids id + i) (Nat.le_add_right _ _)
      (by omega))
    rw [hget _ (by omega)] at hless
    simp
    omega

theorem streamWasReset_iff (h : ids.Pairwise (· < ·)) (id : ℕ) :
    streamWasReset ids id = true ↔ id ∈ ids := by
  obtain ⟨hlow, hhigh⟩ := lower_bound_spec h id
  unfold streamWasReset
  rw [decide_eq_true_iff]
  refine ⟨fun hid => mem_of_getElem? hid, fun hid => ?_⟩
  rw [← take_append_drop (lower_bound ids id) ids, mem_append] at hid
  have hin := hid.resolve_left fun hin => Nat.lt_irrefl _ (hlow id hin)
  cases hdrop : ids.drop (lower_bound ids id) with
  | nil => rw [hdrop] at hin; cases hin
  | cons y rest =>
    have hy : y = id := by
      rw [hdrop] at hin hhigh
      rcases mem_cons.mp hin with heq | hrest
      · exact heq.symm
      · have hsorted := h.sublist (drop_sublist (lower_bound ids id) ids)
        rw [hdrop, pairwise_cons] at hsorted
        have := hsorted.1 id hrest
        have := hhigh y mem_cons_self
        omega
    have hhead : (ids.drop (lower_bound ids id))[0]? = some y := by rw [hdrop]; rfl
    rw [getElem?_drop, Nat.add_zero] at hhead
    rw [hhead, hy]

theorem kept_sublist (ids : List ℕ) : (kept ids).Sublist ids := by
  unfold kept
  split_ifs
  · exact drop_sublist _ _
  · exact List.Sublist.refl _

theorem length_kept_le (ids : List ℕ) (h : ids.length ≤ maxRecycledStreams + 1) :
    (kept ids).length ≤ maxRecycledStreams := by
  unfold kept
  unfold maxRecycledStreams at h ⊢
  split_ifs with hmany
  · simp
    omega
  · omega

theorem mem_markAsReset : x ∈ markAsReset ids id ↔ x = id ∨ x ∈ kept ids := by
  unfold markAsReset
  dsimp only
  by_cases hfound : (kept ids)[lower_bound (kept ids) id]? = some id
  · rw [if_pos hfound]
    refine ⟨.inr, ?_⟩
    rintro (rfl | hx)
    · exact mem_of_getElem? hfound
    · exact hx
  · rw [if_neg hfound, mem_append, mem_cons, or_left_comm, ← mem_append,
      take_append_drop]

theorem markAsReset_sorted (h : ids.Pairwise (· < ·)) (id : ℕ) :
    (markAsReset ids id).Pairwise (· < ·) := by
  have hkept := h.sublist (kept_sublist ids)
  obtain ⟨hlow, hhigh⟩ := lower_bound_spec hkept id
  unfold markAsReset
  dsimp only
  by_cases hfound : (kept ids)[lower_bound (kept ids) id]? = some id
  · rwa [if_pos hfound]
  · rw [if_neg hfound]
    have hnot : id ∉ kept ids := by
      intro hin
      have := (streamWasReset_iff hkept id).mpr hin
      exact hfound (of_decide_eq_true this)
    have habove : ∀ x ∈ (kept ids).drop (lower_bound (kept ids) id), id < x := fun x hx =>
      Nat.lt_of_le_of_ne (hhigh x hx) fun heq => hnot (heq ▸ mem_of_mem_drop hx)
    refine pairwise_append.mpr ⟨hkept.sublist (take_sublist _ _),
      pairwise_cons.mpr ⟨habove, hkept.sublist (drop_sublist _ _)⟩, ?_⟩
    intro x hx y hy
    rcases mem_cons.mp hy with rfl | hy
    · exact hlow x hx
    · exact Nat.lt_trans (hlow x hx) (habove y hy)

theorem length_markAsReset_le (ids : List ℕ) (id : ℕ) (h : ids.length ≤ maxRecycledStreams + 1) :
    (markAsReset ids id).length ≤ maxRecycledStreams + 1 := by
  have hkept := length_kept_le ids h
  unfold markAsReset
  dsimp only
  split_ifs
  · omega
  · simp
    omega

/-! ## Sequences of calls -/

theorem recycledAfter_append (marks : List ℕ) (id : ℕ) :
    recycledAfter (marks ++ [id]) = markAsReset (recycledAfter marks) id := by
  unfold recycledAfter
  simp

theorem recent_append (marks : List ℕ) (id : ℕ) :
    recent (marks ++ [id]) = id :: (recent marks).erase id := by
  unfold recent
  simp

theorem recycledAfter_sorted (marks : List ℕ) : (recycledAfter marks).Pairwise (· < ·) ∧
    (recycledAfter marks).length ≤ maxRecycledStreams + 1 := by
  induction marks using List.reverseRecOn with
  | nil => exact ⟨List.Pairwise.nil, Nat.zero_le _⟩
  | append_singleton marks id ih =>
    rw [recycledAfter_append]
    exact ⟨markAsReset_sorted ih.1 id, length_markAsReset_le _ _ ih.2⟩

theorem recent_nodup (marks : List ℕ) : (recent marks).Nodup := by
  induction marks using List.reverseRecOn with
  | nil => exact nodup_nil
  | append_singleton marks id ih =>
    rw [recent_append]
    exact nodup_cons.mpr ⟨ih.not_mem_erase, ih.erase id⟩

/-- The ids are sorted, not too many, and the last ones are among them. -/
structure Remembers (marks : List ℕ) : Prop where
  sorted : (recycledAfter marks).Pairwise (· < ·)
  bounded : (recycledAfter marks).length ≤ maxRecycledStreams + 1
  last : ∀ id ∈ (recent marks).take (maxRecycledStreams / 2),
    streamWasReset (recycledAfter marks) id = true

/-- When the lower half goes, none of the ids that were marked last is in it, but for the one that is
being marked. -/
def DropsOld (marks : List ℕ) (id : ℕ) : Prop :=
  (recycledAfter marks).length > maxRecycledStreams →
    ∀ x ∈ ((recent marks).erase id).take (maxRecycledStreams / 2 - 1),
      x ∉ (recycledAfter marks).take ((recycledAfter marks).length / 2)

theorem take_erase_subset {l : List ℕ} {n : ℕ} : ∀ y ∈ (l.erase x).take n, y ∈ l.take (n + 1) := by
  induction l generalizing n with
  | nil => intro y hy; rw [erase_nil, take_nil] at hy; cases hy
  | cons a l ih =>
    intro y hy
    rw [take_succ_cons, mem_cons]
    rw [erase_cons] at hy
    by_cases ha : (a == x) = true
    · rw [if_pos ha] at hy
      exact .inr hy
    · rw [if_neg ha] at hy
      cases n with
      | zero => cases hy
      | succ n =>
        rw [take_succ_cons, mem_cons] at hy
        exact hy.imp_right (ih y)

variable {marks : List ℕ}

theorem remembers_append_iff (h : Remembers marks) (id : ℕ) :
    Remembers (marks ++ [id]) ↔ DropsOld marks id := by
  have hmax : maxRecycledStreams / 2 = maxRecycledStreams / 2 - 1 + 1 := by decide
  have hnodup : id ∉ (recent marks).erase id := (recent_nodup marks).not_mem_erase
  constructor
  · intro hafter hmany x hx hin
    have hne : x ≠ id := by
      rintro rfl
      exact hnodup (mem_of_mem_take hx)
    have hlast := hafter.last x (by
      rw [recent_append, hmax, take_succ_cons]
      exact mem_cons_of_mem _ hx)
    rw [streamWasReset_iff hafter.sorted, recycledAfter_append, mem_markAsReset] at hlast
    have hkept := hlast.resolve_left hne
    unfold kept at hkept
    rw [if_pos hmany] at hkept
    have hsorted := h.sorted
    rw [← take_append_drop ((recycledAfter marks).length / 2) (recycledAfter marks),
      pairwise_append] at hsorted
    exact Nat.lt_irrefl _ (hsorted.2.2 x hin x hkept)
  · intro hold
    obtain ⟨hsorted, hbounded⟩ := recycledAfter_sorted (marks ++ [id])
    refine ⟨hsorted, hbounded, fun x hx => ?_⟩
    rw [streamWasReset_iff hsorted, recycledAfter_append, mem_markAsReset]
    rw [recent_append, hmax, take_succ_cons, mem_cons] at hx
    refine hx.imp_right fun hx => ?_
    have hbefore := h.last x (hmax ▸ take_erase_subset x hx)
    rw [streamWasReset_iff h.sorted] at hbefore
    unfold kept
    by_cases hmany : (recycledAfter marks).length > maxRecycledStreams
    · rw [if_pos hmany]
      rw [← take_append_drop ((recycledAfter marks).length / 2) (recycledAfter marks),
        mem_append] at hbefore
      exact hbefore.resolve_left (hold hmany x hx)
    · rwa [if_neg hmany]

theorem remembers_nil : Remembers [] :=
  ⟨List.Pairwise.nil, Nat.zero_le _, fun _ hid => absurd hid not_mem_nil⟩

theorem remembers_of_dropsOld
    (h : ∀ pre id, pre ++ [id] <+: marks → DropsOld pre id) : Remembers marks := by
  induction marks using List.reverseRecOn with
  | nil => exact remembers_nil
  | append_singleton marks id ih =>
    refine (remembers_append_iff (ih fun pre id' hpre => ?_) id).mpr (h marks id (prefix_refl _))
    exact h pre id' (hpre.trans (prefix_append marks [id]))

/-- The ids that were marked last are remembered all along exactly if each call drops old ones. -/
theorem remembers_run_iff (marks : List ℕ) : (∀ pre, pre <+: marks → Remembers pre) ↔
    ∀ pre id, pre ++ [id] <+: marks → DropsOld pre id := by
  constructor
  · intro h pre id hpre
    have hbefore := h pre ((prefix_append pre [id]).trans hpre)
    exact (remembers_append_iff hbefore id).mp (h _ hpre)
  · intro h pre hpre
    exact remembers_of_dropsOld fun pre' id hpre' => h pre' id (hpre'.trans hpre)

/-! ## Ids in increasing order -/

theorem markAsReset_above (h : ids.Pairwise (· < ·)) (habove : ∀ y ∈ ids, y < id) :
    markAsReset ids id = kept ids ++ [id] := by
  have hkept := h.sublist (kept_sublist ids)
  obtain ⟨-, hhigh⟩ := lower_bound_spec hkept id
  have hdrop : (kept ids).drop (lower_bound (kept ids) id) = [] := by
    refine eq_nil_iff_forall_not_mem.mpr fun y hy => ?_
    have hlt := habove y ((kept_sublist ids).subset (mem_of_mem_drop hy))
    exact Nat.lt_irrefl _ (Nat.lt_of_lt_of_le hlt (hhigh y hy))
  have hlength := drop_eq_nil_iff.mp hdrop
  unfold markAsReset
  dsimp only
  rw [getElem?_eq_none hlength, if_neg (Option.some_ne_none id).symm, hdrop,
    take_of_length_le hlength]

theorem recycledAfter_ascending (h : marks.Pairwise (· < ·)) :
    recent marks = marks.reverse ∧ (∃ k, recycledAfter marks = marks.drop k) ∧
      (marks.length ≤ maxRecycledStreams + 1 → recycledAfter marks = marks) := by
  induction marks using List.reverseRecOn with
  | nil => exact ⟨rfl, ⟨0, rfl⟩, fun _ => rfl⟩
  | append_singleton marks id ih =>
    obtain ⟨hmarks, -, habove⟩ := pairwise_append.mp h
    obtain ⟨hrecent, ⟨k, hk⟩, hall⟩ := ih hmarks
    have hnot : id ∉ marks.reverse := fun hin =>
      Nat.lt_irrefl _ (habove id (mem_reverse.mp hin) id mem_cons_self)
    have hids : ∀ y ∈ recycledAfter marks, y < id := fun y hy =>
      habove y (mem_of_mem_drop (hk ▸ hy)) id mem_cons_self
    have hmark := markAsReset_above (recycledAfter_sorted marks).1 hids
    rw [recent_append, hrecent, erase_of_not_mem hnot, recycledAfter_append, hmark]
    refine ⟨by rw [reverse_append]; rfl, ?_, fun hlength => ?_⟩
    · unfold kept
      split_ifs
      · refine ⟨min (k + (recycledAfter marks).length / 2) marks.length, ?_⟩
        rw [hk, drop_drop, drop_append_of_le_length (Nat.min_le_right _ _)]
        congr 1
        rcases Nat.le_total (k + (marks.drop k).length / 2) marks.length with hle | hle
        · rw [Nat.min_eq_left hle]
        · rw [Nat.min_eq_right hle, drop_length, drop_eq_nil_of_le hle]
      · refine ⟨min k marks.length, ?_⟩
        rw [hk, drop_append_of_le_length (Nat.min_le_right _ _)]
        congr 1
        rcases Nat.le_total k marks.length with hle | hle
        · rw [Nat.min_eq_left hle]
        · rw [Nat.min_eq_right hle, drop_length, drop_eq_nil_of_le hle]
    · rw [length_append, length_singleton] at hlength
      rw [hall (by omega)]
      unfold kept
      rw [if_neg (by omega)]

theorem dropsOld_of_ascending {id : ℕ} (h : (marks ++ [id]).Pairwise (· < ·)) :
    DropsOld marks id := by
  obtain ⟨hmarks, -, habove⟩ := pairwise_append.mp h
  obtain ⟨hrecent, ⟨k, hk⟩, -⟩ := recycledAfter_ascending hmarks
  have hnot : id ∉ marks.reverse := fun hin =>
    Nat.lt_irrefl _ (habove id (mem_reverse.mp hin) id mem_cons_self)
  intro hmany x hx hin
  have hmax : maxRecycledStreams = 10000 := rfl
  rw [hk, length_drop] at hmany
  rw [hk, length_drop, take_drop] at hin
  rw [hrecent, erase_of_not_mem hnot, take_reverse, mem_reverse] at hx
  have hlow : x ∈ marks.take (marks.length - (maxRecycledStreams / 2 - 1)) :=
    (take_subset_take_left marks (by omega)) (mem_of_mem_drop hin)
  rw [← take_append_drop (marks.length - (maxRecycledStreams / 2 - 1)) marks,
    pairwise_append] at hmarks
  exact Nat.lt_irrefl _ (hmarks.2.2 x hlow x hx)

/-! ## An id that is reset late -/

/-- Ten thousand streams from the second one on are reset, then the first and a further one. -/
def lateReset : List ℕ := (List.range 10000).map (fun i => 2 * i + 3) ++ [1] ++ [20003]

theorem lateReset_forgets : ¬ Remembers lateReset := by
  generalize hfirst : (List.range 10000).map (fun i => 2 * i + 3) = first
  have hsorted : first.Pairwise (· < ·) := by
    rw [← hfirst, pairwise_map]
    exact pairwise_lt_range.imp fun h => by omega
  have hlength : first.length = 10000 := by rw [← hfirst, length_map, length_range]
  have hlow : ∀ x ∈ first, 3 ≤ x := by
    intro x hx
    rw [← hfirst] at hx
    obtain ⟨i, -, rfl⟩ := mem_map.mp hx
    omega
  have hmax : maxRecycledStreams = 10000 := rfl
  have hfull : recycledAfter first = first :=
    (recycledAfter_ascending hsorted).2.2 (by omega)
  have hkept : kept first = first := if_neg (by omega)
  obtain ⟨hbelow, -⟩ := lower_bound_spec hsorted 1
  have htake : first.take (lower_bound first 1) = [] := by
    refine eq_nil_iff_forall_not_mem.mpr fun y hy => ?_
    have := hbelow y hy
    have := hlow y (mem_of_mem_take hy)
    omega
  have hdrop : first.drop (lower_bound first 1) = first := by
    have hsplit := take_append_drop (lower_bound first 1) first
    rwa [htake, nil_append] at hsplit
  have hone : recycledAfter (first ++ [1]) = 1 :: first := by
    rw [recycledAfter_append, hfull]
    unfold markAsReset
    dsimp only
    rw [hkept, htake, hdrop, if_neg, nil_append]
    intro hin
    have := hlow 1 (mem_of_getElem? hin)
    omega
  have hbefore : Remembers (first ++ [1]) := by
    have hrun : Remembers first := remembers_of_dropsOld fun pre id hpre =>
      dropsOld_of_ascending (hsorted.sublist hpre.sublist)
    refine (remembers_append_iff hrun 1).mpr fun hmany => ?_
    rw [hfull] at hmany
    omega
  unfold lateReset
  rw [hfirst, remembers_append_iff hbefore]
  intro hold
  refine hold ?_ 1 ?_ ?_
  · simp [hone]
    omega
  · rw [recent_append, erase_cons_tail (by decide)]
    exact mem_cons_self
  · simp [hone, hlength]

end Http2

end QtBase
