import QtBase.Lib.LinearProbing
import Mathlib.Data.Nat.Find

/-! A sweep over the buckets of a linear-probing table that deletes marked entries on its way.
A deletion may pull an entry from the front of the table, where the sweep has been, to the
end, where it will come again; the barriers tell when this happens. -/
namespace LinearProbing

open List Function Option Nat

variable {α κ : Type*} {n : ℕ} {home : α → ℕ} {key : α → κ}

/-! ## What a deletion moves -/

/-- The shift that follows the deletion of bucket `c` of `t`, at `hole` and `nxt`. -/
structure Tracked (n : ℕ) (home : α → ℕ) (t : ℕ → Option α) (c z : ℕ) (t' : ℕ → Option α)
    (hole nxt : ℕ) : Prop where
  hole_before : dist n c hole < dist n c nxt
  nxt_before : dist n c nxt ≤ dist n c z
  ahead : ∀ x < n, dist n c hole < dist n c x → t' x = t x
  stays : ∀ q < n, ∀ e, c < q → t q = some e → ∃ q' < n, c ≤ q' ∧ t' q' = some e
  side : c ≤ hole → ∀ p < n, ∀ e, t' p = some e →
    ∃ p₀ < n, t p₀ = some e ∧ (p < home e ↔ p₀ < home e)
  jumps : ∀ C, c < C → C ≤ n → ¬ (c ≤ hole ∧ hole < C) → ∃ p < n, ∃ e, t p = some e ∧
    (p < c ∨ C ≤ p) ∧ ∃ x, c ≤ x ∧ x < C ∧ Between (home e) x p
  pulls : hole < c → ∃ p < c, ∃ q < n, c ≤ q ∧ ∃ e, t p = some e ∧ t' q = some e

namespace Tracked

variable {t t' : ℕ → Option α} {c z hole nxt : ℕ} {e : α}

theorem start (hc : c < n) (hz : z < n) (hzc : z ≠ c) :
    Tracked n home t c z (update t c none) c (succ n c) := by
  have hself : dist n c c = 0 := by simp [dist]
  have hsucc : dist n c (succ n c) = 1 := by
    unfold dist succ
    split_ifs <;> omega
  have hdz : 1 ≤ dist n c z := by
    unfold dist
    split_ifs <;> omega
  refine ⟨by omega, by omega, fun x _ hx => ?_, fun q hq e hcq he => ?_, fun _ p hp e he => ?_,
    fun C h₁ _ h₂ => absurd ⟨le_refl c, h₁⟩ h₂, fun h => absurd h (lt_irrefl c)⟩
  · rw [update_of_ne]
    rintro rfl
    omega
  · exact ⟨q, hq, hcq.le, by rw [update_of_ne hcq.ne', he]⟩
  · by_cases hpc : p = c
    · simp [hpc] at he
    · rw [update_of_ne hpc] at he
      exact ⟨p, hp, he, Iff.rfl⟩

theorem dist_next (h : Tracked n home t c z t' hole nxt) (hc : c < n) (hn : nxt < n) (hz : z < n)
    (hzn : nxt ≠ z) :
    dist n c (succ n nxt) = dist n c nxt + 1 ∧ dist n c nxt < dist n c z := by
  have hnb := h.nxt_before
  revert hnb
  unfold dist succ
  split_ifs <;> omega

theorem stay (h : Tracked n home t c z t' hole nxt) (hc : c < n) (hn : nxt < n) (hz : z < n)
    (hzn : nxt ≠ z) : Tracked n home t c z t' hole (succ n nxt) := by
  have hb := h.hole_before
  have hstep := h.dist_next hc hn hz hzn
  exact ⟨by omega, by omega, h.ahead, h.stays, h.side, h.jumps, h.pulls⟩

theorem shift (h : Tracked n home t c z t' hole nxt) (hc : c < n) (hh : hole < n) (hn : nxt < n)
    (hz : z < n) (hzn : nxt ≠ z) (hemp : t' hole = none) (he : t' nxt = some e) (hbt : Between (home e) hole nxt) :
    Tracked n home t c z (move t' nxt hole) nxt (succ n nxt) := by
  have hb := h.hole_before
  have hstep := h.dist_next hc hn hz hzn
  have hlt : ∀ x < n, ∀ y < n, dist n c x < dist n c y → c ≤ y → c ≤ x ∧ x < y := by
    intro x _ y _
    unfold dist
    split_ifs <;> omega
  have hold : t nxt = some e := by rw [← h.ahead nxt hn hb, he]
  have hne : hole ≠ nxt := by
    rintro rfl
    omega
  refine ⟨by omega, by omega, fun x hx hdx => ?_, fun q hq e' hcq he' => ?_,
    fun hcn p hp e' he' => ?_, fun C h₁ h₂ h₃ => ?_, fun hnc => ?_⟩
  · have hxn : x ≠ nxt := by
      rintro rfl
      omega
    have hxh : x ≠ hole := by
      rintro rfl
      omega
    rw [move_apply, if_neg hxn, if_neg hxh]
    exact h.ahead x hx (by omega)
  · obtain ⟨q', hq', hcq', hq'e⟩ := h.stays q hq e' hcq he'
    by_cases hqn : q' = nxt
    · rw [hqn, he, some.injEq] at hq'e
      refine ⟨hole, hh, (hlt hole hh nxt hn hb (hqn ▸ hcq')).1, ?_⟩
      rw [move_apply, if_neg hne, if_pos rfl, he, hq'e]
    · have hqh : q' ≠ hole := by
        rintro rfl
        simp [hemp] at hq'e
      exact ⟨q', hq', hcq', by rw [move_apply, if_neg hqn, if_neg hqh, hq'e]⟩
  · obtain ⟨hch, hhn⟩ := hlt hole hh nxt hn hb hcn
    by_cases hpn : p = nxt
    · simp [hpn, move_apply] at he'
    by_cases hph : p = hole
    · rw [hph, move_apply, if_neg hne, if_pos rfl, he, some.injEq] at he'
      subst he'
      refine ⟨nxt, hn, hold, ?_⟩
      unfold Between at hbt
      omega
    · rw [move_apply, if_neg hpn, if_neg hph] at he'
      exact h.side hch p hp e' he'
  · by_cases hin : c ≤ hole ∧ hole < C
    · exact ⟨nxt, hn, e, hold, by omega, hole, hin.1, hin.2, hbt⟩
    · exact h.jumps C h₁ h₂ hin
  · by_cases hhc : hole < c
    · obtain ⟨p, hp, q, hq, hcq, e', hpe, hqe⟩ := h.pulls hhc
      refine ⟨p, hp, q, hq, hcq, e', hpe, ?_⟩
      rw [move_apply, if_neg (by omega), if_neg (by omega), hqe]
    · exact ⟨nxt, hnc, hole, hh, not_lt.mp hhc, e, hold, by
        rw [move_apply, if_neg hne, if_pos rfl, he]⟩

end Tracked

/-- Which entry, if any, has come to bucket `c` itself: the first whose walk passes it. -/
def Refilled (n : ℕ) (home : α → ℕ) (t : ℕ → Option α) (c : ℕ) (t' : ℕ → Option α) (hole nxt : ℕ) :
    Prop :=
  (hole = c ∧ t' = Function.update t c none ∧
    ∀ x < n, x ≠ c → dist n c x < dist n c nxt → ∀ e, t x = some e → ¬ Between (home e) c x) ∨
  (hole ≠ c ∧ ∃ q < n, ∃ e, t q = some e ∧ Between (home e) c q ∧ t' c = some e ∧
    ∀ x < n, x ≠ c → dist n c x < dist n c q → ∀ e, t x = some e → ¬ Between (home e) c x)

namespace Refilled

variable {t t' : ℕ → Option α} {c z hole nxt : ℕ} {e : α}

theorem start (hc : c < n) : Refilled n home t c (update t c none) c (succ n c) := by
  refine .inl ⟨rfl, rfl, fun x hx hxc hd => absurd hd ?_⟩
  unfold dist succ
  split_ifs <;> omega

theorem stay (h : Refilled n home t c t' hole nxt) (htr : Tracked n home t c z t' hole nxt)
    (hn : nxt < n) (he : t' nxt = some e) (hnb : ¬ Between (home e) hole nxt) (hc : c < n) :
    Refilled n home t c t' hole (succ n nxt) := by
  refine h.imp_left ?_
  rintro ⟨rfl, ht', hlow⟩
  have hold : t nxt = some e := by rw [← htr.ahead nxt hn htr.hole_before, he]
  refine ⟨rfl, ht', fun x hx hxc hd e' he' => ?_⟩
  by_cases hxn : x = nxt
  · rw [hxn, hold, some.injEq] at he'
    rwa [hxn, ← he']
  · refine hlow x hx hxc ?_ e' he'
    have hb := htr.hole_before
    revert hd hb
    unfold dist succ
    split_ifs <;> omega

theorem shift (h : Refilled n home t c t' hole nxt) (htr : Tracked n home t c z t' hole nxt)
    (hn : nxt < n) (he : t' nxt = some e) (hbt : Between (home e) hole nxt) :
    Refilled n home t c (move t' nxt hole) nxt (succ n nxt) := by
  have hold : t nxt = some e := by rw [← htr.ahead nxt hn htr.hole_before, he]
  have hnc : nxt ≠ c := by
    rintro rfl
    have := htr.hole_before
    simp [dist] at this
  refine .inr ⟨hnc, ?_⟩
  rcases h with ⟨rfl, -, hlow⟩ | ⟨hhc, q, hq, e', hqe, hqb, hce, hlow⟩
  · exact ⟨nxt, hn, e, hold, hbt, by rw [move_apply, if_neg hnc.symm, if_pos rfl, he], hlow⟩
  · exact ⟨q, hq, e', hqe, hqb, by
      rw [move_apply, if_neg hnc.symm, if_neg hhc.symm, hce], hlow⟩

/-- At the end of the shift nothing else passes `c` if it is still empty. -/
theorem done (h : Refilled n home t c t' hole nxt) (htr : Tracked n home t c z t' hole nxt)
    (hp : Probed n home t) (hc : c < n) (hn : nxt < n) (hemp : t' nxt = none) :
    (t' = update t c none ∧
      ∀ x < n, x ≠ c → ∀ e, t x = some e → ¬ Between (home e) c x) ∨
    ∃ q < n, ∃ e, t q = some e ∧ Between (home e) c q ∧ t' c = some e ∧
      ∀ x < n, x ≠ c → dist n c x < dist n c q → ∀ e, t x = some e → ¬ Between (home e) c x := by
  refine h.imp ?_ And.right
  rintro ⟨rfl, ht', hlow⟩
  have hold : t nxt = none := by rw [← htr.ahead nxt hn htr.hole_before, hemp]
  refine ⟨ht', fun x hx hxc e he hbt => ?_⟩
  rcases lt_trichotomy (dist n hole x) (dist n hole nxt) with hlt | heq | hgt
  · exact hlow x hx hxc hlt e he hbt
  · have hxn : x = nxt := by
      revert heq
      unfold dist
      split_ifs <;> omega
    rw [hxn, hold] at he
    cases he
  · refine hp x hx e he nxt hn ?_ hold
    revert hgt hbt
    unfold dist Between
    split_ifs <;> omega

end Refilled

/-- What the operations keep of a table. -/
structure Table (n : ℕ) (home : α → ℕ) (key : α → κ) (t : ℕ → Option α) : Prop where
  probed : Probed n home t
  distinct : Distinct n key t
  free : ∃ z < n, t z = none

/-- `t'` is `t` without the entry `e` of bucket `c`, and the last hole was `hole`. -/
structure Deleted (n : ℕ) (home : α → ℕ) (key : α → κ) (t : ℕ → Option α) (c : ℕ) (e : α)
    (t' : ℕ → Option α) (hole : ℕ) : Prop extends Table n home key t' where
  holds : ∀ e', Holds n t' e' ↔ Holds n t e' ∧ key e' ≠ key e
  card : (occupied n t').card + 1 = (occupied n t).card
  hole_lt : hole < n
  hole_empty : t' hole = none
  tracked : ∃ z nxt, Tracked n home t c z t' hole nxt
  refilled : (t' = Function.update t c none ∧
      ∀ x < n, x ≠ c → ∀ e, t x = some e → ¬ Between (home e) c x) ∨
    ∃ q < n, ∃ e, t q = some e ∧ Between (home e) c q ∧ t' c = some e ∧
      ∀ x < n, x ≠ c → dist n c x < dist n c q → ∀ e, t x = some e → ¬ Between (home e) c x

theorem Table.delete {t : ℕ → Option α} {c : ℕ} {e : α} (h : Table n home key t) (hc : c < n)
    (he : t c = some e) :
    ∃ t' hole, backshift n home n (update t c none) c (succ n c) = some (t', hole) ∧
      Deleted n home key t c e t' hole := by
  obtain ⟨z, hz, htz⟩ := h.free
  have hzc : z ≠ c := by
    rintro rfl
    simp [htz] at he
  obtain ⟨t', hole, hrun, hp, hd, hh, hcard⟩ := delete_spec h.probed h.distinct hc he hz htz
  have hocc : ∀ u hole nxt e₁, Shifting n home z u hole nxt → u nxt = some e₁ → nxt ≠ z := by
    rintro u hole nxt e₁ hs he₁ rfl
    simp [hs.end_empty] at he₁
  obtain ⟨t₁, hole₁, nxt, hrun₁, hs, hemp, htr, hre⟩ := backshift_rule
    (fun t' hole nxt => Tracked n home t c z t' hole nxt ∧ Refilled n home t c t' hole nxt)
    (fun u hole nxt e₁ hs he₁ hnb h => ⟨h.1.stay hc hs.nxt_lt hz (hocc u hole nxt e₁ hs he₁),
      h.2.stay h.1 hs.nxt_lt he₁ hnb hc⟩)
    (fun u hole nxt e₁ hs he₁ hbt h => ⟨h.1.shift hc hs.hole_lt hs.nxt_lt hz
      (hocc u hole nxt e₁ hs he₁) hs.hole_empty he₁ hbt, h.2.shift h.1 hs.nxt_lt he₁ hbt⟩)
    (Shifting.start h.probed hc hz hzc htz) (dist_lt (succ_lt hc) hz)
    ⟨Tracked.start hc hz hzc, Refilled.start hc⟩
  rw [hrun, some.injEq, Prod.mk.injEq] at hrun₁
  obtain ⟨rfl, rfl⟩ := hrun₁
  exact ⟨t', hole, hrun, ⟨hp, hd, hole, hs.hole_lt, hs.hole_empty⟩, hh, hcard, hs.hole_lt,
    hs.hole_empty, ⟨z, nxt, htr⟩, hre.done htr h.probed hc hs.nxt_lt hemp⟩

namespace Deleted

variable {t t' : ℕ → Option α} {c hole : ℕ} {e : α}

theorem not_holds (h : Deleted n home key t c e t' hole) : ¬ Holds n t' e :=
  fun he => ((h.holds e).mp he).2 rfl

theorem stays (h : Deleted n home key t c e t' hole) {q : ℕ} (hq : q < n) {e' : α} (hcq : c < q)
    (he' : t q = some e') : ∃ q' < n, c ≤ q' ∧ t' q' = some e' := by
  obtain ⟨z, nxt, htr⟩ := h.tracked
  exact htr.stays q hq e' hcq he'

theorem from_front (h : Deleted n home key t c e t' hole) (he : t c = some e)
    {p : ℕ} (hp : p < n) {e' : α} (he' : t' p = some e') (hpc : p < c ∨ c + 1 = n) :
    ∃ p₀ < c, t p₀ = some e' := by
  obtain ⟨⟨p₀, hp₀, hpe⟩, hne⟩ := (h.holds e').mp ⟨p, hp, he'⟩
  rcases lt_trichotomy p₀ c with hlt | rfl | hgt
  · exact ⟨p₀, hlt, hpe⟩
  · rw [he, some.injEq] at hpe
    exact absurd (by rw [hpe]) hne
  · obtain ⟨q, hq, hcq, hqe⟩ := h.stays hp₀ hgt hpe
    have := h.distinct p hp q hq e' e' he' hqe rfl
    omega

theorem keeps_side (hd : Deleted n home key t c e t' hole) (h : Table n home key t) (hc : c < n)
    (he : t c = some e) (hch : c ≤ hole) {p : ℕ} (hp : p < n) {e' : α} (hpe : t p = some e')
    (hpc : p ≠ c) : ∃ p' < n, t' p' = some e' ∧ (p' < home e' ↔ p < home e') := by
  obtain ⟨z, nxt, htr⟩ := hd.tracked
  obtain ⟨p', hp', hpe'⟩ := (hd.holds e').mpr
    ⟨⟨p, hp, hpe⟩, fun hk => hpc (h.distinct p hp c hc e' e hpe he hk)⟩
  obtain ⟨p₀, hp₀, hpe₀, hiff⟩ := htr.side hch p' hp' e' hpe'
  have hpp := h.distinct p₀ hp₀ p hp e' e' hpe₀ hpe rfl
  exact ⟨p', hp', hpe', hpp ▸ hiff⟩

end Deleted

/-- The entry that follows bucket `c` does not fall behind another one when `c` is deleted. -/
def KeepsNext (n : ℕ) (home : α → ℕ) (t : ℕ → Option α) (c : ℕ) : Prop :=
  c + 1 = n ∨ t (c + 1) = none ∨ (∃ e, t (c + 1) = some e ∧ home e ≠ c + 1) ∨
    ∀ p < n, p ≠ c → ∀ e, t p = some e → ¬ Between (home e) c p

theorem nextOccupied_congr {t t' : ℕ → Option α} {b : ℕ} (h : ∀ x, b ≤ x → x < n → t' x = t x) :
    nextOccupied n t' b = nextOccupied n t b := by
  ext c
  rw [nextOccupied_eq_some, nextOccupied_eq_some]
  refine and_congr_right fun hbc => and_congr_right fun hcn => ?_
  rw [h c hbc hcn]
  exact and_congr_right fun _ => forall_congr' fun x => forall₂_congr fun hx hxc => by
    rw [h x hx (by omega)]

/-- Going on at the bucket of a deleted entry, unless it is empty now or the last, finds the
entry that followed if and only if that one is not overtaken. -/
theorem Deleted.next_iff {t t' : ℕ → Option α} {c hole : ℕ} {e : α}
    (hd : Deleted n home key t c e t' hole) (h : Table n home key t) (hc : c < n) :
    ((nextOccupied n t' (if c + 1 = n then n else c)).bind t' = (nextOccupied n t (c + 1)).bind t) ↔
      KeepsNext n home t c := by
  by_cases hlast : c + 1 = n
  · rw [if_pos hlast, hlast, nextOccupied_of_le le_rfl, nextOccupied_of_le le_rfl]
    exact iff_of_true rfl (.inl hlast)
  have hlt : c + 1 < n := by omega
  rw [if_neg hlast, nextOccupied_of_lt hc]
  rcases hd.refilled with ⟨ht', hnone⟩ | ⟨q, hq, e', hqe, hqb, hce, hlow⟩
  · have hsame : ∀ x, c + 1 ≤ x → t' x = t x := fun x hx => by
      rw [ht', update_of_ne (by omega)]
    have hempty : t' c = none := by rw [ht', update_self]
    rw [hempty, isSome_none, if_neg Bool.false_ne_true, nextOccupied_congr fun x hx _ => hsame x hx]
    refine iff_of_true ?_ (.inr (.inr (.inr hnone)))
    cases hn : nextOccupied n t (c + 1) with
    | none => rfl
    | some b => exact hsame b (nextOccupied_eq_some.1 hn).1
  · have hqc : q ≠ c := by
      rintro rfl
      unfold Between at hqb
      omega
    rw [hce, isSome_some, if_pos rfl, bind_some, hce]
    cases hx : t (c + 1) with
    | none =>
      -- the entry that came to `c` would have been probed past an empty bucket
      have hq1 : q ≠ c + 1 := by
        rintro rfl
        simp [hx] at hqe
      refine absurd hx (h.probed q hq e' hqe (c + 1) hlt ?_)
      unfold Between at hqb ⊢
      omega
    | some x =>
      rw [nextOccupied_of_lt hlt, hx, isSome_some, if_pos rfl, bind_some, hx,
        some.injEq]
      constructor
      · rintro rfl
        have := h.distinct q hq (c + 1) hlt e' e' hqe hx rfl
        refine .inr (.inr (.inl ⟨e', hx, ?_⟩))
        unfold Between at hqb
        omega
      · rintro (hn | hn | ⟨x', hx', hhome⟩ | hn)
        · exact absurd hn hlast
        · simp [hx] at hn
        · rw [hx, some.injEq] at hx'
          subst hx'
          have hpass : Between (home x) c (c + 1) := by
            unfold Between
            omega
          have hle : ¬ dist n c (c + 1) < dist n c q := fun hlt' =>
            hlow (c + 1) hlt (by omega) hlt' x hx hpass
          have hq1 : q = c + 1 := by
            revert hle
            unfold dist
            split_ifs <;> omega
          rw [hq1, hx, some.injEq] at hqe
          exact hqe.symm
        · exact absurd hqb (hn q hq hqc e' hqe)

/-! ## Barriers -/

section Barrier

variable (n home) (M : α → Bool)

/-- No probe walk of an entry stored at or behind `c`, or of an unmarked entry that has
wrapped to the front, passes from before `c` to `c`. -/
def Barrier (t : ℕ → Option α) (c : ℕ) : Prop :=
  ∀ p < n, ∀ e, t p = some e → (c ≤ p ∨ (p < home e ∧ M e = false)) → c ≤ home e

end Barrier

section Barrier

variable {M : α → Bool} {t t' : ℕ → Option α} {c C hole : ℕ} {e : α}

theorem barrier_zero : Barrier n home M t 0 := fun _ _ _ _ _ => zero_le _

theorem Table.barrier_of_empty (h : Table n home key t) {z : ℕ} (hz : z < n) (htz : t z = none) :
    Barrier n home M t z := by
  intro p hp e he hcase
  by_contra hlt
  have hpz : p ≠ z := by
    rintro rfl
    simp [htz] at he
  refine h.probed p hp e he z hz ?_ htz
  unfold Between
  omega

/-- The last barrier. -/
structure LastBarrier (n : ℕ) (home : α → ℕ) (M : α → Bool) (t : ℕ → Option α) (C : ℕ) : Prop where
  le : C ≤ n
  barrier : Barrier n home M t C
  last : ∀ c, C < c → c ≤ n → ¬ Barrier n home M t c

theorem exists_lastBarrier (n : ℕ) (home : α → ℕ) (M : α → Bool) (t : ℕ → Option α) :
    ∃ C, LastBarrier n home M t C := by
  classical
  refine ⟨findGreatest (Barrier n home M t) n, findGreatest_le n, ?_, fun c hc hcn hb => ?_⟩
  · exact findGreatest_spec (zero_le n) barrier_zero
  · exact absurd (le_findGreatest hcn hb) (by omega)

theorem LastBarrier.confined (hC : LastBarrier n home M t C) (h : Table n home key t)
    (hcC : c < C) (hfront : ∀ p < c, ∀ e, t p = some e → M e = false)
    (hd : Deleted n home key t c e t' hole) : c ≤ hole ∧ hole < C := by
  obtain ⟨z', nxt, htr⟩ := hd.tracked
  by_contra hnot
  obtain ⟨p, hp, e', hpe, hside, x, hcx, hxC, hbt⟩ := htr.jumps C hcC hC.le hnot
  rcases hside with hpc | hCp
  · -- an unmarked entry of the front that wrapped over the barrier
    have hhome := hC.barrier p hp e' hpe (.inr ⟨?_, hfront p hpc e' hpe⟩)
    · unfold Between at hbt
      omega
    · unfold Between at hbt
      omega
  · -- an entry behind the barrier; every empty bucket would be a later barrier
    have hhome := hC.barrier p hp e' hpe (.inl hCp)
    obtain ⟨z, hz, htz⟩ := h.free
    have hzp : z ≠ p := by
      rintro rfl
      simp [htz] at hpe
    have hzC : ¬ C < z := fun hlt => hC.last z hlt hz.le (h.barrier_of_empty hz htz)
    refine h.probed p hp e' hpe z hz ?_ htz
    unfold Between at hbt ⊢
    omega

/-- If the hole of a deletion stays behind `c`, there is a barrier behind `c`. -/
theorem Deleted.barrier (hd : Deleted n home key t c e t' hole) (h : Table n home key t)
    (hc : c < n) (he : t c = some e) (hMe : M e = true) (hch : c ≤ hole)  :
    Barrier n home M t (hole + 1) := by
  obtain ⟨z', nxt, htr⟩ := hd.tracked
  intro p hp e' hpe hcase
  by_contra hhome
  have hpc : p ≠ c := by
    rintro rfl
    rw [he, some.injEq] at hpe
    subst hpe
    rcases hcase with h₁ | ⟨-, h₁⟩
    · omega
    · simp [hMe] at h₁
  by_cases hph : hole < p
  · have hpe' : t' p = some e' := by
      rw [htr.ahead p hp, hpe]
      unfold dist
      split_ifs <;> omega
    refine hd.probed p hp e' hpe' hole hd.hole_lt ?_ hd.hole_empty
    unfold Between
    omega
  · have hwrap : p < home e' := by
      rcases hcase with h₁ | ⟨h₁, -⟩ <;> omega
    obtain ⟨p', hp', hpe', hiff⟩ := hd.keeps_side h hc he hch hp hpe hpc
    have hwrap' : p' < home e' := hiff.mpr hwrap
    refine hd.probed p' hp' e' hpe' hole hd.hole_lt ?_ hd.hole_empty
    unfold Between
    omega

/-- A deletion before the last barrier keeps it, and everything behind it or in front. -/
theorem LastBarrier.deleted (hC : LastBarrier n home M t C) (h : Table n home key t) (hc : c < n)
    (he : t c = some e) (hMe : M e = true) (hcC : c < C)
    (hfront : ∀ p < c, ∀ e, t p = some e → M e = false) (hd : Deleted n home key t c e t' hole) :
    LastBarrier n home M t' C ∧ ∀ p < n, p < c ∨ C ≤ p → t' p = t p := by
  obtain ⟨hch, hhC⟩ := hC.confined h hcC hfront hd
  obtain ⟨z, nxt, htr⟩ := hd.tracked
  have hsame : ∀ p < n, p < c ∨ C ≤ p → t' p = t p := by
    intro p hp hside
    have hhn := hd.hole_lt
    refine htr.ahead p hp ?_
    unfold dist
    split_ifs <;> omega
  have hiff : ∀ b, C ≤ b → (Barrier n home M t' b ↔ Barrier n home M t b) := by
    intro b hCb
    constructor
    · intro hb p hp e' hpe hcase
      rcases hcase with hbp | ⟨hwrap, hM⟩
      · exact hb p hp e' (by rw [hsame p hp (.inr (by omega)), hpe]) (.inl hbp)
      · have hpc : p ≠ c := by
          rintro rfl
          rw [he, some.injEq] at hpe
          simp [← hpe, hMe] at hM
        obtain ⟨p', hp', hpe', hside⟩ := hd.keeps_side h hc he hch hp hpe hpc
        exact hb p' hp' e' hpe' (.inr ⟨hside.mpr hwrap, hM⟩)
    · intro hb p hp e' hpe hcase
      rcases hcase with hbp | ⟨hwrap, hM⟩
      · exact hb p hp e' (by rw [← hsame p hp (.inr (by omega)), hpe]) (.inl hbp)
      · obtain ⟨p₀, hp₀, hpe₀, hside⟩ := htr.side hch p hp e' hpe
        exact hb p₀ hp₀ e' hpe₀ (.inr ⟨hside.mp hwrap, hM⟩)
  exact ⟨⟨hC.le, (hiff C le_rfl).mpr hC.barrier, fun b hb hbn hbar =>
    hC.last b hb hbn ((hiff b hb.le).mp hbar)⟩, hsame⟩

end Barrier

/-! ## The sweep -/

section Sweep

variable (n home) (M : α → Bool)

/-- From bucket `b` on, delete the marked entries. After a deletion the sweep stays where it is,
except at the last bucket. Returns the entries in the order in which they were met. -/
def sweep : ℕ → (ℕ → Option α) → ℕ → Option (List α × (ℕ → Option α))
  | 0, _, _ => none
  | k + 1, t, b =>
    match nextOccupied n t b with
    | none => some ([], t)
    | some c =>
      match t c with
      | none => none
      | some e =>
        if M e then do
          let (t', _) ← backshift n home n (Function.update t c none) c (succ n c)
          let (met, t') ← sweep k t' (if c + 1 = n then n else c)
          pure (e :: met, t')
        else do
          let (met, t') ← sweep k t (c + 1)
          pure (e :: met, t')

end Sweep

section Sweep

variable {M : α → Bool} {t t' : ℕ → Option α} {b C : ℕ}

theorem sweep_succ (h : Table n home key t) (k b : ℕ) :
    (nextOccupied n t b = none ∧ sweep n home M (k + 1) t b = some ([], t)) ∨
    ∃ c e, nextOccupied n t b = some c ∧ t c = some e ∧
      ((M e = false ∧ ∀ met t', sweep n home M k t (c + 1) = some (met, t') →
          sweep n home M (k + 1) t b = some (e :: met, t')) ∨
        (M e = true ∧ ∃ t₁ hole, Deleted n home key t c e t₁ hole ∧ ∀ met t',
          sweep n home M k t₁ (if c + 1 = n then n else c) = some (met, t') →
          sweep n home M (k + 1) t b = some (e :: met, t'))) := by
  cases hn : nextOccupied n t b with
  | none => exact .inl ⟨rfl, by rw [sweep, hn]⟩
  | some c =>
    obtain ⟨-, hcn, ⟨e, he⟩, -⟩ := nextOccupied_eq_some.1 hn
    refine .inr ⟨c, e, rfl, he, ?_⟩
    cases hM : M e with
    | false =>
      refine .inl ⟨rfl, fun met t' hrest => ?_⟩
      simp [sweep, hn, he, hM, hrest]
    | true =>
      obtain ⟨t₁, hole, hrun, hd⟩ := h.delete hcn he
      refine .inr ⟨rfl, t₁, hole, hd, fun met t' hrest => ?_⟩
      simp [sweep, hn, he, hM, hrun, hrest]

theorem sweep_spec (k : ℕ) (h : Table n home key t) (hb : b ≤ n)
    (hfront : ∀ p < b, ∀ e, t p = some e → M e = false)
    (hk : (occupied n t).card + (n - b) < k) :
    ∃ met t', sweep n home M k t b = some (met, t') ∧ Table n home key t' ∧
      (∀ e, Holds n t' e ↔ Holds n t e ∧ M e = false) ∧ (∀ e ∈ met, Holds n t e) ∧
      ∀ p < n, b ≤ p → ∀ e, t p = some e → e ∈ met := by
  induction k generalizing t b with
  | zero => omega
  | succ k ih =>
    rcases sweep_succ (M := M) h k b with ⟨hnone, hrun⟩ | ⟨c, e, hnext, he, hcase⟩
    · have hempty := nextOccupied_eq_none.1 hnone
      have hall : ∀ p < n, b ≤ p → ∀ e, t p = some e → e ∈ ([] : List α) := by
        intro p hp hbp e he
        simp [hempty p hbp hp] at he
      refine ⟨[], t, hrun, h, fun e => (and_iff_left_of_imp ?_).symm, by simp, hall⟩
      rintro ⟨p, hp, he⟩
      rcases lt_or_ge p b with hpb | hbp
      · exact hfront p hpb e he
      · exact absurd (hall p hp hbp e he) not_mem_nil
    obtain ⟨hbc, hcn, -, hgap⟩ := nextOccupied_eq_some.1 hnext
    have hfront' : ∀ p < c, ∀ e, t p = some e → M e = false := by
      intro p hp e' he'
      rcases lt_or_ge p b with hpb | hbp
      · exact hfront p hpb e' he'
      · simp [hgap p hbp hp] at he'
    rcases hcase with ⟨hM, hstep⟩ | ⟨hM, t₁, hole, hd, hstep⟩
    · have hfront'' : ∀ p < c + 1, ∀ e, t p = some e → M e = false := by
        intro p hp e' he'
        rcases Nat.lt_succ_iff_lt_or_eq.mp hp with hpc | rfl
        · exact hfront' p hpc e' he'
        · rw [he, some.injEq] at he'
          rwa [← he']
      obtain ⟨met, t', hrun, htab, hholds, hmet, hall⟩ := ih h hcn hfront'' (by omega)
      refine ⟨e :: met, t', hstep met t' hrun, htab, hholds, ?_, ?_⟩
      · intro e' he'
        rcases mem_cons.mp he' with rfl | he'
        · exact ⟨c, hcn, he⟩
        · exact hmet e' he'
      · intro p hp hbp e' he'
        rcases lt_trichotomy p c with hpc | rfl | hcp
        · simp [hgap p hbp hpc] at he'
        · rw [he, some.injEq] at he'
          exact mem_cons.mpr (.inl he'.symm)
        · exact mem_cons_of_mem _ (hall p hp hcp e' he')
    · have hfront₁ : ∀ p < (if c + 1 = n then n else c), ∀ e, t₁ p = some e → M e = false := by
        intro p hp e' he'
        obtain ⟨p₀, hp₀, hpe₀⟩ := hd.from_front he (by split_ifs at hp <;> omega) he'
          (by split_ifs at hp <;> omega)
        exact hfront' p₀ hp₀ e' hpe₀
      have hcard := hd.card
      obtain ⟨met, t', hrun, htab, hholds, hmet, hall⟩ := ih hd.toTable
        (by split_ifs <;> omega) hfront₁ (by split_ifs <;> omega)
      refine ⟨e :: met, t', hstep met t' hrun, htab, fun e' => ?_, ?_, ?_⟩
      · rw [hholds, hd.holds]
        constructor
        · rintro ⟨⟨h₁, -⟩, h₂⟩
          exact ⟨h₁, h₂⟩
        · rintro ⟨⟨p, hp, hpe⟩, h₂⟩
          refine ⟨⟨⟨p, hp, hpe⟩, fun hkey => ?_⟩, h₂⟩
          rw [h.distinct p hp c hcn e' e hpe he hkey, he, some.injEq] at hpe
          simp [← hpe, hM] at h₂
      · intro e' he'
        rcases mem_cons.mp he' with rfl | he'
        · exact ⟨c, hcn, he⟩
        · exact ((hd.holds e').mp (hmet e' he')).1
      · intro p hp hbp e' he'
        rcases lt_trichotomy p c with hpc | rfl | hcp
        · simp [hgap p hbp hpc] at he'
        · rw [he, some.injEq] at he'
          exact mem_cons.mpr (.inl he'.symm)
        · obtain ⟨q, hq, hcq, hqe⟩ := hd.stays hp hcp he'
          exact mem_cons_of_mem _ (hall q hq (by split_ifs <;> omega) e' hqe)

/-- No entry is met twice, counting the ones in front as met before, if and only if no marked
entry lies behind the last barrier; the last bucket is exempt. -/
theorem sweep_nodup (k : ℕ) (h : Table n home key t) (hb : b ≤ n)
    (hfront : ∀ p < b, ∀ e, t p = some e → M e = false) (hC : LastBarrier n home M t C)
    (hk : (occupied n t).card + (n - b) < k) {met : List α}
    (hrun : sweep n home M k t b = some (met, t')) :
    (met.Nodup ∧ ∀ p < b, ∀ e, t p = some e → e ∉ met) ↔
      ∀ p, b ≤ p → C ≤ p → p + 1 < n → ∀ e, t p = some e → M e = false := by
  induction k generalizing t b C met t' with
  | zero => omega
  | succ k ih =>
    rcases sweep_succ (M := M) h k b with ⟨hnone, hrun'⟩ | ⟨c, e, hnext, he, hcase⟩
    · rw [hrun', some.injEq, Prod.mk.injEq] at hrun
      obtain ⟨rfl, -⟩ := hrun
      refine iff_of_true ⟨nodup_nil, by simp⟩ fun p hbp _ hp e he => ?_
      simp [nextOccupied_eq_none.1 hnone p hbp (by omega)] at he
    obtain ⟨hbc, hcn, -, hgap⟩ := nextOccupied_eq_some.1 hnext
    have hfront' : ∀ p < c, ∀ e, t p = some e → p < b ∧ M e = false := by
      intro p hp e' he'
      rcases lt_or_ge p b with hpb | hbp
      · exact ⟨hpb, hfront p hpb e' he'⟩
      · simp [hgap p hbp hp] at he'
    have hne : ∀ p < c, ∀ e', t p = some e' → e' ≠ e := by
      rintro p hp e' he' rfl
      have := h.distinct p (by omega) c hcn e' e' he' he rfl
      omega
    rcases hcase with ⟨hM, hstep⟩ | ⟨hM, t₁, hole, hd, hstep⟩
    · have hfront'' : ∀ p < c + 1, ∀ e, t p = some e → M e = false := by
        intro p hp e' he'
        rcases Nat.lt_succ_iff_lt_or_eq.mp hp with hpc | rfl
        · exact (hfront' p hpc e' he').2
        · rw [he, some.injEq] at he'
          rwa [← he']
      obtain ⟨met₁, t₂, hrun₁, -⟩ := sweep_spec k h hcn hfront'' (by omega)
      have hrest := ih h hcn hfront'' hC (by omega) hrun₁
      rw [hstep met₁ t₂ hrun₁, some.injEq, Prod.mk.injEq] at hrun
      obtain ⟨rfl, -⟩ := hrun
      constructor
      · rintro ⟨hnd, hnew⟩ p hbp hCp hpn e' he'
        rcases lt_trichotomy p c with hpc | rfl | hcp
        · simp [hgap p hbp hpc] at he'
        · rw [he, some.injEq] at he'
          rwa [← he']
        · refine hrest.mp ⟨hnd.of_cons, fun q hq e₁ he₁ => ?_⟩ p hcp hCp hpn e' he'
          rcases Nat.lt_succ_iff_lt_or_eq.mp hq with hqc | rfl
          · exact not_mem_of_not_mem_cons (hnew q (hfront' q hqc e₁ he₁).1 e₁ he₁)
          · rw [he, some.injEq] at he₁
            exact he₁ ▸ (nodup_cons.mp hnd).1
      · intro hcond
        obtain ⟨hnd, hnew⟩ := hrest.mpr fun p hcp => hcond p (by omega)
        refine ⟨nodup_cons.mpr ⟨hnew c (by omega) e he, hnd⟩, fun p hp e' he' => ?_⟩
        exact not_mem_cons_of_ne_of_not_mem (hne p (by omega) e' he') (hnew p (by omega) e' he')
    · have hfront₁ : ∀ p < (if c + 1 = n then n else c), ∀ e, t₁ p = some e → M e = false := by
        intro p hp e' he'
        obtain ⟨p₀, hp₀, hpe₀⟩ := hd.from_front he (by split_ifs at hp <;> omega) he'
          (by split_ifs at hp <;> omega)
        exact (hfront' p₀ hp₀ e' hpe₀).2
      have hb₁ : (if c + 1 = n then n else c) ≤ n := by split_ifs <;> omega
      have hk₁ : (occupied n t₁).card + (n - if c + 1 = n then n else c) < k := by
        have := hd.card
        split_ifs <;> omega
      obtain ⟨met₁, t₂, hrun₁, -, -, hmet, hall⟩ := sweep_spec k hd.toTable hb₁ hfront₁ hk₁
      rw [hstep met₁ t₂ hrun₁, some.injEq, Prod.mk.injEq] at hrun
      obtain ⟨rfl, -⟩ := hrun
      have hnot : e ∉ met₁ := fun hmem => hd.not_holds (hmet e hmem)
      by_cases hcn' : c + 1 = n
      · -- the last bucket: the sweep is over
        obtain ⟨C', hC'⟩ := exists_lastBarrier n home M t₁
        have hrest := ih hd.toTable hb₁ hfront₁ hC' hk₁ hrun₁
        rw [if_pos hcn'] at hrest
        obtain ⟨hnd, hnew⟩ := hrest.mpr fun p hp _ hp' => absurd hp' (by omega)
        refine iff_of_true ⟨nodup_cons.mpr ⟨hnot, hnd⟩, fun p hp e' he' => ?_⟩
          fun p hbp _ hp e' he' => ?_
        · refine not_mem_cons_of_ne_of_not_mem (hne p (by omega) e' he') fun hmem => ?_
          obtain ⟨q, hq, hqe⟩ := hmet e' hmem
          exact hnew q hq e' hqe hmem
        · simp [hgap p hbp (by omega)] at he'
      simp only [if_neg hcn'] at hfront₁ hb₁ hk₁ hrun₁ hall
      rcases lt_or_ge c C with hcC | hCc
      · -- before the last barrier: nothing comes back from the front
        obtain ⟨hC₁, hsame⟩ := hC.deleted h hcn he hM hcC (fun p hp e' he' => (hfront' p hp e' he').2) hd
        have hrest := ih hd.toTable hb₁ hfront₁ hC₁ hk₁ hrun₁
        constructor
        · rintro ⟨hnd, hnew⟩ p hbp hCp hpn e' he'
          have hsub : ∀ q < c, ∀ e₁, t₁ q = some e₁ → e₁ ∉ met₁ := by
            intro q hq e₁ he₁
            rw [hsame q (by omega) (.inl hq)] at he₁
            exact not_mem_of_not_mem_cons (hnew q (hfront' q hq e₁ he₁).1 e₁ he₁)
          exact hrest.mp ⟨hnd.of_cons, hsub⟩ p (by omega) hCp hpn e'
            (by rw [hsame p (by omega) (.inr hCp), he'])
        · intro hcond
          obtain ⟨hnd, hnew⟩ := hrest.mpr fun p hcp hCp hpn e' he' =>
            hcond p (by omega) hCp hpn e' (by rw [← hsame p (by omega) (.inr hCp), he'])
          refine ⟨nodup_cons.mpr ⟨hnot, hnd⟩, fun p hp e' he' => ?_⟩
          exact not_mem_cons_of_ne_of_not_mem (hne p (by omega) e' he')
            (hnew p (by omega) e' (by rw [hsame p (by omega) (.inl (by omega)), he']))
      · -- behind it: an entry that was met in front is pulled back to the end
        refine iff_of_false ?_ fun hcond => ?_
        · rintro ⟨-, hnew⟩
          obtain ⟨z, nxt, htr⟩ := hd.tracked
          have hpulled : hole < c := by
            by_contra hch
            have hhn := hd.hole_lt
            exact hC.last (hole + 1) (by omega) (by omega) (hd.barrier h hcn he hM (by omega))
          obtain ⟨p, hp, q, hq, hcq, e', hpe, hqe⟩ := htr.pulls hpulled
          exact hnew p (hfront' p hp e' hpe).1 e' hpe
            (mem_cons_of_mem _ (hall q hq hcq e' hqe))
        · simp [hcond c hbc hCc (by omega) e he] at hM

/-- A sweep over the whole table meets every entry exactly once if and only if every marked
entry, unless it is in the last bucket, has a barrier behind it. -/
theorem sweep_exactly_once {k : ℕ} (h : Table n home key t) (hk : (occupied n t).card + n < k) :
    ∃ met t', sweep n home M k t 0 = some (met, t') ∧ Table n home key t' ∧
      (∀ e, Holds n t' e ↔ Holds n t e ∧ M e = false) ∧ (∀ e, e ∈ met ↔ Holds n t e) ∧
      (met.Nodup ↔ ∀ b, b + 1 < n → ∀ e, t b = some e → M e = true →
        ∃ c, b < c ∧ c ≤ n ∧ Barrier n home M t c) := by
  obtain ⟨C, hC⟩ := exists_lastBarrier n home M t
  obtain ⟨met, t', hrun, htab, hholds, hmet, hall⟩ := sweep_spec (M := M) k h (zero_le n)
    (fun p hp => absurd hp (not_lt_zero p)) hk
  have hiff := sweep_nodup k h (zero_le n) (fun p hp => absurd hp (not_lt_zero p)) hC hk hrun
  refine ⟨met, t', hrun, htab, hholds,
    fun e => ⟨hmet e, fun ⟨p, hp, he⟩ => hall p hp (zero_le p) e he⟩, ?_⟩
  constructor
  · intro hnd b hb e he hM
    have hbC : b < C := by
      by_contra hlt
      have hcond := hiff.mp ⟨hnd, fun p hp => absurd hp (not_lt_zero p)⟩
      simp [hcond b (zero_le b) (not_lt.mp hlt) hb e he] at hM
    exact ⟨C, hbC, hC.le, hC.barrier⟩
  · intro hcond
    refine (hiff.mpr fun p _ hCp hpn e he => ?_).1
    by_contra hM
    obtain ⟨c, hpc, hcn, hbar⟩ := hcond p hpn e he (by simpa using hM)
    exact hC.last c (by omega) hcn hbar

end Sweep

end LinearProbing
