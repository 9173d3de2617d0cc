import Mathlib.Data.Finset.Card
import Mathlib.Logic.Function.Basic
import Mathlib.Tactic.Linarith

/-! Open addressing with linear probing over a cycle of `n` buckets: the search walk,
the probe invariant, insertion, and deletion by backward shift. A table is a function
from buckets to optional entries; only the buckets below `n` count. -/
namespace LinearProbing

open List Function Option

variable {α κ : Type*}

/-- The bucket after `b` on the cycle. -/
def succ (n b : ℕ) : ℕ := if b + 1 = n then 0 else b + 1

/-- `x` is passed on the walk that starts at `a` and stops at `b`. -/
def Between (a x b : ℕ) : Prop := (a ≤ x ∧ x < b) ∨ (b < a ∧ (a ≤ x ∨ x < b))

instance (a x b : ℕ) : Decidable (Between a x b) := inferInstanceAs (Decidable (_ ∨ _))

/-- Number of steps from `a` to `b`. -/
def dist (n a b : ℕ) : ℕ := if a ≤ b then b - a else b + n - a

theorem succ_lt {n b : ℕ} (hb : b < n) : succ n b < n := by
  unfold succ
  split_ifs <;> omega

theorem not_between_self (a x : ℕ) : ¬ Between a x a := by
  unfold Between
  omega

theorem between_iff_succ {n a x r : ℕ} (ha : a < n) (hx : x < n) (hr : r < n) (hne : a ≠ r) :
    Between a x r ↔ x = a ∨ Between (succ n a) x r := by
  unfold Between succ
  split_ifs <;> omega

theorem dist_succ {n a z : ℕ} (ha : a < n) (hz : z < n) (hne : a ≠ z) :
    dist n a z = dist n (succ n a) z + 1 := by
  unfold dist succ
  split_ifs <;> omega

theorem dist_lt {n a z : ℕ} (ha : a < n) (hz : z < n) : dist n a z < n := by
  unfold dist
  split_ifs <;> omega

theorem between_total {a r b : ℕ} (hne : r ≠ b) (hra : r ≠ a) (hba : b ≠ a) :
    Between a r b ∨ Between a b r := by
  unfold Between
  omega

/-! ## Searching -/

/-- Walk from `b` to the first bucket that is empty or holds a wanted entry. -/
def search (n : ℕ) (t : ℕ → Option α) (p : α → Bool) : ℕ → ℕ → Option ℕ
  | 0, _ => none
  | k + 1, b =>
    match t b with
    | none => some b
    | some e => if p e then some b else search n t p k (succ n b)

/-- A bucket at which the walk stops. -/
def Stops (t : ℕ → Option α) (p : α → Bool) (b : ℕ) : Prop := ∀ e, t b = some e → p e = true

theorem search_spec {n : ℕ} {t : ℕ → Option α} {p : α → Bool} {z : ℕ} (hz : z < n)
    (hstop : Stops t p z) (k a : ℕ) (ha : a < n) (hk : dist n a z < k) :
    ∃ r < n, search n t p k a = some r ∧ Stops t p r ∧
      ∀ x < n, Between a x r → ∃ e, t x = some e ∧ p e = false := by
  induction k generalizing a with
  | zero => omega
  | succ k ih =>
    have hself : ∀ x < n, Between a x a → ∃ e, t x = some e ∧ p e = false :=
      fun x _ hx => absurd hx (not_between_self a x)
    cases hta : t a with
    | none => exact ⟨a, ha, by simp [search, hta], fun e he => by simp [hta] at he, hself⟩
    | some e =>
      cases hpe : p e with
      | true =>
        exact ⟨a, ha, by simp [search, hta, hpe],
          fun e' he' => by simp_all, hself⟩
      | false =>
        have hne : a ≠ z := by
          rintro rfl
          simp [hstop e hta] at hpe
        have hd := dist_succ ha hz hne
        obtain ⟨r, hr, hs, hst, hb⟩ := ih (succ n a) (succ_lt ha) (by omega)
        refine ⟨r, hr, by simp [search, hta, hpe, hs], hst, fun x hx hbx => ?_⟩
        by_cases har : a = r
        · subst har
          exact absurd hbx (not_between_self a x)
        · rcases (between_iff_succ ha hx hr har).mp hbx with rfl | h
          · exact ⟨e, hta, hpe⟩
          · exact hb x hx h

/-! ## The probe invariant -/

/-- Every bucket between an entry's home and its place is occupied. -/
def Probed (n : ℕ) (home : α → ℕ) (t : ℕ → Option α) : Prop :=
  ∀ b < n, ∀ e, t b = some e → ∀ x < n, Between (home e) x b → t x ≠ none

/-- No key is stored twice. -/
def Distinct (n : ℕ) (key : α → κ) (t : ℕ → Option α) : Prop :=
  ∀ b < n, ∀ b' < n, ∀ e e', t b = some e → t b' = some e' → key e = key e' → b = b'

def Holds (n : ℕ) (t : ℕ → Option α) (e : α) : Prop := ∃ b < n, t b = some e

def occupied (n : ℕ) (t : ℕ → Option α) : Finset ℕ := (Finset.range n).filter fun b => (t b).isSome

theorem mem_occupied {n : ℕ} {t : ℕ → Option α} {b : ℕ} :
    b ∈ occupied n t ↔ b < n ∧ ∃ e, t b = some e := by
  simp [occupied, isSome_iff_exists]

section Congr

variable {n : ℕ} {home : α → ℕ} {key : α → κ} {t t' : ℕ → Option α} (heq : ∀ b < n, t' b = t b)
include heq

theorem Probed.congr (h : Probed n home t) : Probed n home t' := by
  intro b hb e he x hx hxb
  rw [heq x hx]
  exact h b hb e (by rwa [← heq b hb]) x hx hxb

theorem Distinct.congr (h : Distinct n key t) : Distinct n key t' := by
  intro b hb b' hb' e e' he he'
  exact h b hb b' hb' e e' (by rwa [← heq b hb]) (by rwa [← heq b' hb'])

theorem occupied_congr : occupied n t' = occupied n t := by
  ext b
  rw [mem_occupied, mem_occupied]
  exact and_congr_right fun hb => by rw [heq b hb]

theorem holds_congr (e : α) : Holds n t' e ↔ Holds n t e :=
  exists_congr fun b => and_congr_right fun hb => by rw [heq b hb]

end Congr

theorem exists_empty {n : ℕ} {t : ℕ → Option α} (h : (occupied n t).card < n) :
    ∃ z < n, t z = none := by
  by_contra hne
  push Not at hne
  have hsub : Finset.range n ⊆ occupied n t := by
    intro b hb
    rw [Finset.mem_range] at hb
    exact mem_occupied.2 ⟨hb, ne_none_iff_exists'.mp (hne b hb)⟩
  have := Finset.card_le_card hsub
  rw [Finset.card_range] at this
  omega

section Search

variable [DecidableEq κ] {n : ℕ} {home : α → ℕ} {t : ℕ → Option α}

/-- The walk for a key from its home stops at the key's bucket, or else at an empty one. -/
theorem search_key (key : α → κ) (hp : Probed n home t) {k : κ} {a : ℕ} (ha : a < n) (hka : ∀ e, key e = k → home e = a)
    {z : ℕ} (hz : z < n) (htz : t z = none) :
    ∃ r < n, search n t (fun e => decide (key e = k)) n a = some r ∧
      (∀ x < n, Between a x r → t x ≠ none) ∧
      ((∃ e, t r = some e ∧ key e = k) ∨ (t r = none ∧ ∀ b < n, ∀ e, t b = some e → key e ≠ k)) := by
  obtain ⟨r, hr, hs, hst, hb⟩ := search_spec (t := t) (p := fun e => decide (key e = k)) hz
    (fun e he => by simp [htz] at he) n a ha (dist_lt ha hz)
  have hocc : ∀ x < n, Between a x r → t x ≠ none := by
    intro x hx hxb
    obtain ⟨e, he, -⟩ := hb x hx hxb
    simp [he]
  refine ⟨r, hr, hs, hocc, ?_⟩
  cases htr : t r with
  | some e => exact .inl ⟨e, rfl, by simpa using hst e htr⟩
  | none =>
    refine .inr ⟨rfl, fun b hbn e he hke => ?_⟩
    have hne : r ≠ b := by
      rintro rfl
      simp [htr] at he
    -- `r` is not before `b` on the walk, since the entry at `b` is probed from its home
    have hrb : ¬ Between a r b := by
      intro h
      exact hp b hbn e he r hr (by rwa [hka e hke]) htr
    have hbr : ¬ Between a b r := by
      intro h
      obtain ⟨e', he', hf⟩ := hb b hbn h
      rw [he] at he'
      cases he'
      simp [hke] at hf
    by_cases hra : r = a
    · subst hra
      unfold Between at hrb
      omega
    by_cases hba : b = a
    · subst hba
      unfold Between at hbr
      omega
    · rcases between_total hne hra hba with h | h
      · exact hrb h
      · exact hbr h

end Search

/-! ## Insertion -/

section Insert

variable {n : ℕ} {home : α → ℕ} {key : α → κ} {t : ℕ → Option α} {b : ℕ} {e : α}

theorem Probed.insert (hp : Probed n home t) (hfree : t b = none)
    (hwalk : ∀ x < n, Between (home e) x b → t x ≠ none) :
    Probed n home (update t b (some e)) := by
  intro c hc e' he' x hx hxb
  by_cases hxb' : x = b
  · simp [hxb']
  rw [update_of_ne hxb']
  by_cases hcb : c = b
  · subst hcb
    rw [update_self, some.injEq] at he'
    subst he'
    exact hwalk x hx hxb
  · rw [update_of_ne hcb] at he'
    exact hp c hc e' he' x hx hxb

theorem Probed.replace (hp : Probed n home t) {e₀ : α} (hb : t b = some e₀)
    (hhome : home e = home e₀) : Probed n home (update t b (some e)) := by
  intro c hc e' he' x hx hxb
  by_cases hxb' : x = b
  · simp [hxb']
  rw [update_of_ne hxb']
  by_cases hcb : c = b
  · subst hcb
    rw [update_self, some.injEq] at he'
    subst he'
    exact hp c hc e₀ hb x hx (by rwa [← hhome])
  · rw [update_of_ne hcb] at he'
    exact hp c hc e' he' x hx hxb

theorem Distinct.update (hd : Distinct n key t)
    (hnew : ∀ c < n, c ≠ b → ∀ e', t c = some e' → key e' ≠ key e) :
    Distinct n key (update t b (some e)) := by
  intro c hc c' hc' e₁ e₂ h₁ h₂ hk
  by_cases hcb : c = b <;> by_cases hcb' : c' = b
  · rw [hcb, hcb']
  · subst hcb
    rw [update_self, some.injEq] at h₁
    rw [update_of_ne hcb'] at h₂
    subst h₁
    exact absurd hk.symm (hnew c' hc' hcb' e₂ h₂)
  · subst hcb'
    rw [update_self, some.injEq] at h₂
    rw [update_of_ne hcb] at h₁
    subst h₂
    exact absurd hk (hnew c hc hcb e₁ h₁)
  · rw [update_of_ne hcb] at h₁
    rw [update_of_ne hcb'] at h₂
    exact hd c hc c' hc' e₁ e₂ h₁ h₂ hk

theorem occupied_update_some (hb : b < n) :
    occupied n (update t b (some e)) = Insert.insert b (occupied n t) := by
  ext c
  rw [Finset.mem_insert, mem_occupied, mem_occupied]
  by_cases hcb : c = b
  · simp [hcb, hb]
  · simp [hcb]

theorem occupied_update_none :
    occupied n (update t b none) = (occupied n t).erase b := by
  ext c
  rw [Finset.mem_erase, mem_occupied, mem_occupied]
  by_cases hcb : c = b
  · simp [hcb]
  · simp [hcb]

theorem holds_update_some (hb : b < n) (hfree : t b = none) (e' : α) :
    Holds n (update t b (some e)) e' ↔ Holds n t e' ∨ e' = e := by
  constructor
  · rintro ⟨c, hc, hce⟩
    by_cases hcb : c = b
    · rw [hcb, update_self, some.injEq] at hce
      exact .inr hce.symm
    · rw [update_of_ne hcb] at hce
      exact .inl ⟨c, hc, hce⟩
  · rintro (⟨c, hc, hce⟩ | rfl)
    · refine ⟨c, hc, ?_⟩
      rw [update_of_ne, hce]
      rintro rfl
      simp [hfree] at hce
    · exact ⟨b, hb, update_self ..⟩

end Insert

/-! ## Reading a table bucket by bucket -/

section Prefix

variable {t : ℕ → Option α} {b : ℕ} {e : α}

theorem holds_succ_none (h : t b = none) (e' : α) : Holds (b + 1) t e' ↔ Holds b t e' := by
  constructor
  · rintro ⟨c, hc, hce⟩
    refine ⟨c, ?_, hce⟩
    rcases Nat.lt_succ_iff_lt_or_eq.mp hc with h' | rfl
    · exact h'
    · simp [h] at hce
  · rintro ⟨c, hc, hce⟩
    exact ⟨c, by omega, hce⟩

theorem holds_succ_some (h : t b = some e) (e' : α) : Holds (b + 1) t e' ↔ Holds b t e' ∨ e' = e := by
  constructor
  · rintro ⟨c, hc, hce⟩
    rcases Nat.lt_succ_iff_lt_or_eq.mp hc with h' | rfl
    · exact .inl ⟨c, h', hce⟩
    · rw [h, some.injEq] at hce
      exact .inr hce.symm
  · rintro (⟨c, hc, hce⟩ | rfl)
    · exact ⟨c, by omega, hce⟩
    · exact ⟨b, by omega, h⟩

theorem occupied_succ_none (h : t b = none) : occupied (b + 1) t = occupied b t := by
  simp [occupied, Finset.range_add_one, Finset.filter_insert, h]

theorem card_occupied_succ_some (h : t b = some e) :
    (occupied (b + 1) t).card = (occupied b t).card + 1 := by
  simp [occupied, Finset.range_add_one, Finset.filter_insert, h]

end Prefix

/-! ## Iteration in bucket order -/

section Iteration

variable {n : ℕ} {t : ℕ → Option α}

/-- The first occupied bucket from `b` on. -/
def nextOccupied (n : ℕ) (t : ℕ → Option α) (b : ℕ) : Option ℕ :=
  (List.range' b (n - b)).find? fun c => (t c).isSome

theorem nextOccupied_of_le {b : ℕ} (hb : n ≤ b) : nextOccupied n t b = none := by
  rw [nextOccupied, Nat.sub_eq_zero_of_le hb]
  rfl

theorem nextOccupied_of_lt {b : ℕ} (hb : b < n) :
    nextOccupied n t b = if (t b).isSome then some b else nextOccupied n t (b + 1) := by
  obtain ⟨k, hk⟩ : ∃ k, n - b = k + 1 := ⟨n - b - 1, by omega⟩
  have hk' : n - (b + 1) = k := by omega
  rw [nextOccupied, nextOccupied, hk, hk', List.range'_succ, find?_cons]
  split <;> simp_all

theorem nextOccupied_eq_some {b c : ℕ} : nextOccupied n t b = some c ↔
    b ≤ c ∧ c < n ∧ (∃ e, t c = some e) ∧ ∀ x, b ≤ x → x < c → t x = none := by
  rw [nextOccupied, find?_range'_eq_some, isSome_iff_exists, mem_range'_1]
  constructor
  · rintro ⟨he, ⟨h₁, h₂⟩, hmin⟩
    exact ⟨h₁, by omega, he, fun x hx hxc => by simpa using hmin x hx hxc⟩
  · rintro ⟨h₁, h₂, he, hmin⟩
    exact ⟨he, ⟨h₁, by omega⟩, fun x hx hxc => by simp [hmin x hx hxc]⟩

theorem nextOccupied_eq_none {b : ℕ} :
    nextOccupied n t b = none ↔ ∀ x, b ≤ x → x < n → t x = none := by
  rw [nextOccupied, find?_eq_none]
  constructor
  · intro h x hx hxn
    have := h x (mem_range'_1.mpr ⟨hx, by omega⟩)
    simpa using this
  · intro h x hx
    rw [mem_range'_1] at hx
    simp [h x hx.1 (by omega)]

/-- The entries from bucket `b` on, in bucket order. -/
def entriesFrom (n : ℕ) (t : ℕ → Option α) (b : ℕ) : List α := (List.range' b (n - b)).filterMap t

theorem mem_entriesFrom {b : ℕ} {e : α} :
    e ∈ entriesFrom n t b ↔ ∃ c, b ≤ c ∧ c < n ∧ t c = some e := by
  simp only [entriesFrom, mem_filterMap, mem_range'_1]
  exact exists_congr fun c => ⟨fun ⟨h₁, h₂⟩ => ⟨h₁.1, by omega, h₂⟩,
    fun ⟨h₁, h₂, h₃⟩ => ⟨⟨h₁, by omega⟩, h₃⟩⟩

theorem entriesFrom_of_lt {b : ℕ} (hb : b < n) :
    entriesFrom n t b = (t b).toList ++ entriesFrom n t (b + 1) := by
  obtain ⟨k, hk⟩ : ∃ k, n - b = k + 1 := ⟨n - b - 1, by omega⟩
  have hk' : n - (b + 1) = k := by omega
  rw [entriesFrom, entriesFrom, hk, hk', List.range'_succ, filterMap_cons]
  cases t b <;> rfl

theorem entriesFrom_none {b : ℕ} (h : nextOccupied n t b = none) : entriesFrom n t b = [] := by
  rw [eq_nil_iff_forall_not_mem]
  intro e he
  obtain ⟨c, hbc, hcn, hce⟩ := mem_entriesFrom.1 he
  simp [nextOccupied_eq_none.1 h c hbc hcn] at hce

theorem entriesFrom_some {b c : ℕ} {e : α} (h : nextOccupied n t b = some c) (he : t c = some e) :
    entriesFrom n t b = e :: entriesFrom n t (c + 1) := by
  obtain ⟨hbc, hcn, -, hgap⟩ := nextOccupied_eq_some.1 h
  obtain ⟨k, rfl⟩ := Nat.exists_eq_add_of_le hbc
  clear h hbc
  induction k generalizing b with
  | zero => rw [Nat.add_zero] at he ⊢; rw [entriesFrom_of_lt (by omega), he]; rfl
  | succ k ih =>
    rw [entriesFrom_of_lt (by omega), hgap b le_rfl (by omega)]
    have hk : b + 1 + k = b + (k + 1) := by omega
    have := ih (b := b + 1) (by rwa [hk]) (by rwa [hk]) fun x hx hxc => hgap x (by omega) (by omega)
    rw [hk] at this
    exact this

end Iteration

/-! ## Deletion by backward shift -/

/-- Move the entry of bucket `a` to bucket `b`. -/
def move (t : ℕ → Option α) (a b : ℕ) : ℕ → Option α :=
  Function.update (Function.update t b (t a)) a none

theorem move_apply (t : ℕ → Option α) (a b x : ℕ) :
    move t a b x = if x = a then none else if x = b then t a else t x := by
  simp only [move, update_apply]

/-- Walk on from `nxt`, moving into the hole each entry whose own walk passes it, until an
empty bucket is met. Returns the table and the last hole; `none` if the walk is too long. -/
def backshift (n : ℕ) (home : α → ℕ) : ℕ → (ℕ → Option α) → ℕ → ℕ → Option ((ℕ → Option α) × ℕ)
  | 0, _, _, _ => none
  | k + 1, t, hole, nxt =>
    match t nxt with
    | none => some (t, hole)
    | some e =>
      if Between (home e) hole nxt then backshift n home k (move t nxt hole) nxt (succ n nxt)
      else backshift n home k t hole (succ n nxt)

/-- The state of the shift: one hole, an occupied run from it to `nxt` whose entries need not
move, and the probe invariant everywhere but at the hole. `z` is an empty bucket ahead. -/
structure Shifting (n : ℕ) (home : α → ℕ) (z : ℕ) (t : ℕ → Option α) (hole nxt : ℕ) : Prop where
  hole_lt : hole < n
  nxt_lt : nxt < n
  end_lt : z < n
  nxt_ne : nxt ≠ hole
  end_ne : z ≠ hole
  hole_empty : t hole = none
  end_empty : t z = none
  run : ∀ x < n, x ≠ hole → Between hole x nxt → t x ≠ none
  probed : ∀ b < n, ∀ e, t b = some e → ∀ x < n, Between (home e) x b → x ≠ hole → t x ≠ none
  settled : ∀ b < n, ∀ e, t b = some e → Between hole b nxt → ¬ Between (home e) hole b

namespace Shifting

variable {n : ℕ} {home : α → ℕ} {z : ℕ} {t : ℕ → Option α} {hole nxt : ℕ} {e : α}

theorem not_past (h : Shifting n home z t hole nxt) : ¬ Between hole z nxt :=
  fun hb => h.run z h.end_lt h.end_ne hb h.end_empty

theorem stay (h : Shifting n home z t hole nxt) (he : t nxt = some e)
    (hb : ¬ Between (home e) hole nxt) : Shifting n home z t hole (succ n nxt) := by
  have hz : z ≠ nxt := by
    rintro rfl
    simp [h.end_empty] at he
  have hpast := h.not_past
  have hlt := h.nxt_lt
  have hhole := h.hole_lt
  have hend := h.end_lt
  have hne := h.nxt_ne
  have hzne := h.end_ne
  have hsne : succ n nxt ≠ hole := by
    unfold Between at hpast
    unfold succ
    split_ifs <;> omega
  have hstep : ∀ x < n, Between hole x (succ n nxt) → x = nxt ∨ Between hole x nxt := by
    intro x hx hxb
    revert hxb hsne
    unfold Between succ
    split_ifs <;> omega
  refine ⟨hhole, succ_lt hlt, hend, hsne, hzne, h.hole_empty, h.end_empty, ?_, h.probed, ?_⟩
  · intro x hx hxh hxb
    rcases hstep x hx hxb with rfl | h'
    · simp [he]
    · exact h.run x hx hxh h'
  · intro b hbn e' he' hbb
    rcases hstep b hbn hbb with rfl | h'
    · rw [he] at he'
      cases he'
      exact hb
    · exact h.settled b hbn e' he' h'

theorem shift (h : Shifting n home z t hole nxt) (he : t nxt = some e)
    (hb : Between (home e) hole nxt) : Shifting n home z (move t nxt hole) nxt (succ n nxt) := by
  have hz : z ≠ nxt := by
    rintro rfl
    simp [h.end_empty] at he
  have hlt := h.nxt_lt
  have hhole := h.hole_lt
  have hne := h.nxt_ne
  have hone : ∀ x < n, x ≠ nxt → ¬ Between nxt x (succ n nxt) := by
    intro x hx hxn
    unfold Between succ
    split_ifs <;> omega
  refine ⟨hlt, succ_lt hlt, h.end_lt, ?_, hz, by simp [move_apply], ?_, ?_, ?_, ?_⟩
  · unfold succ
    split_ifs <;> omega
  · simp [move_apply, hz, h.end_ne, h.end_empty]
  · exact fun x hx hxn hxb => absurd hxb (hone x hx hxn)
  · intro b hbn e' he' x hx hxb hxn
    by_cases hbnx : b = nxt
    · simp [move_apply, hbnx] at he'
    by_cases hxh : x = hole
    · simp [move_apply, hxh, hne.symm, he]
    rw [move_apply, if_neg hxn, if_neg hxh]
    by_cases hbh : b = hole
    · subst hbh
      rw [move_apply, if_neg hbnx, if_pos rfl, he, some.injEq] at he'
      subst he'
      have hxb' : Between (home e) x nxt := by
        unfold Between at hxb hb ⊢
        omega
      exact h.probed nxt hlt e he x hx hxb' hxh
    · rw [move_apply, if_neg hbnx, if_neg hbh] at he'
      exact h.probed b hbn e' he' x hx hxb hxh
  · intro b hbn e' he' hbb
    by_cases hbnx : b = nxt
    · simp [move_apply, hbnx] at he'
    · exact absurd hbb (hone b hbn hbnx)

/-- Once an empty bucket is met, no walk passes the hole any more. -/
theorem done (h : Shifting n home z t hole nxt) (hemp : t nxt = none) : Probed n home t := by
  intro b hbn e he x hx hxb
  by_cases hxh : x = hole
  · subst hxh
    have hbx : b ≠ x := by
      rintro rfl
      simp [h.hole_empty] at he
    have hbnx : b ≠ nxt := by
      rintro rfl
      simp [hemp] at he
    by_cases hbb : Between x b nxt
    · exact absurd hxb (h.settled b hbn e he hbb)
    · have hne := h.nxt_ne
      have hpass : Between (home e) nxt b := by
        unfold Between at hxb hbb ⊢
        omega
      exact absurd hemp (h.probed b hbn e he nxt h.nxt_lt hpass hne)
  · exact h.probed b hbn e he x hx hxb hxh

end Shifting

theorem backshift_rule {n : ℕ} {home : α → ℕ} {z : ℕ}
    (P : (ℕ → Option α) → ℕ → ℕ → Prop)
    (hstay : ∀ t hole nxt e, Shifting n home z t hole nxt → t nxt = some e →
      ¬ Between (home e) hole nxt → P t hole nxt → P t hole (succ n nxt))
    (hshift : ∀ t hole nxt e, Shifting n home z t hole nxt → t nxt = some e →
      Between (home e) hole nxt → P t hole nxt → P (move t nxt hole) nxt (succ n nxt))
    {k : ℕ} {t : ℕ → Option α} {hole nxt : ℕ} (h : Shifting n home z t hole nxt)
    (hk : dist n nxt z < k) (hP : P t hole nxt) :
    ∃ t' hole' nxt', backshift n home k t hole nxt = some (t', hole') ∧
      Shifting n home z t' hole' nxt' ∧ t' nxt' = none ∧ P t' hole' nxt' := by
  induction k generalizing t hole nxt with
  | zero => omega
  | succ k ih =>
    cases he : t nxt with
    | none => exact ⟨t, hole, nxt, by simp [backshift, he], h, he, hP⟩
    | some e =>
      have hne : nxt ≠ z := by
        rintro rfl
        simp [h.end_empty] at he
      have hd := dist_succ h.nxt_lt h.end_lt hne
      by_cases hb : Between (home e) hole nxt
      · simp only [backshift, he, if_pos hb]
        exact ih (h.shift he hb) (by omega) (hshift t hole nxt e h he hb hP)
      · simp only [backshift, he, if_neg hb]
        exact ih (h.stay he hb) (by omega) (hstay t hole nxt e h he hb hP)

section Delete

variable {n : ℕ} {home : α → ℕ} {key : α → κ} {t : ℕ → Option α} {b z : ℕ} {e : α}

theorem Shifting.start (hp : Probed n home t) (hb : b < n) (hz : z < n) (hzb : z ≠ b)
    (htz : t z = none) : Shifting n home z (update t b none) b (succ n b) := by
  have hone : ∀ x < n, x ≠ b → ¬ Between b x (succ n b) := by
    intro x hx hxn
    unfold Between succ
    split_ifs <;> omega
  refine ⟨hb, succ_lt hb, hz, ?_, hzb, by simp, by simp [hzb, htz],
    fun x hx hxn hxb => absurd hxb (hone x hx hxn), ?_, ?_⟩
  · unfold succ
    split_ifs <;> omega
  · intro c hc e' he' x hx hxb hxn
    rw [update_of_ne hxn]
    by_cases hcb : c = b
    · simp [hcb] at he'
    · rw [update_of_ne hcb] at he'
      exact hp c hc e' he' x hx hxb
  · intro c hc e' he' hcb
    by_cases hcb' : c = b
    · simp [hcb'] at he'
    · exact absurd hcb (hone c hc hcb')

theorem holds_move {hole nxt : ℕ} (hhole : hole < n) (hnxt : nxt < n) (hemp : t hole = none)
    (he : t nxt = some e) (e' : α) : Holds n (move t nxt hole) e' ↔ Holds n t e' := by
  have hne : hole ≠ nxt := by
    rintro rfl
    simp [hemp] at he
  constructor
  · rintro ⟨c, hc, hce⟩
    rw [move_apply] at hce
    split_ifs at hce with h₁ h₂
    · exact ⟨nxt, hnxt, hce⟩
    · exact ⟨c, hc, hce⟩
  · rintro ⟨c, hc, hce⟩
    by_cases hcn : c = nxt
    · exact ⟨hole, hhole, by rw [move_apply, if_neg hne, if_pos rfl, ← hcn, hce]⟩
    · refine ⟨c, hc, ?_⟩
      rw [move_apply, if_neg hcn, if_neg, hce]
      rintro rfl
      simp [hemp] at hce

theorem Distinct.move {hole nxt : ℕ} (hd : Distinct n key t) (hnxt : nxt < n) :
    Distinct n key (move t nxt hole) := by
  intro c hc c' hc' e₁ e₂ h₁ h₂ hk
  rw [move_apply] at h₁ h₂
  split_ifs at h₁ h₂ with a₁ a₂ a₃ a₄ a₅ a₆
  · rw [a₂, a₄]
  · exact absurd (hd nxt hnxt c' hc' e₁ e₂ h₁ h₂ hk).symm a₃
  · exact absurd (hd c hc nxt hnxt e₁ e₂ h₁ h₂ hk) a₁
  · exact hd c hc c' hc' e₁ e₂ h₁ h₂ hk

theorem card_occupied_move {hole nxt : ℕ} (hhole : hole < n) (hnxt : nxt < n)
    (hemp : t hole = none) (he : t nxt = some e) :
    (occupied n (move t nxt hole)).card = (occupied n t).card := by
  have hne : nxt ≠ hole := by
    rintro rfl
    simp [hemp] at he
  have hmem : nxt ∈ occupied n t := mem_occupied.2 ⟨hnxt, e, he⟩
  have hnot : hole ∉ occupied n t := fun h => by
    obtain ⟨-, e', he'⟩ := mem_occupied.1 h
    simp [hemp] at he'
  rw [LinearProbing.move, he, occupied_update_none, occupied_update_some hhole,
    Finset.card_erase_of_mem (Finset.mem_insert_of_mem hmem), Finset.card_insert_of_notMem hnot]
  omega

theorem delete_spec (hp : Probed n home t) (hd : Distinct n key t) (hb : b < n)
    (he : t b = some e) (hz : z < n) (htz : t z = none) :
    ∃ t' hole, backshift n home n (update t b none) b (succ n b) = some (t', hole) ∧
      Probed n home t' ∧ Distinct n key t' ∧
      (∀ e', Holds n t' e' ↔ Holds n t e' ∧ key e' ≠ key e) ∧
      (occupied n t').card + 1 = (occupied n t).card := by
  have hzb : z ≠ b := by
    rintro rfl
    simp [htz] at he
  have hdist : dist n (succ n b) z < n := dist_lt (succ_lt hb) hz
  obtain ⟨t', hole, nxt, hrun, hs, hemp, hdk, hh, hc⟩ := backshift_rule
    (fun t' _ _ => Distinct n key t' ∧ (∀ e', Holds n t' e' ↔ Holds n (update t b none) e') ∧
      (occupied n t').card = (occupied n (update t b none)).card)
    (fun _ _ _ _ _ _ _ h => h)
    (fun u hole nxt e₁ hs he₁ _ h => ⟨h.1.move hs.nxt_lt,
      fun e' => (holds_move hs.hole_lt hs.nxt_lt hs.hole_empty he₁ e').trans (h.2.1 e'),
      (card_occupied_move hs.hole_lt hs.nxt_lt hs.hole_empty he₁).trans h.2.2⟩)
    (Shifting.start hp hb hz hzb htz) hdist
    ⟨fun c hc c' hc' e₁ e₂ h₁ h₂ hk => by
      by_cases hcb : c = b
      · simp [hcb] at h₁
      by_cases hcb' : c' = b
      · simp [hcb'] at h₂
      rw [update_of_ne hcb] at h₁
      rw [update_of_ne hcb'] at h₂
      exact hd c hc c' hc' e₁ e₂ h₁ h₂ hk, fun _ => Iff.rfl, rfl⟩
  refine ⟨t', hole, hrun, hs.done hemp, hdk, fun e' => (hh e').trans ?_, ?_⟩
  · constructor
    · rintro ⟨c, hc, hce⟩
      by_cases hcb : c = b
      · simp [hcb] at hce
      · rw [update_of_ne hcb] at hce
        exact ⟨⟨c, hc, hce⟩, fun hk => hcb (hd c hc b hb e' e hce he hk)⟩
    · rintro ⟨⟨c, hc, hce⟩, hk⟩
      refine ⟨c, hc, ?_⟩
      rw [update_of_ne, hce]
      rintro rfl
      rw [he, some.injEq] at hce
      exact hk (by rw [hce])
  · have hmem : b ∈ occupied n t := mem_occupied.2 ⟨hb, e, he⟩
    rw [hc, occupied_update_none, Finset.card_erase_of_mem hmem]
    have := Finset.card_pos.mpr ⟨b, hmem⟩
    omega

end Delete

end LinearProbing
