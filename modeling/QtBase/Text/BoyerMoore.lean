import QtBase.Text.StringMatcher

/-! `bm_find` finds the first place where the keys of the pattern stand and the rest of the needle
follows. -/
namespace QtBase.StringMatcher

open PatternSearch Function

variable {key : ℤ → ℕ} {pat : ℕ → ℕ} {m : ℕ} {skiptable : ℕ → ℕ} {rest : ℤ → Bool} {l : ℤ}

theorem matchBack_spec {current : ℤ} {k skip : ℕ} (hk : skip + k = m)
    (hbefore : ∀ s < skip, key (current - s) = pat (m - 1 - s)) :
    ∃ matched, matchBack key pat m current k skip = matched ∧ matched ≤ m ∧
      (∀ s < matched, key (current - s) = pat (m - 1 - s)) ∧
      (matched < m → key (current - matched) ≠ pat (m - 1 - matched)) := by
  induction k generalizing skip with
  | zero => exact ⟨skip, rfl, by omega, hbefore, fun h => by omega⟩
  | succ k ih =>
    unfold matchBack
    by_cases hne : key (current - skip) ≠ pat (m - 1 - skip)
    · exact ⟨skip, if_pos hne, by omega, hbefore, fun _ => hne⟩
    · rw [if_neg hne]
      refine ih (by omega) fun s hs => ?_
      rcases Nat.lt_succ_iff_lt_or_eq.mp hs with hs | rfl
      · exact hbefore s hs
      · exact not_not.mp hne

variable {current : ℤ}

theorem occurs_iff_matched {matched : ℕ} (hm : 1 ≤ m) (hle : matched ≤ m)
    (hsame : ∀ s < matched, key (current - s) = pat (m - 1 - s))
    (hdiffers : matched < m → key (current - matched) ≠ pat (m - 1 - matched)) :
    Occurs key pat m (current - (m - 1)) ↔ matched > m - 1 := by
  constructor
  · intro h
    by_contra hlt
    have hat := h (m - 1 - matched) (by omega)
    have hplace : current - (m - 1) + ((m - 1 - matched : ℕ) : ℤ) = current - matched := by omega
    rw [hplace] at hat
    exact hdiffers (by omega) hat
  · intro h t ht
    have hat := hsame (m - 1 - t) (by omega)
    have hplace : current - ((m - 1 - t : ℕ) : ℤ) = current - (m - 1) + t := by omega
    rw [hplace] at hat
    rw [hat, show m - 1 - (m - 1 - t) = t by omega]

/-- The pattern stands at `i`, in the first `l` places, and the rest follows. -/
def Hit (key : ℤ → ℕ) (pat : ℕ → ℕ) (m : ℕ) (rest : ℤ → Bool) (l i : ℤ) : Prop :=
  i + m ≤ l ∧ Occurs key pat m i ∧ rest i = true

/-- How far one turn of `bmLoop` goes when it returns nothing. -/
inductive Shift (key : ℤ → ℕ) (pat : ℕ → ℕ) (m : ℕ) (skiptable : ℕ → ℕ) (rest : ℤ → Bool)
    (current : ℤ) : ℕ → Prop
  | last (h : skiptable (key current % 256) ≠ 0) :
    Shift key pat m skiptable rest current (skiptable (key current % 256))
  | differing (matched : ℕ) (hle : matched ≤ m)
      (hmiss : ¬ (Occurs key pat m (current - (m - 1)) ∧ rest (current - (m - 1)) = true))
      (h : skiptable (key (current - matched) % 256) = m) (hmatched : matched = m →
        ¬ rest (current - (m - 1)) = true) :
    Shift key pat m skiptable rest current (m - matched)
  | one (hmiss : ¬ (Occurs key pat m (current - (m - 1)) ∧ rest (current - (m - 1)) = true)) :
    Shift key pat m skiptable rest current 1

theorem bmLoop_turn (hm : 1 ≤ m) {k : ℕ} (hend : current < l) :
    (bmLoop key pat m skiptable rest l (k + 1) current = .ok (current - (m - 1)) ∧
      Hit key pat m rest l (current - (m - 1))) ∨
    ∃ skip : ℕ, Shift key pat m skiptable rest current skip ∧
      bmLoop key pat m skiptable rest l (k + 1) current =
        if current > l - skip then .ok (-1)
        else bmLoop key pat m skiptable rest l k (current + skip) := by
  obtain ⟨matched, hmatched, hle, hsame, hdiffers⟩ :=
    @matchBack_spec key pat m current m 0 (Nat.zero_add m) (by simp)
  have hoccurs := occurs_iff_matched hm hle hsame hdiffers
  by_cases hskip : skiptable (key current % 256) = 0
  · by_cases hhit : matched > m - 1 ∧ rest (current - (m - 1)) = true
    · refine .inl ⟨?_, by omega, hoccurs.mpr hhit.1, hhit.2⟩
      rw [bmLoop, if_pos hend, hmatched]
      exact if_pos ⟨hskip, hhit⟩
    · have hmiss : ¬ (Occurs key pat m (current - (m - 1)) ∧ rest (current - (m - 1)) = true) := by
        rwa [hoccurs]
      by_cases hdiff : skiptable (key (current - matched) % 256) = m
      · refine .inr ⟨m - matched, .differing matched hle hmiss hdiff
          (fun h hrest => hhit ⟨by omega, hrest⟩), ?_⟩
        rw [bmLoop, if_pos hend, hmatched]
        dsimp only
        rw [if_neg (fun h => hhit h.2), if_pos hskip, if_pos hdiff]
      · refine .inr ⟨1, .one hmiss, ?_⟩
        rw [bmLoop, if_pos hend, hmatched]
        dsimp only
        rw [if_neg (fun h => hhit h.2), if_pos hskip, if_neg hdiff]
  · refine .inr ⟨_, .last hskip, ?_⟩
    rw [bmLoop, if_pos hend]
    dsimp only
    rw [if_neg (fun h => hskip h.1), if_neg hskip]

theorem bmLoop_sound (hm : 1 ≤ m) {k : ℕ} {r : ℤ}
    (h : bmLoop key pat m skiptable rest l k current = .ok r) :
    r = -1 ∨ Hit key pat m rest l r := by
  induction k generalizing current with
  | zero => cases h
  | succ k ih =>
    by_cases hend : current < l
    · rcases bmLoop_turn hm hend with ⟨hrun, hhit⟩ | ⟨skip, -, hrun⟩
      · rw [hrun] at h
        exact .inr (Except.ok.inj h ▸ hhit)
      · rw [hrun] at h
        split_ifs at h
        · exact .inl (Except.ok.inj h).symm
        · exact ih h
    · rw [bmLoop, if_neg hend] at h
      exact .inl (Except.ok.inj h).symm

/-- A turn goes forward, and passes over no hit. -/
theorem Shift.safe {skip : ℕ} (h : Shift key pat m skiptable rest current skip)
    (htable : Skips (· % 256) pat m skiptable)
    (hfull : (∀ i, rest i = true) ∨ ∀ b, skiptable b < m) :
    1 ≤ skip ∧ ∀ i, current - (m - 1) ≤ i → i < current - (m - 1) + skip →
      ¬ Hit key pat m rest l i := by
  cases h with
  | last h =>
    refine ⟨by omega, fun i hi hlt hhit => ?_⟩
    obtain ⟨s, rfl⟩ : ∃ s : ℕ, i = current - (m - 1) + s :=
      ⟨(i - (current - (m - 1))).toNat, by omega⟩
    refine htable.not_occurs (k := 0) ?_ hhit.2.1
    simpa using (by omega : s < skiptable (key current % 256))
  | differing matched hle hmiss h hmatched =>
    have hlt : matched ≠ m := by
      intro heq
      rcases hfull with hrest | hsmall
      · exact hmatched heq (hrest _)
      · exact absurd h (by have := hsmall (key (current - matched) % 256); omega)
    refine ⟨by omega, fun i hi hlt hhit => ?_⟩
    obtain ⟨s, rfl⟩ : ∃ s : ℕ, i = current - (m - 1) + s :=
      ⟨(i - (current - (m - 1))).toNat, by omega⟩
    refine htable.not_occurs (k := matched) ?_ hhit.2.1
    omega
  | one hmiss =>
    refine ⟨Nat.le_refl 1, fun i hi hlt hhit => hmiss ?_⟩
    obtain rfl : i = current - (m - 1) := by omega
    exact hhit.2

theorem bmLoop_spec (hm : 1 ≤ m) (htable : Skips (· % 256) pat m skiptable)
    (hfull : (∀ i, rest i = true) ∨ ∀ b, skiptable b < m) {k : ℕ} {current : ℤ}
    (hk : l - current < k) (hpos : 0 < k) :
    ∃ r, bmLoop key pat m skiptable rest l k current = .ok r ∧
      FirstAt (Hit key pat m rest l) (current - (m - 1)) r := by
  induction k generalizing current with
  | zero => omega
  | succ k ih =>
    by_cases hend : current < l
    · rcases bmLoop_turn hm hend with ⟨hrun, hhit⟩ | ⟨skip, hshift, hrun⟩
      · exact ⟨_, hrun, .here hhit⟩
      · obtain ⟨hone, hsafe⟩ := hshift.safe (l := l) htable hfull
        by_cases hout : current > l - skip
        · refine ⟨-1, by rw [hrun, if_pos hout], .none fun i hi hhit => ?_⟩
          by_cases hlt : i < current - (m - 1) + skip
          · exact hsafe i hi hlt hhit
          · have := hhit.1
            omega
        · have hless : l - (current + skip) < k := by omega
          obtain ⟨r, hloop, hfirst⟩ := ih hless (by omega)
          refine ⟨r, by rw [hrun, if_neg hout, hloop], .skip (k := skip) (by omega) ?_ hsafe⟩
          have hplace : current - (m - 1) + skip = current + skip - (m - 1) := by omega
          rwa [hplace]
    · refine ⟨-1, by rw [bmLoop, if_neg hend], .none fun i hi hhit => ?_⟩
      have := hhit.1
      omega

theorem fillSkiptable_spec (n : ℕ) (uc : ℤ) (b : ℕ) :
    (fillSkiptable key n uc skiptable b = skiptable b ∨ fillSkiptable key n uc skiptable b < n) ∧
      ∀ s < n, s < fillSkiptable key n uc skiptable b → key (uc + (n - 1 - s : ℕ)) % 256 ≠ b := by
  induction n generalizing uc skiptable with
  | zero => exact ⟨.inl rfl, fun s hs => by omega⟩
  | succ n ih =>
    obtain ⟨hvalue, hne⟩ := @ih (update skiptable (key uc % 256) n) (uc + 1)
    rw [fillSkiptable]
    by_cases hb : b = key uc % 256
    · have hset : update skiptable (key uc % 256) n b = n := by
        rw [hb, update_self]
      rw [hset] at hvalue
      refine ⟨by omega, fun s hs hlt => ?_⟩
      have hplace : uc + ((n + 1 - 1 - s : ℕ) : ℤ) = uc + 1 + ((n - 1 - s : ℕ) : ℤ) := by omega
      rw [hplace]
      exact hne s (by omega) hlt
    · have hset : update skiptable (key uc % 256) n b = skiptable b :=
        update_of_ne hb _ _
      rw [hset] at hvalue
      refine ⟨by omega, fun s hs hlt => ?_⟩
      rcases Nat.lt_succ_iff_lt_or_eq.mp hs with hs | rfl
      · have hplace : uc + ((n + 1 - 1 - s : ℕ) : ℤ) = uc + 1 + ((n - 1 - s : ℕ) : ℤ) := by omega
        rw [hplace]
        exact hne s hs hlt
      · rw [show uc + ((s + 1 - 1 - s : ℕ) : ℤ) = uc by omega]
        exact Ne.symm hb

theorem skips_fillSkiptable {n : ℕ} (hn : n ≤ m)
    (hpat : ∀ t : ℕ, t < m → key t % 256 = pat t % 256) :
    Skips (· % 256) pat m (fillSkiptable key n ((m : ℤ) - n) fun _ => n) := by
  constructor
  · intro b
    have := (@fillSkiptable_spec key (fun _ => n) n ((m : ℤ) - n) b).1
    omega
  · intro b s hs
    obtain ⟨hvalue, hne⟩ :=
      @fillSkiptable_spec key (fun _ => n) n ((m : ℤ) - n) b
    have hlt : s < n := by omega
    have hplace : (m : ℤ) - n + ((n - 1 - s : ℕ) : ℤ) = ((m - 1 - s : ℕ) : ℤ) := by omega
    have := hne s hlt hs
    rw [hplace, hpat _ (by omega)] at this
    exact this

theorem fillSkiptable_le (n : ℕ) (uc : ℤ) (b : ℕ) :
    fillSkiptable key n uc (fun _ => n) b ≤ n := by
  have := (@fillSkiptable_spec key (fun _ => n) n uc b).1
  omega

end QtBase.StringMatcher
