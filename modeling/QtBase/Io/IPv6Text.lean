import QtBase.Io.IPv4RoundTrip

/-! What `toString` prints for an IPv6 address: the first longest run of zero groups becomes "::". -/
namespace QtBase

open List

namespace QIPAddressUtils

variable {a : List UInt8}

/-! ## The run of zeros -/

/-- `l` octets from `o` on that are whole groups of zeros. -/
structure ZeroRun (a : List UInt8) (o l : ℕ) : Prop where
  start : o % 2 = 0
  whole : l % 2 = 0
  inside : o + l ≤ 16
  zero : ∀ i, i % 2 = 0 → o ≤ i → i < o + l → zeroGroup a i = true

/-- A run that no other is longer than, and none of the same length comes before. -/
structure FirstLongest (a : List UInt8) (o l : ℕ) : Prop where
  run : ZeroRun a o l
  best : ∀ o' l', ZeroRun a o' l' → l' < l ∨ (l' = l ∧ o ≤ o')

theorem ZeroRun.empty : ZeroRun a 0 0 where
  start := rfl
  whole := rfl
  inside := by omega
  zero := by
    intro i _ _ h
    omega

theorem scanZeros_spec {rounds i : ℕ} (hr : 16 ≤ i + 2 * rounds) (hi : i % 2 = 0) (hi' : i ≤ 16) :
    scanZeros a rounds i % 2 = 0 ∧ i ≤ scanZeros a rounds i ∧ scanZeros a rounds i ≤ 16 ∧
    (∀ k, k % 2 = 0 → i ≤ k → k < scanZeros a rounds i → zeroGroup a k = true) ∧
    (scanZeros a rounds i < 16 → zeroGroup a (scanZeros a rounds i) = false) := by
  induction rounds generalizing i with
  | zero =>
    rw [scanZeros]
    exact ⟨hi, le_rfl, hi', fun k _ h1 h2 => absurd h2 (by omega), fun h => absurd h (by omega)⟩
  | succ rounds ih =>
    rw [scanZeros]
    by_cases h16 : i < 16
    · rw [if_pos h16]
      cases hz : zeroGroup a i with
      | false =>
        rw [if_neg (by simp)]
        exact ⟨hi, le_rfl, hi', fun k _ h1 h2 => absurd h2 (by omega), fun _ => hz⟩
      | true =>
        rw [if_pos rfl]
        obtain ⟨h1, h2, h3, h4, h5⟩ := @ih (i + 2) (by omega) (by omega) (by omega)
        refine ⟨h1, by omega, h3, ?_, h5⟩
        intro k hk hik hkj
        by_cases hki : k = i
        · simp [hki, hz]
        · exact h4 k hk (by omega) hkj
    · rw [if_neg h16]
      exact ⟨hi, le_rfl, hi', fun k _ h1 h2 => absurd h2 (by omega), fun h => absurd h h16⟩

/-- What the search knows before the group `i`: its run is the first longest of the runs that start
before `i`. -/
structure Searched (a : List UInt8) (i l o : ℕ) : Prop where
  run : ZeroRun a o l
  offset : o ≤ i
  best : ∀ o' l', ZeroRun a o' l' → o' < i → l' < l ∨ (l' = l ∧ o ≤ o')

variable {l : ℕ}

theorem ZeroRun.length_le {o j : ℕ} (h : ZeroRun a o l) (hj : j % 2 = 0) (hoj : o ≤ j)
    (hz : j < 16 → zeroGroup a j = false) : o + l ≤ j := by
  by_contra hlt
  have h16 : j < 16 := by
    have := h.inside
    omega
  have h1 := h.zero j hj hoj (by omega)
  rw [hz h16] at h1
  exact Bool.false_ne_true h1

theorem findZeroRun_searched {rounds i l o : ℕ} (hr : 16 ≤ i + 2 * rounds) (hi : i % 2 = 0)
    (h : Searched a i l o) : ∃ k, 16 ≤ k ∧
      Searched a k (findZeroRun a rounds i l o).1 (findZeroRun a rounds i l o).2 := by
  induction rounds generalizing i l o with
  | zero => exact ⟨i, by omega, h⟩
  | succ rounds ih =>
    rw [findZeroRun]
    by_cases h16 : i < 16
    · rw [if_pos h16]
      cases hz : zeroGroup a i with
      | false =>
        rw [if_neg (by simp)]
        apply ih (by omega) (by omega)
        constructor
        · exact h.run
        · exact le_trans h.offset (by omega)
        · intro o' l' hrun ho'
          by_cases hoi : o' < i
          · exact h.best o' l' hrun hoi
          · have hs := hrun.start
            have hoi' : o' = i := by omega
            have hle := hrun.length_le hi (le_of_eq hoi') fun _ => hz
            have := h.offset
            omega
      | true =>
        rw [if_pos rfl]
        obtain ⟨h1, h2, h3, h4, h5⟩ := @scanZeros_spec a 8 i (by omega) hi (by omega)
        by_cases hlong : scanZeros a 8 i - i > l
        · rw [if_pos hlong]
          apply ih (by omega) (by omega)
          constructor
          · constructor
            · exact hi
            · omega
            · omega
            · intro k hk hik hkj
              exact h4 k hk hik (by omega)
          · omega
          · intro o' l' hrun ho'
            by_cases hoi : o' < i
            · have := h.best o' l' hrun hoi
              omega
            · have hs := hrun.start
              have hle := hrun.length_le h1 (by omega) h5
              omega
        · rw [if_neg hlong]
          apply ih (by omega) (by omega)
          constructor
          · exact h.run
          · exact le_trans h.offset (by omega)
          · intro o' l' hrun ho'
            by_cases hoi : o' < i
            · exact h.best o' l' hrun hoi
            · have hs := hrun.start
              have hoi' : o' = i := by omega
              have hle := hrun.length_le h1 (by omega) h5
              have := h.offset
              omega
    · rw [if_neg h16]
      exact ⟨i, by omega, h⟩

theorem findZeroRun_firstLongest (a : List UInt8) :
    FirstLongest a (findZeroRun a 8 0 0 0).2 (findZeroRun a 8 0 0 0).1 := by
  have h0 : Searched a 0 0 0 := ⟨ZeroRun.empty, le_rfl, fun o' l' _ ho' => absurd ho' (by omega)⟩
  obtain ⟨k, hk, hs⟩ := @findZeroRun_searched a 8 0 0 0 (by omega) rfl h0
  constructor
  · exact hs.run
  · intro o' l' hrun
    by_cases ho : o' < k
    · exact hs.best o' l' hrun ho
    · have := hrun.inside
      have := hs.run.inside
      omega

/-! ## The text -/

def colon : List UInt16 := [0x3a]

/-- The group at an octet. -/
def group (a : List UInt8) (i : ℕ) : List UInt16 := toHexGroup (octet a i) (octet a (i + 1))

/-- `n` groups from an octet on, with colons between them. -/
def groupsText (a : List UInt8) (i n : ℕ) : List UInt16 :=
  colon.intercalate ((List.range' i n 2).map (group a))

/-- `n` groups from an octet on, with a colon behind each. -/
def leading (a : List UInt8) : ℕ → ℕ → List UInt16
  | _, 0 => []
  | i, n + 1 => group a i ++ colon ++ leading a (i + 2) n

theorem groupsText_succ (a : List UInt8) (i n : ℕ) :
    groupsText a i (n + 1) = leading a i n ++ group a (i + 2 * n) := by
  induction n generalizing i with
  | zero => simp [groupsText, leading]
  | succ n ih =>
    have h2 : i + 2 + 2 * n = i + 2 * (n + 1) := by omega
    rw [groupsText, List.range'_succ, map_cons, intercalate_cons_of_ne_nil (by simp)]
    rw [leading, append_assoc _ _ (group a (i + 2 * (n + 1))), ← h2, ← ih (i + 2)]
    rfl

theorem leading_succ (a : List UInt8) (i n : ℕ) :
    leading a i (n + 1) = groupsText a i (n + 1) ++ colon := by
  rw [groupsText_succ]
  induction n generalizing i with
  | zero => simp [leading]
  | succ n ih =>
    have h2 : i + 2 + 2 * n = i + 2 * (n + 1) := by omega
    rw [leading, ih (i + 2), leading, h2]
    simp only [append_assoc]

/-- Whether the last four octets are printed as an IPv4 address. -/
def embedsIp4 (a : List UInt8) : Bool :=
  zeroes a 10 && ((octet a 10 == 0xff && octet a 11 == 0xff) ||
    (octet a 10 == 0 && octet a 11 == 0 &&
      !(octet a 12 == 0 && octet a 13 == 0 && octet a 14 == 0)))

/-- What is printed for the octets from `e` on, behind the "::". -/
def tailText (a : List UInt8) (e : ℕ) : List UInt16 :=
  if embedsIp4 a = true ∧ e ≤ 12 then
    leading a e ((12 - e) / 2) ++ dottedText (embeddedAddress a)
  else groupsText a e ((16 - e) / 2)

/-- The text with the run of `l` octets from `o` on compressed. -/
def compressed (a : List UInt8) (o l : ℕ) : List UInt16 :=
  groupsText a 0 (o / 2) ++ (colon ++ colon ++ tailText a (o + l))

/-! ## Printing -/

theorem toString4_eq (appendTo : List UInt16) (x : UInt32) :
    toString4 appendTo x = appendTo ++ dottedText x := rfl

variable {appendTo : List UInt16} {embeddedIp4 : Bool} {rounds : ℕ}

theorem printGroups_group {i : ℕ} {o : ℤ} (hi : i < 16) (ho : (i : ℤ) ≠ o)
    (he : ¬(i = 12 ∧ embeddedIp4 = true)) :
    printGroups a embeddedIp4 l o (rounds + 1) i appendTo =
      printGroups a embeddedIp4 l o rounds (i + 2)
        (if i ≠ 14 then appendTo ++ group a i ++ colon else appendTo ++ group a i) := by
  rw [printGroups, if_pos hi, if_neg ho, if_neg he]
  rfl

theorem printGroups_leading {i n : ℕ} {o : ℤ} (hi : i + 2 * n ≤ 14)
    (h : ∀ k < n, (i + 2 * k : ℤ) ≠ o ∧ ¬(i + 2 * k = 12 ∧ embeddedIp4 = true)) :
    printGroups a embeddedIp4 l o (rounds + n) i appendTo =
      printGroups a embeddedIp4 l o rounds (i + 2 * n) (appendTo ++ leading a i n) := by
  induction n generalizing i appendTo with
  | zero => simp [leading]
  | succ n ih =>
    have h0 := h 0 (by omega)
    rw [← Nat.add_assoc, printGroups_group (by omega) (by simpa using h0.1) (by simpa using h0.2),
      if_pos (by omega), ih (by omega), leading]
    · have h2 : i + 2 + 2 * n = i + 2 * (n + 1) := by omega
      rw [h2]
      simp only [append_assoc]
    · intro k hk
      have hk' := h (k + 1) (by omega)
      constructor
      · have := hk'.1
        push_cast at this ⊢
        omega
      · have := hk'.2
        rwa [show i + 2 + 2 * k = i + 2 * (k + 1) by omega]

theorem printGroups_end {o : ℤ} :
    printGroups a embeddedIp4 l o rounds 16 appendTo = appendTo := by
  cases rounds <;> simp [printGroups]

theorem printGroups_groups {i n : ℕ} {o : ℤ} (hi : i + 2 * n = 16) (hr : n ≤ rounds) (ho : o < i)
    (he : embeddedIp4 = true → 12 < i) :
    printGroups a embeddedIp4 l o rounds i appendTo = appendTo ++ groupsText a i n := by
  cases n with
  | zero =>
    have h16 : i = 16 := by omega
    rw [h16, printGroups_end]
    simp [groupsText]
  | succ n =>
    obtain ⟨r, rfl⟩ : ∃ r, rounds = r + 1 + n := ⟨rounds - (n + 1), by omega⟩
    rw [printGroups_leading (by omega), printGroups_group (by omega) (by omega)]
    · rw [if_neg (by omega), show i + 2 * n + 2 = 16 by omega, printGroups_end, groupsText_succ,
        append_assoc]
    · rintro ⟨h12, h⟩
      have := he h
      omega
    · intro k hk
      constructor
      · omega
      · rintro ⟨h12, h⟩
        have := he h
        omega

theorem printGroups_embedded {i n : ℕ} {o : ℤ} (hi : i + 2 * n = 12) (hr : n < rounds)
    (ho : o < i) :
    printGroups a true l o rounds i appendTo =
      appendTo ++ (leading a i n ++ dottedText (embeddedAddress a)) := by
  obtain ⟨r, rfl⟩ : ∃ r, rounds = r + 1 + n := ⟨rounds - (n + 1), by omega⟩
  rw [printGroups_leading (by omega), hi, printGroups, if_pos (by omega), if_neg (by omega),
    if_pos ⟨rfl, rfl⟩, toString4_eq, append_assoc]
  intro k hk
  constructor
  · omega
  · omega

theorem printGroups_run {o : ℕ} (ho : o < 16) (hl : 2 ≤ l) :
    printGroups a embeddedIp4 l o (rounds + 1) o appendTo =
      printGroups a embeddedIp4 l o rounds (o + l) (appendTo ++ colon) := by
  rw [printGroups, if_pos ho, if_pos rfl, show o + (l - 2) + 2 = o + l by omega]
  rfl

/-! ## The cases of an address -/

theorem zeroes_octet {n i : ℕ} (h : zeroes a n = true) (hi : i < n) : octet a i = 0 := by
  rw [zeroes, all_eq_true] at h
  by_cases hlen : i < a.length
  · have hmem : a[i] ∈ a.take n := by
      rw [mem_take_iff_getElem]
      exact ⟨i, by omega, rfl⟩
    have h0 := h _ hmem
    rw [octet, getD_eq_getElem _ _ hlen]
    simpa using h0
  · rw [octet, getD_eq_default _ _ (by omega)]

theorem zeroGroup_iff {i : ℕ} : zeroGroup a i = true ↔ octet a i = 0 ∧ octet a (i + 1) = 0 := by
  simp [zeroGroup]

theorem zeroes_run (h : zeroes a 10 = true) : ZeroRun a 0 10 where
  start := rfl
  whole := rfl
  inside := by omega
  zero := by
    intro i hi _ h10
    exact zeroGroup_iff.2 ⟨zeroes_octet h (by omega), zeroes_octet h (by omega)⟩

/-- Two runs that overlap or touch make up one. -/
theorem ZeroRun.join {o o' l' : ℕ} (h : ZeroRun a o l) (h' : ZeroRun a o' l') (hl : o' ≤ o + l)
    (hend : o + l ≤ o' + l') : ZeroRun a o (o' + l' - o) where
  start := h.start
  whole := by
    have := h.start
    have := h'.start
    have := h'.whole
    omega
  inside := by
    have := h'.inside
    omega
  zero := by
    intro i hi hoi hil
    by_cases h1 : i < o + l
    · exact h.zero i hi hoi h1
    · exact h'.zero i hi (by omega) (by omega)

theorem FirstLongest.at_start {o : ℕ} (h : FirstLongest a o l) (hz : zeroes a 10 = true) :
    o = 0 ∧ 10 ≤ l := by
  have h10 := h.best 0 10 (zeroes_run hz)
  have hin := h.run.inside
  have hjoin := (zeroes_run hz).join h.run (by omega) (by omega)
  have hbest := h.best 0 _ hjoin
  omega

theorem embedsIp4_zeroes (h : embedsIp4 a = true) : zeroes a 10 = true := by
  rw [embedsIp4, Bool.and_eq_true] at h
  exact h.1

theorem embedsIp4_end (h : embedsIp4 a = true) (hr : ZeroRun a 0 l) : l ≤ 14 := by
  by_contra hl
  have hlw := hr.whole
  have hin := hr.inside
  have h10 := zeroGroup_iff.1 (hr.zero 10 rfl (by omega) (by omega))
  have h12 := zeroGroup_iff.1 (hr.zero 12 rfl (by omega) (by omega))
  have h14 := zeroGroup_iff.1 (hr.zero 14 rfl (by omega) (by omega))
  rw [embedsIp4] at h
  simp [h10.1, h10.2, h12.1, h12.2, h14.1] at h

theorem printGroups_compressed {o : ℕ} (h : FirstLongest a o l) (hl : 4 ≤ l)
    (he : embedsIp4 a = embeddedIp4) :
    printGroups a embeddedIp4 l o 8 0 (if (o : ℤ) = 0 then appendTo ++ colon else appendTo) =
      appendTo ++ compressed a o l := by
  have hin := h.run.inside
  have hs := h.run.start
  have hw := h.run.whole
  have hstart : embeddedIp4 = true → o = 0 ∧ 10 ≤ l ∧ l ≤ 14 := by
    intro hemb
    rw [hemb] at he
    obtain ⟨h0, h10⟩ := h.at_start (embedsIp4_zeroes he)
    have hrun := h.run
    rw [h0] at hrun
    exact ⟨h0, h10, embedsIp4_end he hrun⟩
  -- the groups before the run, and the first colon of the "::"
  have hbefore : ∀ rounds, printGroups a embeddedIp4 l o (rounds + o / 2) 0
      (if (o : ℤ) = 0 then appendTo ++ colon else appendTo) =
      printGroups a embeddedIp4 l o rounds o (appendTo ++ (groupsText a 0 (o / 2) ++ colon)) := by
    intro rounds
    by_cases h0 : o = 0
    · simp [h0, groupsText]
    · rw [if_neg (by omega), printGroups_leading (by omega), show 0 + 2 * (o / 2) = o by omega]
      · obtain ⟨n, hn⟩ : ∃ n, o / 2 = n + 1 := ⟨o / 2 - 1, by omega⟩
        rw [hn, leading_succ]
      · intro k hk
        constructor
        · omega
        · rintro ⟨-, hemb⟩
          exact h0 (hstart hemb).1
  have hafter : ∀ rounds app, (16 - (o + l)) / 2 ≤ rounds → 1 ≤ rounds →
      printGroups a embeddedIp4 l o rounds (o + l) app = app ++ tailText a (o + l) := by
    intro rounds app hr hr1
    rw [tailText, he]
    by_cases hemb : embeddedIp4 = true ∧ o + l ≤ 12
    · have hst := hstart hemb.1
      rw [if_pos hemb, hemb.1]
      exact printGroups_embedded (by omega) (by omega) (by omega)
    · rw [if_neg hemb]
      apply printGroups_groups (by omega) hr (by omega)
      intro hemb'
      have hst := hstart hemb'
      by_contra hle
      exact hemb ⟨hemb', by omega⟩
  obtain ⟨r, hr⟩ : ∃ r, 8 = r + 1 + o / 2 := ⟨7 - o / 2, by omega⟩
  rw [hr, hbefore, printGroups_run (by omega) (by omega), hafter r _ (by omega) (by omega),
    compressed]
  simp only [append_assoc]

theorem printGroups_plain (he : embeddedIp4 = false) :
    printGroups a embeddedIp4 l (-1) 8 0 appendTo = appendTo ++ groupsText a 0 8 := by
  apply printGroups_groups (by omega) (by omega) (by omega)
  rw [he]
  simp

theorem toString6_eq (a : List UInt8) (appendTo : List UInt16) :
    (toString6 a appendTo = appendTo ++ groupsText a 0 8 ∧ ∀ o l, ZeroRun a o l → l < 4) ∨
    ∃ o l, FirstLongest a o l ∧ 4 ≤ l ∧ toString6 a appendTo = appendTo ++ compressed a o l := by
  have hfirst := findZeroRun_firstLongest a
  rw [toString6]
  by_cases hall : (zeroes a 10 && octet a 10 == 0 && octet a 11 == 0 && (octet a 12 == 0 &&
      octet a 13 == 0 && octet a 14 == 0) && octet a 15 == 0) = true
  · right
    have hc : compressed a 0 16 = [0x3a, 0x3a] := by
      have he : ¬(embedsIp4 a = true ∧ 0 + 16 ≤ 12) := by
        rintro ⟨-, h⟩
        omega
      rw [compressed, tailText, if_neg he]
      rfl
    refine ⟨0, 16, ?_, by omega, ?_⟩
    · simp only [Bool.and_eq_true, beq_iff_eq] at hall
      obtain ⟨⟨⟨⟨h0, h10⟩, h11⟩, ⟨h12, h13⟩, h14⟩, h15⟩ := hall
      have hz : ∀ i < 16, octet a i = 0 := by
        intro i hi
        by_cases h : i < 10
        · exact zeroes_octet h0 h
        · obtain rfl | rfl | rfl | rfl | rfl | rfl : i = 10 ∨ i = 11 ∨ i = 12 ∨ i = 13 ∨ i = 14 ∨
              i = 15 := by omega
          all_goals assumption
      constructor
      · constructor
        · rfl
        · rfl
        · rfl
        · intro i hi _ h16
          exact zeroGroup_iff.2 ⟨hz i (by omega), hz (i + 1) (by omega)⟩
      · intro o' l' hrun
        have := hrun.inside
        omega
    · rw [if_pos hall, hc]
  · rw [if_neg hall]
    have he : embedsIp4 a = (zeroes a 10 && octet a 10 == 0xff && octet a 11 == 0xff ||
        (zeroes a 10 && octet a 10 == 0 && octet a 11 == 0 &&
          !(octet a 12 == 0 && octet a 13 == 0 && octet a 14 == 0))) := by
      rw [embedsIp4, Bool.and_or_distrib_left]
      simp only [Bool.and_assoc]
    by_cases hl : (findZeroRun a 8 0 0 0).1 < 4
    · left
      constructor
      · simp only [if_pos hl]
        rw [if_neg (by decide)]
        apply printGroups_plain
        rw [← he]
        cases hemb : embedsIp4 a with
        | false => rfl
        | true =>
          have := (hfirst.at_start (embedsIp4_zeroes hemb)).2
          omega
      · intro o l hrun
        have := hfirst.best o l hrun
        omega
    · right
      refine ⟨_, _, hfirst, by omega, ?_⟩
      simp only [if_neg hl]
      exact printGroups_compressed hfirst (by omega) he

end QIPAddressUtils

end QtBase
