import QtBase.Io.IPv6Buffer

/-! `parseIp6` stays in bounds: the loop over groups, and the look at the ends of the text. -/
namespace QtBase

open Bool Option

namespace QIPAddressUtils

namespace InBuffer

variable {buffer : List UInt8}

/-! ## IPv6 -/

theorem write_eq (address : List UInt8) {pos : ℕ} (h : pos < 16) (v : UInt8) :
    write address pos v = .ok (address.set pos v) := by
  unfold write
  rw [qAssert_pos ⟨Int.natCast_nonneg pos, by omega⟩]
  rfl

theorem doubleColon_eq {p : ℕ} (hend : Ended buffer p) :
    doubleColon buffer p =
      .ok (at' (buffer.drop p) 0 == 0x3a && at' (buffer.drop p) 1 == 0x3a) := by
  unfold doubleColon
  rw [read_eq hend.lt, ok_bind, ← getD_drop, ← getD_drop]
  rw [Nat.add_zero p]
  by_cases hcolon : buffer.getD p 0 = 0x3a
  · have hne : buffer.getD p 0 ≠ 0 := by
      rw [hcolon]
      decide
    rw [if_pos hcolon, show (p : ℤ) + 1 = (p + 1 : ℕ) from rfl, read_eq (hend.succ hne).lt, ok_bind,
      hcolon]
    rfl
  · rw [if_neg hcolon, beq_eq_false_iff_ne.mpr hcolon]
    rfl

/-- A result of the loop over what is left of the text, by indices. -/
def atIndex (buffer : List UInt8) (r : List UInt8 × Option ℕ) : List UInt8 × Option ℕ :=
  (r.1, r.2.map fun behind => buffer.length - behind)

theorem atIndex_drop {p : ℕ} (h : p < buffer.length) (address : List UInt8) :
    atIndex buffer (address, some (buffer.drop p).length) = (address, some p) := by
  unfold atIndex
  rw [List.length_drop, map_some, Nat.sub_sub_self (Nat.le_of_lt h)]

variable {rounds : ℕ}

section Loop

variable {length colonCount : ℕ}

theorem atIndex_end (hsize : buffer.length = length + 1) (address : List UInt8) (pos : ℕ) :
    atIndex buffer (address, if pos = 16 then none else some 1) =
      (address, if (pos : ℤ) = 16 then none else some length) := by
  unfold atIndex
  by_cases hpos : pos = 16
  · rw [if_pos hpos, if_pos (by omega)]
    rfl
  · rw [if_neg hpos, if_neg (by omega), map_some, hsize]
    rfl

/-- The loop where the "::" stands. -/
theorem parseIp6Loop_colon {p pos : ℕ} {z : ℤ} {address : List UInt8}
    (ih : ∀ p pos : ℕ, textLength (buffer.drop p) < rounds → Ended buffer p → parseIp6Loop buffer length colonCount rounds p pos 0 address = .ok (atIndex buffer (QIPAddressUtils.parseIp6Loop colonCount rounds (buffer.drop p) pos 0 address)))
    (hrounds : textLength (buffer.drop p) < rounds + 1) (hend : Ended buffer p)
    (hz : z < 1 ∨ colonCount ≤ 8 ∧ z ≤ 9) (hpos : pos < 15)
    (hcolon : at' (buffer.drop p) 0 = 0x3a) :
    parseIp6Loop buffer length colonCount (rounds + 1) p pos z address =
      .ok (atIndex buffer (QIPAddressUtils.parseIp6Loop colonCount (rounds + 1) (buffer.drop p) pos
        z address)) := by
  have hcolon' : buffer.getD p 0 = 0x3a := hcolon ▸ getD_drop p 0
  have hne : buffer.getD p 0 ≠ 0 := by
    rw [hcolon']
    decide
  have hlength := textLength_drop_succ hend.lt hne
  unfold parseIp6Loop QIPAddressUtils.parseIp6Loop
  rw [if_pos (by omega), if_pos hpos, read_eq hend.lt, ok_bind, if_pos hcolon', if_pos hcolon]
  by_cases hnone : z < 1
  · rw [if_pos hnone, if_pos hnone, atIndex_drop hend.lt]
    rfl
  obtain ⟨hcolons, hz⟩ := hz.resolve_left hnone
  rw [if_neg hnone, if_neg hnone]
  have hlast : (if (pos : ℤ) = 0 then return true
      else do
        let last ← int (colonCount * 2)
        return decide ((pos : ℤ) = last) : Exec Bool) =
      .ok (decide (pos = 0 ∨ pos = colonCount * 2)) := by
    by_cases hzero : pos = 0
    · rw [if_pos (by omega), decide_eq_true (Or.inl hzero)]
      rfl
    · rw [if_neg (by omega), int_eq (by omega), ok_bind]
      exact congrArg Except.ok (decide_eq_decide.mpr (by omega))
  rw [hlast, ok_bind]
  have hzeros : int (z * 2) = .ok (z * 2) := int_eq (by omega)
  have hpos' : int (pos + z * 2) = .ok ((pos + z.toNat * 2 : ℕ) : ℤ) := by
    rw [int_eq (by omega)]
    exact congrArg Except.ok (by omega)
  have hzero : ¬at' (buffer.drop p) 0 = 0 := by
    rw [hcolon]
    decide
  by_cases hatEnd : pos = 0 ∨ pos = colonCount * 2
  · rw [decide_eq_true hatEnd, if_pos rfl, doubleColon_eq hend, ok_bind, hcolon]
    by_cases hdouble : at' (buffer.drop p) 1 = 0x3a
    · have hne' : buffer.getD (p + 1) 0 ≠ 0 := by
        rw [getD_drop, hdouble]
        decide
      have hlength' := textLength_drop_succ (hend.succ hne).lt hne'
      have hgood : ¬((pos = 0 ∨ pos = colonCount * 2) ∧
          ((0x3a : UInt8) = 0 ∨ (0x3a : UInt8) ≠ 0x3a)) := fun h => absurd h.2 (by decide)
      rw [hdouble, if_neg hgood, if_pos hatEnd, hzeros, ok_bind, hpos', ok_bind]
      dsimp only
      rw [if_pos rfl, List.drop_drop, List.drop_drop]
      exact ih _ _ (by omega) ((hend.succ hne).succ hne')
    · have hbad : (!(0x3a == (0x3a : UInt8) && at' (buffer.drop p) 1 == 0x3a)) = true := by
        rw [beq_eq_false_iff_ne.mpr hdouble, Bool.and_false]
        rfl
      rw [if_pos hbad, if_pos ⟨hatEnd, Or.inr hdouble⟩, atIndex_drop hend.lt]
      rfl
  · have hgood : ¬((pos = 0 ∨ pos = colonCount * 2) ∧
        (at' (buffer.drop p) 0 = 0 ∨ at' (buffer.drop p) 1 ≠ 0x3a)) := fun h => hatEnd h.1
    rw [decide_eq_false hatEnd, if_neg Bool.false_ne_true, pure_eq_ok, ok_bind, if_neg hgood,
      if_neg hatEnd, hzeros, ok_bind, hpos', ok_bind]
    dsimp only
    rw [if_neg Bool.false_ne_true, List.drop_drop]
    exact ih _ _ (by omega) (hend.succ hne)

theorem parseIp6Loop_field {p pos : ℕ} {z : ℤ} {address : List UInt8}
    (ih : ∀ (p pos : ℕ) (address : List UInt8), textLength (buffer.drop p) < rounds → Ended buffer p → parseIp6Loop buffer length colonCount rounds p pos z address = .ok (atIndex buffer (QIPAddressUtils.parseIp6Loop colonCount rounds (buffer.drop p) pos z address)))
    (hsize : buffer.length = length + 1) (hrounds : textLength (buffer.drop p) < rounds + 1)
    (hend : Ended buffer p) (hpos : pos < 15) (hcolon : at' (buffer.drop p) 0 ≠ 0x3a) :
    parseIp6Loop buffer length colonCount (rounds + 1) p pos z address =
      .ok (atIndex buffer (QIPAddressUtils.parseIp6Loop colonCount (rounds + 1) (buffer.drop p) pos
        z address)) := by
  have hcolon' : buffer.getD p 0 ≠ 0x3a := fun h => hcolon (h ▸ (getD_drop p 0).symm)
  have hlt := hend.lt
  have hdrop : upTo buffer (p + (buffer.length - p)) p = buffer.drop p := by
    unfold upTo
    rw [Nat.add_sub_cancel' (Nat.le_of_lt hlt), List.take_length]
  unfold parseIp6Loop QIPAddressUtils.parseIp6Loop
  rw [if_pos (by omega), if_pos hpos, read_eq hlt, ok_bind, if_neg hcolon', if_neg hcolon,
    qstrntoull_eq (by omega), ok_bind, hdrop]
  have hused := used_le (by decide : 16 ≤ 16) (buffer.drop p)
  generalize QIPAddressUtils.qstrntoull (buffer.drop p) 16 = r at hused ⊢
  obtain ⟨ll, used⟩ := r
  dsimp only at hused ⊢
  by_cases hbad : used = 0 ∨ used > 4
  · rw [if_pos hbad, if_pos hbad, atIndex_drop hlt]
    rfl
  rw [if_neg hbad, if_neg hbad, read_eq (hend.add hused).lt, ok_bind, getD_drop]
  by_cases hdot : at' (buffer.drop p) used = 0x2e
  · rw [if_pos hdot, if_pos hdot]
    by_cases hlast : pos ≠ 12
    · rw [if_pos (by omega), if_pos hlast, atIndex_drop hlt]
      rfl
    rw [if_neg (by omega), if_neg hlast, parseIp4Internal_eq false hend, ok_bind]
    generalize QIPAddressUtils.parseIp4Internal (buffer.drop p) false = r
    obtain ⟨ip4, ok⟩ := r
    dsimp only
    by_cases hok : (!ok) = true
    · rw [if_pos hok, if_pos hok, atIndex_drop hlt]
      rfl
    · rw [if_neg hok, if_neg hok]
      rfl
  rw [if_neg hdot, if_neg hdot, write_eq address (by omega), ok_bind,
    int_eq (by omega), ok_bind, show (pos : ℤ) + 1 = (pos + 1 : ℕ) from rfl,
    write_eq _ (by omega), ok_bind, int_eq (by omega), ok_bind,
    show ((pos + 1 : ℕ) : ℤ) + 1 = (pos + 2 : ℕ) from rfl]
  by_cases hnul : at' (buffer.drop p) used = 0
  · rw [if_pos hnul, if_pos hnul]
    exact congrArg Except.ok (atIndex_end hsize _ _).symm
  rw [if_neg hnul, if_neg hnul]
  by_cases hsep : at' (buffer.drop p) used ≠ 0x3a
  · rw [if_pos hsep, if_pos hsep]
    have hle := (hend.add hused).lt
    unfold atIndex
    rw [map_some, List.length_drop,
      show buffer.length - (buffer.length - p - used) = p + used by omega]
    rfl
  · have hlt' : used + 1 ≤ textLength (buffer.drop p) := by
      refine Nat.lt_of_le_of_ne hused fun heq => hnul ?_
      rw [heq, at'_textLength]
    have heq := textLength_drop hlt'
    rw [List.drop_drop] at heq
    rw [if_neg hsep, if_neg hsep, List.drop_drop]
    rw [Nat.add_assoc]
    exact ih _ _ _ (by omega) (hend.add hlt')

theorem parseIp6Loop_eq (hsize : buffer.length = length + 1) {p pos : ℕ} {z : ℤ}
    (address : List UInt8) (hrounds : textLength (buffer.drop p) < rounds) (hend : Ended buffer p)
    (hz : z < 1 ∨ colonCount ≤ 8 ∧ z ≤ 9) :
    parseIp6Loop buffer length colonCount rounds p pos z address =
      .ok (atIndex buffer (QIPAddressUtils.parseIp6Loop colonCount rounds (buffer.drop p) pos z
        address)) := by
  induction rounds generalizing p pos z address with
  | zero => omega
  | succ rounds ih =>
    by_cases hpos : pos < 15
    · by_cases hcolon : at' (buffer.drop p) 0 = 0x3a
      · exact parseIp6Loop_colon (fun p pos hrounds hend => ih address hrounds hend
          (Or.inl (by decide))) hrounds hend hz hpos hcolon
      · exact parseIp6Loop_field (fun p pos address hrounds hend => ih address hrounds hend hz)
          hsize hrounds hend hpos hcolon
    · unfold parseIp6Loop QIPAddressUtils.parseIp6Loop
      rw [if_neg (by omega), if_neg hpos, atIndex_end hsize]
      rfl

end Loop

/-! ## The whole text -/

/-- How often a character stands before the first NUL. -/
def countBeforeNul (c : UInt8) (q : List UInt8) : ℕ := (q.takeWhile (· ≠ 0)).count c

theorem countBeforeNul_cons {c d : UInt8} (hd : d ≠ 0) (q : List UInt8) :
    countBeforeNul c (d :: q) = countBeforeNul c q + if d = c then 1 else 0 := by
  unfold countBeforeNul
  rw [List.takeWhile_cons, if_pos (decide_eq_true hd), List.count_cons]
  simp only [beq_iff_eq]

theorem count_eq {n : ℤ} (hn : 0 ≤ n ∧ n < 2 ^ 31) (b : Prop) [Decidable b] :
    (if b then int (n + 1) else return n : Exec ℤ) =
      if n + (if b then 1 else 0 : ℕ) < 2 ^ 31 then .ok (n + (if b then 1 else 0 : ℕ))
      else .error .undefined := by
  by_cases hb : b
  · rw [if_pos hb, if_pos hb]
    by_cases hlt : n + (1 : ℕ) < 2 ^ 31
    · rw [if_pos hlt, int_eq (by omega)]
      rfl
    · rw [if_neg hlt]
      unfold int
      rw [qAssert_neg (by omega)]
      rfl
  · rw [if_neg hb, if_neg hb, if_pos (by omega)]
    exact congrArg Except.ok (by omega)

theorem countChars_eq {p : ℕ} {colonCount dotCount : ℤ}
    (hrounds : textLength (buffer.drop p) < rounds) (hend : Ended buffer p)
    (hcolons : 0 ≤ colonCount ∧ colonCount < 2 ^ 31) (hdots : 0 ≤ dotCount ∧ dotCount < 2 ^ 31) :
    countChars buffer rounds p colonCount dotCount =
      if colonCount + countBeforeNul 0x3a (buffer.drop p) < 2 ^ 31 ∧
          dotCount + countBeforeNul 0x2e (buffer.drop p) < 2 ^ 31 then
        .ok (colonCount + countBeforeNul 0x3a (buffer.drop p),
          dotCount + countBeforeNul 0x2e (buffer.drop p))
      else .error .undefined := by
  induction rounds generalizing p colonCount dotCount with
  | zero => omega
  | succ rounds ih =>
    unfold countChars
    rw [read_eq hend.lt, ok_bind]
    by_cases hzero : buffer.getD p 0 = 0
    · have hnone (c : UInt8) : countBeforeNul c (buffer.drop p) = 0 := by
        unfold countBeforeNul
        rw [drop_cons hend.lt, hzero]
        rfl
      rw [if_pos hzero, hnone, hnone, show ((0 : ℕ) : ℤ) = 0 from rfl, Int.add_zero, Int.add_zero,
        if_pos ⟨hcolons.2, hdots.2⟩]
      rfl
    · have hlength := textLength_drop_succ hend.lt hzero
      rw [if_neg hzero, drop_cons hend.lt, countBeforeNul_cons hzero, countBeforeNul_cons hzero]
      have hrec {c d : ℤ} (hc : 0 ≤ c ∧ c < 2 ^ 31) (hd : 0 ≤ d ∧ d < 2 ^ 31) :=
        ih (by omega) (hend.succ hzero) hc hd
      rw [count_eq hcolons, count_eq hdots]
      generalize (if buffer.getD p 0 = 0x3a then 1 else 0 : ℕ) = k
      generalize (if buffer.getD p 0 = 0x2e then 1 else 0 : ℕ) = m
      generalize countBeforeNul 0x3a (buffer.drop (p + 1)) = colons at hrec ⊢
      generalize countBeforeNul 0x2e (buffer.drop (p + 1)) = dots at hrec ⊢
      by_cases hcolons' : colonCount + k < 2 ^ 31
      · rw [if_pos hcolons', ok_bind]
        by_cases hdots' : dotCount + m < 2 ^ 31
        · rw [if_pos hdots', ok_bind, hrec (by omega) (by omega), Int.natCast_add, Int.natCast_add,
            Int.add_assoc, Int.add_assoc, Int.add_comm (k : ℤ), Int.add_comm (m : ℤ)]
        · rw [if_neg hdots', error_bind, if_neg (by omega)]
      · rw [if_neg hcolons', error_bind, if_neg (by omega)]

/-- A result over what is left of the text, by indices. -/
def byIndex (text : List UInt16) (r : List UInt8 × Option ℕ) : List UInt8 × Option ℕ :=
  (r.1, r.2.map fun behind => text.length + 1 - behind)

theorem ended_append {chars : List UInt8} {p : ℕ} (hp : p ≤ chars.length) :
    Ended (chars ++ [0]) p := by
  have hskips : textLength (chars.drop p ++ [0]) ≤ (chars.drop p).length := by
    generalize chars.drop p = q
    induction q with
    | nil => exact Nat.le_refl 0
    | cons c q ih =>
      rw [List.cons_append, textLength_cons]
      split_ifs
      · exact Nat.zero_le _
      · exact Nat.succ_le_succ ih
  unfold Ended
  rw [List.drop_append_of_le_length hp, List.length_append, List.length_singleton]
  rw [List.length_drop] at hskips
  omega

theorem parseIp6_counted {length colonCount dotCount : ℕ} {E : Prop} [Decidable E]
    (hsize : buffer.length = length + 1) (hend : Ended buffer 0) (hcolons : colonCount < 2 ^ 31) :
    (if (!decide E && (decide ((colonCount : ℤ) < 2) || decide ((colonCount : ℤ) > 7))) = true then
        return (List.replicate 16 0, some length)
      else do
        let zeroWordsToFill ← int ((if decide E = true then 9 else 8) - colonCount)
        let zeroWordsToFill ← (if (dotCount : ℤ) ≠ (0 : ℕ) then int (zeroWordsToFill - 1)
          else return zeroWordsToFill)
        parseIp6Loop buffer length colonCount buffer.length 0 (0 : ℕ) zeroWordsToFill
          (List.replicate 16 0)) =
      .ok (atIndex buffer (if ¬E ∧ (colonCount < 2 ∨ colonCount > 7) then
          (List.replicate 16 0, some 1)
        else
          QIPAddressUtils.parseIp6Loop colonCount buffer.length buffer 0
            (if dotCount ≠ 0 then (if E then 9 else 8) - (colonCount : ℤ) - 1
              else (if E then 9 else 8) - (colonCount : ℤ)) (List.replicate 16 0))) := by
  have hlt := hend
  unfold Ended at hlt
  have hiff : (!decide E && (decide ((colonCount : ℤ) < 2) || decide ((colonCount : ℤ) > 7))) =
      true ↔ ¬E ∧ (colonCount < 2 ∨ colonCount > 7) := by
    rw [and_eq_true, or_eq_true, not_eq_true', decide_eq_false_iff_not,
      decide_eq_true_iff, decide_eq_true_iff]
    exact and_congr_right fun _ => by omega
  by_cases hbad : ¬E ∧ (colonCount < 2 ∨ colonCount > 7)
  · rw [if_pos hbad, if_pos (hiff.mpr hbad)]
    unfold atIndex
    rw [hsize]
    rfl
  rw [if_neg hbad, if_neg (mt hiff.mp hbad)]
  have hfill : ∃ n : ℤ, (n = 8 ∨ n = 9) ∧ (if E then (9 : ℤ) else 8) = n ∧
      (if decide E = true then (9 : ℤ) else 8) = n := by
    by_cases hE : E
    · exact ⟨9, Or.inr rfl, if_pos hE, if_pos (decide_eq_true hE)⟩
    · exact ⟨8, Or.inl rfl, if_neg hE, if_neg fun h => hE (of_decide_eq_true h)⟩
  obtain ⟨n, hn, heq, heq'⟩ := hfill
  rw [heq, heq', int_eq (by omega), ok_bind]
  by_cases hdots : dotCount ≠ 0
  · rw [if_pos (by omega), if_pos hdots, int_eq (by omega), ok_bind,
      parseIp6Loop_eq hsize _ (by omega) hend (by omega), List.drop_zero]
  · rw [if_neg (by omega), if_neg hdots, pure_eq_ok, ok_bind,
      parseIp6Loop_eq hsize _ (by omega) hend (by omega), List.drop_zero]

section Text

variable {text : List UInt16}

/-- The counts fit into `int`. -/
def Countable (text : List UInt16) : Prop :=
  countBeforeNul 0x3a (text.map UInt16.toUInt8 ++ [0]) < 2 ^ 31 ∧
    countBeforeNul 0x2e (text.map UInt16.toUInt8 ++ [0]) < 2 ^ 31

theorem countChars_text (h : Countable text) :
    countChars (text.map UInt16.toUInt8 ++ [0])
        ((text.map UInt16.toUInt8 ++ [0]).length + 1) 0 0 0 =
      .ok ((countBeforeNul 0x3a (text.map UInt16.toUInt8 ++ [0]) : ℤ),
        (countBeforeNul 0x2e (text.map UInt16.toUInt8 ++ [0]) : ℤ)) := by
  obtain ⟨hcolons, hdots⟩ := h
  have hend := @ended_append (text.map UInt16.toUInt8) _ (Nat.zero_le _)
  have hlt := hend
  unfold Ended at hlt
  rw [countChars_eq (by omega) hend (by omega) (by omega), List.drop_zero, Int.zero_add,
    Int.zero_add, if_pos (by omega)]

/-- No access leaves the buffer or the address, and the result is the one of the model without
indices. -/
theorem parseIp6_checked (h : text.all (· < 0x7f) = true) (hcountable : Countable text)
    (hlength : 2 ≤ text.length ∨ text = [0x2e]) :
    parseIp6 text = .ok (byIndex text (QIPAddressUtils.parseIp6 text)) := by
  rcases hlength with hlength | rfl
  swap
  · rfl
  have hcount := countChars_text hcountable
  have hend {p : ℕ} (hp : p ≤ text.length) : Ended (text.map UInt16.toUInt8 ++ [0]) p :=
    ended_append (by rwa [List.length_map])
  have hsize : (text.map UInt16.toUInt8 ++ [0]).length = text.length + 1 := by
    simp
  have hcolonCount : ((text.map UInt16.toUInt8 ++ [0]).takeWhile (· ≠ 0)).count 0x3a =
    countBeforeNul 0x3a (text.map UInt16.toUInt8 ++ [0]) := rfl
  have hdotCount : ((text.map UInt16.toUInt8 ++ [0]).takeWhile (· ≠ 0)).count 0x2e =
    countBeforeNul 0x2e (text.map UInt16.toUInt8 ++ [0]) := rfl
  have hindex (r : List UInt8 × Option ℕ) :
      atIndex (text.map UInt16.toUInt8 ++ [0]) r = byIndex text r := by
    unfold atIndex byIndex
    rw [hsize]
  have hbehind : byIndex text (List.replicate 16 0, some 1) =
    (List.replicate 16 0, some text.length) := rfl
  obtain ⟨hcolons, -⟩ := hcountable
  unfold parseIp6 QIPAddressUtils.parseIp6 checkedToAscii
  rw [if_pos h]
  dsimp only
  rw [hcount, ok_bind, hcolonCount, hdotCount]
  dsimp only
  generalize countBeforeNul 0x3a (text.map UInt16.toUInt8 ++ [0]) = colonCount at hcolons ⊢
  generalize countBeforeNul 0x2e (text.map UInt16.toUInt8 ++ [0]) = dotCount
  by_cases hdots : dotCount ≠ 0 ∧ dotCount ≠ 3
  · rw [if_pos (by omega), if_pos hdots, hbehind]
    rfl
  rw [if_neg (by omega), if_neg hdots]
  by_cases hany : colonCount = 2 ∧ text.length = 2
  · rw [if_pos (by omega), if_pos hany]
    rfl
  have hends : ((text.length : ℤ) - 2) = ((text.length - 2 : ℕ) : ℤ) := by omega
  rw [if_neg (by omega), if_neg hany, hends, show (0 : ℤ) = ((0 : ℕ) : ℤ) from rfl,
    doubleColon_eq (hend (Nat.zero_le _)), ok_bind, doubleColon_eq (hend (Nat.sub_le _ _)),
    List.drop_zero, ← getD_drop (text.length - 2) 0, ← getD_drop (text.length - 2) 1,
    show text.length - 2 + 1 = text.length - 1 by omega, Nat.add_zero (text.length - 2)]
  have hatEnd (a b c d : UInt8) :
      (if (a == 0x3a && b == 0x3a) = true then return true else .ok (c == 0x3a && d == 0x3a) :
        Exec Bool) = .ok (decide ((a = 0x3a ∧ b = 0x3a) ∨ (c = 0x3a ∧ d = 0x3a))) := by
    rw [decide_or, decide_and, decide_and]
    simp only [beq_eq_decide]
    cases decide (a = 0x3a) && decide (b = 0x3a) <;> rfl
  rw [hatEnd, ok_bind]
  rw [parseIp6_counted hsize (hend (Nat.zero_le _)) hcolons]
  exact congrArg Except.ok (hindex _)

theorem parseIp6_ascii (h : text.all (· < 0x7f) = true) (htext : text ≠ [])
    {r : List UInt8 × Option ℕ} (hrun : parseIp6 text = .ok r) :
    Countable text ∧ (2 ≤ text.length ∨ text = [0x2e]) := by
  have hend := @ended_append (text.map UInt16.toUInt8) _ (Nat.zero_le _)
  have hlt := hend
  unfold Ended at hlt
  have hcounts : Countable text := by
    by_contra hmany
    unfold Countable at hmany
    unfold parseIp6 checkedToAscii at hrun
    rw [if_pos h] at hrun
    dsimp only at hrun
    rw [countChars_eq (by omega) hend (by omega) (by omega), List.drop_zero,
      if_neg (by omega)] at hrun
    cases hrun
  refine ⟨hcounts, ?_⟩
  by_contra hshort
  obtain ⟨c, rfl⟩ : ∃ c, text = [c] := by
    refine List.length_eq_one_iff.mp ?_
    have hpos := List.length_pos_of_ne_nil htext
    omega
  have hc : c ≠ 0x2e := fun hc => hshort (Or.inr (congrArg (fun c => [c]) hc))
  have hcount := countChars_text hcounts
  have hdots : countBeforeNul 0x2e ([c].map UInt16.toUInt8 ++ [0]) = 0 := by
    have hsmall : c.toNat < 0x7f := UInt16.lt_iff_toNat_lt.mp (by simpa using h)
    have hne : c.toUInt8 ≠ 0x2e := by
      intro heq
      have hnat := congrArg UInt8.toNat heq
      rw [UInt16.toNat_toUInt8, Nat.mod_eq_of_lt (by omega)] at hnat
      exact hc (UInt16.toNat_inj.mp hnat)
    refine List.count_eq_zero.mpr fun hmem => ?_
    rcases List.mem_cons.mp (List.takeWhile_subset _ hmem) with heq | hmem
    · exact hne heq.symm
    · exact absurd (List.mem_singleton.mp hmem) (by decide)
  unfold parseIp6 checkedToAscii at hrun
  rw [if_pos h] at hrun
  dsimp only at hrun
  rw [hcount, ok_bind, hdots] at hrun
  dsimp only at hrun
  have hone : [c].length = 1 := rfl
  have hstart : doubleColon ([c].map UInt16.toUInt8 ++ [0]) 0 = .ok false := by
    refine (doubleColon_eq hend).trans (congrArg Except.ok ?_)
    exact and_false _
  rw [if_neg fun hdots => hdots.1 rfl, if_neg fun hany => by omega, hstart, ok_bind] at hrun
  cases hrun

theorem parseIp6_notAscii (h : ¬text.all (· < 0x7f) = true) :
    parseIp6 text = .ok (byIndex text (QIPAddressUtils.parseIp6 text)) := by
  have hlt : text.findIdx (fun c => !decide (c < 0x7f)) < text.length := by
    rw [List.findIdx_lt_length]
    simpa using h
  unfold parseIp6 QIPAddressUtils.parseIp6 checkedToAscii byIndex
  rw [if_neg h]
  dsimp only
  generalize text.findIdx (fun c => !decide (c < 0x7f)) = i at hlt ⊢
  rw [map_some, show text.length + 1 - (text.length - i + 1) = i by omega]
  rfl

theorem parseIp6_eq (h : (∃ c ∈ text, 0x7f ≤ c) ∨
    Countable text ∧ (2 ≤ text.length ∨ text = [0x2e])) :
    parseIp6 text = .ok (byIndex text (QIPAddressUtils.parseIp6 text)) := by
  by_cases hascii : text.all (· < 0x7f) = true
  · rcases h with ⟨c, hc, hbig⟩ | ⟨hcountable, hlength⟩
    · have hsmall := of_decide_eq_true (List.all_eq_true.mp hascii c hc)
      exact absurd hsmall (UInt16.not_lt.mpr hbig)
    · exact parseIp6_checked hascii hcountable hlength
  · exact parseIp6_notAscii hascii

end Text

/-- All accesses are within bounds and the loops end, unless the text has one character only, or
more colons or dots than an `int` counts. -/
theorem parseIp6_inBounds_iff {text : List UInt16} (htext : text ≠ []) :
    (∃ r, parseIp6 text = .ok r) ↔
      (∃ c ∈ text, 0x7f ≤ c) ∨ Countable text ∧ (2 ≤ text.length ∨ text = [0x2e]) := by
  constructor
  · rintro ⟨r, hrun⟩
    by_cases hascii : text.all (· < 0x7f) = true
    · exact Or.inr (parseIp6_ascii hascii htext hrun)
    · refine Or.inl ?_
      simpa using hascii
  · exact fun h => ⟨_, parseIp6_eq h⟩

/-- `::1` -/
theorem parseIp6_inBounds_iff_loopback : (∃ r, parseIp6 [0x3a, 0x3a, 0x31] = .ok r) ↔
    (∃ c ∈ ([0x3a, 0x3a, 0x31] : List UInt16), 0x7f ≤ c) ∨
      Countable [0x3a, 0x3a, 0x31] ∧
        (2 ≤ ([0x3a, 0x3a, 0x31] : List UInt16).length ∨
          ([0x3a, 0x3a, 0x31] : List UInt16) = [0x2e]) :=
  parseIp6_inBounds_iff (List.cons_ne_nil _ _)

/-- For the text `1` the character before the buffer is read. -/
theorem parseIp6_reads_before : parseIp6 [0x31] = .error .undefined := by rfl

end InBuffer

end QIPAddressUtils

end QtBase
