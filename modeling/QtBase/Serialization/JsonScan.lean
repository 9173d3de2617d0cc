import QtBase.Serialization.JsonParser
import Mathlib.Data.List.GetD

/-! What the scanning functions of the parser read, on the rest of the text. -/
namespace QtBase

open List

namespace JsonParser

open QUtf8Functions Unicode

variable {text : List UInt8}

variable {json : ℕ}

theorem deref_of_lt (h : json < text.length) : deref text json = .ok text[json] := by
  unfold deref
  rw [List.getElem?_eq_getElem h]

theorem drop_of_lt (h : json < text.length) :
    text.drop json = text[json] :: text.drop (json + 1) := drop_eq_getElem_cons h

variable {rest : List UInt8}

theorem deref_of_drop {b : UInt8} (h : text.drop json = b :: rest) :
    deref text json = .ok b ∧ json < text.length ∧ text.drop (json + 1) = rest := by
  have hlt : json < text.length := by
    by_contra hge
    rw [drop_eq_nil_of_le (Nat.not_lt.mp hge)] at h
    cases h
  rw [drop_of_lt hlt, List.cons.injEq] at h
  refine ⟨?_, hlt, h.2⟩
  rw [deref_of_lt hlt, h.1]

theorem drop_append {w : List UInt8} (h : text.drop json = w ++ rest) :
    text.drop (json + w.length) = rest := by
  rw [← drop_drop, h, drop_left]

theorem length_of_drop {w : List UInt8} (hle : json ≤ text.length)
    (h : text.drop json = w ++ rest) : json + w.length + rest.length = text.length := by
  have hlen := congrArg List.length h
  rw [length_drop, length_append] at hlen
  omega

/-! ## Loops -/

/-- The position behind the characters with `p`. -/
def past (text : List UInt8) (p : UInt8 → Bool) (json : ℕ) : ℕ :=
  json + ((text.drop json).takeWhile p).length

theorem past_le (p : UInt8 → Bool) {json : ℕ} (h : json ≤ text.length) :
    past text p json ≤ text.length := by
  have htake := (List.takeWhile_prefix p : (text.drop json).takeWhile p <+: _).length_le
  rw [length_drop] at htake
  unfold past
  omega

theorem le_past (p : UInt8 → Bool) (json : ℕ) : json ≤ past text p json := Nat.le_add_right _ _

theorem skipWhile_ok (p : UInt8 → Bool) (fuel : ℕ) (hle : json ≤ text.length)
    (hfuel : text.length < fuel + json) : skipWhile text p fuel json = .ok (past text p json) := by
  induction fuel generalizing json with
  | zero => omega
  | succ fuel ih =>
    unfold skipWhile past
    by_cases hlt : json < text.length
    · rw [if_pos hlt, deref_of_lt hlt, ok_bind, drop_of_lt hlt, takeWhile_cons]
      by_cases hp : p text[json] = true
      · have hidx : json + 1 + ((text.drop (json + 1)).takeWhile p).length =
            json + (((text.drop (json + 1)).takeWhile p).length + 1) := by omega
        rw [if_pos hp, if_pos hp, ih hlt (by omega), length_cons]
        unfold past
        rw [hidx]
      · simp [hp]
    · rw [if_neg hlt, drop_eq_nil_of_le (Nat.not_lt.mp hlt)]
      rfl

theorem eatSpace_ok {p : Parser} (hle : p.json ≤ text.length) : p.eatSpace text =
    .ok (decide (past text isSpace p.json < text.length),
      { p with json := past text isSpace p.json }) := by
  unfold Parser.eatSpace
  rw [skipWhile_ok isSpace (text.length + 1) hle (by omega), ok_bind]
  rfl

/-- The token that `nextToken` returns for a character. -/
def tokenOf (c : UInt8) : UInt8 := if isToken c then c else 0

theorem nextToken_end {p : Parser} (hle : p.json ≤ text.length)
    (h : past text isSpace p.json = text.length) :
    p.nextToken text = .ok (0, { p with json := text.length }) := by
  unfold Parser.nextToken
  rw [eatSpace_ok hle, ok_bind, h, decide_eq_false (Nat.lt_irrefl _)]
  rfl

theorem nextToken_ok {p : Parser} (hle : p.json ≤ text.length)
    (h : past text isSpace p.json < text.length) : p.nextToken text =
      .ok (tokenOf text[past text isSpace p.json],
        { p with json := past text isSpace p.json + 1 }) := by
  unfold Parser.nextToken
  rw [eatSpace_ok hle, ok_bind, decide_eq_true h]
  show (do let token ← deref text (past text isSpace p.json); _) = _
  rw [deref_of_lt h, ok_bind]
  rfl

/-! ## Characters -/

theorem continuesAt_ok (src : ℕ) : Parser.continuesAt text src =
    .ok (!((text.drop src).length > 0 && !isContinuationByte ((text.drop src).getD 0 0))) := by
  unfold Parser.continuesAt
  by_cases hlt : src < text.length
  · rw [if_pos hlt, deref_of_lt hlt, ok_bind, drop_of_lt hlt, length_cons,
      getD_cons_zero]
    simp
  · rw [if_neg hlt, drop_eq_nil_of_le (Nat.not_lt.mp hlt)]
    rfl

theorem getD_drop (src k : ℕ) : (text.drop src).getD k 0 = text.getD (src + k) 0 := by
  rw [getD_eq_getElem?_getD, List.getElem?_drop, ← getD_eq_getElem?_getD]

theorem deref_getD (h : json < text.length) :
    deref text json = .ok (text.getD json 0) := by
  rw [deref_of_lt h, getD_eq_getElem _ _ h]

theorem continuationsAt_ok {n : ℕ} (hn : n = 2 ∨ n = 3 ∨ n = 4) (m uc : UInt32) (src : ℕ) :
    Parser.continuationsAt text n m uc src = .ok (continuations n m uc (text.drop src)) := by
  unfold Parser.continuationsAt continuations
  rw [length_drop]
  by_cases hshort : text.length - src < n - 1
  · rw [if_pos hshort, if_pos hshort, continuesAt_ok, ok_bind, continuesAt_ok, ok_bind, pure_eq_ok,
      length_drop, length_drop, getD_drop, getD_drop, getD_drop]
    have hlen : (text.length - (src + 1) > 0) = (text.length - src > 1) := by
      rw [eq_iff_iff]
      omega
    simp only [hlen, Nat.add_zero]
    cases hfirst : decide (text.length - src > 0) && !isContinuationByte (text.getD src 0) with
    | true => simp
    | false =>
      cases decide (text.length - src > 1) && !isContinuationByte (text.getD (src + 1) 0) with
      | true => simp
      | false => simp
  · rw [if_neg hshort, if_neg hshort, deref_getD (by omega), ok_bind]
    simp only [getD_drop, Nat.add_zero]
    by_cases h0 : (!isContinuationByte (text.getD src 0)) = true
    · rw [if_pos h0, if_pos h0]
      rfl
    rw [if_neg h0, if_neg h0]
    by_cases h2 : n > 2
    · simp only [if_pos h2]
      rw [deref_getD (by omega), ok_bind]
      by_cases h1 : (!isContinuationByte (text.getD (src + 1) 0)) = true
      · rw [if_pos h1, if_pos h1]
        rfl
      rw [if_neg h1, if_neg h1]
      by_cases h3 : n > 3
      · rw [if_pos h3, if_pos h3, deref_getD (by omega), ok_bind]
        by_cases h4 : (!isContinuationByte (text.getD (src + 2) 0)) = true
        · rw [if_pos h4, if_pos h4]
          rfl
        · rw [if_neg h4, if_neg h4]
          rfl
      · simp [h3]
    · simp [h2]

theorem fromUtf8At_ok (b : UInt8) (src : ℕ) :
    Parser.fromUtf8At text b src = .ok (fromUtf8 false b (text.drop src)) := by
  unfold Parser.fromUtf8At
  by_cases hb : b < 0x80
  · have hlt : b.toNat < 0x80 := UInt8.lt_iff_toNat_lt.mp hb
    rw [if_pos hb, fromUtf8_ascii hlt]
    rfl
  · have hge : 0x80 ≤ b.toNat := Nat.not_lt.mp fun h => hb (UInt8.lt_iff_toNat_lt.mpr h)
    rw [if_neg hb, fromUtf8_of_ge hge]
    cases hlead : leadByte b with
    | none => rfl
    | some r => exact continuationsAt_ok (leadByte_length hlead).1 _ _ _

theorem scanUtf8Char_ok {c : Char}
    (h : text.drop json = String.utf8EncodeChar c ++ rest) : Parser.scanUtf8Char text json =
      .ok (some c.val, json + (String.utf8EncodeChar c).length) := by
  obtain ⟨b, src, hb⟩ : ∃ b src, String.utf8EncodeChar c ++ rest = b :: src := by
    apply exists_cons_of_ne_nil
    intro hnil
    have hlen := congrArg List.length hnil
    have hpos := String.length_utf8EncodeChar c
    have hsize := Char.utf8Size_pos c
    rw [length_append, length_nil] at hlen
    omega
  have ⟨hderef, _, hdrop⟩ := deref_of_drop (h.trans hb)
  unfold Parser.scanUtf8Char
  rw [hderef, ok_bind, fromUtf8At_ok, ok_bind, hdrop, fromUtf8_encodeChar hb.symm]
  show pure (some (ucs4 (utf16EncodeChar c)), _) = _
  rw [ucs4_utf16EncodeChar]
  rfl

theorem scanUtf8Char_none (hlt : json < text.length)
    (h : ∀ c rest, text.drop json ≠ String.utf8EncodeChar c ++ rest) :
    Parser.scanUtf8Char text json = .ok (none, json) := by
  unfold Parser.scanUtf8Char
  rw [deref_of_lt hlt, ok_bind, fromUtf8At_ok, ok_bind]
  cases hres : fromUtf8 false text[json] (text.drop (json + 1)) with
  | error => rfl
  | endOfString => rfl
  | ok units n =>
    have ⟨c, rest, hc, _, _⟩ := fromUtf8_ok_iff.1 hres
    rw [← drop_of_lt hlt] at hc
    exact absurd hc (h c rest)

end JsonParser

end QtBase
