import QtBase.Text.Compare
import Mathlib.Data.List.Lex

/-! The orders that the comparisons of strings are: by code units between two strings of UTF-16, by
code points as soon as one of them is UTF-8. -/
namespace QtBase

open Unicode QUtf8Functions List UInt16

/-- The sign of a comparison is the order of two lists. -/
structure Tells (x : ℤ) (a b : List ℕ) : Prop where
  lt : x < 0 ↔ a < b
  eq : x = 0 ↔ a = b

namespace Tells

variable {x : ℤ} {a b : List ℕ}

theorem gt (h : Tells x a b) : 0 < x ↔ b < a := by
  have hlt := h.lt
  have heq := h.eq
  constructor
  · intro hx
    rcases lt_trichotomy a b with hab | hab | hab
    · have hneg := hlt.mpr hab
      omega
    · have hzero := heq.mpr hab
      omega
    · exact hab
  · intro hba
    have hnlt : ¬ x < 0 := fun hx => lt_asymm (hlt.mp hx) hba
    have hne : x ≠ 0 := fun hx => ne_of_gt hba (heq.mp hx)
    omega

theorem neg (h : Tells x a b) : Tells (-x) b a where
  lt := by
    rw [← h.gt]
    omega
  eq := by
    rw [eq_comm (a := b), ← h.eq]
    omega

theorem cons (h : Tells x a b) (n : ℕ) : Tells x (n :: a) (n :: b) where
  lt := by
    rw [h.lt, cons_lt_cons_iff]
    simp
  eq := by rw [h.eq, List.cons.injEq, eq_self_iff_true, true_and]

theorem of_ne {n m : ℕ} (hne : n ≠ m) (hlt : x < 0 ↔ n < m) (hx : x ≠ 0) :
    Tells x (n :: a) (m :: b) where
  lt := by
    rw [hlt, cons_lt_cons_iff]
    simp [hne]
  eq := by
    constructor
    · exact fun h => absurd h hx
    · exact fun h => absurd (List.cons.inj h).1 hne

theorem lengths (a b : List ℕ) (h : a = [] ∨ b = []) :
    Tells ((if a = [] then 0 else 1) - (if b = [] then 0 else 1)) a b := by
  cases a with
  | nil =>
    cases b with
    | nil => exact ⟨by simp, by simp⟩
    | cons m b => exact ⟨by simp, by simp⟩
  | cons n a =>
    cases b with
    | nil => exact ⟨by simp, by simp⟩
    | cons m b =>
      rcases h with h | h
      · cases h
      · cases h

end Tells

theorem lexCompare_tells {α : Type} (value : α → ℕ) (l l' : List α) :
    Tells (lexCompare value l l') (l.map value) (l'.map value) := by
  induction l generalizing l' with
  | nil =>
    cases l' with
    | nil => exact ⟨by simp [lexCompare], by simp [lexCompare]⟩
    | cons b bs => exact ⟨by simp [lexCompare], by simp [lexCompare]⟩
  | cons a as ih =>
    cases l' with
    | nil => exact ⟨by simp [lexCompare], by simp [lexCompare]⟩
    | cons b bs =>
      unfold lexCompare
      by_cases heq : value a ≠ value b
      · rw [if_pos heq]
        exact Tells.of_ne heq (by omega) (by omega)
      · rw [if_neg heq, map_cons, map_cons, not_not.mp heq]
        exact (ih bs).cons _

theorem compareStrings_tells (lhs rhs : List UInt16) :
    Tells (compareStrings lhs rhs) (lhs.map toNat) (rhs.map toNat) :=
  lexCompare_tells _ _ _

/-! ## Code points -/

/-- The code points of UTF-16. A surrogate without the other half is one of its own. -/
def codePoints : List UInt16 → List ℕ
  | [] => []
  | [u] => [u.toNat]
  | u :: v :: s =>
    if High u ∧ Low v then (0x10000 + (u.toNat - 0xd800) * 1024 + (v.toNat - 0xdc00)) :: codePoints s
    else u.toNat :: codePoints (v :: s)

theorem codePoints_pair {u v : UInt16} (h : High u ∧ Low v) (s : List UInt16) :
    codePoints (u :: v :: s) =
      (0x10000 + (u.toNat - 0xd800) * 1024 + (v.toNat - 0xdc00)) :: codePoints s := if_pos h

theorem codePoints_single {u v : UInt16} (h : ¬ (High u ∧ Low v)) (s : List UInt16) :
    codePoints (u :: v :: s) = u.toNat :: codePoints (v :: s) := if_neg h

theorem codePoints_cons {u : UInt16} (h : ¬ High u) (s : List UInt16) :
    codePoints (u :: s) = u.toNat :: codePoints s := by
  cases s with
  | nil => rfl
  | cons v s => exact codePoints_single (fun hp => h hp.1) s

theorem codePoints_nextUtf16 (u : UInt16) (s : List UInt16) :
    codePoints (u :: s) = (nextUtf16 u s).1.toNat :: codePoints (nextUtf16 u s).2 := by
  cases s with
  | nil =>
    show [u.toNat] = [u.toUInt32.toNat]
    rw [toNat_toUInt32]
  | cons v s =>
    have hiff : (QChar.isHighSurrogate u.toUInt32 && QChar.isLowSurrogate v.toUInt32) = true ↔
        High u ∧ Low v := by
      rw [Bool.and_eq_true, isHighSurrogate_iff, isLowSurrogate_iff]
    by_cases h : High u ∧ Low v
    · have hnext : nextUtf16 u (v :: s) = (QChar.surrogateToUcs4 u v, s) := if_pos (hiff.mpr h)
      rw [codePoints_pair h, hnext, toNat_surrogateToUcs4 h.1 h.2]
    · have hnext : nextUtf16 u (v :: s) = (u.toUInt32, v :: s) := if_neg (mt hiff.mp h)
      rw [codePoints_single h, hnext, toNat_toUInt32]

theorem codePoints_utf16 (cs : List Char) : codePoints (utf16 cs) = cs.map fun c => c.val.toNat := by
  induction cs with
  | nil => rfl
  | cons c cs ih =>
    have hcons : utf16 (c :: cs) = utf16EncodeChar c ++ utf16 cs := rfl
    rw [hcons, map_cons, ← ih]
    by_cases hc : c.val.toNat ≤ 0xffff
    · have ⟨u, henc, hu, hhigh, _⟩ := utf16EncodeChar_of_le hc
      rw [henc, ← hu]
      exact codePoints_cons hhigh _
    · have ⟨u, v, henc, hu, hv, hval⟩ := utf16EncodeChar_of_lt (Nat.not_le.mp hc)
      rw [henc, hval]
      exact codePoints_pair ⟨hu, hv⟩ _

/-- The UTF-16 of a code point. -/
def unitsOf (n : ℕ) : List UInt16 :=
  if n < 0x10000 then [.ofNat n]
  else [.ofNat ((n - 0x10000) / 1024 + 0xd800), .ofNat ((n - 0x10000) % 1024 + 0xdc00)]

theorem unitsOf_toNat (u : UInt16) : unitsOf u.toNat = [u] := by
  unfold unitsOf
  rw [if_pos u.toNat_lt, UInt16.ofNat_toNat]

theorem unitsOf_pair {u v : UInt16} (h : High u ∧ Low v) :
    unitsOf (0x10000 + (u.toNat - 0xd800) * 1024 + (v.toNat - 0xdc00)) = [u, v] := by
  obtain ⟨⟨hu, hu'⟩, hv, hv'⟩ := h
  have hhigh : (0x10000 + (u.toNat - 0xd800) * 1024 + (v.toNat - 0xdc00) - 0x10000) / 1024 + 0xd800 =
      u.toNat := by omega
  have hlow : (0x10000 + (u.toNat - 0xd800) * 1024 + (v.toNat - 0xdc00) - 0x10000) % 1024 + 0xdc00 =
      v.toNat := by omega
  unfold unitsOf
  rw [if_neg (by omega), hhigh, hlow, UInt16.ofNat_toNat, UInt16.ofNat_toNat]

theorem flatMap_unitsOf (s : List UInt16) : (codePoints s).flatMap unitsOf = s := by
  fun_induction codePoints s with
  | case1 => rfl
  | case2 u => rw [flatMap_singleton, unitsOf_toNat]
  | case3 u v s h ih =>
    rw [flatMap_cons, unitsOf_pair h, ih]
    rfl
  | case4 u v s h ih =>
    rw [flatMap_cons, unitsOf_toNat, ih]
    rfl

theorem codePoints_injective {s t : List UInt16} (h : codePoints s = codePoints t) : s = t := by
  rw [← flatMap_unitsOf s, h, flatMap_unitsOf]

/-! ## UTF-8 -/

theorem utf8_cons (c : Char) (cs : List Char) :
    utf8 (c :: cs) = String.utf8EncodeChar c ++ utf8 cs := rfl

theorem compareUtf8Bytes_lt {a b : UInt8} (h : a.toNat < b.toNat) (l l' : List UInt8) :
    compareUtf8Bytes (a :: l) (b :: l') < 0 ∧ 0 < compareUtf8Bytes (b :: l') (a :: l) := by
  unfold compareUtf8Bytes lexCompare
  rw [if_pos (by omega), if_pos (by omega)]
  omega

theorem compareUtf8Bytes_cons (a : UInt8) (l l' : List UInt8) :
    compareUtf8Bytes (a :: l) (a :: l') = compareUtf8Bytes l l' := if_neg fun h => h rfl

theorem compareUtf8Bytes_digit {a b : UInt8} {l l' : List UInt8} (hle : a.toNat ≤ b.toNat)
    (h : a = b → compareUtf8Bytes l l' < 0 ∧ 0 < compareUtf8Bytes l' l) :
    compareUtf8Bytes (a :: l) (b :: l') < 0 ∧ 0 < compareUtf8Bytes (b :: l') (a :: l) := by
  by_cases heq : a.toNat = b.toNat
  · have hab : a = b := UInt8.toNat_inj.mp heq
    rw [hab, compareUtf8Bytes_cons, compareUtf8Bytes_cons]
    exact h hab
  · exact compareUtf8Bytes_lt (by omega) l l'

theorem compareUtf8Bytes_encodeChar {c d : Char} (h : c.val.toNat < d.val.toNat)
    (r r' : List UInt8) :
    compareUtf8Bytes (String.utf8EncodeChar c ++ r) (String.utf8EncodeChar d ++ r') < 0 ∧
    0 < compareUtf8Bytes (String.utf8EncodeChar d ++ r') (String.utf8EncodeChar c ++ r) := by
  rcases utf8EncodeChar_cases c with ⟨b, hc, hb, hv⟩ | ⟨b, x, hc, hb, hx, hv⟩ |
    ⟨b, x, y, hc, hb, hx, hy, hv, hm⟩ | ⟨b, x, y, z, hc, hb, hx, hy, hz, hv, hm⟩ <;>
  rcases utf8EncodeChar_cases d with ⟨b', hd, hb', hv'⟩ | ⟨b', x', hd, hb', hx', hv'⟩ |
    ⟨b', x', y', hd, hb', hx', hy', hv', hm'⟩ | ⟨b', x', y', z', hd, hb', hx', hy', hz', hv', hm'⟩ <;>
  rw [hc, hd]
  -- two sequences of one length, of two, three and four bytes
  case inr.inl.inr.inl =>
    refine compareUtf8Bytes_digit (by omega) fun hb₁ => ?_
    rw [hb₁] at hv
    exact compareUtf8Bytes_lt (by omega) _ _
  case inr.inr.inl.inr.inr.inl =>
    refine compareUtf8Bytes_digit (by omega) fun hb₁ => ?_
    rw [hb₁] at hv
    refine compareUtf8Bytes_digit (by omega) fun hb₂ => ?_
    rw [hb₂] at hv
    exact compareUtf8Bytes_lt (by omega) _ _
  case inr.inr.inr.inr.inr.inr =>
    refine compareUtf8Bytes_digit (by omega) fun hb₁ => ?_
    rw [hb₁] at hv
    refine compareUtf8Bytes_digit (by omega) fun hb₂ => ?_
    rw [hb₂] at hv
    refine compareUtf8Bytes_digit (by omega) fun hb₃ => ?_
    rw [hb₃] at hv
    exact compareUtf8Bytes_lt (by omega) _ _
  -- the longer sequence has the greater first byte
  all_goals exact compareUtf8Bytes_lt (by omega) _ _

theorem compareUtf8Bytes_append (w l l' : List UInt8) :
    compareUtf8Bytes (w ++ l) (w ++ l') = compareUtf8Bytes l l' := by
  induction w with
  | nil => rfl
  | cons a w ih =>
    rw [cons_append, cons_append, compareUtf8Bytes_cons, ih]

theorem exists_utf8_cons (c : Char) (cs : List Char) : ∃ b l, utf8 (c :: cs) = b :: l := by
  rw [utf8_cons]
  rcases utf8EncodeChar_cases c with ⟨b, hc, _⟩ | ⟨b, x, hc, _⟩ | ⟨b, x, y, hc, _⟩ |
    ⟨b, x, y, z, hc, _⟩ <;>
  exact ⟨b, _, by rw [hc]; rfl⟩

theorem compareUtf8Bytes_tells (cs ds : List Char) :
    Tells (compareUtf8Bytes (utf8 cs) (utf8 ds)) (cs.map fun c => c.val.toNat)
      (ds.map fun c => c.val.toNat) := by
  induction cs generalizing ds with
  | nil =>
    cases ds with
    | nil => exact lexCompare_tells UInt8.toNat [] []
    | cons d ds =>
      have ⟨b, l, hd⟩ := exists_utf8_cons d ds
      rw [hd]
      exact ⟨by simp [compareUtf8Bytes, lexCompare, utf8], by simp [compareUtf8Bytes, lexCompare, utf8]⟩
  | cons c cs ih =>
    cases ds with
    | nil =>
      have ⟨b, l, hc⟩ := exists_utf8_cons c cs
      rw [hc]
      exact ⟨by simp [compareUtf8Bytes, lexCompare, utf8], by simp [compareUtf8Bytes, lexCompare, utf8]⟩
    | cons d ds =>
      rw [utf8_cons, utf8_cons, map_cons, map_cons]
      rcases Nat.lt_trichotomy c.val.toNat d.val.toNat with h | h | h
      · have ⟨hlt, _⟩ := compareUtf8Bytes_encodeChar h (utf8 cs) (utf8 ds)
        exact Tells.of_ne (by omega) (by omega) (by omega)
      · have hcd : c = d := Char.ext (UInt32.toNat_inj.mp h)
        rw [hcd, compareUtf8Bytes_append]
        exact (ih ds).cons _
      · have ⟨_, hgt⟩ := compareUtf8Bytes_encodeChar h (utf8 ds) (utf8 cs)
        exact Tells.of_ne (by omega) (by omega) (by omega)

theorem codePoints_eq_nil_iff {us : List UInt16} : codePoints us = [] ↔ us = [] := by
  constructor
  · intro h
    have hflat := flatMap_unitsOf us
    rw [h] at hflat
    exact hflat.symm
  · intro h
    rw [h]
    rfl

theorem nextUtf8_encodeChar {c : Char} {b : UInt8} {l rest : List UInt8} (hb : 0x80 ≤ b.toNat)
    (h : b :: l = String.utf8EncodeChar c ++ rest) : nextUtf8 b l = (c.val, rest) := by
  have hres : fromUtf8 true b l = .ok (utf16EncodeChar c) (String.utf8EncodeChar c).length := by
    rw [fromUtf8_of_ge hb, ← fromUtf8_of_ge hb false, fromUtf8_encodeChar h]
  have hdrop : l.drop ((String.utf8EncodeChar c).length - 1) = rest := by
    have hlen : 0 < (String.utf8EncodeChar c).length := by
      rw [String.length_utf8EncodeChar]
      exact Char.utf8Size_pos c
    have hcons := congrArg (List.drop (String.utf8EncodeChar c).length) h
    rw [drop_left] at hcons
    rw [← hcons]
    cases hn : (String.utf8EncodeChar c).length with
    | zero => omega
    | succ n => rfl
  unfold nextUtf8
  rw [hres]
  show (ucs4 (utf16EncodeChar c), _) = _
  rw [ucs4_utf16EncodeChar, hdrop]

theorem ascii_of_utf8 {c : Char} {b : UInt8} {l rest : List UInt8} (hb : b.toNat < 0x80)
    (h : b :: l = String.utf8EncodeChar c ++ rest) : c.val.toNat = b.toNat ∧ l = rest := by
  rcases utf8EncodeChar_cases c with ⟨b', hc, _, hv⟩ | ⟨b', x, hc, hb', _⟩ |
    ⟨b', x, y, hc, hb', _⟩ | ⟨b', x, y, z, hc, hb', _⟩ <;>
  rw [hc, cons_append, List.cons.injEq] at h
  · rw [hv, h.1]
    exact ⟨rfl, h.2⟩
  all_goals
    rw [h.1] at hb
    omega

theorem codePoints_head (u : UInt16) (us : List UInt16) : ∃ n rest,
    codePoints (u :: us) = n :: rest ∧ (n = u.toNat ∨ 0xd800 ≤ u.toNat ∧ 0x10000 ≤ n) := by
  cases us with
  | nil => exact ⟨u.toNat, [], rfl, .inl rfl⟩
  | cons v us =>
    by_cases h : High u ∧ Low v
    · exact ⟨_, _, codePoints_pair h us, .inr ⟨h.1.1, by omega⟩⟩
    · exact ⟨_, _, codePoints_single h us, .inl rfl⟩

theorem compareUtf8From_tells (fuel : ℕ) (cs : List Char) (us : List UInt16)
    (hfuel : (utf8 cs).length ≤ fuel) :
    Tells (compareUtf8From fuel (utf8 cs) us) (cs.map fun c => c.val.toNat) (codePoints us) := by
  induction fuel generalizing cs us with
  | zero =>
    cases cs with
    | nil =>
      have hend : compareUtf8From 0 (utf8 []) us =
          (if ([] : List ℕ) = [] then 0 else 1) - (if codePoints us = [] then 0 else 1) := by
        simp only [codePoints_eq_nil_iff]
        rfl
      rw [hend]
      exact Tells.lengths _ _ (.inl rfl)
    | cons c cs =>
      have ⟨b, l, hc⟩ := exists_utf8_cons c cs
      rw [hc, length_cons] at hfuel
      omega
  | succ fuel ih =>
    cases cs with
    | nil =>
      have hend : compareUtf8From (fuel + 1) (utf8 []) us =
          (if ([] : List ℕ) = [] then 0 else 1) - (if codePoints us = [] then 0 else 1) := by
        simp only [codePoints_eq_nil_iff]
        rfl
      rw [hend]
      exact Tells.lengths _ _ (.inl rfl)
    | cons c cs =>
      have ⟨b, l, hc⟩ := exists_utf8_cons c cs
      have hfirst : b :: l = String.utf8EncodeChar c ++ utf8 cs := by rw [← hc, utf8_cons]
      cases us with
      | nil =>
        rw [hc]
        exact ⟨by simp [compareUtf8From, codePoints], by simp [compareUtf8From, codePoints]⟩
      | cons u us =>
        have hrest : (utf8 cs).length ≤ fuel := by
          have hlen : 0 < (String.utf8EncodeChar c).length := by
            rw [String.length_utf8EncodeChar]
            exact Char.utf8Size_pos c
          rw [utf8_cons, length_append] at hfuel
          omega
        rw [hc]
        unfold compareUtf8From
        by_cases hb : b ≥ 0x80
        · have hbn : 0x80 ≤ b.toNat := UInt8.le_iff_toNat_le.mp hb
          rw [if_pos hb, if_pos hb, nextUtf8_encodeChar hbn hfirst, codePoints_nextUtf16 u us]
          simp only
          by_cases hne : c.val ≠ (nextUtf16 u us).1
          · have hnat : c.val.toNat ≠ (nextUtf16 u us).1.toNat := fun h => hne (UInt32.toNat_inj.mp h)
            rw [if_pos hne, map_cons]
            refine Tells.of_ne hnat ?_ ?_
            · show (c.val.toNat : ℤ) - _ < 0 ↔ c.val.toNat < _
              omega
            · omega
          · rw [if_neg hne, map_cons, not_not.mp hne]
            exact (ih cs _ hrest).cons _
        · have hbn : b.toNat < 0x80 := Nat.not_le.mp fun h => hb (UInt8.le_iff_toNat_le.mpr h)
          obtain ⟨hval, hl⟩ := ascii_of_utf8 hbn hfirst
          rw [if_neg hb, if_neg hb, map_cons, hval]
          simp only
          by_cases hne : b.toUInt32 ≠ u.toUInt32
          · have hnat : b.toNat ≠ u.toNat := by
              intro h
              apply hne
              apply UInt32.toNat_inj.mp
              rw [UInt8.toNat_toUInt32, toNat_toUInt32, h]
            have ⟨n, rest, hcode, hn⟩ := codePoints_head u us
            rw [if_pos hne, UInt8.toNat_toUInt32, toNat_toUInt32, hcode]
            exact Tells.of_ne (by omega) (by omega) (by omega)
          · have hnat : b.toNat = u.toNat := by
              have h := congrArg UInt32.toNat (not_not.mp hne)
              rw [UInt8.toNat_toUInt32, toNat_toUInt32] at h
              exact h
            have hhigh : ¬ High u := by
              unfold High
              omega
            rw [if_neg hne, codePoints_cons hhigh, hnat, hl]
            exact (ih cs us hrest).cons _

theorem compareUtf8_tells (cs : List Char) (us : List UInt16) :
    Tells (compareUtf8 (utf8 cs) us) (cs.map fun c => c.val.toNat) (codePoints us) :=
  compareUtf8From_tells _ cs us (Nat.le_refl _)

end QtBase
