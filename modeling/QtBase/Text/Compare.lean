import QtBase.Text.Utf8
import QtBase.Text.Utf8Char
import Mathlib.Data.Int.Notation

/-! Comparison of strings in the formats they are stored in. A build without SIMD instructions has
no `simdCompareAscii`. -/
namespace QtBase

open QUtf8Functions Unicode

/-- The difference of the first characters that differ, or of the lengths as -1, 0 or 1. -/
def lexCompare {α : Type} (value : α → ℕ) : List α → List α → ℤ
  | [], [] => 0
  | [], _ :: _ => -1
  | _ :: _, [] => 1
  | a :: as, b :: bs =>
    if value a ≠ value b then (value a : ℤ) - value b else lexCompare value as bs

/-- `QtPrivate::compareStrings` of UTF-16 with UTF-16, `ucstrcmp`. -/
def compareStrings (lhs rhs : List UInt16) : ℤ := lexCompare UInt16.toNat lhs rhs

/-- `QUtf8::compareUtf8` of UTF-8 with UTF-8, `memcmp`. -/
def compareUtf8Bytes (lhs rhs : List UInt8) : ℤ := lexCompare UInt8.toNat lhs rhs

/-- What `fromUtf8` writes to a `char32_t` instead of UTF-16. -/
def ucs4 : List UInt16 → UInt32
  | [high, low] => QChar.surrogateToUcs4 high low
  | [u] => u.toUInt32
  | _ => 0

theorem ucs4_utf16EncodeChar (c : Char) : ucs4 (utf16EncodeChar c) = c.val := by
  apply UInt32.toNat_inj.mp
  by_cases hc : c.val.toNat ≤ 0xffff
  · have ⟨u, henc, hu, _, _⟩ := utf16EncodeChar_of_le hc
    rw [henc, ← hu]
    exact UInt16.toNat_toUInt32 u
  · have ⟨u, v, henc, hu, hv, hval⟩ := utf16EncodeChar_of_lt (Nat.not_le.mp hc)
    rw [henc, hval]
    exact toNat_surrogateToUcs4 hu hv

/-- The next character of the UTF-8 and what is left. -/
def nextUtf8 (b : UInt8) (src : List UInt8) : UInt32 × List UInt8 :=
  match fromUtf8 true b src with
  | .ok units charsConsumed => (ucs4 units, src.drop (charsConsumed - 1))
  | _ => (QChar.ReplacementCharacter.toUInt32, src)

/-- The next character of the UTF-16 and what is left. -/
def nextUtf16 (u : UInt16) : List UInt16 → UInt32 × List UInt16
  | [] => (u.toUInt32, [])
  | low :: src =>
    if QChar.isHighSurrogate u.toUInt32 && QChar.isLowSurrogate low.toUInt32 then
      (QChar.surrogateToUcs4 u low, src)
    else (u.toUInt32, low :: src)

/-- The loop of `compareUtf8`. -/
def compareUtf8From : ℕ → List UInt8 → List UInt16 → ℤ
  | fuel + 1, b :: src1, u :: src2 =>
    let (uc1, rest1) := if b ≥ 0x80 then nextUtf8 b src1 else (b.toUInt32, src1)
    let (uc2, rest2) := if b ≥ 0x80 then nextUtf16 u src2 else (u.toUInt32, src2)
    if uc1 ≠ uc2 then (uc1.toNat : ℤ) - uc2.toNat else compareUtf8From fuel rest1 rest2
  | _, src1, src2 => (if src1 = [] then 0 else 1) - (if src2 = [] then 0 else 1)

/-- `QUtf8::compareUtf8` of UTF-8 with UTF-16. -/
def compareUtf8 (utf8 : List UInt8) (utf16 : List UInt16) : ℤ :=
  compareUtf8From utf8.length utf8 utf16

end QtBase
