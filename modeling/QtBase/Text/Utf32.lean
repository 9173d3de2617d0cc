import QtBase.Text.Utf8Char

/-! Code points of UTF-16 text, and text from code points. -/
namespace QtBase

open Unicode List

/-- What `QStringIterator::next` gives, up to the end. -/
def toUcs4 (invalidAs : UInt32) : List UInt16 → List UInt32
  | [] => []
  | [u] => [if QChar.isSurrogate u.toUInt32 then invalidAs else u.toUInt32]
  | u :: low :: src =>
    if QChar.isSurrogate u.toUInt32 then
      if QChar.isHighSurrogate u.toUInt32 && QChar.isLowSurrogate low.toUInt32 then
        QChar.surrogateToUcs4 u low :: toUcs4 invalidAs src
      else invalidAs :: toUcs4 invalidAs (low :: src)
    else u.toUInt32 :: toUcs4 invalidAs (low :: src)

/-- `QString::toStdU32String`. -/
def toStdU32String (s : List UInt16) : List UInt32 := toUcs4 QChar.ReplacementCharacter.toUInt32 s

namespace QChar

def ByteOrderMark : UInt32 := 0xfeff

/-- `QChar::fromUcs4`. -/
def fromUcs4 (c : UInt32) : List UInt16 :=
  if requiresSurrogates c then [highSurrogate c, lowSurrogate c] else [c.toUInt16]

end QChar

/-- `QString::fromStdU32String`, by a converter that takes a byte order mark away. -/
def fromStdU32String : List UInt32 → List UInt16
  | [] => []
  | code :: s =>
    (if code ≠ QChar.ByteOrderMark then QChar.fromUcs4 code else []) ++ s.flatMap QChar.fromUcs4

theorem toUcs4_utf16_cons (invalidAs : UInt32) (c : Char) (s : List UInt16) :
    toUcs4 invalidAs (utf16EncodeChar c ++ s) = c.val :: toUcs4 invalidAs s := by
  rcases Nat.lt_or_ge 0xffff c.val.toNat with hc | hc
  · have ⟨u, v, henc, hh, hl, hval⟩ := utf16EncodeChar_of_lt hc
    have hsurrogate := (isSurrogate_iff_high_or_low u).mpr (.inl hh)
    have hhigh := (isHighSurrogate_iff u).mpr hh
    have hlow := (isLowSurrogate_iff v).mpr hl
    have hucs4 : QChar.surrogateToUcs4 u v = c.val := by
      apply UInt32.toNat_inj.mp
      rw [toNat_surrogateToUcs4 hh hl, hval]
    rw [henc]
    show toUcs4 invalidAs (u :: v :: s) = _
    rw [toUcs4, if_pos hsurrogate, hhigh, hlow, Bool.and_self, if_pos rfl, hucs4]
  · have ⟨u, henc, hu, hh, hl⟩ := utf16EncodeChar_of_le hc
    have hsurrogate : ¬QChar.isSurrogate u.toUInt32 = true := by
      rw [isSurrogate_iff_high_or_low]
      exact not_or_intro hh hl
    have hucs4 : u.toUInt32 = c.val := by
      apply UInt32.toNat_inj.mp
      rw [UInt16.toNat_toUInt32, hu]
    rw [henc, singleton_append]
    cases s with
    | nil =>
      rw [toUcs4, toUcs4, if_neg hsurrogate, hucs4]
    | cons v s => rw [toUcs4, if_neg hsurrogate, hucs4]

theorem toUcs4_utf16 (invalidAs : UInt32) (cs : List Char) :
    toUcs4 invalidAs (utf16 cs) = cs.map Char.val := by
  induction cs with
  | nil => rfl
  | cons c cs ih => rw [utf16_cons, toUcs4_utf16_cons, ih, map_cons]

theorem fromUcs4_val (c : Char) : QChar.fromUcs4 c.val = utf16EncodeChar c := by
  have hlt := val_lt c
  unfold QChar.fromUcs4 utf16EncodeChar
  by_cases hc : c.val.toNat ≤ 0xffff
  · have hreq : ¬QChar.requiresSurrogates c.val = true := by
      unfold QChar.requiresSurrogates
      rw [decide_eq_true_iff, ge_iff_le, UInt32.le_iff_toNat_le]
      show ¬0x10000 ≤ _
      omega
    rw [if_neg hreq]
    simp only [if_pos hc]
    rfl
  · have hreq : QChar.requiresSurrogates c.val = true := by
      unfold QChar.requiresSurrogates
      rw [decide_eq_true_iff, ge_iff_le, UInt32.le_iff_toNat_le]
      show 0x10000 ≤ _
      omega
    rw [if_pos hreq]
    simp only [if_neg hc]
    have hhigh : QChar.highSurrogate c.val =
        UInt16.ofNat ((c.val.toNat - 0x10000) / 1024 + 0xd800) := by
      apply UInt16.toNat_inj.mp
      unfold QChar.highSurrogate
      rw [UInt32.toNat_toUInt16, UInt32.toNat_add, UInt32.toNat_shiftRight, UInt16.toNat_ofNat']
      show ((c.val.toNat >>> 10 + 0xd7c0) % 2 ^ 32) % 2 ^ 16 = _
      omega
    have hlow : QChar.lowSurrogate c.val =
        UInt16.ofNat ((c.val.toNat - 0x10000) % 1024 + 0xdc00) := by
      apply UInt16.toNat_inj.mp
      unfold QChar.lowSurrogate
      rw [UInt32.toNat_toUInt16, UInt32.toNat_add, UInt32.toNat_mod, UInt16.toNat_ofNat']
      show ((c.val.toNat % 0x400 + 0xdc00) % 2 ^ 32) % 2 ^ 16 = _
      omega
    rw [hhigh, hlow]

def withoutByteOrderMark : List Char → List Char
  | [] => []
  | c :: cs => if c.val = QChar.ByteOrderMark then cs else c :: cs

theorem fromStdU32String_val (cs : List Char) :
    fromStdU32String (cs.map Char.val) = utf16 (withoutByteOrderMark cs) := by
  have hall (cs : List Char) : (cs.map Char.val).flatMap QChar.fromUcs4 = utf16 cs := by
    unfold utf16
    rw [flatMap_map]
    exact flatMap_congr fun c _ => fromUcs4_val c
  cases cs with
  | nil => rfl
  | cons c cs =>
    rw [map_cons, fromStdU32String, withoutByteOrderMark, hall]
    by_cases hc : c.val = QChar.ByteOrderMark
    · rw [if_neg (not_not.mpr hc), if_pos hc, nil_append]
    · rw [if_pos hc, if_neg hc, fromUcs4_val, utf16_cons]

end QtBase
