import QtBase.Text.Utf8
import QtBase.Time.PosixTime

/-! The names and offsets of a POSIX rule, as `PosixZone::parse` reads them. -/
namespace QtBase.Time

open QIPAddressUtils QUtf8 List Nat

def asciiIsLetter (ch : UInt8) : Bool :=
  let ch := ch ||| 0x20
  decide (ch ≥ 0x61 ∧ ch ≤ 0x7a)

/-- `strchr` in `offsetChars` finds the terminator, too. -/
def isOffsetChar (c : UInt8) : Bool := isAsciiDigit c || c == 0x3a || c == 0

structure PosixZone where
  name : List UInt16
  offset : ℤ
  deriving DecidableEq

namespace PosixZone

def InvalidOffset : ℤ := INT_MIN

def invalid : PosixZone := { name := [], offset := InvalidOffset }

def hasValidOffset (z : PosixZone) : Bool := z.offset != InvalidOffset

section Parse

variable (simd : Simd AsciiByte) (range : List UInt8)

/-- The byte at a position before the end. -/
def read (i : ℕ) : Exec UInt8 :=
  match range[i]? with
  | some c => .ok c
  | none => .error .undefined

/-- `while (i < end && p(*i)) ++i;`, with as many rounds as there are bytes. -/
def scan (p : UInt8 → Bool) : ℕ → ℕ → Exec ℕ
  | 0, i => .ok i
  | rounds + 1, i =>
    if i < range.length then do
      let c ← read range i
      if p c then scan p rounds (i + 1) else .ok i
    else .ok i

/-- The bytes from `begin` to `stop`. -/
def slice (begin stop : ℕ) : List UInt8 := (range.take stop).drop begin

/-- Where the name begins and ends, and where its offset begins. -/
def parseName : Exec (ℕ × ℕ × ℕ) := do
  let first ← read range 0
  if first = 0x3c then
    let nameEnd ← scan range (· != 0x3e) range.length 1
    return (1, nameEnd, nameEnd + 1)
  else
    let nameEnd ← scan range asciiIsLetter range.length 0
    return (0, nameEnd, nameEnd)

/-- Where the offset at `zoneBegin` ends. -/
def offsetEnd (zoneBegin : ℕ) : Exec ℕ := do
  if zoneBegin < range.length then
    let c ← read range zoneBegin
    scan range isOffsetChar range.length (if c = 0x2b ∨ c = 0x2d then zoneBegin + 1 else zoneBegin)
  else scan range isOffsetChar range.length zoneBegin

/-- The offset that stands there, if any. -/
def zoneOffset (zoneBegin zoneEnd : ℕ) : Exec ℤ :=
  if zoneEnd > zoneBegin then parsePosixOffset (slice range zoneBegin zoneEnd)
  else .ok InvalidOffset

/-- `PosixZone::parse` on the bytes from `pos` to `end`: the zone, and where `pos` is afterwards. -/
def parse : Exec (PosixZone × ℕ) := do
  qAssert (0 < range.length)
  let (nameBegin, nameEnd, zoneBegin) ← parseName range
  if nameEnd - nameBegin < 3 then return (invalid, zoneBegin)
  let zoneEnd ← offsetEnd range zoneBegin
  let name := convertToUnicode simd (slice range nameBegin nameEnd)
  let offset ← zoneOffset range zoneBegin zoneEnd
  -- "UTC" and "GMT" with an offset are no zones
  if offset ≠ 0 ∧ (name = [0x55, 0x54, 0x43] ∨ name = [0x47, 0x4d, 0x54]) then
    return (invalid, zoneEnd)
  return ({ name := name, offset := offset }, zoneEnd)

end Parse

/-! ## Positions -/

variable {simd : Simd AsciiByte} {range : List UInt8}

theorem read_of_lt {i : ℕ} (h : i < range.length) : read range i = .ok range[i] := by
  unfold read
  rw [List.getElem?_eq_getElem h]

theorem scan_eq {p : UInt8 → Bool} {rounds i : ℕ} (h : range.length ≤ i + rounds) :
    scan range p rounds i = .ok (i + ((range.drop i).takeWhile p).length) := by
  induction rounds generalizing i with
  | zero =>
    rw [add_zero] at h
    rw [drop_eq_nil_of_le h]
    rfl
  | succ rounds ih =>
    unfold scan
    by_cases hi : i < range.length
    · rw [if_pos hi, read_of_lt hi, ok_bind, drop_eq_getElem_cons hi]
      by_cases hp : p range[i] = true
      · rw [if_pos hp, takeWhile_cons_of_pos hp, ih (by omega), length_cons]
        congr 1
        omega
      · rw [if_neg hp, takeWhile_cons_of_neg hp]
        rfl
    · rw [if_neg hi, drop_eq_nil_of_le (by omega)]
      rfl

theorem scan_le {p : UInt8 → Bool} {i : ℕ} (h : i ≤ range.length) :
    ∃ j, scan range p range.length i = .ok j ∧ i ≤ j ∧ j ≤ range.length := by
  refine ⟨_, scan_eq (by omega), by omega, ?_⟩
  have hle := (List.takeWhile_prefix p (l := range.drop i)).length_le
  rw [length_drop] at hle
  omega

theorem scan_past {p : UInt8 → Bool} {i : ℕ} (h : range.length ≤ i) :
    scan range p range.length i = .ok i := by
  rw [scan_eq (by omega), drop_eq_nil_of_le h]
  rfl

variable {zoneBegin : ℕ}

theorem offsetEnd_le (h : zoneBegin ≤ range.length) :
    ∃ zoneEnd, offsetEnd range zoneBegin = .ok zoneEnd ∧ zoneBegin ≤ zoneEnd ∧
      zoneEnd ≤ range.length := by
  unfold offsetEnd
  by_cases hlt : zoneBegin < range.length
  · rw [if_pos hlt, read_of_lt hlt, ok_bind]
    split
    · have hnext : zoneBegin + 1 ≤ range.length := by omega
      obtain ⟨j, hj, hle, hle'⟩ := scan_le (p := isOffsetChar) hnext
      exact ⟨j, hj, by omega, hle'⟩
    · exact scan_le h
  · rw [if_neg hlt]
    exact scan_le h

theorem offsetEnd_past (h : range.length ≤ zoneBegin) :
    offsetEnd range zoneBegin = .ok zoneBegin := by
  unfold offsetEnd
  rw [if_neg (not_lt.2 h), scan_past h]

theorem parse_past {nameBegin nameEnd : ℕ}
    (hname : parseName range = .ok (nameBegin, nameEnd, zoneBegin))
    (hpast : range.length < zoneBegin) {z : PosixZone} {pos : ℕ}
    (h : parse simd range = .ok (z, pos)) : range.length < pos := by
  unfold parse at h
  obtain ⟨-, -, h⟩ := bind_eq_ok h
  rw [hname, ok_bind] at h
  dsimp only at h
  split at h
  · cases h
    exact hpast
  · have hnone : zoneOffset range zoneBegin zoneBegin = .ok InvalidOffset :=
      if_neg (lt_irrefl _)
    rw [offsetEnd_past (by omega), ok_bind, hnone, ok_bind] at h
    split at h
    · cases h
      exact hpast
    · cases h
      exact hpast

theorem parse_inside (simd : Simd AsciiByte) {nameBegin nameEnd : ℕ}
    (hname : parseName range = .ok (nameBegin, nameEnd, zoneBegin)) (hpos : 0 < range.length)
    (hle : zoneBegin ≤ range.length) :
    ∃ z pos, parse simd range = .ok (z, pos) ∧ pos ≤ range.length ∧
      (z.name ≠ [] → z.name = convertToUnicode simd (slice range nameBegin nameEnd) ∧
        3 ≤ nameEnd - nameBegin) := by
  obtain ⟨zoneEnd, hend, hge, hle'⟩ := offsetEnd_le hle
  obtain ⟨offset, hoffset⟩ : ∃ offset, zoneOffset range zoneBegin zoneEnd = .ok offset := by
    unfold zoneOffset
    by_cases hmore : zoneEnd > zoneBegin
    · rw [if_pos hmore]
      refine parsePosixOffset_ok fun hnil => ?_
      have hlength := congrArg List.length hnil
      unfold slice at hlength
      rw [length_drop, length_take, length_nil] at hlength
      omega
    · exact ⟨InvalidOffset, if_neg hmore⟩
  unfold parse
  rw [qAssert_pos hpos, ok_bind, hname, ok_bind]
  dsimp only
  by_cases hshort : nameEnd - nameBegin < 3
  · rw [if_pos hshort]
    exact ⟨invalid, zoneBegin, rfl, hle, fun h => absurd rfl h⟩
  · rw [if_neg hshort, hend, ok_bind, hoffset, ok_bind]
    split
    · exact ⟨invalid, zoneEnd, rfl, hle', fun h => absurd rfl h⟩
    · exact ⟨_, zoneEnd, rfl, hle', fun _ => ⟨rfl, by omega⟩⟩

/-! ## Names -/

/-- At least three letters, or whatever stands between `<` and `>`. -/
def Named (simd : Simd AsciiByte) (range : List UInt8) (name : List UInt16) : Prop :=
  (3 ≤ (range.takeWhile asciiIsLetter).length ∧
    name = convertToUnicode simd (range.takeWhile asciiIsLetter)) ∨
  ∃ quoted rest, range = 0x3c :: (quoted ++ 0x3e :: rest) ∧ 0x3e ∉ quoted ∧
    name = convertToUnicode simd quoted

/-- `parse` stays in the range, and the name that it reports is one. -/
def ParsedRight (simd : Simd AsciiByte) (range : List UInt8) : Prop :=
  ∃ z pos, parse simd range = .ok (z, pos) ∧ pos ≤ range.length ∧
    (z.name ≠ [] → Named simd range z.name)

theorem parsedRight_iff (simd : Simd AsciiByte) (range : List UInt8) :
    ParsedRight simd range ↔ range ≠ [] ∧ (range.head? = some 0x3c → 0x3e ∈ range) := by
  constructor
  · rintro ⟨z, pos, hparse, hle, -⟩
    refine ⟨fun hnil => ?_, fun hquote => by_contra fun hopen => ?_⟩
    · rw [hnil] at hparse
      cases hparse
    · obtain ⟨cs, rfl⟩ : ∃ cs, range = 0x3c :: cs :=
        ⟨range.tail, (cons_head?_tail hquote).symm⟩
      have hall : ∀ c ∈ cs, (c != 0x3e) = true := by
        intro c hc
        rw [bne_iff_ne]
        rintro rfl
        exact hopen (mem_cons_of_mem _ hc)
      have hname : parseName (0x3c :: cs) = .ok (1, cs.length + 1, cs.length + 2) := by
        unfold parseName
        rw [read_of_lt (zero_lt_succ _), ok_bind]
        dsimp only [getElem_cons_zero]
        rw [if_pos rfl, scan_eq (by omega), drop_succ_cons, drop_zero,
          takeWhile_eq_self_iff.2 hall, ok_bind, add_comm 1 cs.length]
        rfl
      have hpast := parse_past hname (by rw [length_cons]; omega) hparse
      omega
  · rintro ⟨hne, hclosed⟩
    have hpos : 0 < range.length := length_pos_iff.2 hne
    by_cases hquote : range.head? = some 0x3c
    · obtain ⟨cs, rfl⟩ : ∃ cs, range = 0x3c :: cs :=
        ⟨range.tail, (cons_head?_tail hquote).symm⟩
      have hmem : 0x3e ∈ cs := (mem_cons.1 (hclosed rfl)).resolve_left (by decide)
      obtain ⟨quoted, rest, rfl, hnot⟩ := eq_append_cons_of_mem hmem
      have hall : ∀ c ∈ quoted, (c != 0x3e) = true := by
        intro c hc
        rw [bne_iff_ne]
        rintro rfl
        exact hnot hc
      have htake : (quoted ++ 0x3e :: rest).takeWhile (· != 0x3e) = quoted := by
        rw [takeWhile_append_of_pos hall, takeWhile_cons_of_neg (by decide),
          append_nil]
      have hname : parseName (0x3c :: (quoted ++ 0x3e :: rest)) =
          .ok (1, quoted.length + 1, quoted.length + 2) := by
        unfold parseName
        rw [read_of_lt hpos, ok_bind]
        dsimp only [getElem_cons_zero]
        rw [if_pos rfl, scan_eq (by omega), drop_succ_cons, drop_zero, htake, ok_bind,
          add_comm 1 quoted.length]
        rfl
      have hslice : slice (0x3c :: (quoted ++ 0x3e :: rest)) 1 (quoted.length + 1) = quoted := by
        unfold slice
        simp
      obtain ⟨z, pos, hparse, hle, hreport⟩ := parse_inside simd hname hpos (by
        rw [length_cons, length_append, length_cons]
        omega)
      refine ⟨z, pos, hparse, hle, fun hz => .inr ⟨quoted, rest, rfl, hnot, ?_⟩⟩
      rw [← hslice]
      exact (hreport hz).1
    · have hname : parseName range = .ok (0, (range.takeWhile asciiIsLetter).length,
          (range.takeWhile asciiIsLetter).length) := by
        obtain ⟨c, cs, rfl⟩ := exists_cons_of_ne_nil hne
        have hc : c ≠ 0x3c := fun h => hquote (by rw [h]; rfl)
        unfold parseName
        rw [read_of_lt hpos, ok_bind]
        dsimp only [getElem_cons_zero]
        rw [if_neg hc, scan_eq (by omega), drop_zero, ok_bind, zero_add]
        rfl
      have hprefix := takeWhile_prefix asciiIsLetter (l := range)
      obtain ⟨z, pos, hparse, hle, hreport⟩ :=
        parse_inside simd hname hpos hprefix.length_le
      refine ⟨z, pos, hparse, hle, fun hz => .inl ⟨(hreport hz).2, ?_⟩⟩
      rw [(hreport hz).1]
      unfold slice
      rw [drop_zero, ← prefix_iff_eq_take.1 hprefix]

end PosixZone

/-- When times and zones are read as they should be. -/
theorem posix_texts_iff (simd : Simd AsciiByte) (time zone : List UInt8) :
    (((∀ t, PosixTime time t → parsePosixTime time = .ok t) ∧
      ((∀ t, ¬ PosixTime time t) → parsePosixTime time = .ok INT_MIN)) ↔ ReadRight time) ∧
    (PosixZone.ParsedRight simd zone ↔
      zone ≠ [] ∧ (zone.head? = some 0x3c → 0x3e ∈ zone)) :=
  ⟨readRight_iff time, PosixZone.parsedRight_iff simd zone⟩

/-- "-1:30" is read as half an hour before instead of one and a half, and the zone "<ABC" ends
behind its range. -/
theorem posix_texts_misread :
    PosixTime [0x2d, 0x31, 0x3a, 0x33, 0x30] (-5400) ∧
    parsePosixTime [0x2d, 0x31, 0x3a, 0x33, 0x30] = .ok (-1800) ∧
    ¬ PosixZone.ParsedRight simdDecodeAscii [0x3c, 0x41, 0x42, 0x43] := by
  refine ⟨?_, rfl, fun h => ?_⟩
  · have hhour : PosixHour [0x31] 1 := ⟨digits_singleton rfl rfl, by decide, by decide⟩
    have hmin : PosixSixty [0x33, 0x30] 30 :=
      ⟨⟨by decide, by simp [isAsciiDigit], rfl⟩, rfl, by decide⟩
    exact .minus (.minutes hhour hmin)
  · exact absurd (((PosixZone.parsedRight_iff _ _).1 h).2 rfl) (by decide)

end QtBase.Time
