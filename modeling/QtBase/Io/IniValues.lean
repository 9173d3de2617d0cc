import QtBase.Core.View
import QtBase.Io.IPAddress
import QtBase.Text.Utf8

/-! The keys and values of INI files: `iniUnescapedKey` and `iniUnescapedStringList`. -/
namespace QtBase.Ini

open View QUtf8 QIPAddressUtils Nat

abbrev QString := List UInt16

/-! ## Keys -/

section Key

-- `QChar::isUpper`, and `QStringView::toUShort` to base 16, which fails with `none`
variable (simd : Simd AsciiByte) (isUpper : UInt16 → Bool) (toUShort : QString → Option UInt16)

/-- The loop of `iniUnescapedKey`, at `i`. -/
def unescapeKey (decoded : QString) : ℕ → ℕ → Bool → QString → Exec (Bool × QString)
  | 0, _, _, _ => .error .diverge
  | rounds + 1, i, lowercaseOnly, result =>
    if i < decoded.length then do
      let ch ← elem decoded i
      if ch = 0x5c then unescapeKey decoded rounds (i + 1) lowercaseOnly (result ++ [0x2f])
      else if ch ≠ 0x25 ∨ i = decoded.length - 1 then
        unescapeKey decoded rounds (i + 1) (lowercaseOnly && !isUpper ch) (result ++ [ch])
      else
        let ch ← elem decoded (i + 1)
        let (firstDigitPos, numDigits) := if ch = 0x55 then (i + 2, 4) else (i + 1, 2)
        if firstDigitPos + numDigits > decoded.length then
          unescapeKey decoded rounds (i + 1) lowercaseOnly (result ++ [0x25])
        else
          let digits ← sliced decoded firstDigitPos numDigits
          match toUShort digits with
          | none => unescapeKey decoded rounds (i + 1) lowercaseOnly (result ++ [0x25])
          | some ch =>
            unescapeKey decoded rounds (firstDigitPos + numDigits) (lowercaseOnly && !isUpper ch)
              (result ++ [ch])
    else .ok (lowercaseOnly, result)

def iniUnescapedKey (key : List UInt8) (result : QString) : Exec (Bool × QString) :=
  let decoded := convertToUnicode simd key
  unescapeKey isUpper toUShort decoded (decoded.length + 1) 0 true result

variable {isUpper toUShort}

theorem unescapeKey_ok {decoded : QString} {rounds i : ℕ} (h : decoded.length < i + rounds)
    (lowercaseOnly : Bool) (result : QString) (hi : i ≤ decoded.length) :
    ∃ r, unescapeKey isUpper toUShort decoded rounds i lowercaseOnly result = .ok r := by
  induction rounds generalizing i lowercaseOnly result with
  | zero => omega
  | succ rounds ih =>
    unfold unescapeKey
    by_cases hlt : i < decoded.length
    · rw [if_pos hlt, elem_of_lt hlt, ok_bind]
      have hnext := fun lowercaseOnly result =>
        ih (i := i + 1) (by omega) lowercaseOnly result hlt
      split
      · exact hnext _ _
      · split
        · exact hnext _ _
        · rename_i hpercent
          have hlt' : i + 1 < decoded.length := by
            have hlast : i ≠ decoded.length - 1 := fun h => hpercent (Or.inr h)
            omega
          rw [elem_of_lt hlt', ok_bind]
          have hfirst : i < (if decoded[i + 1] = 0x55 then (i + 2, 4) else (i + 1, 2)).1 := by
            split <;> exact lt_of_lt_of_le (lt_succ_self i) (by dsimp only; omega)
          generalize (if decoded[i + 1] = 0x55 then (i + 2, 4) else (i + 1, 2)) = digits at hfirst
          obtain ⟨firstDigitPos, numDigits⟩ := digits
          dsimp only at hfirst ⊢
          split
          · exact hnext _ _
          · rename_i hdigits
            rw [sliced_eq (not_lt.1 hdigits), ok_bind]
            split
            · exact hnext _ _
            · exact ih (by omega) _ _ (not_lt.1 hdigits)
    · rw [if_neg hlt]
      exact ⟨_, rfl⟩

theorem iniUnescapedKey_ok (key : List UInt8) (result : QString) :
    ∃ r, iniUnescapedKey simd isUpper toUShort key result = .ok r :=
  unescapeKey_ok (by omega) _ _ (zero_le _)

end Key

/-! ## Values -/

section Value

def isBlank (ch : UInt8) : Bool := ch == 0x20 || ch == 0x09

def escapeCodes : List (UInt8 × UInt16) :=
  [(0x61, 0x07), (0x62, 0x08), (0x66, 0x0c), (0x6e, 0x0a), (0x72, 0x0d), (0x74, 0x09), (0x76, 0x0b),
    (0x22, 0x22), (0x3f, 0x3f), (0x27, 0x27), (0x5c, 0x5c)]

def fromHex (c : UInt8) : Option UInt16 :=
  if 0x30 ≤ c ∧ c ≤ 0x39 then some (c - 0x30).toUInt16
  else if 0x41 ≤ c ∧ c ≤ 0x46 then some (c - 0x41 + 10).toUInt16
  else if 0x61 ≤ c ∧ c ≤ 0x66 then some (c - 0x61 + 10).toUInt16
  else none

def fromOct (c : UInt8) : Option UInt16 :=
  if 0x30 ≤ c ∧ c ≤ 0x37 then some (c - 0x30).toUInt16 else none

/-- The loop of `iniChopTrailingSpaces`, with `n + 1` characters. -/
def chopTrailingSpaces (limit : ℕ) : ℕ → QString → Exec QString
  | 0, str => .ok str
  | n + 1, str =>
    if n ≥ limit then do
      let ch ← elem str n
      if ch = 0x20 ∨ ch = 0x09 then chopTrailingSpaces limit n (str.take n) else .ok str
    else .ok str

def iniChopTrailingSpaces (str : QString) (limit : ℕ) : Exec QString :=
  chopTrailingSpaces limit str.length str

structure Unescaping where
  i : ℕ := 0
  inQuotedString : Bool := false
  currentValueIsQuoted : Bool := false
  isStringList : Bool := false
  chopLimit : ℕ := 0
  stringResult : QString
  stringListResult : List QString
  fromUtf8 : State UInt8 := {}

namespace Unescaping

def put (s : Unescaping) (i : ℕ) (units : QString) : Unescaping :=
  { s with i := i, stringResult := s.stringResult ++ units }

/-- `chopLimit = stringResult.size()` -/
def limit (s : Unescaping) : Unescaping := { s with chopLimit := s.stringResult.length }

/-- What stands after a comma, and at the end: a string of the list. -/
def append (s : Unescaping) : Unescaping :=
  { s with
    isStringList := true
    stringListResult := (if s.isStringList then s.stringListResult else []) ++ [s.stringResult]
    stringResult := []
    currentValueIsQuoted := false }

end Unescaping

/-- Where a round of the `while` loop goes. -/
inductive Jump
  | next (s : Unescaping)
  | StNormal (s : Unescaping)
  | StSkipSpaces (s : Unescaping)
  | finish (s : Unescaping)

variable (simd : Simd AsciiByte) (str : List UInt8)

/-- `StHexEscape` and `StOctEscape`: the digits from `i` on. -/
def escapeDigits (shift : UInt16) (digit : UInt8 → Option UInt16) :
    ℕ → ℕ → UInt16 → Exec (ℕ × UInt16)
  | 0, i, escapeVal => .ok (i, escapeVal)
  | rounds + 1, i, escapeVal =>
    if i < str.length then do
      let ch ← elem str i
      match digit ch with
      | some h => escapeDigits shift digit rounds (i + 1) ((escapeVal <<< shift) + h)
      | none => .ok (i, escapeVal)
    else .ok (i, escapeVal)

def numericEscape (shift : UInt16) (digit : UInt8 → Option UInt16) (s : Unescaping) (i : ℕ)
    (escapeVal : UInt16) : Exec Jump := do
  let (i, escapeVal) ← escapeDigits str shift digit str.length i escapeVal
  if i ≥ str.length then return .finish (s.put i [escapeVal])
  else return .StNormal (s.put i [escapeVal])

/-- `case '\\':`, with `i` after the backslash. -/
def escape (s : Unescaping) (i : ℕ) : Exec Jump := do
  if i ≥ str.length then return .finish { s with i := i }
  let ch ← elem str i
  let i := i + 1
  match escapeCodes.lookup ch with
  | some code => return .StNormal (s.put i [code])
  | none =>
    if ch = 0x78 then
      if i ≥ str.length then return .finish { s with i := i }
      let ch ← elem str i
      if (fromHex ch).isSome then numericEscape str 4 fromHex s i 0
      else return .next (s.put i []).limit
    else match fromOct ch with
      | some o => numericEscape str 3 fromOct s i o
      | none =>
        if (ch = 0x0a ∨ ch = 0x0d) ∧ i < str.length then
          let ch2 ← elem str i
          if (ch2 = 0x0a ∨ ch2 = 0x0d) ∧ ch2 ≠ ch then return .next (s.put (i + 1) []).limit
          else return .next (s.put i []).limit
        else return .next (s.put i []).limit

/-- `default:` -/
def plainText (s : Unescaping) : Exec Jump := do
  let j ← scan str (fun ch => !(ch == 0x5c || ch == 0x22 || ch == 0x2c)) str.length (s.i + 1)
  let text ← first str j
  let text ← slicedFrom text s.i
  let (units, state) := convertToUnicodeState simd text s.fromUtf8
  return .next { s.put j units with fromUtf8 := state }

def unescapeRound (s : Unescaping) : Exec Jump := do
  let ch ← elem str s.i
  if ch = 0x5c then escape str s (s.i + 1)
  else if ch = 0x22 then
    let s := { s with
      i := s.i + 1
      currentValueIsQuoted := true
      inQuotedString := !s.inQuotedString }
    if s.inQuotedString then return .next s else return .StSkipSpaces s
  else if ch = 0x2c ∧ s.inQuotedString = false then
    let stringResult ← if s.currentValueIsQuoted then pure s.stringResult
      else iniChopTrailingSpaces s.stringResult s.chopLimit
    return .StSkipSpaces { { s with stringResult := stringResult }.append with i := s.i + 1 }
  else plainText simd str s

def skipSpaces (s : Unescaping) : Exec Unescaping := do
  let i ← scan str isBlank str.length s.i
  return { s with i := i }.limit

def unescapeLoop : ℕ → Unescaping → Exec Unescaping
  | 0, _ => .error .diverge
  | rounds + 1, s =>
    if s.i < str.length then do
      match ← unescapeRound simd str s with
      | .next s => unescapeLoop rounds s
      | .StNormal s => unescapeLoop rounds s.limit
      | .StSkipSpaces s => do unescapeLoop rounds (← skipSpaces str s)
      | .finish s => .ok s
    else if s.currentValueIsQuoted then .ok s
    else do
      let stringResult ← iniChopTrailingSpaces s.stringResult s.chopLimit
      return { s with stringResult := stringResult }

/-- The result, and what is left in `stringResult` and `stringListResult`. -/
def iniUnescapedStringList (stringResult : QString) (stringListResult : List QString) :
    Exec (Bool × QString × List QString) := do
  let s ← skipSpaces str { stringResult := stringResult, stringListResult := stringListResult }
  let s ← unescapeLoop simd str (str.length + 1) s
  let stringListResult :=
    if s.isStringList then s.stringListResult ++ [s.stringResult] else s.stringListResult
  return (s.isStringList, s.stringResult, stringListResult)

/-! ## Values are total -/

variable {simd str}

theorem iniChopTrailingSpaces_ok (s : QString) (limit : ℕ) :
    ∃ r, iniChopTrailingSpaces s limit = .ok r := by
  unfold iniChopTrailingSpaces
  generalize hn : s.length = n
  induction n generalizing s with
  | zero => exact ⟨_, rfl⟩
  | succ n ih =>
    unfold chopTrailingSpaces
    split
    · rw [elem_of_lt (by omega), ok_bind]
      split
      · exact ih _ (List.length_take_of_le (by omega))
      · exact ⟨_, rfl⟩
    · exact ⟨_, rfl⟩

theorem escapeDigits_ok {shift : UInt16} {digit : UInt8 → Option UInt16} {rounds i : ℕ}
    (h : i ≤ str.length) (escapeVal : UInt16) :
    ∃ j v, escapeDigits str shift digit rounds i escapeVal = .ok (j, v) ∧ i ≤ j ∧
      j ≤ str.length := by
  induction rounds generalizing i escapeVal with
  | zero => exact ⟨i, escapeVal, rfl, le_refl i, h⟩
  | succ rounds ih =>
    unfold escapeDigits
    by_cases hlt : i < str.length
    · rw [if_pos hlt, elem_of_lt hlt, ok_bind]
      split
      · obtain ⟨j, v, hj, hij, hle⟩ := ih (i := i + 1) hlt _
        exact ⟨j, v, hj, by omega, hle⟩
      · exact ⟨i, escapeVal, rfl, le_refl i, h⟩
    · rw [if_neg hlt]
      exact ⟨i, escapeVal, rfl, le_refl i, h⟩

/-- A round goes forward in the text, or ends the loop. -/
def Advances (str : List UInt8) (i : ℕ) : Jump → Prop
  | .next s => i < s.i ∧ s.i ≤ str.length
  | .StNormal s => i < s.i ∧ s.i ≤ str.length
  | .StSkipSpaces s => i < s.i ∧ s.i ≤ str.length
  | .finish _ => True

theorem numericEscape_ok {shift : UInt16} {digit : UInt8 → Option UInt16} (s : Unescaping)
    {i i' : ℕ} (hi : i < i') (h : i' ≤ str.length) (escapeVal : UInt16) :
    ∃ r, numericEscape str shift digit s i' escapeVal = .ok r ∧ Advances str i r := by
  obtain ⟨j, v, hj, hij, hle⟩ :=
    escapeDigits_ok h escapeVal
  unfold numericEscape
  rw [hj, ok_bind]
  dsimp only
  split
  · exact ⟨_, rfl, trivial⟩
  · exact ⟨_, rfl, lt_of_lt_of_le hi hij, hle⟩

theorem escape_ok (s : Unescaping) (i : ℕ) :
    ∃ r, escape str s (i + 1) = .ok r ∧ Advances str i r := by
  unfold escape
  by_cases hend : i + 1 ≥ str.length
  · rw [if_pos hend]
    exact ⟨_, rfl, trivial⟩
  rw [if_neg hend, elem_of_lt (not_le.1 hend), ok_bind]
  dsimp only
  have hnext : i < i + 1 + 1 ∧ i + 1 + 1 ≤ str.length := by omega
  split
  · exact ⟨_, rfl, hnext⟩
  · split
    · by_cases hend' : i + 1 + 1 ≥ str.length
      · rw [if_pos hend']
        exact ⟨_, rfl, trivial⟩
      · rw [if_neg hend', elem_of_lt (not_le.1 hend'), ok_bind]
        split
        · exact numericEscape_ok s hnext.1 hnext.2 _
        · exact ⟨_, rfl, hnext⟩
    · split
      · exact numericEscape_ok s hnext.1 hnext.2 _
      · split
        · rename_i hnewline
          rw [elem_of_lt hnewline.2, ok_bind]
          split
          · exact ⟨_, rfl, by change i < i + 1 + 1 + 1; omega, hnewline.2⟩
          · exact ⟨_, rfl, hnext⟩
        · exact ⟨_, rfl, hnext⟩

variable {s : Unescaping}

theorem plainText_ok (simd : Simd AsciiByte) (h : s.i < str.length) :
    ∃ r, plainText simd str s = .ok r ∧ Advances str s.i r := by
  obtain ⟨j, hscan, hij, hj, -⟩ := scan_spec
    (fun ch => !(ch == 0x5c || ch == 0x22 || ch == 0x2c)) (i := s.i + 1) h
  unfold plainText
  rw [hscan, ok_bind, first_eq hj, ok_bind,
    slicedFrom_eq (by rw [List.length_take_of_le hj]; omega), ok_bind]
  exact ⟨_, rfl, hij, hj⟩

theorem unescapeRound_ok (simd : Simd AsciiByte) (h : s.i < str.length) :
    ∃ r, unescapeRound simd str s = .ok r ∧ Advances str s.i r := by
  unfold unescapeRound
  rw [elem_of_lt h, ok_bind]
  have hnext : s.i < s.i + 1 ∧ s.i + 1 ≤ str.length := ⟨lt_succ_self _, h⟩
  split
  · exact escape_ok s s.i
  · split
    · dsimp only
      split
      · exact ⟨_, rfl, hnext⟩
      · exact ⟨_, rfl, hnext⟩
    · split
      · split
        · exact ⟨_, rfl, hnext⟩
        · obtain ⟨r, hr⟩ := iniChopTrailingSpaces_ok s.stringResult s.chopLimit
          rw [hr, ok_bind]
          exact ⟨_, rfl, hnext⟩
      · exact plainText_ok simd h

theorem skipSpaces_ok (h : s.i ≤ str.length) :
    ∃ s', skipSpaces str s = .ok s' ∧ s.i ≤ s'.i ∧ s'.i ≤ str.length := by
  obtain ⟨j, hscan, hij, hj, -⟩ := scan_spec isBlank h
  unfold skipSpaces
  rw [hscan, ok_bind]
  exact ⟨_, rfl, hij, hj⟩

theorem unescapeLoop_ok (simd : Simd AsciiByte) {rounds : ℕ} (h : str.length < s.i + rounds)
    (hi : s.i ≤ str.length) :
    ∃ s', unescapeLoop simd str rounds s = .ok s' := by
  induction rounds generalizing s with
  | zero => omega
  | succ rounds ih =>
    unfold unescapeLoop
    by_cases hlt : s.i < str.length
    · obtain ⟨r, hr, hadvances⟩ := unescapeRound_ok simd hlt
      rw [if_pos hlt, hr, ok_bind]
      cases r with
      | next s' => exact ih (by have := hadvances.1; omega) hadvances.2
      | StNormal s' =>
        exact ih (s := s'.limit) (by have := hadvances.1; change _ < s'.i + _; omega) hadvances.2
      | StSkipSpaces s' =>
        obtain ⟨s₁, hs₁, hle, hle'⟩ := skipSpaces_ok hadvances.2
        have hlt' := hadvances.1
        dsimp only
        rw [hs₁, ok_bind]
        exact ih (by omega) hle'
      | finish s' => exact ⟨s', rfl⟩
    · rw [if_neg hlt]
      split
      · exact ⟨s, rfl⟩
      · obtain ⟨r, hr⟩ := iniChopTrailingSpaces_ok s.stringResult s.chopLimit
        rw [hr, ok_bind]
        exact ⟨_, rfl⟩

theorem iniUnescapedStringList_ok (simd : Simd AsciiByte) (str : List UInt8)
    (stringResult : QString) (stringListResult : List QString) :
    ∃ r, iniUnescapedStringList simd str stringResult stringListResult = .ok r := by
  have hzero : 0 ≤ str.length := zero_le _
  obtain ⟨s, hs, hle, hle'⟩ := skipSpaces_ok
    (s := { stringResult := stringResult, stringListResult := stringListResult }) hzero
  have hrounds : str.length < s.i + (str.length + 1) := by omega
  obtain ⟨s', hs'⟩ := unescapeLoop_ok simd hrounds hle'
  unfold iniUnescapedStringList
  rw [hs, ok_bind, hs', ok_bind]
  exact ⟨_, rfl⟩

end Value

end QtBase.Ini
