import QtBase.Time.MonthStarts
import QtBase.Time.PosixTime

/-! Dates of a POSIX rule: what `calculatePosixDate` returns, and when it does not return. -/
namespace QtBase.Time

open QGregorianCalendar LocaleTools QIPAddressUtils List

namespace QDate

def addDays (date : QDate) (ndays : ℤ) : QDate :=
  if date.isNull then null
  else if ¬ FitsQint64 (date.jd + ndays) then null
  else fromJulianDay (date.jd + ndays)

def dayOfYear (date : QDate) : ℤ :=
  if date.isValid then
    match julianFromParts date.year 1 1 with
    | some first => date.jd - first + 1
    | none => 0
  else 0

/-- The number of the week, and `*yearNumber` after the call. -/
def weekNumber (date : QDate) (yearNumber : ℤ) : ℤ × ℤ :=
  if !date.isValid then (0, yearNumber)
  else
    let thursday := date.addDays (4 - date.dayOfWeek)
    ((thursday.dayOfYear + 6).tdiv 7, thursday.year)

end QDate

/-! ## The functions -/

/-- The last loop of `calculateDowDate`, for a number of rounds; it need not come to an end. -/
def weeksBack (month : ℤ) : ℕ → QDate → Exec QDate
  | 0, _ => .error .diverge
  | rounds + 1, date =>
    if date.month ≠ month then weeksBack month rounds (date.addDays (-7)) else .ok date

def calculateDowDate (rounds : ℕ) (year month dayOfWeek week : ℤ) : Exec QDate := do
  -- dayOfWeek & ~7
  if dayOfWeek ≠ 0 ∧ (dayOfWeek / 8 ≠ 0 ∨ month < 1 ∨ month > 12 ∨ week < 1 ∨ week > 5) then
    return QDate.null
  let dayOfWeek := if dayOfWeek = 0 then 7 else dayOfWeek
  let date := QDate.ofParts year month 1
  let startDow := date.dayOfWeek
  let date :=
    if startDow ≤ dayOfWeek then date.addDays (dayOfWeek - startDow - 7)
    else date.addDays (dayOfWeek - startDow)
  let days ← checkedInt (week * 7)
  weeksBack month rounds (date.addDays days)

def calculatePosixDate (rounds : ℕ) (dateRule : List UInt8) (year : ℤ) : Exec QDate :=
  match dateRule.head? with
  | none => .error .undefined
  | some c =>
    if c = 0x4d then
      match dateRule.splitOn 0x2e with
      | part :: part' :: part'' :: _ =>
        match toInt (part.drop 1), toInt part', toInt part'' with
        | some month, some week, some dow => calculateDowDate rounds year month dow week
        | _, _, _ => .ok QDate.null
      | _ => .ok QDate.null
    else if c = 0x4a then
      match toInt (dateRule.drop 1) with
      | some doy =>
        if doy > 0 ∧ doy < 366 then
          let doy := if ¬ leapTest year ∨ doy < 60 then doy - 1 else doy
          .ok ((QDate.ofParts year 1 1).addDays doy)
        else .ok QDate.null
      | none => .ok QDate.null
    else
      match toInt dateRule with
      | some doy =>
        if doy ≥ 0 ∧ doy < 366 then .ok ((QDate.ofParts year 1 1).addDays doy)
        else .ok QDate.null
      | none => .ok QDate.null

/-! ## Rules -/

/-- What the text of a rule says: a week-day of a month, or a day of the year without or with
February 29th. -/
inductive PosixDate
  | weekday (month week dow : ℤ)
  | julian (doy : ℤ)
  | day (doy : ℤ)

/-- The numbers that the code reads in a rule. -/
def readDate (dateRule : List UInt8) : Option PosixDate :=
  if dateRule.head? = some 0x4d then
    match dateRule.splitOn 0x2e with
    | part :: part' :: part'' :: _ =>
      match toInt (part.drop 1), toInt part', toInt part'' with
      | some month, some week, some dow => some (.weekday month week dow)
      | _, _, _ => none
    | _ => none
  else if dateRule.head? = some 0x4a then (toInt (dateRule.drop 1)).map .julian
  else (toInt dateRule).map .day

/-- The well-formed rules. -/
inductive DateText : List UInt8 → PosixDate → Prop
  | weekday {f f' f'' m w d} : Digits f m → Digits f' w → Digits f'' d → 1 ≤ m → m ≤ 12 → 1 ≤ w →
      w ≤ 5 → d ≤ 6 → DateText (0x4d :: (f ++ 0x2e :: (f' ++ 0x2e :: f''))) (.weekday m w d)
  | julian {f n} : Digits f n → 1 ≤ n → n ≤ 365 → DateText (0x4a :: f) (.julian n)
  | day {f n} : Digits f n → n ≤ 365 → DateText f (.day n)

namespace PosixDate

/-- The day number that a rule names in a year. -/
def Names (year jd : ℤ) : PosixDate → Prop
  | weekday month week dow =>
    let parts := partsFromJulian jd
    parts.year = year ∧ parts.month = month ∧
      weekDayOfJulian jd = (if dow = 0 then 7 else dow) ∧
      if week = 5 then monthLength month year < parts.day + 7
      else 7 * (week - 1) < parts.day ∧ parts.day ≤ 7 * week
  | julian doy =>
    let parts := partsFromJulian jd
    parts.year = year ∧ ¬ (parts.month = 2 ∧ parts.day = 29) ∧
      daysBefore parts.month + parts.day = doy
  | day doy => ∃ first, julianFromParts year 1 1 = some first ∧ jd = first + doy

/-- The code stays between the first and the last day of `QDate`. -/
def InReach (year : ℤ) : PosixDate → Prop
  | weekday month week dow => ¬ (year = -2147483648 ∧ month = 1) ∧
      ¬ (year = 2147483647 ∧ month = 12 ∧ week = 5 ∧ 2 < dow)
  | julian _ => True
  | day doy => ¬ (year = 2147483647 ∧ doy = 365)

/-- The numbers for which the code returns no date. For a Sunday it does not check the month and the
week. -/
def Refused (year : ℤ) : PosixDate → Prop
  | weekday month week dow =>
    (dow ≠ 0 ∧ (dow < 0 ∨ dow > 7 ∨ month < 1 ∨ month > 12 ∨ week < 1 ∨ week > 5)) ∨
      (dow = 0 ∧ month = 0 ∧ FitsInt (week * 7))
  | julian doy => ¬ (0 < doy ∧ doy < 366)
  | day doy => ¬ (0 ≤ doy ∧ doy < 366) ∨ (year = 2147483647 ∧ doy = 365)

/-- `calculatePosixDate` on the numbers of a rule. -/
def dateOf (rounds : ℕ) (year : ℤ) : PosixDate → Exec QDate
  | weekday month week dow => calculateDowDate rounds year month dow week
  | julian doy =>
    if doy > 0 ∧ doy < 366 then
      .ok ((QDate.ofParts year 1 1).addDays
        (if ¬ leapTest year ∨ doy < 60 then doy - 1 else doy))
    else .ok QDate.null
  | day doy =>
    if doy ≥ 0 ∧ doy < 366 then .ok ((QDate.ofParts year 1 1).addDays doy) else .ok QDate.null

end PosixDate

/-! ## The text of a rule -/

theorem calculatePosixDate_eq {dateRule : List UInt8} (h : dateRule ≠ []) (rounds : ℕ) (year : ℤ) :
    calculatePosixDate rounds dateRule year =
      match readDate dateRule with
      | none => .ok QDate.null
      | some r => r.dateOf rounds year := by
  obtain ⟨c, cs, rfl⟩ := exists_cons_of_ne_nil h
  unfold calculatePosixDate readDate
  rw [head?_cons]
  dsimp only
  by_cases hM : c = 0x4d
  · have hM' : some c = some 0x4d := congrArg some hM
    simp only [if_pos hM, if_pos hM']
    generalize (c :: cs).splitOn 0x2e = parts
    match parts with
    | [] | [_] | [_, _] => rfl
    | part :: part' :: part'' :: _ =>
      dsimp only
      cases toInt (part.drop 1) <;> cases toInt part' <;> cases toInt part'' <;> rfl
  · have hM' : ¬ some c = some (0x4d : UInt8) := fun h => hM (Option.some.inj h)
    simp only [if_neg hM, if_neg hM']
    by_cases hJ : c = 0x4a
    · have hJ' : some c = some 0x4a := congrArg some hJ
      simp only [if_pos hJ, if_pos hJ']
      cases toInt ((c :: cs).drop 1) <;> rfl
    · have hJ' : ¬ some c = some (0x4a : UInt8) := fun h => hJ (Option.some.inj h)
      simp only [if_neg hJ, if_neg hJ']
      cases toInt (c :: cs) <;> rfl

theorem toInt_digits {f : List UInt8} {v : ℤ} (h : Digits f v) (hv : v ≤ 365) :
    toInt f = some v := by
  obtain ⟨hne, hdigit, rfl⟩ := h
  have hnone : ∀ c ∈ ([] : List UInt8).head?, isAsciiDigit c = false := fun c hc => by cases hc
  have hread := Numeral.qstrntoll_text
    ⟨[], [], f, fun c hc => absurd hc not_mem_nil, .inl rfl, hdigit, hne⟩ hnone (by
      show ofDigits 10 (f.map digitValue) < 2 ^ 63
      omega)
  have hpos : f.length ≠ 0 := fun h => hne (eq_nil_of_length_eq_zero h)
  change qstrntoll (f ++ []) 10 = (((ofDigits 10 (f.map digitValue) : ℕ) : ℤ), f.length) at hread
  rw [append_nil] at hread
  have hparsed : checkParsed f f.length = true := by
    unfold checkParsed
    simp [hpos]
  have hlong : bytearrayToLongLong f 10 = some ((ofDigits 10 (f.map digitValue) : ℕ) : ℤ) := by
    unfold bytearrayToLongLong
    rw [hread]
    exact if_pos hparsed
  unfold toInt
  rw [if_neg hne, hlong]
  exact if_pos ⟨by omega, by omega⟩

theorem Digits.not_mem {f : List UInt8} {v : ℤ} (h : Digits f v) {c : UInt8}
    (hc : isAsciiDigit c = false) : c ∉ f := fun hmem => by
  rw [h.2.1 c hmem] at hc
  cases hc

theorem DateText.readDate_eq {dateRule : List UInt8} {r : PosixDate} (h : DateText dateRule r) :
    readDate dateRule = some r := by
  cases h with
  | @weekday f f' f'' m w d hf hf' hf'' hm hm' hw hw' hd =>
    have hM : (0x2e : UInt8) ∉ 0x4d :: f := by
      rw [mem_cons, not_or]
      exact ⟨by decide, hf.not_mem rfl⟩
    have hsplit : (0x4d :: (f ++ 0x2e :: (f' ++ 0x2e :: f''))).splitOn 0x2e =
        [0x4d :: f, f', f''] := by
      have h1 := splitOn_append_cons_self_of_not_mem hM (f' ++ 0x2e :: f'')
      have h2 := splitOn_append_cons_self_of_not_mem (hf'.not_mem (c := 0x2e) rfl) f''
      have h3 := splitOn_eq_singleton (hf''.not_mem (c := 0x2e) rfl)
      rw [h2, h3] at h1
      exact h1
    unfold readDate
    rw [head?_cons, if_pos rfl, hsplit]
    dsimp only
    rw [drop_succ_cons, drop_zero, toInt_digits hf (by omega),
      toInt_digits hf' (by omega), toInt_digits hf'' (by omega)]
  | @julian f n hf hn hn' =>
    unfold readDate
    rw [head?_cons, if_neg (by decide), if_pos rfl, drop_succ_cons, drop_zero,
      toInt_digits hf hn']
    rfl
  | day hf hn =>
    obtain ⟨c, cs, rfl⟩ := exists_cons_of_ne_nil hf.1
    have hc := hf.2.1 c mem_cons_self
    unfold readDate
    rw [head?_cons, if_neg, if_neg, toInt_digits hf hn]
    · rfl
    · intro h
      rw [Option.some.inj h] at hc
      cases hc
    · intro h
      rw [Option.some.inj h] at hc
      cases hc

end QtBase.Time
