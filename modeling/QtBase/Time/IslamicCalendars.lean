import QtBase.Time.Calendar
import Mathlib.Data.Rat.Floor
import Mathlib.Tactic.IntervalCases

/-! The Islamic civil and Jalali calendars count days exactly. -/
namespace QtBase.Time

open QtBase.Lib QRoundingDown

/-! ## Islamic civil -/

namespace QHijriCalendar

def daysInMonth (isLeapYear : ℤ → Bool) (month year : ℤ) : ℤ :=
  if year = 0 ∨ month < 1 ∨ month > 12 then 0
  else if month = 12 ∧ isLeapYear year then 30
  else if month.tmod 2 = 0 then 29 else 30

def daysInYear (isLeapYear : ℤ → Bool) (year : ℤ) : ℤ :=
  if monthsInYear year ≠ 0 then if isLeapYear year then 355 else 354 else 0

end QHijriCalendar

namespace QIslamicCivilCalendar

def isLeapYear (year : ℤ) : Bool :=
  if year = Unspecified then false
  else
    let year := if year < 0 then year + 1 else year
    decide (qMod 30 (year * 11 + 14) < 11)

def EpochJd : ℤ := 1948440

def ThirtyYears : ℤ := 11 * 355 + 19 * 354

def ElevenMonths : ℤ := 6 * 30 + 5 * 29

def dateToJulianDay (year month day : ℤ) : Option ℤ :=
  if isDateValid (QHijriCalendar.daysInMonth isLeapYear) year month day then
    some (qDiv 30 (ThirtyYears * (if year > 0 then year - 1 else year) + 14) +
      qDiv 11 (ElevenMonths * (month - 1) + 5) + day + EpochJd - 1)
  else none

def julianDayToDate (jd : ℤ) : YearMonthDay :=
  let year30Day := qDivMod ThirtyYears (30 * (jd - EpochJd) + 15)
  let month11Day := qDivMod ElevenMonths (11 * qDiv 30 year30Day.remainder + 5)
  let month := month11Day.quotient + 1
  let day := qDiv 11 month11Day.remainder + 1
  let y := year30Day.quotient + 1
  { year := if y > 0 then y else y - 1, month := month, day := day }

def backend : QCalendarBackend where
  isLeapYear := isLeapYear
  daysInMonth := QHijriCalendar.daysInMonth isLeapYear
  daysInYear := QHijriCalendar.daysInYear isLeapYear
  dateToJulianDay := dateToJulianDay
  julianDayToDate := julianDayToDate

theorem isLeapYear_eq (year : ℤ) :
    isLeapYear year = decide ((yearIndex year * 11 + 14) % 30 < 11) := by
  unfold isLeapYear
  by_cases hun : year = Unspecified
  · subst hun
    decide
  · rw [if_neg hun]
    simp only [qMod_eq (show (0 : ℤ) < 30 by decide)]
    rfl

/-- The first day of a month. -/
def monthStart (k : ℤ) : ℤ :=
  floorSeq 10631 30 14 (k / 12 - 1) + floorSeq 325 11 5 (k % 12) + EpochJd

theorem year_length (n : ℤ) : floorSeq 10631 30 14 n =
    floorSeq 10631 30 14 (n - 1) + if (n * 11 + 14) % 30 < 11 then 355 else 354 := by
  have hstart : ∀ n, floorSeq 10631 30 14 n = 354 * n + (n * 11 + 14) / 30 := by
    intro n
    unfold floorSeq
    omega
  rw [hstart, hstart]
  split <;> omega

theorem monthStart_succ {year month : ℤ} (hne : year ≠ 0) (hm : 1 ≤ month) (hm' : month ≤ 12) :
    monthStart (monthIndex year month + 1) = monthStart (monthIndex year month) +
      QHijriCalendar.daysInMonth isLeapYear month year := by
  have hlast := year_length (yearIndex year)
  unfold QHijriCalendar.daysInMonth monthStart monthIndex
  rw [if_neg (by omega), isLeapYear_eq, Int.tmod_eq_emod_of_nonneg (by omega)]
  generalize yearIndex year = n at *
  have hdiv : (12 * n + (month - 1)) / 12 = n := by omega
  have hmod : (12 * n + (month - 1)) % 12 = month - 1 := by omega
  rw [hdiv, hmod]
  by_cases h12 : month = 12
  · subst h12
    have hdiv' : (12 * n + (12 - 1) + 1) / 12 = n + 1 := by omega
    have hmod' : (12 * n + (12 - 1) + 1) % 12 = 0 := by omega
    have hzero : floorSeq 325 11 5 0 = 0 := by decide
    have heleven : floorSeq 325 11 5 (12 - 1) = 325 := by decide
    rw [hdiv', hmod', hzero, heleven, Int.add_sub_cancel, hlast]
    simp only [decide_eq_true_eq, true_and]
    split <;> omega
  · have hdiv' : (12 * n + (month - 1) + 1) / 12 = n := by omega
    have hmod' : (12 * n + (month - 1) + 1) % 12 = month := by omega
    have hlen : floorSeq 325 11 5 month =
        floorSeq 325 11 5 (month - 1) + if month % 2 = 0 then 29 else 30 := by
      interval_cases month <;> first | contradiction | decide
    rw [hdiv', hmod', if_neg (fun h => h12 h.1), hlen]
    omega

theorem monthStart_next_year {year : ℤ} (hne : year ≠ 0) :
    monthStart (monthIndex year 12 + 1) =
      monthStart (monthIndex year 1) + QHijriCalendar.daysInYear isLeapYear year := by
  have hlast := year_length (yearIndex year)
  unfold QHijriCalendar.daysInYear monthsInYear monthStart monthIndex
  rw [isLeapYear_eq]
  generalize yearIndex year = n at *
  have hdiv : (12 * n + (12 - 1) + 1) / 12 = n + 1 := by omega
  have hdiv' : (12 * n + (1 - 1)) / 12 = n := by omega
  have hmod : (12 * n + (12 - 1) + 1) % 12 = (12 * n + (1 - 1)) % 12 := by omega
  rw [hdiv, hdiv', hmod, Int.add_sub_cancel, hlast, if_pos (show year > 0 ∨ year < 0 by omega),
    if_pos (show (12 : ℤ) ≠ 0 by decide)]
  simp
  omega

theorem julianDayToDate_eq (jd : ℤ) : ∃ n m, 0 ≤ m ∧ m < 12 ∧
    floorSeq 10631 30 14 n + floorSeq 325 11 5 m + EpochJd ≤ jd ∧
    jd < floorSeq 10631 30 14 n + floorSeq 325 11 5 (m + 1) + EpochJd ∧
    jd < floorSeq 10631 30 14 (n + 1) + EpochJd ∧ julianDayToDate jd =
      { year := yearOfIndex (n + 1), month := m + 1
        day := jd - (floorSeq 10631 30 14 n + floorSeq 325 11 5 m + EpochJd) + 1 } := by
  have hle := floorSeq_floorInv_le (c := 14) (show (0 : ℤ) < 10631 by decide)
    (show (0 : ℤ) < 30 by decide) (jd - EpochJd)
  have hlt := lt_floorSeq_floorInv_add_one (c := 14) (show (0 : ℤ) < 10631 by decide)
    (show (0 : ℤ) < 30 by decide) (jd - EpochJd)
  have hrem := sub_floorSeq_floorInv (a := 10631) (c := 14) (show (0 : ℤ) < 30 by decide)
    (jd - EpochJd)
  have hcode : qDivMod ThirtyYears (30 * (jd - EpochJd) + 15) =
      { quotient := floorInv 10631 30 14 (jd - EpochJd)
        remainder := (30 * (jd - EpochJd) + (30 - 1 - 14)) % 10631 } := by
    rw [qDivMod_eq (by decide)]
    rfl
  unfold julianDayToDate
  simp only [hcode, qDiv_eq (show (0 : ℤ) < 30 by decide), ← hrem]
  generalize floorInv 10631 30 14 (jd - EpochJd) = n at *
  obtain ⟨k, hk⟩ : ∃ k, k = jd - EpochJd - floorSeq 10631 30 14 n := ⟨_, rfl⟩
  have hle' := floorSeq_floorInv_le (c := 5) (show (0 : ℤ) < 325 by decide)
    (show (0 : ℤ) < 11 by decide) k
  have hlt' := lt_floorSeq_floorInv_add_one (c := 5) (show (0 : ℤ) < 325 by decide)
    (show (0 : ℤ) < 11 by decide) k
  have hrem' := sub_floorSeq_floorInv (a := 325) (c := 5) (show (0 : ℤ) < 11 by decide) k
  have hcode' : qDivMod ElevenMonths (11 * k + 5) =
      { quotient := floorInv 325 11 5 k, remainder := (11 * k + (11 - 1 - 5)) % 325 } := by
    rw [qDivMod_eq (by decide)]
    rfl
  have hlen := year_length (n + 1)
  rw [Int.add_sub_cancel] at hlen
  have hm : 0 ≤ floorInv 325 11 5 k ∧ floorInv 325 11 5 k < 12 := by
    unfold floorInv
    split at hlen <;> omega
  rw [← hk, hcode']
  simp only [qDiv_eq (show (0 : ℤ) < 11 by decide), ← hrem']
  generalize floorInv 325 11 5 k = m at *
  refine ⟨n, m, hm.1, hm.2, by omega, by omega, by omega, ?_⟩
  rw [YearMonthDay.mk.injEq]
  refine ⟨rfl, rfl, ?_⟩
  omega

theorem monthTiling : MonthTiling backend monthStart := by
  constructor
  · intro year month hne hm hm'
    show 0 < QHijriCalendar.daysInMonth isLeapYear month year
    unfold QHijriCalendar.daysInMonth
    rw [if_neg (by omega)]
    split
    · decide
    · split <;> decide
  · intro year month h
    change 0 < QHijriCalendar.daysInMonth isLeapYear month year at h
    unfold QHijriCalendar.daysInMonth at h
    split at h <;> omega
  · intro year month hne hm hm'
    exact monthStart_succ hne hm hm'
  · intro year hne
    exact monthStart_next_year hne
  · intro year month day hne hd hd'
    have hvalid : isDateValid (QHijriCalendar.daysInMonth isLeapYear) year month day = true :=
      decide_eq_true ⟨hd, hd'⟩
    have hm : 1 ≤ month ∧ month ≤ 12 := by
      change day ≤ QHijriCalendar.daysInMonth isLeapYear month year at hd'
      unfold QHijriCalendar.daysInMonth at hd'
      split at hd' <;> omega
    have hyear : (if year > 0 then year - 1 else year) = yearIndex year - 1 := by
      unfold yearIndex
      split <;> split <;> omega
    have hdiv : (12 * yearIndex year + (month - 1)) / 12 = yearIndex year := by omega
    have hmod : (12 * yearIndex year + (month - 1)) % 12 = month - 1 := by omega
    show dateToJulianDay year month day = _
    unfold dateToJulianDay
    rw [if_pos hvalid, hyear, qDiv_eq (by decide), qDiv_eq (by decide), Option.some.injEq,
      monthStart, monthIndex, hdiv, hmod]
    show floorSeq 10631 30 14 (yearIndex year - 1) + floorSeq 325 11 5 (month - 1) + day + EpochJd -
      1 = _
    omega
  all_goals
    intro jd
    obtain ⟨n, m, hm, hm', hle, hlt, hlast, hdate⟩ := julianDayToDate_eq jd
    show _
    change QCalendarBackend.julianDayToDate backend jd = _ at hdate
    rw [hdate]
  · exact yearOfIndex_ne_zero _
  · show 1 ≤ m + 1
    omega
  · show m + 1 ≤ 12
    omega
  · show 1 ≤ jd - (floorSeq 10631 30 14 n + floorSeq 325 11 5 m + EpochJd) + 1
    omega
  all_goals
    rw [monthIndex, yearIndex_yearOfIndex, monthStart]
    dsimp only
  · have hdiv : (12 * (n + 1) + (m + 1 - 1)) / 12 = n + 1 := by omega
    have hmod : (12 * (n + 1) + (m + 1 - 1)) % 12 = m := by omega
    rw [hdiv, hmod, Int.add_sub_cancel]
    omega
  · by_cases h11 : m = 11
    · subst h11
      have hdiv : (12 * (n + 1) + (11 + 1 - 1) + 1) / 12 = n + 2 := by omega
      have hmod : (12 * (n + 1) + (11 + 1 - 1) + 1) % 12 = 0 := by omega
      have hzero : floorSeq 325 11 5 0 = 0 := by decide
      rw [hdiv, hmod, hzero, show n + 2 - 1 = n + 1 by omega]
      omega
    · have hdiv : (12 * (n + 1) + (m + 1 - 1) + 1) / 12 = n + 1 := by omega
      have hmod : (12 * (n + 1) + (m + 1 - 1) + 1) % 12 = m + 1 := by omega
      rw [hdiv, hmod, Int.add_sub_cancel]
      omega

end QIslamicCivilCalendar

/-! ## Jalali -/

namespace QJalaliCalendar

def cycleDays : ℤ := 1029983

def cycleYears : ℤ := 2820

/-- 365 + 683 / 2820 -/
def yearLength : ℚ := 1029983 / 2820

def jalaliEpoch : ℤ := 2121446

def cycle (jdn : ℤ) : ℤ := qDiv cycleDays (jdn - jalaliEpoch)

def cycleStart (cycleNo : ℤ) : ℤ := jalaliEpoch + cycleNo * cycleDays

def firstDayOfYear (year cycleNo : ℤ) : ℤ :=
  let firstDOYinEra := ⌊(year : ℚ) * yearLength⌋
  jalaliEpoch + cycleNo * cycleDays + firstDOYinEra

def isLeapYear (year : ℤ) : Bool :=
  if year = Unspecified then false
  else
    let year := if year < 0 then year + 1 else year
    decide (qMod 2820 ((year + 2346) * 683) < 683)

def daysInMonth (month year : ℤ) : ℤ :=
  if year ≠ 0 ∧ month > 0 ∧ month ≤ 12 then
    if month < 7 then 31 else if month < 12 ∨ isLeapYear year then 30 else 29
  else 0

def dateToJulianDay (year month day : ℤ) : Option ℤ :=
  if isDateValid daysInMonth year month day then
    let y := year - if year < 0 then 474 else 475
    let c := qDiv cycleYears y
    let yearInCycle := y - c * cycleYears
    let dayInYear := (List.range (month - 1).toNat).foldl
      (fun (dayInYear : ℤ) (i : ℕ) => dayInYear + daysInMonth (i + 1) year) day
    some (firstDayOfYear yearInCycle c + dayInYear - 1)
  else none

/-- The loop over the months, with the number of months that may still be skipped. -/
def findMonth (year : ℤ) : ℕ → ℤ → ℤ → ℤ × ℤ
  | 0, month, day => (month, day)
  | more + 1, month, day =>
    let last := daysInMonth month year
    if day ≤ last then (month, day) else findMonth year more (month + 1) (day - last)

def julianDayToDate (jd : ℤ) : YearMonthDay :=
  let c := cycle jd
  let yearInCycle := ⌊((jd - cycleStart c : ℤ) : ℚ) / yearLength⌋
  let year := yearInCycle + 475 + c * cycleYears
  let day := jd - firstDayOfYear yearInCycle c + 1
  let late := decide (day > daysInYear isLeapYear (if year ≤ 0 then year - 1 else year))
  let year := if late then year + 1 else year
  let day := if late then 1 else day
  let year := if year ≤ 0 then year - 1 else year
  let found := findMonth year 11 1 day
  { year := year, month := found.1, day := found.2 }

def backend : QCalendarBackend where
  isLeapYear := isLeapYear
  daysInMonth := daysInMonth
  daysInYear := daysInYear isLeapYear
  dateToJulianDay := dateToJulianDay
  julianDayToDate := julianDayToDate

theorem isLeapYear_eq (year : ℤ) :
    isLeapYear year = decide ((yearIndex year - 474) * 683 % 2820 < 683) := by
  have hmod : (yearIndex year + 2346) * 683 % 2820 = (yearIndex year - 474) * 683 % 2820 := by
    omega
  unfold isLeapYear
  by_cases hun : year = Unspecified
  · subst hun
    decide
  · rw [if_neg hun, ← hmod]
    simp only [qMod_eq (show (0 : ℤ) < 2820 by decide)]
    rfl

/-- The days before year 475 + `n`, counted from year 475. -/
def yearStart (n : ℤ) : ℤ := floorSeq 1029983 2820 0 n

theorem year_length (n : ℤ) :
    yearStart (n + 1) = yearStart n + if (n + 1) * 683 % 2820 < 683 then 366 else 365 := by
  have hstart : ∀ n, yearStart n = 365 * n + n * 683 / 2820 := by
    intro n
    unfold yearStart floorSeq
    omega
  rw [hstart, hstart]
  split <;> omega

variable {year : ℤ}

theorem daysInYear_eq (hne : year ≠ 0) : yearStart (yearIndex year - 475) +
    daysInYear isLeapYear year = yearStart (yearIndex year - 474) := by
  have hlen := year_length (yearIndex year - 475)
  rw [show yearIndex year - 475 + 1 = yearIndex year - 474 by omega] at hlen
  unfold daysInYear monthsInYear
  rw [isLeapYear_eq, hlen, if_pos (show year > 0 ∨ year < 0 by omega),
    if_pos (show (12 : ℤ) ≠ 0 by decide)]
  simp only [decide_eq_true_eq]

theorem firstDayOfYear_eq (y c : ℤ) :
    firstDayOfYear y c = jalaliEpoch + yearStart (y + c * cycleYears) := by
  have hfloor : ⌊(y : ℚ) * yearLength⌋ = y * 1029983 / 2820 := by
    have hdiv := Rat.floor_intCast_div_natCast (y * 1029983) 2820
    rw [yearLength, ← mul_div_assoc]
    push_cast at hdiv
    exact hdiv
  unfold firstDayOfYear
  simp only [hfloor]
  unfold yearStart floorSeq cycleYears cycleDays
  omega

/-- The days before a month of the year, the months numbered from 0. -/
def monthDays (m : ℤ) : ℤ := if m ≤ 6 then 31 * m else 30 * m + 6

theorem monthDays_succ {year m : ℤ} (hne : year ≠ 0) (hm : 0 ≤ m) (hm' : m < 11) :
    monthDays (m + 1) = monthDays m + daysInMonth (m + 1) year := by
  unfold monthDays daysInMonth
  rw [if_pos (show year ≠ 0 ∧ m + 1 > 0 ∧ m + 1 ≤ 12 by omega)]
  by_cases h7 : m + 1 < 7
  · rw [if_pos h7, if_pos (by omega), if_pos (by omega)]
    omega
  · rw [if_neg h7, if_neg (by omega), if_pos (show m + 1 < 12 ∨ _ from Or.inl (by omega))]
    split <;> omega

theorem lastMonth (hne : year ≠ 0) :
    daysInYear isLeapYear year = monthDays 11 + daysInMonth 12 year := by
  unfold daysInYear monthsInYear daysInMonth monthDays
  rw [if_pos (show year > 0 ∨ year < 0 by omega), if_pos (show (12 : ℤ) ≠ 0 by decide),
    if_pos (show year ≠ 0 ∧ (12 : ℤ) > 0 ∧ (12 : ℤ) ≤ 12 by omega)]
  cases isLeapYear year <;> decide

theorem foldl_daysInMonth (hne : year ≠ 0) (day : ℤ) (n : ℕ) (hn : n ≤ 11) :
    (List.range n).foldl (fun (dayInYear : ℤ) (i : ℕ) => dayInYear + daysInMonth (i + 1) year) day =
      day + monthDays n := by
  induction n with
  | zero =>
    show day = day + 31 * 0
    omega
  | succ n ih =>
    rw [List.range_succ, List.foldl_append, ih (by omega)]
    show day + monthDays n + daysInMonth (n + 1) year = day + monthDays (n + 1 : ℕ)
    have hsucc := @monthDays_succ year n hne (by omega) (by omega)
    simp
    omega

theorem findMonth_spec (hne : year ≠ 0) (more : ℕ) (m day : ℤ) (hm : 0 ≤ m) (hlast : m + more = 11)
    (hd : 1 ≤ day) (hd' : monthDays m + day ≤ daysInYear isLeapYear year) :
    ∃ m' day', findMonth year more (m + 1) day = (m' + 1, day') ∧ 0 ≤ m' ∧ m' < 12 ∧ 1 ≤ day' ∧
      day' ≤ daysInMonth (m' + 1) year ∧ monthDays m' + day' = monthDays m + day := by
  induction more generalizing m day with
  | zero =>
    have h11 : m = 11 := by omega
    subst h11
    have hlen := lastMonth hne
    refine ⟨11, day, rfl, by omega, by omega, hd, ?_, rfl⟩
    show day ≤ daysInMonth 12 year
    omega
  | succ more ih =>
    unfold findMonth
    by_cases h : day ≤ daysInMonth (m + 1) year
    · simp only [if_pos h]
      exact ⟨m, day, rfl, hm, by omega, hd, h, rfl⟩
    · have hsucc := monthDays_succ hne hm (by omega)
      simp only [if_neg h]
      obtain ⟨m', day', hfound, h1, h2, h3, h4, h5⟩ := ih (m + 1) (day - daysInMonth (m + 1) year)
        (by omega) (by omega) (by omega) (by omega)
      exact ⟨m', day', hfound, h1, h2, h3, h4, by omega⟩

theorem julianDayToDate_eq (jd : ℤ) : ∃ n day, yearStart n + day + jalaliEpoch = jd ∧ 0 ≤ day ∧
    yearStart n + day < yearStart (n + 1) ∧ julianDayToDate jd =
      { year := yearOfIndex (n + 475), month := (findMonth (yearOfIndex (n + 475)) 11 1 (day + 1)).1
        day := (findMonth (yearOfIndex (n + 475)) 11 1 (day + 1)).2 } := by
  have hfloor : ∀ k : ℤ, ⌊(k : ℚ) / yearLength⌋ = k * 2820 / 1029983 := by
    intro k
    have hdiv := Rat.floor_intCast_div_natCast (k * 2820) 1029983
    rw [yearLength, div_div_eq_mul_div]
    push_cast at hdiv
    exact hdiv
  obtain ⟨guess, hguess⟩ : ∃ guess, guess = (jd - jalaliEpoch) * 2820 / 1029983 := ⟨_, rfl⟩
  have hyear : ⌊((jd - cycleStart (cycle jd) : ℤ) : ℚ) / yearLength⌋ + 475 +
      cycle jd * cycleYears = guess + 475 := by
    rw [hfloor, cycleStart, cycle, qDiv_eq (by decide), hguess, cycleDays, cycleYears]
    omega
  have hfirst : firstDayOfYear ⌊((jd - cycleStart (cycle jd) : ℤ) : ℚ) / yearLength⌋ (cycle jd) =
      jalaliEpoch + yearStart guess := by
    rw [firstDayOfYear_eq]
    congr 2
    omega
  have hindex : (if guess + 475 ≤ 0 then guess + 475 - 1 else guess + 475) =
      yearOfIndex (guess + 475) := by
    unfold yearOfIndex
    split <;> split <;> omega
  have hdays := daysInYear_eq (yearOfIndex_ne_zero (guess + 475))
  rw [yearIndex_yearOfIndex, Int.add_sub_cancel,
    show guess + 475 - 474 = guess + 1 by omega] at hdays
  have hle : yearStart guess ≤ jd - jalaliEpoch := by
    unfold yearStart floorSeq
    omega
  have hlt : jd - jalaliEpoch ≤ yearStart (guess + 1) := by
    unfold yearStart floorSeq
    omega
  unfold julianDayToDate
  simp only [hyear, hfirst, hindex, decide_eq_true_eq]
  by_cases hlate : jd - (jalaliEpoch + yearStart guess) + 1 >
      daysInYear isLeapYear (yearOfIndex (guess + 475))
  · have hnext := year_length (guess + 1)
    have hindex' : (if guess + 475 + 1 ≤ 0 then guess + 475 + 1 - 1 else guess + 475 + 1) =
        yearOfIndex (guess + 1 + 475) := by
      unfold yearOfIndex
      split <;> split <;> omega
    refine ⟨guess + 1, 0, by omega, by omega, ?_, ?_⟩
    · split at hnext <;> omega
    · rw [if_pos hlate, if_pos hlate, hindex']
      rfl
  · refine ⟨guess, jd - (jalaliEpoch + yearStart guess), by omega, by omega, by omega, ?_⟩
    rw [if_neg hlate, if_neg hlate, hindex]

/-- The first day of a month. -/
def monthStart (k : ℤ) : ℤ := yearStart (k / 12 - 475) + monthDays (k % 12) + jalaliEpoch

theorem monthStart_eq {n m : ℤ} (hm : 0 ≤ m) (hm' : m < 12) :
    monthStart (12 * n + m) = yearStart (n - 475) + monthDays m + jalaliEpoch := by
  have hdiv : (12 * n + m) / 12 = n := by omega
  have hmod : (12 * n + m) % 12 = m := by omega
  rw [monthStart, hdiv, hmod]

theorem monthStart_succ {year m : ℤ} (hne : year ≠ 0) (hm : 0 ≤ m) (hm' : m < 12) :
    monthStart (12 * yearIndex year + m + 1) =
      monthStart (12 * yearIndex year + m) + daysInMonth (m + 1) year := by
  rw [monthStart_eq hm hm']
  by_cases h11 : m = 11
  · subst h11
    have hyear := daysInYear_eq hne
    have hlast := lastMonth hne
    have hnext := @monthStart_eq (yearIndex year + 1) 0 (by omega) (by omega)
    have hzero : monthDays 0 = 0 := rfl
    rw [show 12 * yearIndex year + 11 + 1 = 12 * (yearIndex year + 1) + 0 by omega, hnext, hzero,
      show yearIndex year + 1 - 475 = yearIndex year - 474 by omega]
    show _ = _ + daysInMonth 12 year
    omega
  · have hsucc := monthDays_succ hne hm (by omega)
    have hnext := @monthStart_eq (yearIndex year) (m + 1) (by omega) (by omega)
    rw [Int.add_assoc, hnext, hsucc]
    omega

theorem daysInMonth_range {month : ℤ} (h : 0 < daysInMonth month year) :
    1 ≤ month ∧ month ≤ 12 := by
  unfold daysInMonth at h
  split at h <;> omega

theorem dateToJulianDay_eq {month day : ℤ} (hne : year ≠ 0) (hd : 1 ≤ day)
    (hd' : day ≤ daysInMonth month year) : dateToJulianDay year month day =
      some (monthStart (monthIndex year month) + (day - 1)) := by
  obtain ⟨hm, hm'⟩ := daysInMonth_range (Int.lt_of_lt_of_le (by omega) hd')
  have hvalid : isDateValid daysInMonth year month day = true := decide_eq_true ⟨hd, hd'⟩
  have hyear : (year - if year < 0 then 474 else 475) = yearIndex year - 475 := by
    unfold yearIndex
    split <;> omega
  have hcycle : yearIndex year - 475 - (yearIndex year - 475) / cycleYears * cycleYears +
      (yearIndex year - 475) / cycleYears * cycleYears = yearIndex year - 475 := by omega
  have hfold := foldl_daysInMonth hne day (month - 1).toNat (by omega)
  unfold dateToJulianDay
  rw [if_pos hvalid, hyear]
  simp only [qDiv_eq (show 0 < cycleYears by decide), firstDayOfYear_eq, hcycle, hfold]
  rw [Int.toNat_of_nonneg (by omega), Option.some.injEq, monthIndex,
    monthStart_eq (by omega) (by omega)]
  omega

theorem julianDayToDate_spec (jd : ℤ) : ∃ n m day, 0 ≤ m ∧ m < 12 ∧ 1 ≤ day ∧
    day ≤ daysInMonth (m + 1) (yearOfIndex n) ∧ monthStart (12 * n + m) + (day - 1) = jd ∧
    julianDayToDate jd = { year := yearOfIndex n, month := m + 1, day := day } := by
  obtain ⟨n, k, hjd, hk, hk', hdate⟩ := julianDayToDate_eq jd
  have hne := yearOfIndex_ne_zero (n + 475)
  have hyear := daysInYear_eq hne
  rw [yearIndex_yearOfIndex, Int.add_sub_cancel, show n + 475 - 474 = n + 1 by omega] at hyear
  have hzero : monthDays 0 = 0 := rfl
  obtain ⟨m, day, hfound, hm, hm', hd, hd', hdays⟩ :=
    findMonth_spec hne 11 0 (k + 1) (by omega) (by decide) (by omega) (by omega)
  refine ⟨n + 475, m, day, hm, hm', hd, hd', ?_, ?_⟩
  · rw [monthStart_eq hm hm', Int.add_sub_cancel]
    omega
  · rw [Int.zero_add] at hfound
    rw [hdate, hfound]

theorem monthTiling : MonthTiling backend monthStart := by
  have hsucc : ∀ year month, year ≠ 0 → 1 ≤ month → month ≤ 12 →
      monthStart (monthIndex year month + 1) =
        monthStart (monthIndex year month) + daysInMonth month year := by
    intro year month hne hm hm'
    have hmonth := @monthStart_succ year (month - 1) hne (by omega) (by omega)
    rwa [Int.sub_add_cancel] at hmonth
  constructor
  · intro year month hne hm hm'
    show 0 < daysInMonth month year
    unfold daysInMonth
    rw [if_pos (by omega)]
    split
    · decide
    · split <;> decide
  · intro year month h
    exact daysInMonth_range h
  · exact hsucc
  · intro year hne
    have hfirst := @monthStart_eq (yearIndex year) 0 (by omega) (by omega)
    have hlast := @monthStart_eq (yearIndex year + 1) 0 (by omega) (by omega)
    have hyear := daysInYear_eq hne
    show monthStart (12 * yearIndex year + (12 - 1) + 1) =
      monthStart (12 * yearIndex year + (1 - 1)) + daysInYear isLeapYear year
    rw [show 12 * yearIndex year + (12 - 1) + 1 = 12 * (yearIndex year + 1) + 0 by omega,
      show (1 - 1 : ℤ) = 0 from rfl, hfirst, hlast,
      show yearIndex year + 1 - 475 = yearIndex year - 474 by omega]
    omega
  · intro year month day hne hd hd'
    exact dateToJulianDay_eq hne hd hd'
  all_goals
    intro jd
    obtain ⟨n, m, day, hm, hm', hd, hd', hstart, hdate⟩ := julianDayToDate_spec jd
    change QCalendarBackend.julianDayToDate backend jd = _ at hdate
    rw [hdate]
  · exact yearOfIndex_ne_zero _
  · show 1 ≤ m + 1
    omega
  · show m + 1 ≤ 12
    omega
  · exact hd
  all_goals
    have hindex : monthIndex (yearOfIndex n) (m + 1) = 12 * n + m := by
      rw [monthIndex, yearIndex_yearOfIndex, Int.add_sub_cancel]
    dsimp only
  · rw [hindex]
    exact hstart
  · have hmonth := hsucc (yearOfIndex n) (m + 1) (yearOfIndex_ne_zero n) (by omega) (by omega)
    rw [hmonth, hindex]
    omega

end QJalaliCalendar

theorem islamic_jalali_count_days :
    QIslamicCivilCalendar.backend.DayCount ∧ QJalaliCalendar.backend.DayCount :=
  ⟨QIslamicCivilCalendar.monthTiling.dayCount, QJalaliCalendar.monthTiling.dayCount⟩

end QtBase.Time
