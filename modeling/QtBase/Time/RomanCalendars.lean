import QtBase.Time.Calendar
import Mathlib.Tactic.IntervalCases

/-! The Gregorian, Julian and Milankovic calendars count days exactly. -/
namespace QtBase.Time

open QtBase.Lib QRoundingDown Int

/-! ## What the three share -/

namespace QRomanCalendrical

def LeapDayGregorian1Bce : ℤ := 1721119

def FourYears : ℤ := 4 * 365 + 1

def FiveMonths : ℤ := 31 + 30 + 31 + 30 + 31

/-- What `yearMonthToYearDays` returns. -/
structure YearDays where
  year : ℤ
  days : ℤ

def yearMonthToYearDays (year month : ℤ) : YearDays :=
  let year := if year < 0 then year + 1 else year
  let month := month - 3
  if month < 0 then
    { year := year - 1, days := qDiv 5 (FiveMonths * (month + 12) + 2) }
  else
    { year := year, days := qDiv 5 (FiveMonths * month + 2) }

def dayInYearToYmd (dayInYear : ℤ) : YearMonthDay :=
  let month5Day := qDivMod FiveMonths (5 * dayInYear + 2)
  let yearMonth := qDivMod 12 (month5Day.quotient + 2)
  { year := yearMonth.quotient
    month := yearMonth.remainder + 1
    day := qDiv 5 month5Day.remainder + 1 }

end QRomanCalendrical

open QRomanCalendrical

namespace QRomanCalendar

def daysInMonth (isLeapYear : ℤ → Bool) (month year : ℤ) : ℤ :=
  if year = 0 ∨ month < 1 ∨ month > 12 then 0
  else if month = 2 then if isLeapYear year then 29 else 28
  -- Long if odd up to July = 7, or if even from 8 = August onwards:
  else ((30 ||| ((month.toNat &&& 1) ^^^ (month.toNat >>> 3)) : ℕ) : ℤ)

end QRomanCalendar

namespace QGregorianCalendar

def leapTest (year : ℤ) : Bool :=
  if year = Unspecified then false
  else
    let year := if year < 1 then year + 1 else year
    year.tmod 4 == 0 && (year.tmod 100 != 0 || year.tmod 400 == 0)

def isLeapYear (year : ℤ) : Bool := leapTest year

def monthLength (month year : ℤ) : ℤ :=
  if month < 1 ∨ month > 12 then 0
  else if month = 2 then if leapTest year then 29 else 28
  else ((30 ||| ((month.toNat &&& 1) ^^^ (month.toNat >>> 3)) : ℕ) : ℤ)

def validParts (year month day : ℤ) : Bool :=
  decide (year ≠ 0 ∧ 0 < day ∧ day ≤ monthLength month year)

def BaseJd : ℤ := LeapDayGregorian1Bce

def FourCenturies : ℤ := 400 * 365 + 97

def julianFromParts (year month day : ℤ) : Option ℤ :=
  if validParts year month day then
    let yearDays := yearMonthToYearDays year month
    let y := yearDays.year
    let fromYear := 365 * y + qDiv4 y - qDiv 100 y + qDiv 400 y
    some (fromYear + yearDays.days + day + BaseJd)
  else none

def partsFromJulian (jd : ℤ) : YearMonthDay :=
  let dayNumber := jd - BaseJd
  let century := qDiv FourCenturies (4 * dayNumber - 1)
  let dayInCentury := dayNumber - qDiv4 (FourCenturies * century)
  let yearInCentury := qDiv FourYears (4 * dayInCentury - 1)
  let dayInYear := dayInCentury - qDiv4 (FourYears * yearInCentury)
  let m := qDiv FiveMonths (5 * dayInYear - 3)
  let yearOffset := if m < 10 then 0 else 1
  let y := 100 * century + yearInCentury + yearOffset
  let month := m + 3 - 12 * yearOffset
  let day := dayInYear - qDiv 5 (FiveMonths * m + 2)
  -- Adjust for no year 0
  { year := if y > 0 then y else y - 1, month := month, day := day }

def backend : QCalendarBackend where
  isLeapYear := isLeapYear
  daysInMonth := QRomanCalendar.daysInMonth isLeapYear
  daysInYear := daysInYear isLeapYear
  dateToJulianDay := julianFromParts
  julianDayToDate := partsFromJulian

end QGregorianCalendar

namespace QJulianCalendar

def isLeapYear (year : ℤ) : Bool :=
  if year = Unspecified ∨ year = 0 then false
  else qMod4 (if year < 0 then year + 1 else year) == 0

def JulianBaseJd : ℤ := LeapDayGregorian1Bce - 2

def dateToJulianDay (year month day : ℤ) : Option ℤ :=
  if isDateValid (QRomanCalendar.daysInMonth isLeapYear) year month day then
    let yearDays := yearMonthToYearDays year month
    some (qDiv4 (FourYears * yearDays.year) + yearDays.days + day + JulianBaseJd)
  else none

def julianDayToDate (jd : ℤ) : YearMonthDay :=
  let year4Day := qDivMod FourYears (4 * (jd - JulianBaseJd) - 1)
  let ymd := dayInYearToYmd (qDiv4 year4Day.remainder)
  let y := year4Day.quotient + ymd.year
  { year := if y > 0 then y else y - 1, month := ymd.month, day := ymd.day }

def backend : QCalendarBackend where
  isLeapYear := isLeapYear
  daysInMonth := QRomanCalendar.daysInMonth isLeapYear
  daysInYear := daysInYear isLeapYear
  dateToJulianDay := dateToJulianDay
  julianDayToDate := julianDayToDate

end QJulianCalendar

namespace QMilankovicCalendar

def isLeapYear (year : ℤ) : Bool :=
  if year = Unspecified then false
  else
    let year := if year ≤ 0 then year + 1 else year
    if qMod4 year ≠ 0 then false
    else
      let yeardm := qDivMod 100 year
      if yeardm.remainder = 0 then
        let century := qMod 9 yeardm.quotient
        century == 2 || century == 6
      else true

def MilankovicBaseJd : ℤ := LeapDayGregorian1Bce

def NineCenturies : ℤ := 365 * 900 + 900 / 4 - 7

def LeapCentury : ℤ := 365 * 100 + 25

def dateToJulianDay (year month day : ℤ) : Option ℤ :=
  if isDateValid (QRomanCalendar.daysInMonth isLeapYear) year month day then
    let yearDays := yearMonthToYearDays year month
    let centuryYear := qDivMod 100 yearDays.year
    let fromYear := qDiv 9 (NineCenturies * centuryYear.quotient + 6) +
      qDiv 100 (LeapCentury * centuryYear.remainder)
    some (fromYear + yearDays.days + day + MilankovicBaseJd)
  else none

def julianDayToDate (jd : ℤ) : YearMonthDay :=
  let century9Day := qDivMod NineCenturies (9 * (jd - MilankovicBaseJd) - 7)
  let year100Day := qDivMod LeapCentury (100 * qDiv 9 century9Day.remainder + 99)
  let ymd := dayInYearToYmd (qDiv 100 year100Day.remainder)
  let y := 100 * century9Day.quotient + year100Day.quotient + ymd.year
  { year := if y > 0 then y else y - 1, month := ymd.month, day := ymd.day }

def backend : QCalendarBackend where
  isLeapYear := isLeapYear
  daysInMonth := QRomanCalendar.daysInMonth isLeapYear
  daysInYear := daysInYear isLeapYear
  dateToJulianDay := dateToJulianDay
  julianDayToDate := julianDayToDate

end QMilankovicCalendar

/-! ## Months counted from March -/

namespace QRomanCalendar

/-- Years that start in March: `yearStart` counts the days before the one numbered `n`, and a leap
year ends the one before it. -/
def MarchYears (leap : ℤ → Bool) (yearStart : ℤ → ℤ) : Prop :=
  ∀ n, yearStart (n + 1) = yearStart n + if leap (n + 1) then 366 else 365

/-- The first day of a month, `base` being the day number of the last day of February, year 0. -/
def monthStart (yearStart : ℤ → ℤ) (base k : ℤ) : ℤ :=
  yearStart ((k - 2) / 12) + floorSeq 153 5 2 ((k - 2) % 12) + base + 1

theorem yearMonthToYearDays_eq {year month : ℤ} (hm : 1 ≤ month) (hm' : month ≤ 12) :
    yearMonthToYearDays year month =
      { year := (monthIndex year month - 2) / 12
        days := floorSeq 153 5 2 ((monthIndex year month - 2) % 12) } := by
  unfold yearMonthToYearDays monthIndex floorSeq FiveMonths
  simp only [qDiv_eq (show (0 : ℤ) < 5 by decide)]
  show _ = YearDays.mk ((12 * yearIndex year + (month - 1) - 2) / 12)
    ((153 * ((12 * yearIndex year + (month - 1) - 2) % 12) + 2) / 5)
  rw [show (if year < 0 then year + 1 else year) = yearIndex year from rfl]
  generalize yearIndex year = n
  by_cases h : month - 3 < 0
  · have hdiv : (12 * n + (month - 1) - 2) / 12 = n - 1 := by omega
    have hmod : (12 * n + (month - 1) - 2) % 12 = month - 3 + 12 := by omega
    simp [h, hdiv, hmod]
  · have hdiv : (12 * n + (month - 1) - 2) / 12 = n := by omega
    have hmod : (12 * n + (month - 1) - 2) % 12 = month - 3 := by omega
    simp [h, hdiv, hmod]

section MarchYears

variable {isLeapYear leap : ℤ → Bool} {yearStart : ℤ → ℤ}

theorem daysInMonth_pos {year month : ℤ} (hy : year ≠ 0) (hm : 1 ≤ month) (hm' : month ≤ 12) :
    0 < daysInMonth isLeapYear month year := by
  unfold daysInMonth
  rw [if_neg (by omega)]
  have hor := @Nat.left_le_or 30 ((month.toNat &&& 1) ^^^ (month.toNat >>> 3))
  split
  · split <;> decide
  · omega

theorem month_of_daysInMonth_pos {year month : ℤ} (h : 0 < daysInMonth isLeapYear month year) :
    1 ≤ month ∧ month ≤ 12 := by
  unfold daysInMonth at h
  split at h <;> omega

theorem monthStart_succ (hleap : ∀ year, year ≠ 0 → isLeapYear year = leap (yearIndex year))
    (hy : MarchYears leap yearStart) (base : ℤ) {year month : ℤ} (hne : year ≠ 0) (hm : 1 ≤ month)
    (hm' : month ≤ 12) : monthStart yearStart base (monthIndex year month + 1) =
      monthStart yearStart base (monthIndex year month) + daysInMonth isLeapYear month year := by
  have hlast := hy (yearIndex year - 1)
  rw [sub_add_cancel, ← hleap year hne] at hlast
  unfold daysInMonth monthStart monthIndex
  generalize yearIndex year = n at *
  rw [if_neg (by omega)]
  by_cases h2 : month = 2
  · subst h2
    have hdiv : (12 * n + (2 - 1) + 1 - 2) / 12 = n := by omega
    have hdiv' : (12 * n + (2 - 1) - 2) / 12 = n - 1 := by omega
    have hmod : (12 * n + (2 - 1) + 1 - 2) % 12 = 0 := by omega
    have hmod' : (12 * n + (2 - 1) - 2) % 12 = 11 := by omega
    rw [if_pos rfl, hdiv, hdiv', hmod, hmod', hlast]
    have hzero : floorSeq 153 5 2 0 = 0 := by decide
    have heleven : floorSeq 153 5 2 11 = 337 := by decide
    rw [hzero, heleven]
    split <;> omega
  · have hdiv : (12 * n + (month - 1) + 1 - 2) / 12 = (12 * n + (month - 1) - 2) / 12 := by omega
    have hmod : (12 * n + (month - 1) + 1 - 2) % 12 = (12 * n + (month - 1) - 2) % 12 + 1 := by
      omega
    have hmonth : (12 * n + (month - 1) - 2) % 12 = (month + 9) % 12 := by omega
    rw [if_neg h2, hdiv, hmod, hmonth]
    have hlen : floorSeq 153 5 2 ((month + 9) % 12 + 1) = floorSeq 153 5 2 ((month + 9) % 12) +
        ((30 ||| ((month.toNat &&& 1) ^^^ (month.toNat >>> 3)) : ℕ) : ℤ) := by
      interval_cases month <;> first | contradiction | decide
    omega

theorem monthStart_next_year (hleap : ∀ year, year ≠ 0 → isLeapYear year = leap (yearIndex year))
    (hy : MarchYears leap yearStart) (base : ℤ) {year : ℤ} (hne : year ≠ 0) :
    monthStart yearStart base (monthIndex year 12 + 1) =
      monthStart yearStart base (monthIndex year 1) + daysInYear isLeapYear year := by
  have hlast := hy (yearIndex year - 1)
  rw [sub_add_cancel, ← hleap year hne] at hlast
  unfold daysInYear monthsInYear monthStart monthIndex
  generalize yearIndex year = n at *
  have hdiv : (12 * n + (12 - 1) + 1 - 2) / 12 = n := by omega
  have hdiv' : (12 * n + (1 - 1) - 2) / 12 = n - 1 := by omega
  have hmod : (12 * n + (12 - 1) + 1 - 2) % 12 = (12 * n + (1 - 1) - 2) % 12 := by omega
  rw [hdiv, hdiv', hmod, hlast, if_pos (show year > 0 ∨ year < 0 by omega),
    if_pos (show (12 : ℤ) ≠ 0 by decide)]
  omega

theorem dayInYearToYmd_eq (k : ℤ) : dayInYearToYmd k =
    { year := (floorInv 153 5 2 k + 2) / 12, month := (floorInv 153 5 2 k + 2) % 12 + 1
      day := k - floorSeq 153 5 2 (floorInv 153 5 2 k) + 1 } := by
  unfold dayInYearToYmd
  simp only [qDivMod_eq (show (0 : ℤ) < 12 by decide), qDiv_eq (show (0 : ℤ) < 5 by decide),
    qDivMod_eq (show 0 < FiveMonths by decide)]
  rw [sub_floorSeq_floorInv (by decide)]
  rfl

theorem dayInYearToYmd_spec (hy : MarchYears leap yearStart) {n k : ℤ} (hk : 0 ≤ k)
    (hk' : yearStart n + k < yearStart (n + 1)) (base : ℤ) :
    1 ≤ (dayInYearToYmd k).month ∧ (dayInYearToYmd k).month ≤ 12 ∧ 1 ≤ (dayInYearToYmd k).day ∧
      monthStart yearStart base
        (12 * (n + (dayInYearToYmd k).year) + ((dayInYearToYmd k).month - 1)) +
        ((dayInYearToYmd k).day - 1) = yearStart n + k + base + 1 ∧
      yearStart n + k + base + 1 < monthStart yearStart base
        (12 * (n + (dayInYearToYmd k).year) + ((dayInYearToYmd k).month - 1) + 1) := by
  have hlast := hy n
  have hk366 : k < 366 := by
    split at hlast <;> omega
  have hle := floorSeq_floorInv_le (c := 2) (show (0 : ℤ) < 153 by decide)
    (show (0 : ℤ) < 5 by decide) k
  have hlt := lt_floorSeq_floorInv_add_one (c := 2) (show (0 : ℤ) < 153 by decide)
    (show (0 : ℤ) < 5 by decide) k
  have hm : 0 ≤ floorInv 153 5 2 k ∧ floorInv 153 5 2 k ≤ 11 := by
    unfold floorInv
    omega
  rw [dayInYearToYmd_eq]
  dsimp only
  unfold monthStart
  generalize floorInv 153 5 2 k = m at *
  have hdiv : (12 * (n + (m + 2) / 12) + ((m + 2) % 12 + 1 - 1) - 2) / 12 = n := by omega
  have hmod : (12 * (n + (m + 2) / 12) + ((m + 2) % 12 + 1 - 1) - 2) % 12 = m := by omega
  rw [hdiv, hmod]
  refine ⟨by omega, by omega, by omega, by omega, ?_⟩
  by_cases h11 : m = 11
  · subst h11
    have hdiv1 : (12 * (n + (11 + 2) / 12) + ((11 + 2) % 12 + 1 - 1) + 1 - 2) / 12 = n + 1 := by
      omega
    have hmod1 : (12 * (n + (11 + 2) / 12) + ((11 + 2) % 12 + 1 - 1) + 1 - 2) % 12 = 0 := by omega
    have hzero : floorSeq 153 5 2 0 = 0 := by decide
    rw [hdiv1, hmod1, hzero]
    omega
  · have hdiv1 : (12 * (n + (m + 2) / 12) + ((m + 2) % 12 + 1 - 1) + 1 - 2) / 12 = n := by omega
    have hmod1 : (12 * (n + (m + 2) / 12) + ((m + 2) % 12 + 1 - 1) + 1 - 2) % 12 = m + 1 := by
      omega
    rw [hdiv1, hmod1]
    omega

end MarchYears

end QRomanCalendar

namespace QRomanCalendar

/-- A calendar whose years start in March, found from the day number by any formula that hits the
right year. -/
theorem monthTiling {c : QCalendarBackend} {leap : ℤ → Bool} {yearStart : ℤ → ℤ} (base : ℤ)
    (hleap : ∀ year, year ≠ 0 → c.isLeapYear year = leap (yearIndex year))
    (hy : MarchYears leap yearStart) (hmonth : c.daysInMonth = daysInMonth c.isLeapYear)
    (hyear : c.daysInYear = daysInYear c.isLeapYear)
    (hto : ∀ year month day, year ≠ 0 → 1 ≤ day → day ≤ daysInMonth c.isLeapYear month year →
      c.dateToJulianDay year month day = some (yearStart (yearMonthToYearDays year month).year +
        (yearMonthToYearDays year month).days + day + base))
    (hof : ∀ jd, ∃ n k, 0 ≤ k ∧ yearStart n + k < yearStart (n + 1) ∧
      yearStart n + k + base + 1 = jd ∧ c.julianDayToDate jd =
        { year := yearOfIndex (n + (dayInYearToYmd k).year), month := (dayInYearToYmd k).month,
          day := (dayInYearToYmd k).day }) : MonthTiling c (monthStart yearStart base) := by
  constructor
  · intro year month hne hm hm'
    rw [hmonth]
    exact daysInMonth_pos hne hm hm'
  · intro year month h
    rw [hmonth] at h
    exact month_of_daysInMonth_pos h
  · intro year month hne hm hm'
    rw [hmonth]
    exact monthStart_succ hleap hy base hne hm hm'
  · intro year hne
    rw [hyear]
    exact monthStart_next_year hleap hy base hne
  · intro year month day hne hd hd'
    rw [hmonth] at hd'
    obtain ⟨hm, hm'⟩ := month_of_daysInMonth_pos (lt_of_lt_of_le (by omega) hd')
    rw [hto year month day hne hd hd', yearMonthToYearDays_eq hm hm', Option.some.injEq]
    show yearStart ((monthIndex year month - 2) / 12) +
      floorSeq 153 5 2 ((monthIndex year month - 2) % 12) + day + base = _
    unfold monthStart
    omega
  all_goals
    intro jd
    obtain ⟨n, k, hk, hk', hjd, hdate⟩ := hof jd
    obtain ⟨hm, hm', hd, hstart, hlt⟩ := dayInYearToYmd_spec hy hk hk' base
    rw [hdate]
  · exact yearOfIndex_ne_zero _
  · exact hm
  · exact hm'
  · exact hd
  · show monthStart yearStart base (monthIndex (yearOfIndex (n + (dayInYearToYmd k).year))
      (dayInYearToYmd k).month) + ((dayInYearToYmd k).day - 1) = jd
    rw [monthIndex, yearIndex_yearOfIndex, hstart, hjd]
  · show jd < monthStart yearStart base (monthIndex (yearOfIndex (n + (dayInYearToYmd k).year))
      (dayInYearToYmd k).month + 1)
    rw [monthIndex, yearIndex_yearOfIndex, ← hjd]
    exact hlt

end QRomanCalendar

/-! ## The three calendars -/

namespace QJulianCalendar

def yearStart (n : ℤ) : ℤ := floorSeq 1461 4 0 n

def leap (n : ℤ) : Bool := n % 4 == 0

theorem isLeapYear_eq {year : ℤ} (hy : year ≠ 0) : isLeapYear year = leap (yearIndex year) := by
  unfold isLeapYear
  by_cases hun : year = Unspecified
  · subst hun
    decide
  · rw [if_neg (by omega), qMod4_eq]
    rfl

theorem marchYears : QRomanCalendar.MarchYears leap yearStart := by
  intro n
  have hstart : ∀ n, yearStart n = 365 * n + n / 4 := by
    intro n
    unfold yearStart floorSeq
    omega
  rw [hstart, hstart]
  cases h : leap (n + 1) with
  | true =>
    have hdvd : (n + 1) % 4 = 0 := beq_iff_eq.mp h
    rw [if_pos rfl]
    omega
  | false =>
    have hdvd : (n + 1) % 4 ≠ 0 := beq_eq_false_iff_ne.mp h
    rw [if_neg (by decide)]
    omega

theorem julianDayToDate_spec (jd : ℤ) : ∃ n k, 0 ≤ k ∧ yearStart n + k < yearStart (n + 1) ∧
    yearStart n + k + JulianBaseJd + 1 = jd ∧ julianDayToDate jd =
      { year := yearOfIndex (n + (dayInYearToYmd k).year), month := (dayInYearToYmd k).month,
        day := (dayInYearToYmd k).day } := by
  have hle := floorSeq_floorInv_le (c := 0) (show (0 : ℤ) < 1461 by decide)
    (show (0 : ℤ) < 4 by decide) (jd - JulianBaseJd - 1)
  have hlt := lt_floorSeq_floorInv_add_one (c := 0) (show (0 : ℤ) < 1461 by decide)
    (show (0 : ℤ) < 4 by decide) (jd - JulianBaseJd - 1)
  have hrem := sub_floorSeq_floorInv (a := 1461) (c := 0) (show (0 : ℤ) < 4 by decide)
    (jd - JulianBaseJd - 1)
  refine ⟨floorInv 1461 4 0 (jd - JulianBaseJd - 1), (jd - JulianBaseJd - 1) -
    floorSeq 1461 4 0 (floorInv 1461 4 0 (jd - JulianBaseJd - 1)), ?_, ?_, ?_, ?_⟩
  · omega
  · unfold yearStart
    omega
  · unfold yearStart
    omega
  · have hnum : 4 * (jd - JulianBaseJd - 1) + (4 - 1 - 0) = 4 * (jd - JulianBaseJd) - 1 := by omega
    rw [hrem]
    unfold julianDayToDate floorInv FourYears
    simp only [qDivMod_eq (show (0 : ℤ) < 4 * 365 + 1 by decide), qDiv4_eq]
    rw [show (4 * 365 + 1 : ℤ) = 1461 by decide, hnum]
    rfl

theorem monthTiling : MonthTiling backend (QRomanCalendar.monthStart yearStart JulianBaseJd) := by
  apply QRomanCalendar.monthTiling JulianBaseJd (fun _ => isLeapYear_eq) marchYears rfl rfl
  · intro year month day _ hd hd'
    have hvalid : isDateValid (QRomanCalendar.daysInMonth isLeapYear) year month day = true :=
      decide_eq_true ⟨hd, hd'⟩
    show dateToJulianDay year month day = _
    unfold dateToJulianDay
    rw [if_pos hvalid]
    simp only [qDiv4_eq]
    rw [yearStart, floorSeq_zero]
    rfl
  · exact julianDayToDate_spec

end QJulianCalendar

namespace QGregorianCalendar

def yearStart (n : ℤ) : ℤ := 365 * n + n / 4 - n / 100 + n / 400

def leap (n : ℤ) : Bool := n % 4 == 0 && (n % 100 != 0 || n % 400 == 0)

theorem tmod_beq_zero (b n : ℤ) : (n.tmod b == 0) = (n % b == 0) := by
  have hiff : n.tmod b = 0 ↔ n % b = 0 := by
    rw [← dvd_iff_tmod_eq_zero, dvd_iff_emod_eq_zero]
  by_cases h : n % b = 0
  · rw [h, hiff.mpr h]
  · have h' : n.tmod b ≠ 0 := fun heq => h (hiff.mp heq)
    rw [beq_false_of_ne h, beq_false_of_ne h']

theorem isLeapYear_eq {year : ℤ} (hy : year ≠ 0) : isLeapYear year = leap (yearIndex year) := by
  unfold isLeapYear leapTest
  by_cases hun : year = Unspecified
  · subst hun
    decide
  · have hindex : (if year < 1 then year + 1 else year) = yearIndex year := by
      unfold yearIndex
      split <;> split <;> omega
    rw [if_neg hun]
    show (_ && (!(_ == _) || _)) = _
    rw [tmod_beq_zero, tmod_beq_zero, tmod_beq_zero, hindex]
    rfl

theorem monthLength_eq {month year : ℤ} (hy : year ≠ 0) :
    monthLength month year = QRomanCalendar.daysInMonth isLeapYear month year := by
  unfold monthLength QRomanCalendar.daysInMonth
  by_cases h : month < 1 ∨ month > 12
  · rw [if_pos h, if_pos (Or.inr h)]
  · have h' : ¬(year = 0 ∨ month < 1 ∨ month > 12) := by omega
    rw [if_neg h, if_neg h']
    rfl

theorem marchYears : QRomanCalendar.MarchYears leap yearStart := by
  intro n
  unfold yearStart
  cases h : leap (n + 1) with
  | true =>
    unfold leap at h
    simp only [Bool.and_eq_true, Bool.or_eq_true, beq_iff_eq, bne_iff_ne] at h
    rw [if_pos rfl]
    omega
  | false =>
    unfold leap at h
    simp only [Bool.and_eq_false_iff, Bool.or_eq_false_iff, beq_eq_false_iff_ne, bne_eq_false_iff_eq]
      at h
    rw [if_neg (by decide)]
    omega

theorem yearStart_century {century y : ℤ} (hy : 0 ≤ y) (hy' : y < 100) :
    yearStart (100 * century + y) = floorSeq 146097 4 0 century + floorSeq 1461 4 0 y := by
  have h4 : (100 * century + y) / 4 = 25 * century + y / 4 := by omega
  have h100 : (100 * century + y) / 100 = century := by omega
  have h400 : (100 * century + y) / 400 = century / 4 := by omega
  have hcenturies : 146097 * century / 4 = 36524 * century + century / 4 := by omega
  have hyears : 1461 * y / 4 = 365 * y + y / 4 := by omega
  rw [floorSeq_zero, floorSeq_zero, hcenturies, hyears, yearStart, h4, h100, h400]
  omega

theorem partsFromJulian_spec (jd : ℤ) : ∃ n k, 0 ≤ k ∧ yearStart n + k < yearStart (n + 1) ∧
    yearStart n + k + BaseJd + 1 = jd ∧ partsFromJulian jd =
      { year := yearOfIndex (n + (dayInYearToYmd k).year), month := (dayInYearToYmd k).month,
        day := (dayInYearToYmd k).day } := by
  have hle := floorSeq_floorInv_le (c := 0) (show (0 : ℤ) < 146097 by decide)
    (show (0 : ℤ) < 4 by decide) (jd - BaseJd - 1)
  have hlt := lt_floorSeq_floorInv_add_one (c := 0) (show (0 : ℤ) < 146097 by decide)
    (show (0 : ℤ) < 4 by decide) (jd - BaseJd - 1)
  obtain ⟨century, hcentury⟩ : ∃ c, c = floorInv 146097 4 0 (jd - BaseJd - 1) := ⟨_, rfl⟩
  rw [← hcentury] at hle hlt
  obtain ⟨day, hday⟩ : ∃ d, d = jd - BaseJd - 1 - floorSeq 146097 4 0 century := ⟨_, rfl⟩
  have hle' := floorSeq_floorInv_le (c := 0) (show (0 : ℤ) < 1461 by decide)
    (show (0 : ℤ) < 4 by decide) day
  have hlt' := lt_floorSeq_floorInv_add_one (c := 0) (show (0 : ℤ) < 1461 by decide)
    (show (0 : ℤ) < 4 by decide) day
  obtain ⟨y, hyear⟩ : ∃ y, y = floorInv 1461 4 0 day := ⟨_, rfl⟩
  rw [← hyear] at hle' hlt'
  have hlen : floorSeq 146097 4 0 (century + 1) ≤ floorSeq 146097 4 0 century + 36525 := by
    unfold floorSeq
    omega
  have hy : 0 ≤ y ∧ y < 100 := by
    have hdef : y = (4 * day + (4 - 1 - 0)) / 1461 := hyear
    omega
  refine ⟨100 * century + y, day - floorSeq 1461 4 0 y, by omega, ?_, ?_, ?_⟩
  · rw [yearStart_century hy.1 hy.2]
    by_cases hlast : y = 99
    · rw [show 100 * century + y + 1 = 100 * (century + 1) + 0 by omega,
        yearStart_century (by decide) (by decide)]
      have hzero : floorSeq 1461 4 0 0 = 0 := by decide
      omega
    · rw [add_assoc (100 * century), yearStart_century (by omega) (by omega)]
      omega
  · rw [yearStart_century hy.1 hy.2]
    omega
  · have hcode : qDiv FourCenturies (4 * (jd - BaseJd) - 1) = century := by
      rw [hcentury, qDiv_eq (by decide), floorInv]
      congr 1
      omega
    have hday' : jd - BaseJd - qDiv4 (FourCenturies * century) = day + 1 := by
      rw [qDiv4_eq, show FourCenturies * century / 4 = floorSeq 146097 4 0 century from
        (floorSeq_zero _ _ _).symm]
      omega
    have hyear' : qDiv FourYears (4 * (day + 1) - 1) = y := by
      rw [hyear, qDiv_eq (by decide), floorInv]
      congr 1
      omega
    have hdayInYear : day + 1 - qDiv4 (FourYears * y) = day - floorSeq 1461 4 0 y + 1 := by
      rw [qDiv4_eq, floorSeq_zero]
      show day + 1 - 1461 * y / 4 = _
      omega
    have hk : 0 ≤ day - floorSeq 1461 4 0 y ∧ day - floorSeq 1461 4 0 y < 366 := by
      have hlast := floorSeq_zero 1461 4 y
      have hnext := floorSeq_zero 1461 4 (y + 1)
      omega
    unfold partsFromJulian
    simp only [hcode, hday', hyear', hdayInYear]
    generalize day - floorSeq 1461 4 0 y = k at hk ⊢
    have hm : qDiv FiveMonths (5 * (k + 1) - 3) = floorInv 153 5 2 k := by
      rw [qDiv_eq (by decide), floorInv]
      congr 1
      omega
    have hdayInMonth : qDiv 5 (FiveMonths * floorInv 153 5 2 k + 2) =
        floorSeq 153 5 2 (floorInv 153 5 2 k) := by
      rw [qDiv_eq (by decide)]
      rfl
    rw [hm, hdayInMonth, QRomanCalendar.dayInYearToYmd_eq]
    have hm0 : 0 ≤ floorInv 153 5 2 k ∧ floorInv 153 5 2 k < 12 := by
      unfold floorInv
      omega
    generalize floorInv 153 5 2 k = m at *
    have hoffset : (if m < 10 then 0 else 1 : ℤ) = (m + 2) / 12 := by
      split <;> omega
    rw [hoffset, YearMonthDay.mk.injEq]
    constructor
    · rfl
    dsimp only
    omega

theorem monthTiling : MonthTiling backend (QRomanCalendar.monthStart yearStart BaseJd) := by
  apply QRomanCalendar.monthTiling BaseJd (fun _ => isLeapYear_eq) marchYears rfl rfl
  · intro year month day hy hd hd'
    have hvalid : validParts year month day = true := by
      apply decide_eq_true
      rw [monthLength_eq hy]
      exact ⟨hy, hd, hd'⟩
    show julianFromParts year month day = _
    unfold julianFromParts
    rw [if_pos hvalid]
    simp only [qDiv4_eq, qDiv_eq (show (0 : ℤ) < 100 by decide),
      qDiv_eq (show (0 : ℤ) < 400 by decide)]
    rfl
  · exact partsFromJulian_spec

end QGregorianCalendar

namespace QMilankovicCalendar

def yearStart (n : ℤ) : ℤ := floorSeq 328718 9 6 (n / 100) + floorSeq 36525 100 0 (n % 100)

def leap (n : ℤ) : Bool := n % 4 == 0 && (n % 100 != 0 || n / 100 % 9 == 2 || n / 100 % 9 == 6)

theorem isLeapYear_eq {year : ℤ} (hy : year ≠ 0) : isLeapYear year = leap (yearIndex year) := by
  unfold isLeapYear
  by_cases hun : year = Unspecified
  · subst hun
    decide
  · have hindex : (if year ≤ 0 then year + 1 else year) = yearIndex year := by
      unfold yearIndex
      split <;> split <;> omega
    rw [if_neg hun, hindex]
    simp only [qMod4_eq, qDivMod_eq (show (0 : ℤ) < 100 by decide),
      qMod_eq (show (0 : ℤ) < 9 by decide)]
    generalize yearIndex year = n
    unfold leap
    by_cases h4 : n % 4 = 0
    · rw [if_neg (not_not.mpr h4), h4]
      by_cases h100 : n % 100 = 0
      · simp [h100]
      · rw [if_neg h100, bne_iff_ne.mpr h100]
        rfl
    · rw [if_pos h4, beq_false_of_ne h4]
      rfl

theorem yearStart_century {century y : ℤ} (hy : 0 ≤ y) (hy' : y < 100) :
    yearStart (100 * century + y) = floorSeq 328718 9 6 century + floorSeq 36525 100 0 y := by
  have hdiv : (100 * century + y) / 100 = century := by omega
  have hmod : (100 * century + y) % 100 = y := by omega
  rw [yearStart, hdiv, hmod]

theorem century_length (century : ℤ) : floorSeq 328718 9 6 (century + 1) =
    floorSeq 328718 9 6 century +
      if (century + 1) % 9 = 2 ∨ (century + 1) % 9 = 6 then 36525 else 36524 := by
  have hstart : ∀ century, floorSeq 328718 9 6 century =
      36524 * century + (2 * century + 6) / 9 := by
    intro century
    unfold floorSeq
    omega
  obtain ⟨q, r, hr, hr', rfl⟩ : ∃ q r, 0 ≤ r ∧ r < 9 ∧ century = 9 * q + r :=
    ⟨century / 9, century % 9, by omega, by omega, by omega⟩
  rw [hstart, hstart]
  interval_cases r <;> split <;> omega

theorem year_length {y : ℤ} : floorSeq 36525 100 0 (y + 1) =
    floorSeq 36525 100 0 y + if (y + 1) % 4 = 0 then 366 else 365 := by
  have hstart : ∀ y, floorSeq 36525 100 0 y = 365 * y + y / 4 := by
    intro y
    unfold floorSeq
    omega
  rw [hstart, hstart]
  split <;> omega

theorem marchYears : QRomanCalendar.MarchYears leap yearStart := by
  intro n
  obtain ⟨century, y, hy, hy', rfl⟩ : ∃ century y, 0 ≤ y ∧ y < 100 ∧ n = 100 * century + y :=
    ⟨n / 100, n % 100, by omega, by omega, by omega⟩
  rw [yearStart_century hy hy']
  by_cases hlast : y = 99
  · subst hlast
    have hnext : 100 * century + 99 + 1 = 100 * (century + 1) + 0 := by omega
    have h4 : (100 * (century + 1) + 0) % 4 = 0 := by omega
    have h100 : (100 * (century + 1) + 0) % 100 = 0 := by omega
    have hdiv : (100 * (century + 1) + 0) / 100 = century + 1 := by omega
    have hzero : floorSeq 36525 100 0 0 = 0 := by decide
    have hninety : floorSeq 36525 100 0 99 = 36159 := by decide
    have hleap : leap (100 * (century + 1) + 0) =
        decide ((century + 1) % 9 = 2 ∨ (century + 1) % 9 = 6) := by
      rw [leap, h4, h100, hdiv, Bool.decide_or]
      rfl
    rw [hnext, yearStart_century (by decide) (by decide), century_length, hzero, hninety, hleap]
    simp only [decide_eq_true_eq]
    split <;> omega
  · have hleap : leap (100 * century + (y + 1)) = decide ((y + 1) % 4 = 0) := by
      have h4 : (100 * century + (y + 1)) % 4 = (y + 1) % 4 := by omega
      have h100 : (100 * century + (y + 1)) % 100 ≠ 0 := by omega
      rw [leap, h4, bne_iff_ne.mpr h100, Bool.true_or, Bool.true_or, Bool.and_true]
      rfl
    rw [add_assoc, yearStart_century (by omega) (by omega), year_length, hleap]
    simp
    omega

theorem julianDayToDate_spec (jd : ℤ) : ∃ n k, 0 ≤ k ∧ yearStart n + k < yearStart (n + 1) ∧
    yearStart n + k + MilankovicBaseJd + 1 = jd ∧ julianDayToDate jd =
      { year := yearOfIndex (n + (dayInYearToYmd k).year), month := (dayInYearToYmd k).month,
        day := (dayInYearToYmd k).day } := by
  have hle := floorSeq_floorInv_le (c := 6) (show (0 : ℤ) < 328718 by decide)
    (show (0 : ℤ) < 9 by decide) (jd - MilankovicBaseJd - 1)
  have hlt := lt_floorSeq_floorInv_add_one (c := 6) (show (0 : ℤ) < 328718 by decide)
    (show (0 : ℤ) < 9 by decide) (jd - MilankovicBaseJd - 1)
  have hrem := sub_floorSeq_floorInv (a := 328718) (c := 6) (show (0 : ℤ) < 9 by decide)
    (jd - MilankovicBaseJd - 1)
  have hnum : 9 * (jd - MilankovicBaseJd - 1) + (9 - 1 - 6) = 9 * (jd - MilankovicBaseJd) - 7 := by
    omega
  obtain ⟨century, hcentury⟩ : ∃ c, c = floorInv 328718 9 6 (jd - MilankovicBaseJd - 1) := ⟨_, rfl⟩
  rw [← hcentury] at hle hlt hrem
  rw [hnum] at hrem
  obtain ⟨day, hday⟩ : ∃ d, d = jd - MilankovicBaseJd - 1 - floorSeq 328718 9 6 century := ⟨_, rfl⟩
  have hle' := floorSeq_floorInv_le (c := 0) (show (0 : ℤ) < 36525 by decide)
    (show (0 : ℤ) < 100 by decide) day
  have hlt' := lt_floorSeq_floorInv_add_one (c := 0) (show (0 : ℤ) < 36525 by decide)
    (show (0 : ℤ) < 100 by decide) day
  have hrem' := sub_floorSeq_floorInv (a := 36525) (c := 0) (show (0 : ℤ) < 100 by decide) day
  obtain ⟨y, hyear⟩ : ∃ y, y = floorInv 36525 100 0 day := ⟨_, rfl⟩
  rw [← hyear] at hle' hlt' hrem'
  have hlen := century_length century
  have hy : 0 ≤ y ∧ y < 100 := by
    have hdef : y = (100 * day + (100 - 1 - 0)) / 36525 := hyear
    split at hlen <;> omega
  refine ⟨100 * century + y, day - floorSeq 36525 100 0 y, by omega, ?_, ?_, ?_⟩
  · rw [yearStart_century hy.1 hy.2]
    by_cases hlast : y = 99
    · rw [show 100 * century + y + 1 = 100 * (century + 1) + 0 by omega,
        yearStart_century (by decide) (by decide)]
      have hzero : floorSeq 36525 100 0 0 = 0 := by decide
      omega
    · rw [add_assoc (100 * century), yearStart_century (by omega) (by omega)]
      omega
  · rw [yearStart_century hy.1 hy.2]
    omega
  · have hcode : qDivMod NineCenturies (9 * (jd - MilankovicBaseJd) - 7) =
        { quotient := century, remainder := (9 * (jd - MilankovicBaseJd) - 7) % 328718 } := by
      rw [hcentury, floorInv, hnum, qDivMod_eq (by decide)]
      rfl
    have hcode' : qDivMod LeapCentury (100 * day + 99) =
        { quotient := y, remainder := (100 * day + (100 - 1 - 0)) % 36525 } := by
      rw [hyear, floorInv, qDivMod_eq (by decide)]
      rfl
    unfold julianDayToDate
    simp only [hcode, qDiv_eq (show (0 : ℤ) < 9 by decide), ← hrem, ← hday, hcode',
      qDiv_eq (show (0 : ℤ) < 100 by decide), ← hrem']
    rfl

theorem monthTiling :
    MonthTiling backend (QRomanCalendar.monthStart yearStart MilankovicBaseJd) := by
  apply QRomanCalendar.monthTiling MilankovicBaseJd (fun _ => isLeapYear_eq) marchYears rfl rfl
  · intro year month day _ hd hd'
    have hvalid : isDateValid (QRomanCalendar.daysInMonth isLeapYear) year month day = true :=
      decide_eq_true ⟨hd, hd'⟩
    show dateToJulianDay year month day = _
    unfold dateToJulianDay
    rw [if_pos hvalid]
    simp only [qDivMod_eq (show (0 : ℤ) < 100 by decide), qDiv_eq (show (0 : ℤ) < 9 by decide),
      qDiv_eq (show (0 : ℤ) < 100 by decide)]
    rw [yearStart, floorSeq_zero]
    rfl
  · exact julianDayToDate_spec

end QMilankovicCalendar

theorem roman_calendars_count_days : QGregorianCalendar.backend.DayCount ∧
    QJulianCalendar.backend.DayCount ∧ QMilankovicCalendar.backend.DayCount :=
  ⟨QGregorianCalendar.monthTiling.dayCount, QJulianCalendar.monthTiling.dayCount,
    QMilankovicCalendar.monthTiling.dayCount⟩

end QtBase.Time
