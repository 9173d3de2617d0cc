import QtBase.Lib.FloorSequence
import Mathlib.Tactic.Common

/-! `QCalendarBackend`, the helpers of `qcalendarmath_p.h`, and what a day count is. -/
namespace QtBase.Time

open QtBase.Lib Int

/-! ## Division rounding down -/

namespace QRoundingDown

/-- What `qDivMod<b>` returns. -/
structure R where
  quotient : ℤ
  remainder : ℤ
  deriving DecidableEq, Repr

/-- `qDivMod<b>` for `b` not a power of two; `/` and `%` of the source round towards zero. -/
def qDivMod (b a : ℤ) : R :=
  if a < 0 then
    { quotient := (a + 1).tdiv b - 1, remainder := (a + 1).tmod b - 1 + b }
  else
    { quotient := a.tdiv b, remainder := a.tmod b }

/-- `qDivMod<2 ^ w>`; the mask `& (b - 1)` keeps the low `w` bits. -/
def qDivModPow2 (w : ℕ) (a : ℤ) : R :=
  if a < 0 then
    { quotient := (a + 1).tdiv (2 ^ w) - 1, remainder := a % 2 ^ w }
  else
    { quotient := a >>> w, remainder := a % 2 ^ w }

def qDiv (b a : ℤ) : ℤ := (qDivMod b a).quotient

def qMod (b a : ℤ) : ℤ := (qDivMod b a).remainder

def qDiv4 (a : ℤ) : ℤ := (qDivModPow2 2 a).quotient

def qMod4 (a : ℤ) : ℤ := (qDivModPow2 2 a).remainder

/-- A negative number, moved up by one, truncates to one above the quotient rounded down. -/
theorem tdiv_add_one_sub_one {a b : ℤ} (hb : 0 < b) (ha : a < 0) :
    (a + 1).tdiv b - 1 = a / b := by
  have hneg : (a + 1).tdiv b = -((-(a + 1)) / b) := by
    rw [← Int.neg_neg (a + 1), Int.neg_tdiv, Int.neg_neg]
    rw [Int.tdiv_eq_ediv_of_nonneg (by omega)]
  have h1 := Int.mul_ediv_add_emod (-(a + 1)) b
  have h2 := Int.emod_nonneg (-(a + 1)) (Int.ne_of_gt hb)
  have h3 := Int.emod_lt_of_pos (-(a + 1)) hb
  have hup : a = b * (-((-(a + 1)) / b) - 1) + (b - 1 - (-(a + 1)) % b) := by
    rw [Int.mul_sub, Int.mul_neg, Int.mul_one]
    omega
  have hzero : (b - 1 - (-(a + 1)) % b) / b = 0 := Int.ediv_eq_zero_of_lt (by omega) (by omega)
  rw [hneg]
  conv => rhs; rw [hup]
  rw [Int.mul_add_ediv_left _ _ (by omega), hzero, Int.add_zero]

theorem qDivMod_eq {b : ℤ} (hb : 0 < b) (a : ℤ) :
    qDivMod b a = { quotient := a / b, remainder := a % b } := by
  unfold qDivMod
  by_cases ha : a < 0
  · have hquot := tdiv_add_one_sub_one hb ha
    have hdiv := mul_ediv_add_emod a b
    have htdiv := mul_tdiv_add_tmod (a + 1) b
    have hmul : b * (a + 1).tdiv b = b * (a / b) + b := by
      rw [← hquot, mul_sub, mul_one]
      omega
    rw [if_pos ha, R.mk.injEq]
    constructor
    · exact hquot
    · omega
  · rw [if_neg ha, tdiv_eq_ediv_of_nonneg (by omega), tmod_eq_emod_of_nonneg (by omega)]

theorem qDivModPow2_eq (w : ℕ) (a : ℤ) :
    qDivModPow2 w a = { quotient := a / 2 ^ w, remainder := a % 2 ^ w } := by
  have hpos : (0 : ℤ) < 2 ^ w := Int.pow_pos (by decide)
  unfold qDivModPow2
  by_cases ha : a < 0
  · rw [if_pos ha, tdiv_add_one_sub_one hpos ha]
  · rw [if_neg ha, Int.shiftRight_eq_div_pow]
    rfl

@[simp] theorem qDiv_eq {b : ℤ} (hb : 0 < b) (a : ℤ) : qDiv b a = a / b := by
  rw [qDiv, qDivMod_eq hb]

@[simp] theorem qMod_eq {b : ℤ} (hb : 0 < b) (a : ℤ) : qMod b a = a % b := by
  rw [qMod, qDivMod_eq hb]

@[simp] theorem qDiv4_eq (a : ℤ) : qDiv4 a = a / 4 := by
  rw [qDiv4, qDivModPow2_eq]
  rfl

@[simp] theorem qMod4_eq (a : ℤ) : qMod4 a = a % 4 := by
  rw [qMod4, qDivModPow2_eq]
  rfl

end QRoundingDown

open QRoundingDown

/-! ## Backends -/

/-- `QCalendar::Unspecified`, the least `int`. -/
def Unspecified : ℤ := -2147483648

/-- `QCalendar::YearMonthDay` -/
structure YearMonthDay where
  year : ℤ
  month : ℤ
  day : ℤ
  deriving DecidableEq, Repr

/-- The functions of a `QCalendarBackend` that dates and day numbers pass through. -/
structure QCalendarBackend where
  isLeapYear : ℤ → Bool
  /-- of a month and a year -/
  daysInMonth : ℤ → ℤ → ℤ
  daysInYear : ℤ → ℤ
  /-- of a year, a month and a day -/
  dateToJulianDay : ℤ → ℤ → ℤ → Option ℤ
  julianDayToDate : ℤ → YearMonthDay

/-- `QCalendarBackend::monthsInYear` of a proleptic calendar without a year zero. -/
def monthsInYear (year : ℤ) : ℤ := if year > 0 ∨ year < 0 then 12 else 0

/-- `QCalendarBackend::daysInYear` -/
def daysInYear (isLeapYear : ℤ → Bool) (year : ℤ) : ℤ :=
  if monthsInYear year ≠ 0 then if isLeapYear year then 366 else 365 else 0

/-- `QCalendarBackend::isDateValid`, with the calendar's `daysInMonth`. -/
def isDateValid (daysInMonth : ℤ → ℤ → ℤ) (year month day : ℤ) : Bool :=
  decide (day > 0 ∧ day ≤ daysInMonth month year)

namespace QCalendarBackend

/-- The date after `date`; year 1 follows year -1. -/
def nextDay (c : QCalendarBackend) (date : YearMonthDay) : YearMonthDay :=
  if date.day < c.daysInMonth date.month date.year then
    { date with day := date.day + 1 }
  else if date.month < 12 then
    { date with month := date.month + 1, day := 1 }
  else
    { year := if date.year = -1 then 1 else date.year + 1, month := 1, day := 1 }

/-- Day numbers and dates correspond one to one, in calendar order. -/
structure DayCount (c : QCalendarBackend) : Prop where
  dateToJulianDay_julianDayToDate : ∀ jd,
    c.dateToJulianDay (c.julianDayToDate jd).year (c.julianDayToDate jd).month
      (c.julianDayToDate jd).day = some jd
  year_ne_zero : ∀ jd, (c.julianDayToDate jd).year ≠ 0
  one_le_day : ∀ jd, 1 ≤ (c.julianDayToDate jd).day
  day_le_daysInMonth : ∀ jd, (c.julianDayToDate jd).day ≤
    c.daysInMonth (c.julianDayToDate jd).month (c.julianDayToDate jd).year
  julianDayToDate_dateToJulianDay : ∀ year month day, year ≠ 0 → 1 ≤ day →
    day ≤ c.daysInMonth month year → ∃ jd, c.dateToJulianDay year month day = some jd ∧
      c.julianDayToDate jd = { year := year, month := month, day := day }
  julianDayToDate_succ : ∀ jd,
    c.julianDayToDate (jd + 1) = c.nextDay (c.julianDayToDate jd)
  /-- The first days of two years in a row are as far apart as `daysInYear` says. -/
  daysInYear_eq : ∀ year jd jd', year ≠ 0 → c.dateToJulianDay year 1 1 = some jd →
    c.dateToJulianDay (if year = -1 then 1 else year + 1) 1 1 = some jd' →
    jd' = jd + c.daysInYear year

end QCalendarBackend

/-! ## Months in a row -/

/-- Years without a zero, numbered in a row. -/
def yearIndex (year : ℤ) : ℤ := if year < 0 then year + 1 else year

/-- The year with this number. -/
def yearOfIndex (n : ℤ) : ℤ := if n > 0 then n else n - 1

/-- All months of all years, numbered in a row. -/
def monthIndex (year month : ℤ) : ℤ := 12 * yearIndex year + (month - 1)

@[simp] theorem yearIndex_yearOfIndex (n : ℤ) : yearIndex (yearOfIndex n) = n := by
  unfold yearIndex yearOfIndex
  split <;> split <;> omega

theorem yearOfIndex_ne_zero (n : ℤ) : yearOfIndex n ≠ 0 := by
  unfold yearOfIndex
  split <;> omega

theorem yearIndex_inj {y y' : ℤ} (hy : y ≠ 0) (hy' : y' ≠ 0) (h : yearIndex y = yearIndex y') :
    y = y' := by
  unfold yearIndex at h
  split at h <;> split at h <;> omega

theorem yearIndex_next (year : ℤ) :
    yearIndex (if year = -1 then 1 else year + 1) = yearIndex year + 1 := by
  unfold yearIndex
  split <;> split <;> split at * <;> omega

theorem next_ne_zero (year : ℤ) : (if year = -1 then 1 else year + 1) ≠ 0 := by
  split <;> omega

/-- A calendar seen as a tiling of the day numbers by months. -/
structure MonthTiling (c : QCalendarBackend) (start : ℤ → ℤ) : Prop where
  daysInMonth_pos : ∀ year month, year ≠ 0 → 1 ≤ month → month ≤ 12 → 0 < c.daysInMonth month year
  month_of_pos : ∀ year month, 0 < c.daysInMonth month year → 1 ≤ month ∧ month ≤ 12
  start_succ : ∀ year month, year ≠ 0 → 1 ≤ month → month ≤ 12 →
    start (monthIndex year month + 1) = start (monthIndex year month) + c.daysInMonth month year
  start_next_year : ∀ year, year ≠ 0 →
    start (monthIndex year 12 + 1) = start (monthIndex year 1) + c.daysInYear year
  dateToJulianDay_eq : ∀ year month day, year ≠ 0 → 1 ≤ day → day ≤ c.daysInMonth month year →
    c.dateToJulianDay year month day = some (start (monthIndex year month) + (day - 1))
  year_ne_zero : ∀ jd, (c.julianDayToDate jd).year ≠ 0
  one_le_month : ∀ jd, 1 ≤ (c.julianDayToDate jd).month
  month_le : ∀ jd, (c.julianDayToDate jd).month ≤ 12
  one_le_day : ∀ jd, 1 ≤ (c.julianDayToDate jd).day
  start_eq : ∀ jd, start (monthIndex (c.julianDayToDate jd).year (c.julianDayToDate jd).month) +
    ((c.julianDayToDate jd).day - 1) = jd
  lt_start : ∀ jd,
    jd < start (monthIndex (c.julianDayToDate jd).year (c.julianDayToDate jd).month + 1)

namespace MonthTiling

variable {c : QCalendarBackend} {start : ℤ → ℤ}

theorem tiling (ht : MonthTiling c start) : Tiling start := by
  intro k
  have hne := yearOfIndex_ne_zero (k / 12)
  have hk : monthIndex (yearOfIndex (k / 12)) (k % 12 + 1) = k := by
    unfold monthIndex
    rw [yearIndex_yearOfIndex]
    omega
  have hpos := ht.daysInMonth_pos (yearOfIndex (k / 12)) (k % 12 + 1) hne (by omega) (by omega)
  have hsucc := ht.start_succ (yearOfIndex (k / 12)) (k % 12 + 1) hne (by omega) (by omega)
  rw [hk] at hsucc
  omega

theorem eq_of_start (ht : MonthTiling c start) {date : YearMonthDay} {jd : ℤ}
    (hy : date.year ≠ 0) (hd : 1 ≤ date.day) (hd' : date.day ≤ c.daysInMonth date.month date.year)
    (h : start (monthIndex date.year date.month) + (date.day - 1) = jd) :
    c.julianDayToDate jd = date := by
  obtain ⟨hm, hm'⟩ := ht.month_of_pos date.year date.month (by omega)
  have hsucc := ht.start_succ date.year date.month hy hm hm'
  have hstart := ht.start_eq jd
  have hlt := ht.lt_start jd
  have hday := ht.one_le_day jd
  have hmonth := ht.one_le_month jd
  have hmonth' := ht.month_le jd
  have hindex := ht.tiling.eq_of_between (k := jd) (by omega) hlt
    (show start (monthIndex date.year date.month) ≤ jd by omega) (by omega)
  have hidx := hindex
  unfold monthIndex at hindex
  have hyear := yearIndex_inj (ht.year_ne_zero jd) hy (by omega)
  rw [hidx] at hstart
  cases date with
  | mk y m d =>
    generalize c.julianDayToDate jd = found at *
    cases found with
    | mk y' m' d' =>
      simp only at *
      rw [YearMonthDay.mk.injEq]
      rw [hyear] at hindex
      omega

theorem day_le_daysInMonth (ht : MonthTiling c start) (jd : ℤ) : (c.julianDayToDate jd).day ≤
    c.daysInMonth (c.julianDayToDate jd).month (c.julianDayToDate jd).year := by
  have hsucc := ht.start_succ _ _ (ht.year_ne_zero jd) (ht.one_le_month jd) (ht.month_le jd)
  have hstart := ht.start_eq jd
  have hlt := ht.lt_start jd
  omega

theorem julianDayToDate_succ (ht : MonthTiling c start) (jd : ℤ) :
    c.julianDayToDate (jd + 1) = c.nextDay (c.julianDayToDate jd) := by
  have hy := ht.year_ne_zero jd
  have hm := ht.one_le_month jd
  have hm' := ht.month_le jd
  have hd := ht.one_le_day jd
  have hd' := ht.day_le_daysInMonth jd
  have hstart := ht.start_eq jd
  generalize c.julianDayToDate jd = date at *
  have hsucc := ht.start_succ date.year date.month hy hm hm'
  unfold QCalendarBackend.nextDay
  by_cases hday : date.day < c.daysInMonth date.month date.year
  · rw [if_pos hday]
    exact ht.eq_of_start hy (by show 1 ≤ date.day + 1; omega) hday (by
      show start (monthIndex date.year date.month) + (date.day + 1 - 1) = jd + 1
      omega)
  rw [if_neg hday]
  by_cases hmonth : date.month < 12
  · rw [if_pos hmonth]
    have hpos := ht.daysInMonth_pos date.year (date.month + 1) hy (by omega) (by omega)
    have hindex : monthIndex date.year (date.month + 1) = monthIndex date.year date.month + 1 := by
      unfold monthIndex
      omega
    exact ht.eq_of_start hy (le_refl 1) hpos (by
      show start (monthIndex date.year (date.month + 1)) + (1 - 1) = jd + 1
      rw [hindex]
      omega)
  rw [if_neg hmonth]
  have hne := next_ne_zero date.year
  have hpos := ht.daysInMonth_pos _ 1 hne (by omega) (by omega)
  have hindex : monthIndex (if date.year = -1 then 1 else date.year + 1) 1 =
      monthIndex date.year date.month + 1 := by
    unfold monthIndex
    rw [yearIndex_next]
    omega
  exact ht.eq_of_start hne (le_refl 1) hpos (by
    show start (monthIndex (if date.year = -1 then 1 else date.year + 1) 1) + (1 - 1) = jd + 1
    rw [hindex]
    omega)

theorem daysInYear_eq (ht : MonthTiling c start) {year jd jd' : ℤ} (hy : year ≠ 0)
    (hjd : c.dateToJulianDay year 1 1 = some jd)
    (hjd' : c.dateToJulianDay (if year = -1 then 1 else year + 1) 1 1 = some jd') :
    jd' = jd + c.daysInYear year := by
  have hne := next_ne_zero year
  have hlen := ht.daysInMonth_pos year 1 hy (by omega) (by omega)
  have hlen' := ht.daysInMonth_pos _ 1 hne (by omega) (by omega)
  rw [ht.dateToJulianDay_eq year 1 1 hy (by omega) hlen, Option.some.injEq] at hjd
  rw [ht.dateToJulianDay_eq _ 1 1 hne (by omega) hlen', Option.some.injEq] at hjd'
  have hindex : monthIndex (if year = -1 then 1 else year + 1) 1 = monthIndex year 12 + 1 := by
    unfold monthIndex
    rw [yearIndex_next]
    omega
  have hnext := ht.start_next_year year hy
  rw [hindex] at hjd'
  omega

theorem dayCount (ht : MonthTiling c start) : c.DayCount := by
  constructor
  · intro jd
    rw [ht.dateToJulianDay_eq _ _ _ (ht.year_ne_zero jd) (ht.one_le_day jd)
      (ht.day_le_daysInMonth jd), ht.start_eq jd]
  · exact ht.year_ne_zero
  · exact ht.one_le_day
  · exact ht.day_le_daysInMonth
  · intro year month day hy hd hd'
    have hdate := ht.dateToJulianDay_eq year month day hy hd hd'
    exact ⟨_, hdate, @eq_of_start _ _ ht ⟨year, month, day⟩ _ hy hd hd' rfl⟩
  · exact ht.julianDayToDate_succ
  · intro year jd jd' hy hjd hjd'
    exact ht.daysInYear_eq hy hjd hjd'

end MonthTiling

end QtBase.Time
