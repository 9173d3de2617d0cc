import QtBase.Core.Exec
import QtBase.Time.RomanCalendars

/-! Dates as day numbers, and their year, month and day. -/
namespace QtBase.Time

open QRoundingDown

/-- `QCalendar::YearMonthDay::isValid` -/
def YearMonthDay.isValid (parts : YearMonthDay) : Bool :=
  decide (parts.month ≠ Unspecified ∧ parts.day ≠ Unspecified)

namespace QGregorianCalendar

def weekDayOfJulian (jd : ℤ) : ℤ := qMod 7 jd + 1

end QGregorianCalendar

structure QDate where
  jd : ℤ
  deriving DecidableEq, Repr

namespace QDate

def nullJd : ℤ := -9223372036854775808

/-- The first day of the least `int` year. -/
def minJd : ℤ := -784350574879

/-- The last day of the greatest `int` year. -/
def maxJd : ℤ := 784354017364

/-- The default constructor. -/
def null : QDate := { jd := nullJd }

def isValid (date : QDate) : Bool := decide (date.jd ≥ minJd ∧ date.jd ≤ maxJd)

def isNull (date : QDate) : Bool := !date.isValid

def fromJulianDay (jd : ℤ) : QDate := if jd ≥ minJd ∧ jd ≤ maxJd then { jd := jd } else null

/-- The constructor from the year, month and day. -/
def ofParts (y m d : ℤ) : QDate :=
  { jd := (QGregorianCalendar.julianFromParts y m d).getD nullJd }

/-- `year()`, `month()` and `day()` differ in the part that they read. -/
def part (f : YearMonthDay → ℤ) (date : QDate) : ℤ :=
  if date.isValid then
    let parts := QGregorianCalendar.partsFromJulian date.jd
    if parts.isValid then f parts else 0
  else 0

def year (date : QDate) : ℤ := date.part YearMonthDay.year

def month (date : QDate) : ℤ := date.part YearMonthDay.month

def day (date : QDate) : ℤ := date.part YearMonthDay.day

def dayOfWeek (date : QDate) : ℤ :=
  if date.isValid then QGregorianCalendar.weekDayOfJulian date.jd else 0

variable {date : QDate}

theorem isValid_iff : date.isValid = true ↔ minJd ≤ date.jd ∧ date.jd ≤ maxJd := by
  unfold isValid
  rw [decide_eq_true_eq]

theorem fromJulianDay_of_range {jd : ℤ} (h : minJd ≤ jd ∧ jd ≤ maxJd) :
    fromJulianDay jd = { jd := jd } := if_pos h

theorem fromJulianDay_self (h : date.isValid = true) : fromJulianDay date.jd = date :=
  fromJulianDay_of_range (isValid_iff.1 h)

end QDate

/-! ## Parts of a date -/

theorem MonthTiling.isValid_parts {c : QCalendarBackend} {start : ℤ → ℤ} (ht : MonthTiling c start)
    (jd : ℤ) : (c.julianDayToDate jd).isValid = true := by
  have hm := ht.one_le_month jd
  have hd := ht.one_le_day jd
  apply decide_eq_true
  unfold Unspecified
  omega

theorem MonthTiling.year_mono {c : QCalendarBackend} {start : ℤ → ℤ} (ht : MonthTiling c start)
    {jd jd' : ℤ} (h : jd ≤ jd') : (c.julianDayToDate jd).year ≤ (c.julianDayToDate jd').year := by
  have hstart := ht.start_eq jd
  have hlt := ht.lt_start jd'
  have hday := ht.one_le_day jd
  have hindex : monthIndex (c.julianDayToDate jd).year (c.julianDayToDate jd).month <
      monthIndex (c.julianDayToDate jd').year (c.julianDayToDate jd').month + 1 :=
    ht.tiling.strictMono.lt_iff_lt.1 (by omega)
  have hmonth := ht.one_le_month jd
  have hmonth' := ht.month_le jd'
  have hyear := ht.year_ne_zero jd
  unfold monthIndex yearIndex at hindex
  split at hindex <;> split at hindex <;> omega

namespace QDate

variable {date : QDate}

theorem part_of_isValid (h : date.isValid = true) (f : YearMonthDay → ℤ) :
    date.part f = f (QGregorianCalendar.partsFromJulian date.jd) := by
  have hparts : (QGregorianCalendar.partsFromJulian date.jd).isValid = true :=
    QGregorianCalendar.monthTiling.isValid_parts date.jd
  unfold part
  rw [if_pos h, if_pos hparts]

theorem year_mono {other : QDate} (h : date.isValid = true) (hother : other.isValid = true)
    (hle : date.jd ≤ other.jd) : date.year ≤ other.year := by
  unfold year
  rw [part_of_isValid h, part_of_isValid hother]
  exact QGregorianCalendar.monthTiling.year_mono hle

end QDate

end QtBase.Time
