import QtBase.Time.SubstituteYears

/-! Where the months of a Gregorian year start. -/
namespace QtBase.Time

open QtBase.Lib QRoundingDown

namespace QGregorianCalendar

/-- The day number of the first of a month. -/
def monthFirst (year month : ℤ) : ℤ :=
  QRomanCalendar.monthStart yearStart BaseJd (monthIndex year month)

/-- The days before a month, February 29th not counted. -/
def daysBefore (month : ℤ) : ℤ :=
  [0, 0, 31, 59, 90, 120, 151, 181, 212, 243, 273, 304, 334].getD month.toNat 0

variable {year month : ℤ}

theorem monthLength_february (year : ℤ) :
    monthLength 2 year = if leapTest year then 29 else 28 := rfl

theorem monthLength_of_ne (h : month ≠ 2) (year : ℤ) :
    monthLength month year = monthLength month 1 := by
  unfold monthLength
  rw [if_neg h, if_neg h]

theorem monthLength_range (year : ℤ) (hm : 1 ≤ month) (hm' : month ≤ 12) :
    28 ≤ monthLength month year ∧ monthLength month year ≤ 31 := by
  by_cases hfeb : month = 2
  · rw [hfeb, monthLength_february]
    split <;> decide
  · rw [monthLength_of_ne hfeb]
    interval_cases month <;> decide

theorem daysBefore_succ (year : ℤ) (hm : 1 ≤ month) (hm' : month ≤ 11) :
    daysBefore (month + 1) + (if leapTest year = true ∧ 2 < month + 1 then 1 else 0) =
      daysBefore month + (if leapTest year = true ∧ 2 < month then 1 else 0) +
        monthLength month year := by
  by_cases hfeb : month = 2
  · rw [hfeb, monthLength_february]
    cases leapTest year <;> decide
  · rw [monthLength_of_ne hfeb]
    cases leapTest year <;> interval_cases month <;> first | decide | exact absurd rfl hfeb

theorem monthFirst_julian (hy : year ≠ 0) (hm : 1 ≤ month) (hm' : month ≤ 12) :
    julianFromParts year month 1 = some (monthFirst year month) := by
  have hlen := monthLength_range year hm hm'
  rw [julianFromParts_eq hy (by decide) (by omega), Int.sub_self, Int.add_zero]
  rfl

theorem julianFromParts_none (h : month < 1 ∨ month > 12) (day : ℤ) :
    julianFromParts year month day = none := by
  have hlen : monthLength month year = 0 := if_pos h
  have hvalid : validParts year month day = false := by
    unfold validParts
    rw [hlen, decide_eq_false_iff_not]
    omega
  unfold julianFromParts
  rw [hvalid]
  rfl

theorem partsFromJulian_monthFirst {o : ℤ} (hy : year ≠ 0) (ho : 0 ≤ o)
    (ho' : o < monthLength month year) :
    partsFromJulian (monthFirst year month + o) =
      { year := year, month := month, day := o + 1 } := by
  refine @MonthTiling.eq_of_start _ _ monthTiling { year := year, month := month, day := o + 1 } _
    hy ?_ ?_ ?_
  · show 1 ≤ o + 1
    omega
  · show o + 1 ≤ QRomanCalendar.daysInMonth isLeapYear month year
    rw [← monthLength_eq hy]
    omega
  · show monthFirst year month + (o + 1 - 1) = monthFirst year month + o
    omega

theorem monthFirst_january (hy : year ≠ 0) : monthFirst year 1 = firstDay (yearIndex year) := by
  have hjulian := monthFirst_julian hy (Int.le_refl 1) (by decide)
  rw [january_first hy, Option.some.injEq] at hjulian
  exact hjulian.symm

theorem monthFirst_succ (hy : year ≠ 0) (hm : 1 ≤ month) (hm' : month ≤ 12) :
    monthFirst year (month + 1) = monthFirst year month + monthLength month year := by
  have hsucc := monthTiling.start_succ year month hy hm hm'
  have hindex : monthIndex year (month + 1) = monthIndex year month + 1 := by
    unfold monthIndex
    omega
  rw [monthLength_eq hy]
  unfold monthFirst
  rw [hindex]
  exact hsucc

theorem monthFirst_eq (hy : year ≠ 0) (hm : 1 ≤ month) (hm' : month ≤ 12) :
    monthFirst year month = firstDay (yearIndex year) + daysBefore month +
      if leapTest year = true ∧ 2 < month then 1 else 0 := by
  obtain ⟨k, rfl⟩ : ∃ k : ℕ, month = k + 1 := ⟨(month - 1).toNat, by omega⟩
  induction k with
  | zero =>
    have hleap : ¬ (leapTest year = true ∧ (2 : ℤ) < 0 + 1) := fun h => absurd h.2 (by decide)
    rw [Nat.cast_zero, if_neg hleap]
    exact (monthFirst_january hy).trans (by show _ = _ + (0 : ℤ) + 0; omega)
  | succ k ih =>
    rw [Nat.cast_succ] at hm hm' ⊢
    have hpos : (1 : ℤ) ≤ k + 1 := by omega
    have hnext := monthFirst_succ hy hpos (by omega)
    have hdays := daysBefore_succ year hpos (by omega)
    have hprev := ih (by omega) (by omega)
    omega

/-! ## Days of a year -/

theorem partsFromJulian_firstDay {o : ℤ} (hy : year ≠ 0) (ho : 0 ≤ o)
    (ho' : o < 365 + if leapTest year then 1 else 0) :
    ∃ month day, partsFromJulian (firstDay (yearIndex year) + o) =
        { year := year, month := month, day := day } ∧ 1 ≤ month ∧ month ≤ 12 ∧
      1 ≤ day ∧ day ≤ monthLength month year ∧
      o + 1 = daysBefore month + day + if leapTest year = true ∧ 2 < month then 1 else 0 := by
  obtain ⟨jd, hjd⟩ : ∃ jd, jd = firstDay (yearIndex year) + o := ⟨_, rfl⟩
  have hstart := monthTiling.start_eq jd
  have hlt := monthTiling.lt_start jd
  have hyear := monthTiling.year_ne_zero jd
  have hmonth := monthTiling.one_le_month jd
  have hmonth' := monthTiling.month_le jd
  have hday := monthTiling.one_le_day jd
  have hday' := monthTiling.day_le_daysInMonth jd
  change QRomanCalendar.monthStart yearStart BaseJd (monthIndex (partsFromJulian jd).year
    (partsFromJulian jd).month) + ((partsFromJulian jd).day - 1) = jd at hstart
  change jd < QRomanCalendar.monthStart yearStart BaseJd (monthIndex (partsFromJulian jd).year
    (partsFromJulian jd).month + 1) at hlt
  change (partsFromJulian jd).year ≠ 0 at hyear
  change 1 ≤ (partsFromJulian jd).month at hmonth
  change (partsFromJulian jd).month ≤ 12 at hmonth'
  change 1 ≤ (partsFromJulian jd).day at hday
  change (partsFromJulian jd).day ≤ QRomanCalendar.daysInMonth isLeapYear
    (partsFromJulian jd).month (partsFromJulian jd).year at hday'
  rw [← hjd]
  generalize partsFromJulian jd = parts at hstart hlt hyear hmonth hmonth' hday hday' ⊢
  obtain ⟨y, m, d⟩ := parts
  dsimp only at hstart hlt hyear hmonth hmonth' hday hday'
  -- the month is one of this year, which starts on `firstDay` and ends before the next one
  have hjanuary : QRomanCalendar.monthStart yearStart BaseJd (monthIndex year 1) =
      firstDay (yearIndex year) := monthFirst_january hy
  have hnext : QRomanCalendar.monthStart yearStart BaseJd (monthIndex year 12 + 1) =
      firstDay (yearIndex year) + 365 + if leapTest year then 1 else 0 := by
    have hdec := monthFirst_succ hy (show (1 : ℤ) ≤ 12 by decide) (by decide)
    have hfirst := monthFirst_eq hy (show (1 : ℤ) ≤ 12 by decide) (by decide)
    have hlen := monthLength_december year
    have hbefore : daysBefore 12 = 334 := rfl
    have hindex : monthIndex year (12 + 1) = monthIndex year 12 + 1 := by
      unfold monthIndex
      omega
    rw [monthFirst, hindex] at hdec
    rw [hdec, hfirst, hlen, hbefore]
    cases leapTest year <;> simp <;> omega
  have hlow : monthIndex year 1 < monthIndex y m + 1 :=
    monthTiling.tiling.strictMono.lt_iff_lt.1 (by rw [hjanuary]; omega)
  have hhigh : monthIndex y m < monthIndex year 12 + 1 :=
    monthTiling.tiling.strictMono.lt_iff_lt.1 (by rw [hnext]; omega)
  have hsame : y = year := yearIndex_inj hyear hy (by unfold monthIndex at hlow hhigh; omega)
  subst hsame
  have hfirst := monthFirst_eq hy hmonth hmonth'
  unfold monthFirst at hfirst
  rw [← monthLength_eq hy] at hday'
  exact ⟨m, d, rfl, hmonth, hmonth', hday, hday', by omega⟩

end QGregorianCalendar

end QtBase.Time
