import QtBase.Time.PosixDate

/-! When `calculatePosixDate` returns the day that a rule names. -/
namespace QtBase.Time

open QGregorianCalendar QRoundingDown List Option QDate

/-! ## Dates and sums of days -/

namespace QDate

variable {date : QDate} {ndays jd year month : ℤ}

theorem isValid_mk (h : minJd ≤ jd ∧ jd ≤ maxJd) : ({ jd := jd } : QDate).isValid = true :=
  isValid_iff.2 h

theorem addDays_of_range (hdate : date.isValid = true)
    (h : minJd ≤ date.jd + ndays ∧ date.jd + ndays ≤ maxJd) :
    date.addDays ndays = { jd := date.jd + ndays } := by
  have hfits : FitsQint64 (date.jd + ndays) := by
    unfold minJd maxJd at h
    unfold FitsQint64
    omega
  unfold addDays isNull
  rw [hdate, if_neg (by decide), if_neg (not_not.2 hfits), fromJulianDay_of_range h]

theorem addDays_of_out (h : date.jd + ndays < minJd ∨ maxJd < date.jd + ndays) :
    date.addDays ndays = null := by
  unfold addDays
  split
  · rfl
  · split
    · rfl
    · exact if_neg (by omega)

theorem addDays_null (ndays : ℤ) : null.addDays ndays = null := if_pos rfl

theorem month_null : null.month = 0 := rfl

theorem ofParts_none (h : month < 1 ∨ month > 12) : ofParts year month 1 = null := by
  unfold ofParts
  rw [julianFromParts_none h]
  rfl

theorem ofParts_first (hy : year ≠ 0) (hm : 1 ≤ month) (hm' : month ≤ 12) :
    ofParts year month 1 = { jd := monthFirst year month } := by
  unfold ofParts
  rw [monthFirst_julian hy hm hm']
  rfl

/-! ### Weeks -/

theorem firstDay_of_year {jd : ℤ} (hyear : (partsFromJulian jd).year = year) :
    year ≠ 0 ∧ firstDay (yearIndex year) ≤ jd ∧
      jd < firstDay (yearIndex (if year = -1 then 1 else year + 1)) := by
  obtain ⟨parts, hparts⟩ : ∃ parts, parts = partsFromJulian jd := ⟨_, rfl⟩
  have hstart : monthFirst parts.year parts.month + (parts.day - 1) = jd :=
    hparts ▸ monthTiling.start_eq jd
  have hlt : jd < QRomanCalendar.monthStart yearStart BaseJd
      (monthIndex parts.year parts.month + 1) := hparts ▸ monthTiling.lt_start jd
  have hne : parts.year ≠ 0 := hparts ▸ monthTiling.year_ne_zero jd
  have hmonth : 1 ≤ parts.month := hparts ▸ monthTiling.one_le_month jd
  have hmonth' : parts.month ≤ 12 := hparts ▸ monthTiling.month_le jd
  have hday : 1 ≤ parts.day := hparts ▸ monthTiling.one_le_day jd
  obtain rfl : parts.year = year := hparts ▸ hyear
  have hmono := monthTiling.tiling.strictMono.monotone
  have hlow : monthFirst parts.year 1 ≤ monthFirst parts.year parts.month :=
    hmono (by unfold monthIndex; omega)
  have hhigh := monthFirst_january (next_ne_zero parts.year)
  have hnext : QRomanCalendar.monthStart yearStart BaseJd (monthIndex parts.year parts.month + 1) ≤
      monthFirst (if parts.year = -1 then 1 else parts.year + 1) 1 := by
    apply hmono
    rw [monthIndex, monthIndex, yearIndex_next]
    omega
  rw [monthFirst_january hne] at hlow
  omega

/-- The Monday of the week with January 4th. -/
def weeksFrom (year : ℤ) : ℤ :=
  let jan4 := firstDay (yearIndex year) + 3
  jan4 - (weekDayOfJulian jan4 - 1)

/-- Week numbers are those of ISO 8601, but for the last two days there are. -/
theorem weekNumber_iso (h : date.isValid = true) (yearNumber : ℤ) :
    (date.jd + 1 < maxJd → ∃ week year, date.weekNumber yearNumber = (week, year) ∧ 1 ≤ week ∧
      date.jd = weeksFrom year + 7 * (week - 1) + (date.dayOfWeek - 1) ∧
      date.jd < weeksFrom (if year = -1 then 1 else year + 1)) ∧
    (maxJd ≤ date.jd + 1 → date.weekNumber yearNumber = (0, 0)) := by
  have hrange := isValid_iff.1 h
  have hdow : date.dayOfWeek = date.jd % 7 + 1 := by
    unfold dayOfWeek weekDayOfJulian
    rw [if_pos h, qMod_eq (by decide)]
  unfold weekNumber
  rw [h, hdow]
  unfold minJd maxJd at *
  constructor
  · intro hlast
    obtain ⟨thursday, hthursday⟩ : ∃ t, t = date.jd + (4 - (date.jd % 7 + 1)) := ⟨_, rfl⟩
    have hvalid : ({ jd := thursday } : QDate).isValid = true :=
      isValid_mk (by unfold minJd maxJd; omega)
    obtain ⟨year, hyear⟩ : ∃ y, y = (partsFromJulian thursday).year := ⟨_, rfl⟩
    obtain ⟨hne, hlow, hhigh⟩ := firstDay_of_year hyear.symm
    have hyear' : ({ jd := thursday } : QDate).year = year :=
      (part_of_isValid hvalid _).trans hyear.symm
    rw [addDays_of_range h (by unfold minJd maxJd; omega), ← hthursday]
    have hdoy : ({ jd := thursday } : QDate).dayOfYear =
        thursday - firstDay (yearIndex year) + 1 := by
      unfold dayOfYear
      rw [if_pos hvalid, hyear', january_first hne]
    refine ⟨(thursday - firstDay (yearIndex year) + 1 + 6).tdiv 7, year, ?_, ?_⟩
    · show (_, _) = _
      rw [hdoy, hyear']
    · unfold weeksFrom weekDayOfJulian
      simp only [qMod_eq (show (0 : ℤ) < 7 by decide)]
      rw [Int.tdiv_eq_ediv_of_nonneg (by omega)]
      omega
  · intro hlast
    rw [addDays_of_out (by unfold maxJd; omega)]
    rfl

/-- Monday, December 30th 2024 is in the first week of 2025. -/
theorem weekNumber_iso_monday : ∃ week year,
    (QDate.mk 2460675).weekNumber 0 = (week, year) ∧ 1 ≤ week ∧
      2460675 = weeksFrom year + 7 * (week - 1) + ((QDate.mk 2460675).dayOfWeek - 1) ∧
      2460675 < weeksFrom (if year = -1 then 1 else year + 1) :=
  (@weekNumber_iso (QDate.mk 2460675) rfl 0).1 (by decide)

end QDate

/-! ## The last loop -/

theorem weeksBack_null {month : ℤ} (h : month ≠ 0) (rounds : ℕ) :
    weeksBack month rounds null = .error .diverge := by
  induction rounds with
  | zero => rfl
  | succ rounds ih =>
    unfold weeksBack
    rw [month_null, if_pos h.symm, addDays_null, ih]

theorem weeksBack_month {month : ℤ} {rounds : ℕ} {date found : QDate}
    (h : weeksBack month rounds date = .ok found) : found.month = month := by
  induction rounds generalizing date with
  | zero => cases h
  | succ rounds ih =>
    unfold weeksBack at h
    split at h
    · exact ih h
    · rename_i hmonth
      cases h
      exact not_not.1 hmonth

/-! ## The range of months -/

variable {year month : ℤ}

theorem daysBefore_range (hm : 1 ≤ month) (hm' : month ≤ 12) :
    0 ≤ daysBefore month ∧ daysBefore month ≤ 334 ∧ (2 ≤ month → 31 ≤ daysBefore month) ∧
      (month ≤ 11 → daysBefore month ≤ 304) := by
  interval_cases month <;> decide

theorem daysBefore_add_length (year : ℤ) (hm : 1 ≤ month) (hm' : month ≤ 12) :
    daysBefore month + monthLength month year +
      (if leapTest year = true ∧ 2 < month then 1 else 0) ≤
      365 + if leapTest year then 1 else 0 := by
  by_cases hfeb : month = 2
  · rw [hfeb, monthLength_february]
    cases leapTest year <;> decide
  · rw [monthLength_of_ne hfeb]
    cases leapTest year <;> interval_cases month <;> decide

theorem firstDay_range (h : IsYear year) :
    (year ≠ -2147483648 → minJd + 28 ≤ firstDay (yearIndex year)) ∧
      (year ≠ 2147483647 → firstDay (yearIndex year) + 369 ≤ maxJd) := by
  obtain ⟨hne, hmin, hmax⟩ := h
  have hindex : yearIndex year = if year < 0 then year + 1 else year := rfl
  generalize yearIndex year = n at hindex
  unfold firstDay yearStart BaseJd QRomanCalendrical.LeapDayGregorian1Bce minJd maxJd
  constructor
  · intro hfirst
    have hn : -2147483646 ≤ n := by
      split at hindex <;> omega
    omega
  · intro hlast
    have hn : n ≤ 2147483646 := by
      split at hindex <;> omega
    omega

theorem monthFirst_range (h : IsYear year) (hm : 1 ≤ month) (hm' : month ≤ 12) :
    minJd ≤ monthFirst year month ∧
      monthFirst year month + monthLength month year - 1 ≤ maxJd := by
  have hfirst := monthFirst_eq h.1 hm hm'
  have hbefore := daysBefore_range hm hm'
  have hlength := daysBefore_add_length year hm hm'
  obtain ⟨hmin, hmax⟩ := days_range h
  constructor
  · split at hfirst <;> omega
  · omega

theorem monthFirst_early (h : IsYear year) (hm : 1 ≤ month) (hm' : month ≤ 12)
    (hfirst : ¬ (year = -2147483648 ∧ month = 1)) :
    minJd + 28 ≤ monthFirst year month := by
  have heq := monthFirst_eq h.1 hm hm'
  have hbefore := daysBefore_range hm hm'
  obtain ⟨hmin, -⟩ := days_range h
  obtain ⟨hlater, -⟩ := firstDay_range h
  by_cases hjan : month = 1
  · have hstart := hlater fun hyear => hfirst ⟨hyear, hjan⟩
    split at heq <;> omega
  · have h31 := hbefore.2.2.1 (by omega)
    split at heq <;> omega

theorem monthFirst_late (h : IsYear year) (hm : 1 ≤ month) (hm' : month ≤ 12)
    (hlast : ¬ (year = 2147483647 ∧ month = 12)) :
    monthFirst year month + 34 ≤ maxJd := by
  have heq := monthFirst_eq h.1 hm hm'
  have hbefore := daysBefore_range hm hm'
  obtain ⟨-, hmax⟩ := days_range h
  obtain ⟨-, hearlier⟩ := firstDay_range h
  by_cases hdec : month = 12
  · have hstart := hearlier fun hyear => hlast ⟨hyear, hdec⟩
    split at heq <;> omega
  · have h304 := hbefore.2.2.2 (by omega)
    split at heq <;> split at hmax <;> omega

theorem monthFirst_first : monthFirst (-2147483648) 1 = minJd := by decide

theorem monthFirst_last : monthFirst 2147483647 12 + 30 = maxJd := by decide

/-! ## Week-days of a month -/

theorem dayOfWeek_first (h : IsYear year) (hm : 1 ≤ month) (hm' : month ≤ 12) :
    (ofParts year month 1).dayOfWeek = weekDayOfJulian (monthFirst year month) := by
  obtain ⟨hmin, hmax⟩ := monthFirst_range h hm hm'
  have hlen := monthLength_range year hm hm'
  rw [ofParts_first h.1 hm hm']
  unfold dayOfWeek
  rw [if_pos (isValid_mk ⟨hmin, by omega⟩)]

/-- The days from the first of a month back to the week-day before it. -/
def dowShift (year month dow : ℤ) : ℤ :=
  let startDow := weekDayOfJulian (monthFirst year month)
  let dayOfWeek := if dow = 0 then 7 else dow
  if startDow ≤ dayOfWeek then dayOfWeek - startDow - 7 else dayOfWeek - startDow

variable {dow week : ℤ}

theorem dowShift_spec (year month : ℤ) (hd : 0 ≤ dow) (hd' : dow ≤ 7) :
    -7 ≤ dowShift year month dow ∧ dowShift year month dow ≤ -1 ∧
      weekDayOfJulian (monthFirst year month + dowShift year month dow) =
        if dow = 0 then 7 else dow := by
  unfold dowShift weekDayOfJulian
  simp only [qMod_eq (show (0 : ℤ) < 7 by decide)]
  obtain ⟨d, hdow⟩ : ∃ d, d = if dow = 0 then 7 else dow := ⟨_, rfl⟩
  have hrange : 1 ≤ d ∧ d ≤ 7 := by
    split at hdow <;> omega
  rw [← hdow]
  split <;> omega

theorem calculateDowDate_eq (h : IsYear year) (hm : 1 ≤ month) (hm' : month ≤ 12)
    (hw : dow = 0 ∨ 1 ≤ week ∧ week ≤ 5) (hd : 0 ≤ dow) (hd' : dow ≤ 7) (hfits : FitsInt (week * 7))
    (rounds : ℕ) :
    calculateDowDate rounds year month dow week =
      weeksBack month rounds ((({ jd := monthFirst year month } : QDate).addDays
        (dowShift year month dow)).addDays (week * 7)) := by
  unfold calculateDowDate
  rw [if_neg (by omega)]
  dsimp only
  rw [dayOfWeek_first h hm hm', ofParts_first h.1 hm hm',
    checkedInt_of_fits hfits, ok_bind]
  congr 2
  unfold dowShift
  exact (apply_ite _ _ _ _).symm

theorem weeksBack_inside {o : ℤ} (h : IsYear year) (hm : 1 ≤ month) (hm' : month ≤ 12)
    (ho : 0 ≤ o) (ho' : o < monthLength month year) (rounds : ℕ) :
    weeksBack month (rounds + 1) { jd := monthFirst year month + o } =
      .ok { jd := monthFirst year month + o } := by
  obtain ⟨hmin, hmax⟩ := monthFirst_range h hm hm'
  have hmonth : ({ jd := monthFirst year month + o } : QDate).month = month := by
    unfold QDate.month
    rw [QDate.part_of_isValid (QDate.isValid_mk ⟨by omega, by omega⟩),
      partsFromJulian_monthFirst h.1 ho ho']
  unfold weeksBack
  rw [if_neg (not_not.2 hmonth)]

theorem tiling_add {start : ℤ → ℤ} (ht : QtBase.Lib.Tiling start) (k : ℤ) (n : ℕ) :
    start k + n ≤ start (k + n) := by
  induction n with
  | zero => simp
  | succ n ih =>
    have hnext := ht (k + n)
    rw [Int.add_assoc] at hnext
    simp
    omega

theorem month_after {o : ℤ} (hy : year ≠ 0) (hm : 1 ≤ month) (hm' : month ≤ 12)
    (ho : monthLength month year ≤ o) (ho' : o < monthLength month year + 11) :
    (partsFromJulian (monthFirst year month + o)).month ≠ month := by
  intro hsame
  obtain ⟨jd, hjd⟩ : ∃ jd, jd = monthFirst year month + o := ⟨_, rfl⟩
  rw [← hjd] at hsame
  have hnext := monthFirst_succ hy hm hm'
  have hindex : monthIndex year (month + 1) = monthIndex year month + 1 := by
    unfold monthIndex
    omega
  rw [monthFirst, hindex] at hnext
  have hstart := monthTiling.start_eq jd
  have hlt := monthTiling.lt_start jd
  have hday := monthTiling.one_le_day jd
  have hafter : monthIndex year month + 1 <
      monthIndex (backend.julianDayToDate jd).year (backend.julianDayToDate jd).month + 1 :=
    monthTiling.tiling.strictMono.lt_iff_lt.1 (by rw [hnext]; omega)
  -- the next month of this name is eleven months further
  have hyear : monthIndex year month + 12 ≤
      monthIndex (backend.julianDayToDate jd).year (backend.julianDayToDate jd).month := by
    change (backend.julianDayToDate jd).month = month at hsame
    unfold monthIndex at hafter ⊢
    omega
  have heleven := tiling_add monthTiling.tiling (monthIndex year month + 1) 11
  have hmono := monthTiling.tiling.strictMono.monotone hyear
  have htwelve : monthIndex year month + 1 + ((11 : ℕ) : ℤ) = monthIndex year month + 12 := by
    omega
  rw [htwelve, hnext] at heleven
  omega

theorem calculateDowDate_names (h : IsYear year) (hm : 1 ≤ month) (hm' : month ≤ 12) (hw : 1 ≤ week)
    (hw' : week ≤ 5) (hd : 0 ≤ dow) (hd' : dow ≤ 6)
    (hreach : (PosixDate.weekday month week dow).InReach year) :
    ∃ jd, calculateDowDate 2 year month dow week = .ok { jd := jd } ∧
      (QDate.minJd ≤ jd ∧ jd ≤ QDate.maxJd) ∧
      (PosixDate.weekday month week dow).Names year jd := by
  obtain ⟨hfirst, hlast⟩ := hreach
  obtain ⟨hmin, hmax⟩ := monthFirst_range h hm hm'
  have hearly := monthFirst_early h hm hm' hfirst
  have hlen := monthLength_range year hm hm'
  obtain ⟨hlow, hhigh, hdow⟩ := dowShift_spec year month hd (by omega)
  have hfits : FitsInt (week * 7) := by
    unfold FitsInt
    omega
  rw [calculateDowDate_eq h hm hm' (.inr ⟨hw, hw'⟩) hd (by omega) hfits]
  generalize hshift : dowShift year month dow = shift at hlow hhigh hdow ⊢
  -- the fifth week-day of the last month of all is a date if there is one
  have hlate : monthFirst year month + shift + week * 7 ≤ QDate.maxJd := by
    by_cases hmonth : year = 2147483647 ∧ month = 12
    · obtain ⟨rfl, rfl⟩ := hmonth
      have hend := monthFirst_last
      have hstart : weekDayOfJulian (monthFirst 2147483647 12) = 7 := by decide
      unfold dowShift at hshift
      dsimp only at hshift
      rw [hstart] at hshift
      have hfive : week = 5 → dow ≤ 2 := fun h5 => by
        by_contra hgt
        exact hlast ⟨rfl, rfl, h5, by omega⟩
      split at hshift <;> split at hshift <;> omega
    · have hlater := monthFirst_late h hm hm' hmonth
      omega
  have hdate : (({ jd := monthFirst year month } : QDate).addDays shift).addDays (week * 7) =
      { jd := monthFirst year month + (shift + week * 7) } := by
    have hvalid : ({ jd := monthFirst year month } : QDate).isValid = true :=
      QDate.isValid_mk ⟨hmin, by omega⟩
    rw [QDate.addDays_of_range hvalid ⟨by dsimp only; omega, by dsimp only; omega⟩,
      QDate.addDays_of_range (QDate.isValid_mk ⟨by dsimp only; omega, by dsimp only; omega⟩)
        ⟨by dsimp only; omega, by dsimp only; omega⟩, Int.add_assoc]
  have hnames : ∀ o k, o = shift + 7 * k → 0 ≤ o → o < monthLength month year →
      (if week = 5 then monthLength month year < o + 1 + 7
        else 7 * (week - 1) < o + 1 ∧ o + 1 ≤ 7 * week) →
      (PosixDate.weekday month week dow).Names year (monthFirst year month + o) := by
    intro o k ho hpos hlt hweek
    unfold PosixDate.Names
    rw [partsFromJulian_monthFirst h.1 hpos hlt]
    refine ⟨rfl, rfl, ?_, hweek⟩
    rw [ho, ← Int.add_assoc, weekDayOfJulian_weeks, hdow]
  rw [hdate]
  by_cases hinside : shift + week * 7 < monthLength month year
  · refine ⟨_, weeksBack_inside h hm hm' (by omega) hinside 1, ⟨by omega, by omega⟩,
      hnames _ week (by omega) (by omega) hinside ?_⟩
    split <;> omega
  · have hother : ({ jd := monthFirst year month + (shift + week * 7) } : QDate).month ≠ month := by
      unfold QDate.month
      rw [QDate.part_of_isValid (QDate.isValid_mk ⟨by omega, by omega⟩)]
      exact month_after h.1 hm hm' (by omega) (by omega)
    have hback : ({ jd := monthFirst year month + (shift + week * 7) } : QDate).addDays (-7) =
        { jd := monthFirst year month + (shift + week * 7 - 7) } := by
      rw [QDate.addDays_of_range (QDate.isValid_mk ⟨by omega, by omega⟩)
        ⟨by dsimp only; omega, by dsimp only; omega⟩]
      congr 1
      dsimp only
      omega
    unfold weeksBack
    rw [if_pos hother, hback]
    refine ⟨_, weeksBack_inside h hm hm' (by omega) (by omega) 0, ⟨by omega, by omega⟩,
      hnames _ (week - 1) (by omega) (by omega) (by omega) ?_⟩
    split <;> omega

theorem calculateDowDate_stuck (h : IsYear year) (hm : 1 ≤ month) (hm' : month ≤ 12) (hw : 1 ≤ week)
    (hw' : week ≤ 5) (hd : 0 ≤ dow) (hd' : dow ≤ 6)
    (hreach : ¬ (PosixDate.weekday month week dow).InReach year) (rounds : ℕ) :
    calculateDowDate rounds year month dow week = .error .diverge := by
  obtain ⟨hmin, hmax⟩ := monthFirst_range h hm hm'
  have hlen := monthLength_range year hm hm'
  have hvalid : ({ jd := monthFirst year month } : QDate).isValid = true :=
    isValid_mk ⟨hmin, by omega⟩
  obtain ⟨hlow, hhigh, -⟩ := dowShift_spec year month hd (by omega)
  have hnull : (({ jd := monthFirst year month } : QDate).addDays
      (dowShift year month dow)).addDays (week * 7) = null := by
    unfold PosixDate.InReach at hreach
    by_cases hfirst : year = -2147483648 ∧ month = 1
    · obtain ⟨rfl, rfl⟩ := hfirst
      have hstart := monthFirst_first
      have hout : ({ jd := monthFirst (-2147483648) 1 } : QDate).addDays
          (dowShift (-2147483648) 1 dow) = null :=
        addDays_of_out (.inl (by dsimp only; omega))
      rw [hout, addDays_null]
    · obtain ⟨rfl, rfl, rfl, hlate⟩ : year = 2147483647 ∧ month = 12 ∧ week = 5 ∧ 2 < dow := by
        by_contra hnot
        exact hreach ⟨hfirst, hnot⟩
      have hend := monthFirst_last
      have hstart : weekDayOfJulian (monthFirst 2147483647 12) = 7 := by decide
      have hshift : dowShift 2147483647 12 dow = dow - 7 := by
        unfold dowShift
        dsimp only
        rw [hstart, if_neg (show ¬ dow = 0 by omega), if_neg (by omega)]
      have hstay := monthFirst_early h hm hm' (by decide)
      rw [hshift, addDays_of_range hvalid ⟨by dsimp only; omega, by dsimp only; omega⟩,
        addDays_of_out (.inr (by dsimp only; omega))]
  have hfits : FitsInt (week * 7) := by
    unfold FitsInt
    omega
  rw [calculateDowDate_eq h hm hm' (.inr ⟨hw, hw'⟩) hd (by omega) hfits, hnull]
  exact weeksBack_null (by omega) rounds

theorem calculateDowDate_invalid_iff (year month dow week : ℤ) :
    (∃ rounds date, calculateDowDate rounds year month dow week = .ok date ∧
      date.isValid = false) ↔ (PosixDate.weekday month week dow).Refused year := by
  have hcheck : (dow ≠ 0 ∧ (dow / 8 ≠ 0 ∨ month < 1 ∨ month > 12 ∨ week < 1 ∨ week > 5)) ↔
      dow ≠ 0 ∧ (dow < 0 ∨ dow > 7 ∨ month < 1 ∨ month > 12 ∨ week < 1 ∨ week > 5) := by
    omega
  unfold PosixDate.Refused
  constructor
  · rintro ⟨rounds, date, hcall, hinvalid⟩
    unfold calculateDowDate at hcall
    split at hcall
    · rename_i hbad
      exact .inl (hcheck.1 hbad)
    · rename_i hbad
      right
      obtain ⟨days, hdays, hloop⟩ := bind_eq_ok hcall
      have hmonth := weeksBack_month hloop
      have hzero : month = 0 := by
        rw [← hmonth]
        unfold QDate.month QDate.part
        rw [hinvalid]
        rfl
      exact ⟨by omega, hzero, (checkedInt_eq_ok hdays).1⟩
  · rintro (hbad | ⟨rfl, rfl, hfits⟩)
    · refine ⟨0, QDate.null, ?_, rfl⟩
      unfold calculateDowDate
      rw [if_pos (hcheck.2 hbad)]
      rfl
    · refine ⟨1, QDate.null, ?_, rfl⟩
      unfold calculateDowDate
      rw [if_neg (by omega)]
      dsimp only
      rw [QDate.ofParts_none (.inl (by decide)), QDate.addDays_null, QDate.addDays_null, ite_self,
        checkedInt_of_fits hfits, ok_bind, QDate.addDays_null]
      rfl

/-! ## Days of a year -/

theorem firstDay_last : firstDay (yearIndex 2147483647) + 364 = maxJd := by decide

/-- January 1st and a number of days: only after the last year of all there is no date. -/
theorem january_addDays (h : IsYear year) {o : ℤ} (ho : 0 ≤ o) (ho' : o ≤ 365) :
    if year = 2147483647 ∧ o = 365 then (ofParts year 1 1).addDays o = null
    else (ofParts year 1 1).addDays o = { jd := firstDay (yearIndex year) + o } ∧
      minJd ≤ firstDay (yearIndex year) + o ∧
      firstDay (yearIndex year) + o ≤ maxJd := by
  obtain ⟨hmin, hmax⟩ := days_range h
  have hle : firstDay (yearIndex year) + 364 ≤ maxJd := by
    split at hmax <;> omega
  rw [ofParts_first h.1 (by decide) (by decide), monthFirst_january h.1]
  split
  · rename_i hlast
    obtain ⟨rfl, rfl⟩ := hlast
    have hend := firstDay_last
    exact addDays_of_out (.inr (by dsimp only; omega))
  · rename_i hlast
    have hfits : firstDay (yearIndex year) + o ≤ maxJd := by
      by_cases hlong : o = 365
      · have hlater := (firstDay_range h).2 fun hyear => hlast ⟨hyear, hlong⟩
        omega
      · omega
    exact ⟨addDays_of_range (isValid_mk ⟨hmin, by omega⟩) ⟨by dsimp only; omega, hfits⟩,
      by omega, hfits⟩

theorem julian_names (h : IsYear year) {doy : ℤ} (hn : 0 < doy) (hn' : doy < 366) (rounds : ℕ) :
    ∃ jd, (PosixDate.julian doy).dateOf rounds year = .ok { jd := jd } ∧
      (minJd ≤ jd ∧ jd ≤ maxJd) ∧ (PosixDate.julian doy).Names year jd := by
  obtain ⟨o, ho⟩ : ∃ o, o = if ¬ leapTest year ∨ doy < 60 then doy - 1 else doy := ⟨_, rfl⟩
  have hcommon : leapTest year = false → o = doy - 1 := by
    intro hleap
    rw [ho, hleap]
    exact if_pos (.inl Bool.false_ne_true)
  have hleaps : leapTest year = true → (doy < 60 → o = doy - 1) ∧ (60 ≤ doy → o = doy) := by
    intro hleap
    rw [ho, hleap]
    refine ⟨fun hlt => if_pos (.inr hlt), fun hge => if_neg ?_⟩
    rintro (hnot | hlt)
    · exact hnot rfl
    · omega
  have hrange : 0 ≤ o ∧ o < 365 + if leapTest year then 1 else 0 := by
    cases hleap : leapTest year with
    | true =>
      have hshift := hleaps hleap
      simp
      omega
    | false =>
      have hshift := hcommon hleap
      omega
  have hlast : ¬ (year = 2147483647 ∧ o = 365) := by
    rintro ⟨rfl, rfl⟩
    exact absurd hrange.2 (by decide)
  have hadd := january_addDays h hrange.1 (by split at hrange <;> omega)
  rw [if_neg hlast] at hadd
  obtain ⟨month, day, hparts, hm, hm', hday, hday', heq⟩ :=
    partsFromJulian_firstDay h.1 hrange.1 hrange.2
  refine ⟨firstDay (yearIndex year) + o, ?_, hadd.2, ?_⟩
  · have hok : doy > 0 ∧ doy < 366 := ⟨hn, hn'⟩
    simp only [PosixDate.dateOf, if_pos hok, ← ho, hadd.1]
  · unfold PosixDate.Names
    rw [hparts]
    have hearlier : month ≤ 2 → daysBefore month + monthLength month year ≤ 60 := by
      intro hle
      have hlength := daysBefore_add_length year hm hm'
      interval_cases month
      · rw [monthLength_january]
        decide
      · rw [monthLength_february]
        cases leapTest year <;> decide
    have hlater : 2 < month → 59 ≤ daysBefore month := fun h => by
      interval_cases month <;> decide
    refine ⟨rfl, ?_, ?_⟩
    · rintro ⟨hmonth, hday29⟩
      dsimp only at hmonth hday29
      rw [hmonth, hday29, if_neg (fun h => absurd h.2 (by decide))] at heq
      rw [hmonth, hday29, monthLength_february] at hday'
      have hbefore2 : daysBefore 2 = 31 := rfl
      cases hleap : leapTest year with
      | true =>
        have hshift := hleaps hleap
        omega
      | false =>
        rw [hleap] at hday'
        exact absurd hday' (by decide)
    · show daysBefore month + day = doy
      cases hleap : leapTest year with
      | true =>
        have hshift := hleaps hleap
        by_cases hmarch : 2 < month
        · have h59 := hlater hmarch
          rw [if_pos ⟨hleap, hmarch⟩] at heq
          omega
        · have h60 := hearlier (by omega)
          rw [if_neg (fun h => hmarch h.2)] at heq
          by_cases hleapDay : doy < 60
          · omega
          · omega
      | false =>
        have hshift := hcommon hleap
        have hno : ¬ (leapTest year = true ∧ 2 < month) := by
          rw [hleap]
          exact fun h => absurd h.1 Bool.false_ne_true
        rw [if_neg hno] at heq
        omega

theorem day_names (h : IsYear year) {doy : ℤ} (hn : 0 ≤ doy) (hn' : doy ≤ 365)
    (hreach : (PosixDate.day doy).InReach year) (rounds : ℕ) :
    ∃ jd, (PosixDate.day doy).dateOf rounds year = .ok { jd := jd } ∧
      (minJd ≤ jd ∧ jd ≤ maxJd) ∧ (PosixDate.day doy).Names year jd := by
  have hadd := january_addDays h hn hn'
  have hok : doy ≥ 0 ∧ doy < 366 := ⟨hn, by omega⟩
  rw [if_neg hreach] at hadd
  refine ⟨firstDay (yearIndex year) + doy, ?_, hadd.2, _, january_first h.1, rfl⟩
  simp only [PosixDate.dateOf, if_pos hok, hadd.1]

theorem isValid_of_ok {x : Exec QDate} {jd : ℤ} (h : x = .ok { jd := jd })
    (hrange : minJd ≤ jd ∧ jd ≤ maxJd) {date : QDate} (hcall : x = .ok date) :
    date.isValid = true := by
  rw [← Except.ok.inj (h.symm.trans hcall)]
  exact isValid_mk hrange

namespace PosixDate

theorem dateOf_invalid_iff (h : IsYear year) (r : PosixDate) :
    (∃ rounds date, r.dateOf rounds year = .ok date ∧ date.isValid = false) ↔
      r.Refused year := by
  cases r with
  | weekday month week dow => exact calculateDowDate_invalid_iff year month dow week
  | julian doy =>
    unfold Refused
    by_cases hok : 0 < doy ∧ doy < 366
    · obtain ⟨jd, hdate, hrange, -⟩ := julian_names h hok.1 hok.2 0
      refine iff_of_false ?_ (not_not.2 hok)
      rintro ⟨rounds, date, hcall, hinvalid⟩
      rw [isValid_of_ok hdate hrange hcall] at hinvalid
      cases hinvalid
    · exact iff_of_true ⟨0, null, if_neg hok, rfl⟩ hok
  | day doy =>
    unfold Refused
    by_cases hok : 0 ≤ doy ∧ doy < 366
    · by_cases hlast : year = 2147483647 ∧ doy = 365
      · have hadd := january_addDays h hok.1 (by omega)
        rw [if_pos hlast] at hadd
        refine iff_of_true ⟨0, null, ?_, rfl⟩ (.inr hlast)
        have hok' : doy ≥ 0 ∧ doy < 366 := hok
        simp only [dateOf, if_pos hok', hadd]
      · obtain ⟨jd, hdate, hrange, -⟩ := day_names h hok.1 (by omega) hlast 0
        refine iff_of_false ?_ (by rintro (hnot | hyear); exacts [hnot hok, hlast hyear])
        rintro ⟨rounds, date, hcall, hinvalid⟩
        rw [isValid_of_ok hdate hrange hcall] at hinvalid
        cases hinvalid
    · exact iff_of_true ⟨0, null, if_neg hok, rfl⟩ (.inl hok)

end PosixDate

/-! ## Rules and years -/

/-- `calculatePosixDate` returns a date, valid if and only if the rule is well-formed, and then the
day that the rule names. -/
def ReturnsNamed (dateRule : List UInt8) (year : ℤ) : Prop :=
  ∃ rounds date, calculatePosixDate rounds dateRule year = .ok date ∧
    (date.isValid = true ↔ ∃ r, DateText dateRule r) ∧
    ∀ r, DateText dateRule r → r.Names year date.jd

variable {dateRule : List UInt8} {r : PosixDate}

theorem DateText.ne_nil (h : DateText dateRule r) :
    dateRule ≠ [] := by
  cases h with
  | weekday => exact cons_ne_nil _ _
  | julian => exact cons_ne_nil _ _
  | day hf => exact hf.1

theorem Digits.nonneg {f : List UInt8} {v : ℤ} (h : Digits f v) : 0 ≤ v := by
  obtain ⟨-, -, rfl⟩ := h
  exact Int.natCast_nonneg _

/-- The day that a well-formed rule names -/
theorem DateText.names (h : DateText dateRule r) (hyear : IsYear year) (hreach : r.InReach year) :
    ∃ jd, r.dateOf 2 year = .ok { jd := jd } ∧ (minJd ≤ jd ∧ jd ≤ maxJd) ∧
      r.Names year jd := by
  cases h with
  | weekday hf hf' hf'' hm hm' hw hw' hd =>
    exact calculateDowDate_names hyear hm hm' hw hw' hf''.nonneg hd hreach
  | julian hf hn hn' => exact julian_names hyear (by omega) (by omega) 2
  | day hf hn => exact day_names hyear hf.nonneg hn hreach 2

theorem DateText.not_valid (h : DateText dateRule r) (hyear : IsYear year)
    (hreach : ¬ r.InReach year) {rounds : ℕ} {date : QDate}
    (hcall : r.dateOf rounds year = .ok date) : date.isValid = false := by
  cases h with
  | weekday hf hf' hf'' hm hm' hw hw' hd =>
    have hstuck := calculateDowDate_stuck hyear hm hm' hw hw' hf''.nonneg hd hreach rounds
    exact absurd (hstuck.symm.trans hcall) (fun h => by cases h)
  | julian hf hn hn' => exact absurd trivial hreach
  | @day _ n hf hn =>
    have hok : n ≥ 0 ∧ n < 366 := ⟨hf.nonneg, by omega⟩
    have hadd := january_addDays hyear hf.nonneg hn
    rw [if_pos (not_not.1 hreach)] at hadd
    simp only [PosixDate.dateOf, if_pos hok, hadd, Except.ok.injEq] at hcall
    rw [← hcall]
    rfl

theorem DateText.names_iff (h : DateText dateRule r)
    (hyear : IsYear year) : ReturnsNamed dateRule year ↔ r.InReach year := by
  have hread : ∀ rounds, calculatePosixDate rounds dateRule year = r.dateOf rounds year := by
    intro rounds
    rw [calculatePosixDate_eq h.ne_nil, h.readDate_eq]
  constructor
  · rintro ⟨rounds, date, hcall, hvalid, -⟩
    by_contra hreach
    have hinvalid := h.not_valid hyear hreach ((hread rounds).symm.trans hcall)
    rw [hvalid.2 ⟨r, h⟩] at hinvalid
    cases hinvalid
  · intro hreach
    obtain ⟨jd, hdate, hrange, hnames⟩ := h.names hyear hreach
    refine ⟨2, _, (hread 2).trans hdate, iff_of_true (isValid_mk hrange) ⟨r, h⟩, ?_⟩
    intro r' h'
    have hsame : some r' = some r := h'.readDate_eq.symm.trans h.readDate_eq
    rw [some.inj hsame]
    exact hnames

/-- Well-formed rules must stay in reach of `QDate`, and others must be refused. -/
theorem calculatePosixDate_iff (dateRule : List UInt8) {year : ℤ} (h : IsYear year) :
    ReturnsNamed dateRule year ↔
      (∀ r, DateText dateRule r → r.InReach year) ∧
      ((∀ r, ¬ DateText dateRule r) →
        dateRule ≠ [] ∧ ∀ r, readDate dateRule = some r → r.Refused year) := by
  by_cases htext : ∃ r, DateText dateRule r
  · obtain ⟨r, hr⟩ := htext
    rw [hr.names_iff h]
    refine ⟨fun hreach => ⟨fun r' hr' => ?_, fun hnot => absurd hr (hnot r)⟩,
      fun hall => hall.1 r hr⟩
    have hsame : some r' = some r := hr'.readDate_eq.symm.trans hr.readDate_eq
    rw [some.inj hsame]
    exact hreach
  · have hnone : ∀ r, ¬ DateText dateRule r := fun r hr => htext ⟨r, hr⟩
    have hfirst : ∀ r, DateText dateRule r → r.InReach year := fun r hr => absurd hr (hnone r)
    by_cases hempty : dateRule = []
    · refine iff_of_false ?_ fun hall => (hall.2 hnone).1 hempty
      rintro ⟨rounds, date, hcall, -⟩
      rw [hempty] at hcall
      cases hcall
    · have hreturns : ReturnsNamed dateRule year ↔ ∃ rounds date,
          calculatePosixDate rounds dateRule year = .ok date ∧ date.isValid = false := by
        refine exists_congr fun rounds => exists_congr fun date => and_congr_right fun _ => ?_
        rw [iff_false_right htext, Bool.not_eq_true]
        exact ⟨fun hall => hall.1, fun hinvalid => ⟨hinvalid, fun r hr => absurd hr (hnone r)⟩⟩
      rw [hreturns]
      simp only [calculatePosixDate_eq hempty]
      cases hread : readDate dateRule with
      | none =>
        refine iff_of_true ⟨0, null, rfl, rfl⟩ ⟨hfirst, fun _ => ⟨hempty, fun r hr => ?_⟩⟩
        cases hr
      | some r =>
        rw [PosixDate.dateOf_invalid_iff h r]
        constructor
        · refine fun hrefused => ⟨hfirst, fun _ => ⟨hempty, fun r' hr' => ?_⟩⟩
          rw [← some.inj hr']
          exact hrefused
        · exact fun hall => (hall.2 hnone).2 r rfl

/-- "M3.2.0", the second Sunday of March, in 2024 -/
theorem calculatePosixDate_iff_2024 : ReturnsNamed [0x4d, 0x33, 0x2e, 0x32, 0x2e, 0x30] 2024 := by
  have hread : readDate [0x4d, 0x33, 0x2e, 0x32, 0x2e, 0x30] = some (.weekday 3 2 0) := rfl
  have htext : DateText [0x4d, 0x33, 0x2e, 0x32, 0x2e, 0x30] (.weekday 3 2 0) :=
    @DateText.weekday [0x33] [0x32] [0x30] 3 2 0 (digits_singleton rfl rfl)
      (digits_singleton rfl rfl) (digits_singleton rfl rfl) (by decide) (by decide) (by decide)
      (by decide) (by decide)
  refine (calculatePosixDate_iff _ ⟨by decide, by decide, by decide⟩).2
    ⟨fun r hr => ?_, fun hnot => absurd htext (hnot _)⟩
  rw [hr.readDate_eq, some.injEq] at hread
  rw [hread]
  exact ⟨by decide, by decide⟩

/-- "M13.1.0": the check of the month is left out for a Sunday, and the loop does not end. -/
theorem calculatePosixDate_endless : IsYear 2024 ∧
    ¬ ∃ rounds date,
      calculatePosixDate rounds [0x4d, 0x31, 0x33, 0x2e, 0x31, 0x2e, 0x30] 2024 = .ok date := by
  refine ⟨⟨by decide, by decide, by decide⟩, ?_⟩
  rintro ⟨rounds, date, hcall⟩
  have hread : readDate [0x4d, 0x31, 0x33, 0x2e, 0x31, 0x2e, 0x30] = some (.weekday 13 1 0) := rfl
  have hstuck : (PosixDate.weekday 13 1 0).dateOf rounds 2024 = .error .diverge := by
    show weeksBack 13 rounds null = .error .diverge
    exact weeksBack_null (by decide) rounds
  rw [calculatePosixDate_eq (cons_ne_nil _ _), hread] at hcall
  exact absurd (hstuck.symm.trans hcall) (fun h => by cases h)

end QtBase.Time
