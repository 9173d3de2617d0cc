import QtBase.Time.QDate

/-! Years that share the week-days of a given one. -/
namespace QtBase.Time

open QtBase.Lib QRoundingDown QDate

/-! ## The functions -/

/-- An entry of a constant table. -/
def entry (table : List ℤ) (i : ℤ) : Exec ℤ :=
  if 0 ≤ i then
    match table[i.toNat]? with
    | some year => .ok year
    | none => .error .undefined
  else .error .undefined

namespace QGregorianCalendar

def yearStartWeekDay (year : ℤ) : ℤ :=
  -- Equivalent to weekDayOfJulian(julianForParts({year, 1, 1})
  let y := year - if year < 0 then 800 else 801
  qMod 7 (y + qDiv4 y - qDiv 100 y + qDiv 400 y) + 1

def usual : List ℤ := [2198, 2199, 2098, 2099, 2399, 2298, 2299]

def leaps : List ℤ := [2396, 2284, 2296, 2184, 2196, 2084, 2096]

def yearSharingWeekDays (date : QDate) : Exec ℤ := do
  let year := date.year
  let res := if year < 1970 then 2400 - (2000 - if year < 0 then year + 1 else year).tmod 400
    else if year > 2399 then 2000 + (year - 2000).tmod 400 else year
  qAssert (res > 0)
  let res ← if res ≠ year then do
      let lastTwo := res.tmod 100
      let res ← if lastTwo = date.month ∨ lastTwo = date.day then do
          -- lastTwo && !(lastTwo & ~31)
          qAssert (lastTwo ≠ 0 ∧ lastTwo / 32 = 0)
          entry (if leapTest year then leaps else usual) (yearStartWeekDay year - 1)
        else pure res
      qAssert ((QDate.ofParts res 1 1).dayOfWeek = (QDate.ofParts year 1 1).dayOfWeek)
      qAssert ((QDate.ofParts res 12 31).dayOfWeek = (QDate.ofParts year 12 31).dayOfWeek)
      pure res
    else pure res
  qAssert (res ≥ 1970 ∧ res ≤ 2400)
  pure res

end QGregorianCalendar

/-- Which tables `systemTimeYearMatching` is built with. -/
inductive Platform
  /-- Windows and WebAssembly, without times before the epoch. -/
  | fromEpoch
  /-- All others. -/
  | from1902
  deriving DecidableEq

def forLeapEarly : Platform → List ℤ
  | .fromEpoch => [1984, 1996, 1980, 1992, 1976, 1988, 1972]
  | .from1902 => [1928, 1912, 1924, 1908, 1920, 1904, 1916]

def regularEarly : Platform → List ℤ
  | .fromEpoch => [1978, 1973, 1974, 1975, 1970, 1971, 1977]
  | .from1902 => [1905, 1906, 1907, 1902, 1903, 1909, 1910]

def forLeapLate : List ℤ := [2012, 2024, 2036, 2020, 2032, 2016, 2028]

def regularLate : List ℤ := [2034, 2035, 2030, 2031, 2037, 2027, 2033]

open QGregorianCalendar

def systemTimeYearMatching (platform : Platform) (year : ℤ) : Exec ℤ := do
  let dow := yearStartWeekDay year
  qAssert (dow = (QDate.ofParts year 1 1).dayOfWeek)
  let res ← entry (if leapTest year then
      if year < 1970 then forLeapEarly platform else forLeapLate
    else
      if year < 1970 then regularEarly platform else regularLate) (if dow = 7 then 0 else dow)
  qAssert ((QDate.ofParts res 1 1).dayOfWeek = dow)
  qAssert ((QDate.ofParts res 12 31).dayOfWeek = (QDate.ofParts year 12 31).dayOfWeek)
  pure res

/-! ## The first and last day of a year -/

variable {year : ℤ}

namespace QGregorianCalendar

/-- The day number of January 1st, by the year's index. -/
def firstDay (n : ℤ) : ℤ := yearStart (n - 1) + 307 + BaseJd

theorem monthLength_january (year : ℤ) : monthLength 1 year = 31 := rfl

theorem monthLength_december (year : ℤ) : monthLength 12 year = 31 := rfl

theorem julianFromParts_eq {month day : ℤ} (hy : year ≠ 0) (hd : 1 ≤ day)
    (hd' : day ≤ monthLength month year) : julianFromParts year month day =
      some (QRomanCalendar.monthStart yearStart BaseJd (monthIndex year month) + (day - 1)) := by
  rw [monthLength_eq hy] at hd'
  exact monthTiling.dateToJulianDay_eq year month day hy hd hd'

theorem january_first (hy : year ≠ 0) :
    julianFromParts year 1 1 = some (firstDay (yearIndex year)) := by
  have hlen := monthLength_january year
  rw [julianFromParts_eq hy (by decide) (by omega), Option.some.injEq]
  have hdiv : (12 * yearIndex year + (1 - 1) - 2) / 12 = yearIndex year - 1 := by omega
  have hmod : (12 * yearIndex year + (1 - 1) - 2) % 12 = 10 := by omega
  have hten : floorSeq 153 5 2 10 = 306 := by decide
  unfold firstDay QRomanCalendar.monthStart monthIndex
  rw [hdiv, hmod, hten]
  omega

theorem december_last (hy : year ≠ 0) : julianFromParts year 12 31 =
    some (firstDay (yearIndex year) + 364 + if leapTest year then 1 else 0) := by
  have hlen := monthLength_december year
  rw [julianFromParts_eq hy (by decide) (by omega), Option.some.injEq]
  have hdiv : (12 * yearIndex year + (12 - 1) - 2) / 12 = yearIndex year := by omega
  have hmod : (12 * yearIndex year + (12 - 1) - 2) % 12 = 9 := by omega
  have hnine : floorSeq 153 5 2 9 = 275 := by decide
  have hlength := marchYears (yearIndex year - 1)
  rw [Int.sub_add_cancel, ← isLeapYear_eq hy] at hlength
  unfold firstDay QRomanCalendar.monthStart monthIndex
  rw [hdiv, hmod, hnine, hlength]
  unfold isLeapYear
  split <;> omega

theorem yearStartWeekDay_eq (year : ℤ) :
    yearStartWeekDay year = weekDayOfJulian (firstDay (yearIndex year)) := by
  have hindex : (year - if year < 0 then 800 else 801) = yearIndex year - 801 := by
    unfold yearIndex
    split <;> omega
  unfold yearStartWeekDay weekDayOfJulian
  simp only [hindex, qDiv4_eq, qMod_eq (show (0 : ℤ) < 7 by decide),
    qDiv_eq (show (0 : ℤ) < 100 by decide), qDiv_eq (show (0 : ℤ) < 400 by decide)]
  unfold firstDay yearStart BaseJd QRomanCalendrical.LeapDayGregorian1Bce
  generalize yearIndex year = n
  -- 800 years before are 142 weeks more than 800 times 365 days
  have h4 : (n - 801) / 4 = (n - 1) / 4 - 200 := by omega
  have h100 : (n - 801) / 100 = (n - 1) / 100 - 8 := by omega
  have h400 : (n - 801) / 400 = (n - 1) / 400 - 2 := by omega
  rw [h4, h100, h400]
  generalize (n - 1) / 4 = fours
  generalize (n - 1) / 100 = centuries
  generalize (n - 1) / 400 = cycles
  omega

theorem yearStartWeekDay_range (year : ℤ) :
    1 ≤ yearStartWeekDay year ∧ yearStartWeekDay year ≤ 7 := by
  rw [yearStartWeekDay_eq, weekDayOfJulian, qMod_eq (by decide)]
  omega

/-! ## Four centuries are a whole number of weeks -/

theorem leap_cycles (n k : ℤ) : leap (n + 400 * k) = leap n := by
  have h4 : (n + 400 * k) % 4 = n % 4 := by omega
  have h100 : (n + 400 * k) % 100 = n % 100 := by omega
  have h400 : (n + 400 * k) % 400 = n % 400 := by omega
  rw [leap, h4, h100, h400]
  rfl

theorem firstDay_cycles (n k : ℤ) : firstDay (n + 400 * k) = firstDay n + 7 * (20871 * k) := by
  unfold firstDay yearStart
  have h4 : (n + 400 * k - 1) / 4 = (n - 1) / 4 + 100 * k := by omega
  have h100 : (n + 400 * k - 1) / 100 = (n - 1) / 100 + 4 * k := by omega
  have h400 : (n + 400 * k - 1) / 400 = (n - 1) / 400 + k := by omega
  rw [h4, h100, h400]
  generalize (n - 1) / 4 = fours
  generalize (n - 1) / 100 = centuries
  generalize (n - 1) / 400 = cycles
  omega

theorem weekDayOfJulian_weeks (jd k : ℤ) : weekDayOfJulian (jd + 7 * k) = weekDayOfJulian jd := by
  rw [weekDayOfJulian, weekDayOfJulian, qMod_eq (by decide), qMod_eq (by decide)]
  omega

/-! ## Years alike -/

/-- Two years have the same pattern of week-days. -/
structure SameWeekDays (res year : ℤ) : Prop where
  leapTest_eq : leapTest res = leapTest year
  yearStartWeekDay_eq : yearStartWeekDay res = yearStartWeekDay year

theorem sameWeekDays_cycles {res k : ℤ} (hres : res ≠ 0) (hyear : year ≠ 0)
    (h : yearIndex res = yearIndex year + 400 * k) : SameWeekDays res year := by
  constructor
  · have hres' : leapTest res = _ := isLeapYear_eq hres
    have hyear' : leapTest year = _ := isLeapYear_eq hyear
    rw [hres', hyear', h, leap_cycles]
  · rw [yearStartWeekDay_eq, yearStartWeekDay_eq, h, firstDay_cycles, weekDayOfJulian_weeks]

/-- A table has one year for each first week-day. -/
def WeekDayTable (leap : Bool) (day : ℤ → ℤ) (table : List ℤ) : Prop :=
  ∀ dow, 1 ≤ dow → dow ≤ 7 → ∃ res, entry table (day dow) = .ok res ∧
    leapTest res = leap ∧ yearStartWeekDay res = dow ∧ 1902 ≤ res ∧ res ≤ 2400

/-- Whether a year of a table may stand in for a date's year whatever its month and day. -/
def Replacing (table : List ℤ) : Prop :=
  ∀ i res, entry table i = .ok res → 1970 ≤ res ∧ 32 ≤ res % 100

theorem entry_mem {table : List ℤ} {i res : ℤ} (h : entry table i = .ok res) : res ∈ table := by
  unfold entry at h
  split at h
  · split at h
    · cases h
      exact List.mem_of_getElem? ‹_›
    · cases h
  · cases h

theorem leaps_table : WeekDayTable true (· - 1) leaps := by
  intro dow h1 h7
  interval_cases dow <;> exact ⟨_, rfl, by decide⟩

theorem usual_table : WeekDayTable false (· - 1) usual := by
  intro dow h1 h7
  interval_cases dow <;> exact ⟨_, rfl, by decide⟩

theorem leaps_replacing : Replacing leaps := fun i res h =>
  (show ∀ res ∈ leaps, 1970 ≤ res ∧ 32 ≤ res % 100 by decide) res (entry_mem h)

theorem usual_replacing : Replacing usual := fun i res h =>
  (show ∀ res ∈ usual, 1970 ≤ res ∧ 32 ≤ res % 100 by decide) res (entry_mem h)

theorem early_tables (platform : Platform) :
    WeekDayTable true (fun dow => if dow = 7 then 0 else dow) (forLeapEarly platform) ∧
      WeekDayTable false (fun dow => if dow = 7 then 0 else dow) (regularEarly platform) := by
  constructor <;> intro dow h1 h7 <;> cases platform <;> interval_cases dow <;>
    exact ⟨_, rfl, by decide⟩

theorem late_tables : WeekDayTable true (fun dow => if dow = 7 then 0 else dow) forLeapLate ∧
    WeekDayTable false (fun dow => if dow = 7 then 0 else dow) regularLate := by
  constructor <;> intro dow h1 h7 <;> interval_cases dow <;> exact ⟨_, rfl, by decide⟩

/-! ## Dates in the range of `int` years -/

/-- A year that an `int` holds, but not zero. -/
def IsYear (year : ℤ) : Prop := year ≠ 0 ∧ -2147483648 ≤ year ∧ year ≤ 2147483647

theorem days_range (h : IsYear year) :
    minJd ≤ firstDay (yearIndex year) ∧
      firstDay (yearIndex year) + 364 + (if leapTest year then 1 else 0) ≤ maxJd := by
  obtain ⟨hne, hmin, hmax⟩ := h
  have hn : -2147483647 ≤ yearIndex year ∧ yearIndex year ≤ 2147483647 := by
    unfold yearIndex
    split <;> omega
  have hleap : leapTest year = leap (yearIndex year) := isLeapYear_eq hne
  rw [hleap]
  generalize yearIndex year = n at hn
  unfold firstDay yearStart BaseJd QRomanCalendrical.LeapDayGregorian1Bce minJd maxJd
  constructor
  · omega
  · split
    · rename_i h
      -- the greatest year is no leap year
      have h4 : n % 4 = 0 := beq_iff_eq.1 (Bool.and_eq_true_iff.1 h).1
      omega
    · omega

theorem dayOfWeek_of_some {month day jd : ℤ} (h : julianFromParts year month day = some jd)
    (hmin : minJd ≤ jd) (hmax : jd ≤ maxJd) :
    (ofParts year month day).dayOfWeek = weekDayOfJulian jd := by
  unfold ofParts dayOfWeek
  rw [h, Option.getD_some, if_pos (isValid_iff.2 ⟨hmin, hmax⟩)]

theorem january_dayOfWeek (h : IsYear year) :
    (ofParts year 1 1).dayOfWeek = yearStartWeekDay year := by
  obtain ⟨hmin, hmax⟩ := days_range h
  have hle : firstDay (yearIndex year) ≤ maxJd := by
    split at hmax <;> omega
  rw [dayOfWeek_of_some (january_first h.1) hmin hle, yearStartWeekDay_eq]

theorem december_dayOfWeek (h : IsYear year) :
    (ofParts year 12 31).dayOfWeek = weekDayOfJulian
      (firstDay (yearIndex year) + 364 + if leapTest year then 1 else 0) := by
  obtain ⟨hmin, hmax⟩ := days_range h
  have hle : minJd ≤ firstDay (yearIndex year) + 364 + if leapTest year then 1 else 0 := by
    split <;> omega
  exact dayOfWeek_of_some (december_last h.1) hle hmax

theorem SameWeekDays.dayOfWeek_eq {res : ℤ} (h : SameWeekDays res year) (hres : IsYear res)
    (hyear : IsYear year) :
    (ofParts res 1 1).dayOfWeek = (ofParts year 1 1).dayOfWeek ∧
      (ofParts res 12 31).dayOfWeek = (ofParts year 12 31).dayOfWeek := by
  have hstart := h.yearStartWeekDay_eq
  constructor
  · rw [january_dayOfWeek hres, january_dayOfWeek hyear, hstart]
  · rw [december_dayOfWeek hres, december_dayOfWeek hyear, h.leapTest_eq]
    rw [QGregorianCalendar.yearStartWeekDay_eq, QGregorianCalendar.yearStartWeekDay_eq] at hstart
    unfold weekDayOfJulian at hstart ⊢
    simp only [qMod_eq (show (0 : ℤ) < 7 by decide)] at hstart ⊢
    omega

/-! ## The years found -/

theorem first_choice (year : ℤ) :
    ∃ k, (if year < 1970 then 2400 - (2000 - if year < 0 then year + 1 else year).tmod 400
      else if year > 2399 then 2000 + (year - 2000).tmod 400 else year) =
        yearIndex year + 400 * k ∧ 1970 ≤ yearIndex year + 400 * k ∧
        yearIndex year + 400 * k ≤ 2400 ∧
        (1970 ≤ year → year ≤ 2399 → yearIndex year + 400 * k = year) := by
  rw [show (if year < 0 then year + 1 else year) = yearIndex year from rfl]
  have hindex : yearIndex year = if year < 0 then year + 1 else year := rfl
  by_cases hearly : year < 1970
  · rw [if_pos hearly]
    have hn : yearIndex year < 1970 := by
      split at hindex <;> omega
    rw [Int.tmod_eq_emod_of_nonneg (by omega)]
    refine ⟨1 + (2000 - yearIndex year) / 400, ?_, ?_, ?_, ?_⟩ <;> omega
  · rw [if_neg hearly]
    rw [if_neg (by omega)] at hindex
    by_cases hlate : year > 2399
    · rw [if_pos hlate, Int.tmod_eq_emod_of_nonneg (by omega), hindex]
      refine ⟨-((year - 2000) / 400), ?_, ?_, ?_, ?_⟩ <;> omega
    · rw [if_neg hlate, hindex]
      refine ⟨0, ?_, ?_, ?_, ?_⟩ <;> omega

/-- What `yearSharingWeekDays` is to return for a date. -/
structure Shares (date : QDate) (res : ℤ) : Prop where
  range : 1970 ≤ res ∧ res ≤ 2400
  same : SameWeekDays res date.year
  own : 1970 ≤ date.year → date.year ≤ 2399 → res = date.year
  lastTwo : res ≠ date.year → res % 100 ≠ date.month ∧ res % 100 ≠ date.day

variable {date : QDate}

theorem year_ne_zero (h : date.isValid = true) : date.year ≠ 0 := by
  unfold year
  rw [part_of_isValid h]
  exact monthTiling.year_ne_zero date.jd

theorem month_range (h : date.isValid = true) :
    1 ≤ date.month ∧ date.month ≤ 12 := by
  unfold month
  rw [part_of_isValid h]
  exact ⟨monthTiling.one_le_month date.jd, monthTiling.month_le date.jd⟩

theorem daysInMonth_le (month year : ℤ) :
    QRomanCalendar.daysInMonth isLeapYear month year ≤ 31 := by
  unfold QRomanCalendar.daysInMonth
  split
  · decide
  · split
    · split <;> decide
    · have hm : 1 ≤ month ∧ month ≤ 12 := by omega
      obtain ⟨h1, h12⟩ := hm
      interval_cases month <;> decide

theorem day_range (h : date.isValid = true) : 1 ≤ date.day ∧ date.day ≤ 31 := by
  unfold day
  rw [part_of_isValid h]
  have hle := monthTiling.day_le_daysInMonth date.jd
  exact ⟨monthTiling.one_le_day date.jd, Int.le_trans hle (daysInMonth_le _ _)⟩

theorem replacement (year : ℤ) : ∃ res,
    entry (if leapTest year then leaps else usual) (yearStartWeekDay year - 1) = .ok res ∧
      SameWeekDays res year ∧ 1970 ≤ res ∧ res ≤ 2400 ∧ 32 ≤ res % 100 := by
  obtain ⟨h1, h7⟩ := yearStartWeekDay_range year
  cases hleap : leapTest year with
  | true =>
    obtain ⟨res, hentry, hres, hdow, -, hmax⟩ := leaps_table _ h1 h7
    obtain ⟨hmin, hlast⟩ := leaps_replacing _ _ hentry
    exact ⟨res, hentry, ⟨hres.trans hleap.symm, hdow⟩, hmin, hmax, hlast⟩
  | false =>
    obtain ⟨res, hentry, hres, hdow, -, hmax⟩ := usual_table _ h1 h7
    obtain ⟨hmin, hlast⟩ := usual_replacing _ _ hentry
    exact ⟨res, hentry, ⟨hres.trans hleap.symm, hdow⟩, hmin, hmax, hlast⟩

theorem yearSharingWeekDays_spec (h : date.isValid = true)
    (hyear : IsYear date.year) : ∃ res, yearSharingWeekDays date = .ok res ∧ Shares date res := by
  obtain ⟨hm, hm'⟩ := month_range h
  obtain ⟨hd, hd'⟩ := day_range h
  obtain ⟨k, hres, hmin, hmax, hown⟩ := first_choice date.year
  unfold yearSharingWeekDays
  dsimp only
  rw [hres]
  obtain ⟨res, hk⟩ : ∃ res, res = yearIndex date.year + 400 * k := ⟨_, rfl⟩
  rw [← hk] at hmin hmax hown ⊢
  have hint : IsYear res := by
    unfold IsYear
    omega
  have hsame : SameWeekDays res date.year := by
    apply sameWeekDays_cycles hint.1 hyear.1 (k := k)
    rw [← hk]
    exact if_neg (by omega)
  rw [qAssert_pos (by omega), ok_bind]
  by_cases hne : res = date.year
  · rw [if_neg (not_not.2 hne), pure_bind, qAssert_pos ⟨hmin, hmax⟩]
    exact ⟨res, rfl, ⟨hmin, hmax⟩, hsame, fun _ _ => hne, fun hne' => absurd hne hne'⟩
  · rw [if_pos hne, Int.tmod_eq_emod_of_nonneg (by omega)]
    by_cases hclash : res % 100 = date.month ∨ res % 100 = date.day
    · obtain ⟨res', hentry, hsame', hmin', hmax', hlast⟩ := replacement date.year
      have hint' : IsYear res' := by
        unfold IsYear
        omega
      obtain ⟨hjanuary, hdecember⟩ := hsame'.dayOfWeek_eq hint' hyear
      rw [if_pos hclash, qAssert_pos (by omega), ok_bind, hentry, ok_bind, qAssert_pos hjanuary,
        ok_bind, qAssert_pos hdecember, ok_bind, pure_bind, qAssert_pos ⟨hmin', hmax'⟩]
      refine ⟨res', rfl, ⟨hmin', hmax'⟩, hsame', ?_, ?_⟩
      · intro h1970 h2399
        exact absurd (hown h1970 h2399) hne
      · intro _
        omega
    · obtain ⟨hjanuary, hdecember⟩ := hsame.dayOfWeek_eq hint hyear
      rw [if_neg hclash, pure_bind, qAssert_pos hjanuary, ok_bind, qAssert_pos hdecember, ok_bind,
        pure_bind, qAssert_pos ⟨hmin, hmax⟩]
      exact ⟨res, rfl, ⟨hmin, hmax⟩, hsame, hown, fun _ => not_or.1 hclash⟩

end QGregorianCalendar

theorem systemTimeYearMatching_spec (platform : Platform) (hyear : IsYear year) :
    ∃ res, systemTimeYearMatching platform year = .ok res ∧ SameWeekDays res year ∧
      IsYear res := by
  obtain ⟨h1, h7⟩ := yearStartWeekDay_range year
  obtain ⟨hleapEarly, hregularEarly⟩ := early_tables platform
  obtain ⟨hleapLate, hregularLate⟩ := late_tables
  obtain ⟨res, hentry, hleap, hdow, hmin, hmax⟩ : ∃ res, entry (if leapTest year then
      if year < 1970 then forLeapEarly platform else forLeapLate
    else
      if year < 1970 then regularEarly platform else regularLate)
      (if yearStartWeekDay year = 7 then 0 else yearStartWeekDay year) = .ok res ∧
      leapTest res = leapTest year ∧ yearStartWeekDay res = yearStartWeekDay year ∧
      1902 ≤ res ∧ res ≤ 2400 := by
    cases leapTest year with
    | true =>
      by_cases hearly : year < 1970
      · rw [if_pos rfl, if_pos hearly]
        exact hleapEarly _ h1 h7
      · rw [if_pos rfl, if_neg hearly]
        exact hleapLate _ h1 h7
    | false =>
      by_cases hearly : year < 1970
      · rw [if_neg Bool.false_ne_true, if_pos hearly]
        exact hregularEarly _ h1 h7
      · rw [if_neg Bool.false_ne_true, if_neg hearly]
        exact hregularLate _ h1 h7
  have hint : IsYear res := by
    unfold IsYear
    omega
  have hsame : SameWeekDays res year := ⟨hleap, hdow⟩
  obtain ⟨hjanuary, hdecember⟩ := hsame.dayOfWeek_eq hint hyear
  have hown := january_dayOfWeek hyear
  unfold systemTimeYearMatching
  dsimp only
  rw [qAssert_pos hown.symm, ok_bind, hentry, ok_bind, qAssert_pos (hjanuary.trans hown), ok_bind,
    qAssert_pos hdecember]
  exact ⟨res, rfl, hsame, hint⟩

/-- Substitute years keep the pattern of week-days. -/
theorem substitute_years_share_weekDays :
    (∀ date : QDate, date.isValid = true → -400000 ≤ date.year → date.year ≤ 400000 →
      ∃ res, yearSharingWeekDays date = .ok res ∧ (1970 ≤ res ∧ res ≤ 2400) ∧
        leapTest res = leapTest date.year ∧
        (QDate.ofParts res 1 1).dayOfWeek = (QDate.ofParts date.year 1 1).dayOfWeek ∧
        (1970 ≤ date.year → date.year ≤ 2399 → res = date.year) ∧
        (res ≠ date.year → res % 100 ≠ date.month ∧ res % 100 ≠ date.day)) ∧
    (∀ platform year, year ≠ 0 → -400000 ≤ year → year ≤ 400000 →
      ∃ res, systemTimeYearMatching platform year = .ok res ∧ leapTest res = leapTest year ∧
        (QDate.ofParts res 1 1).dayOfWeek = (QDate.ofParts year 1 1).dayOfWeek) := by
  constructor
  · intro date h hmin hmax
    have hyear : IsYear date.year := ⟨year_ne_zero h, by omega, by omega⟩
    obtain ⟨res, hres, hshares⟩ := yearSharingWeekDays_spec h hyear
    have hrange := hshares.range
    have hint : IsYear res := by
      unfold IsYear
      omega
    exact ⟨res, hres, hrange, hshares.same.leapTest_eq,
      (hshares.same.dayOfWeek_eq hint hyear).1, hshares.own, hshares.lastTwo⟩
  · intro platform year hne hmin hmax
    have hyear : IsYear year := ⟨hne, by omega, by omega⟩
    obtain ⟨res, hres, hsame, hint⟩ := systemTimeYearMatching_spec platform hyear
    exact ⟨res, hres, hsame.leapTest_eq, (hsame.dayOfWeek_eq hint hyear).1⟩

example : yearSharingWeekDays (QDate.ofParts 1902 3 2) = .ok 2098 := by decide

end QtBase.Time
