import QtBase.Time.PosixDateNames
import QtBase.Time.PosixTransitions

/-! What a rule says that `validatePosixRule` accepts, and its dates in the years of `QDateTime`. -/
namespace QtBase.Time

open PosixZone QUtf8 QGregorianCalendar QRoundingDown QDateTime Nat QDate

/-! ## More rounds of the loop give the same date -/

variable {rounds more : ℕ} {month year : ℤ} {date found : QDate} {dateRule : List UInt8}

theorem weeksBack_mono (h : rounds ≤ more) (hback : weeksBack month rounds date = .ok found) :
    weeksBack month more date = .ok found := by
  obtain ⟨extra, rfl⟩ := Nat.exists_eq_add_of_le h
  clear h
  induction rounds generalizing date with
  | zero => cases hback
  | succ rounds ih =>
    rw [Nat.succ_add]
    unfold weeksBack at hback ⊢
    split at hback
    · rename_i hmonth
      rw [if_pos hmonth]
      exact ih hback
    · rename_i hmonth
      simp [hmonth, hback]

theorem PosixDate.dateOf_mono (h : rounds ≤ more) (r : PosixDate)
    (hdate : r.dateOf rounds year = .ok date) : r.dateOf more year = .ok date := by
  cases r with
  | weekday month week dow =>
    unfold dateOf calculateDowDate at hdate ⊢
    dsimp only at hdate ⊢
    split at hdate
    · rename_i hbad
      rw [if_pos hbad]
      exact hdate
    · rename_i hok
      obtain ⟨days, hdays, hback⟩ := bind_eq_ok hdate
      rw [if_neg hok, hdays, ok_bind]
      exact weeksBack_mono h hback
  | julian doy => exact hdate
  | day doy => exact hdate

theorem calculatePosixDate_mono (h : rounds ≤ more)
    (hdate : calculatePosixDate rounds dateRule year = .ok date) :
    calculatePosixDate more dateRule year = .ok date := by
  have hne : dateRule ≠ [] := fun hnil => by
    rw [hnil] at hdate
    cases hdate
  rw [calculatePosixDate_eq hne] at hdate ⊢
  cases hread : readDate dateRule with
  | none =>
    rw [hread] at hdate
    exact hdate
  | some r =>
    rw [hread] at hdate
    exact r.dateOf_mono h hdate

theorem calculatePosixDate_unique (hdate : calculatePosixDate rounds dateRule year = .ok date)
    (hfound : calculatePosixDate more dateRule year = .ok found) : date = found := by
  rcases le_total rounds more with h | h
  · exact Except.ok.inj ((calculatePosixDate_mono h hdate).symm.trans hfound)
  · exact Except.ok.inj (hdate.symm.trans (calculatePosixDate_mono h hfound))

/-! ## The loop ends -/

theorem weeksBack_ends {first jd : ℤ} (hfirst : QDate.minJd ≤ first) (hlast : jd ≤ QDate.maxJd)
    (hmonth : ∀ o, 0 ≤ o → o < 7 → (partsFromJulian (first + o)).month = month)
    (hle : first ≤ jd) (hlt : jd < first + 7 * rounds) :
    ∃ date, weeksBack month rounds { jd := jd } = .ok date := by
  induction rounds generalizing jd with
  | zero =>
    rw [cast_zero, Int.mul_zero, Int.add_zero] at hlt
    exact absurd hle (Int.not_le.2 hlt)
  | succ rounds ih =>
    unfold weeksBack
    have hvalid : ({ jd := jd } : QDate).isValid = true :=
      QDate.isValid_mk ⟨hfirst.trans hle, hlast⟩
    by_cases hfound : ({ jd := jd } : QDate).month ≠ month
    · have hweek : first + 7 ≤ jd := by
        by_contra hnear
        apply hfound
        have hthis := hmonth (jd - first) (by omega) (by omega)
        unfold QDate.month
        rw [QDate.part_of_isValid hvalid]
        rwa [show first + (jd - first) = jd by omega] at hthis
      have hback : ({ jd := jd } : QDate).addDays (-7) = { jd := jd - 7 } :=
        QDate.addDays_of_range hvalid ⟨by dsimp only; omega, by dsimp only; omega⟩
      rw [if_pos hfound, hback]
      exact ih (by omega) (by omega) (by omega)
    · rw [if_neg hfound]
      exact ⟨_, rfl⟩

theorem firstDay_succ (n : ℤ) : firstDay n + 364 ≤ firstDay (n + 1) ∧
    firstDay (n + 1) ≤ firstDay n + 367 := by
  unfold firstDay yearStart
  omega

theorem exists_month_before (hm : 1 ≤ month) (hm' : month ≤ 12) (jd : ℤ) :
    ∃ first, first ≤ jd ∧ jd < first + 7 * 106 ∧
      ∀ o, 0 ≤ o → o < 7 → (partsFromJulian (first + o)).month = month := by
  obtain ⟨n, hn⟩ : ∃ n, n = yearIndex (partsFromJulian jd).year - 1 := ⟨_, rfl⟩
  have hyear : (partsFromJulian jd).year ≠ 0 := monthTiling.year_ne_zero jd
  have hmonth : 1 ≤ (partsFromJulian jd).month := monthTiling.one_le_month jd
  have hmonth' : (partsFromJulian jd).month ≤ 12 := monthTiling.month_le jd
  have hday : 1 ≤ (partsFromJulian jd).day := monthTiling.one_le_day jd
  have hday' : (partsFromJulian jd).day ≤
      monthLength (partsFromJulian jd).month (partsFromJulian jd).year := by
    rw [monthLength_eq hyear]
    exact monthTiling.day_le_daysInMonth jd
  have hjd : monthFirst (partsFromJulian jd).year (partsFromJulian jd).month +
      ((partsFromJulian jd).day - 1) = jd := monthTiling.start_eq jd
  have hlength := monthLength_range (partsFromJulian jd).year hmonth hmonth'
  have hstart := monthFirst_eq hyear hmonth hmonth'
  have hbefore := daysBefore_range hmonth hmonth'
  -- the same month of the year with the number before
  have hne := yearOfIndex_ne_zero n
  have hfirst := monthFirst_eq hne hm hm'
  have hdays := daysBefore_range hm hm'
  have hyears := firstDay_succ n
  have hlen := monthLength_range (yearOfIndex n) hm hm'
  rw [yearIndex_yearOfIndex] at hfirst
  rw [show yearIndex (partsFromJulian jd).year = n + 1 by omega] at hstart
  refine ⟨monthFirst (yearOfIndex n) month, ?_, ?_, fun o ho ho' => ?_⟩
  · split at hstart <;> split at hfirst <;> omega
  · split at hstart <;> split at hfirst <;> omega
  · rw [partsFromJulian_monthFirst hne ho (by omega)]

/-! ## Dates in all years -/

/-- A year of `YearRange`. There is no year 0, but a loop over the years comes to it. -/
def InYearRange (year : ℤ) : Prop := YearRange.First ≤ year ∧ year ≤ YearRange.Last

/-- The checks that the code makes of a week-day do not depend on the year. -/
def DowChecked (month week dow : ℤ) : Prop :=
  ¬ (dow ≠ 0 ∧ (dow / 8 ≠ 0 ∨ month < 1 ∨ month > 12 ∨ week < 1 ∨ week > 5)) ∧
    FitsInt (week * 7)

theorem monthFirst_inYearRange (hy : year ≠ 0) (hrange : InYearRange year) (hm : 1 ≤ month)
    (hm' : month ≤ 12) :
    -200000000000 < monthFirst year month ∧ monthFirst year month < 200000000000 := by
  have hfirst := monthFirst_eq hy hm hm'
  have hbefore := daysBefore_range hm hm'
  have hindex : yearIndex year = if year < 0 then year + 1 else year := rfl
  have hn : -292275056 ≤ yearIndex year ∧ yearIndex year ≤ 292278994 := by
    unfold InYearRange YearRange.First YearRange.Last at hrange
    split at hindex <;> omega
  unfold firstDay yearStart BaseJd QRomanCalendrical.LeapDayGregorian1Bce at hfirst
  split at hfirst <;> omega

theorem calculateDowDate_ends {dow week : ℤ} (hy : year ≠ 0) (hrange : InYearRange year)
    (hm : 1 ≤ month) (hm' : month ≤ 12) (hok : DowChecked month week dow) :
    ∃ date, calculateDowDate 106 year month dow week = .ok date := by
  obtain ⟨hcheck, hfits⟩ := hok
  have hfar := monthFirst_inYearRange hy hrange hm hm'
  have hyear : IsYear year := by
    unfold InYearRange YearRange.First YearRange.Last at hrange
    exact ⟨hy, by omega, by omega⟩
  obtain ⟨hlow, hhigh, -⟩ := dowShift_spec year month (show 0 ≤ dow by omega) (by omega)
  rw [calculateDowDate_eq hyear hm hm' (by omega) (by omega) (by omega) hfits]
  generalize dowShift year month dow = shift at hlow hhigh ⊢
  have hweek : -2147483648 ≤ week * 7 ∧ week * 7 ≤ 2147483647 := hfits
  have hinside : ∀ d, -2147483655 ≤ d → d ≤ 2147483647 →
      minJd + 742 ≤ monthFirst year month + d ∧ monthFirst year month + d ≤ maxJd := by
    unfold minJd maxJd
    omega
  have hdate : (({ jd := monthFirst year month } : QDate).addDays shift).addDays (week * 7) =
      { jd := monthFirst year month + (shift + week * 7) } := by
    have hstart := hinside 0 (by decide) (by decide)
    have hshift := hinside shift (by omega) (by omega)
    have hend := hinside (shift + week * 7) (by omega) (by omega)
    have hvalid : ({ jd := monthFirst year month } : QDate).isValid = true :=
      isValid_mk ⟨by omega, by omega⟩
    have hvalid' : ({ jd := monthFirst year month + shift } : QDate).isValid = true :=
      isValid_mk ⟨by omega, by omega⟩
    rw [addDays_of_range hvalid ⟨by dsimp only; omega, by dsimp only; omega⟩,
      addDays_of_range hvalid' ⟨by dsimp only; omega, by dsimp only; omega⟩, Int.add_assoc]
  have hend := hinside (shift + week * 7) (by omega) (by omega)
  obtain ⟨first, hle, hlt, hmonth⟩ :=
    exists_month_before hm hm' (monthFirst year month + (shift + week * 7))
  rw [hdate]
  exact weeksBack_ends (by omega) hend.2 hmonth hle hlt

theorem calculateDowDate_zero {dow week : ℤ} (hm : month ≠ 0) (hok : DowChecked month week dow)
    (rounds : ℕ) : calculateDowDate rounds 0 month dow week = .error .diverge := by
  have hnone : QDate.ofParts 0 month 1 = QDate.null := by
    have hparts : validParts 0 month 1 = false := decide_eq_false fun h => h.1 rfl
    unfold QDate.ofParts julianFromParts
    rw [hparts]
    rfl
  unfold calculateDowDate
  rw [if_neg hok.1]
  dsimp only
  rw [hnone, QDate.addDays_null, QDate.addDays_null, ite_self, checkedInt_of_fits hok.2, ok_bind,
    QDate.addDays_null]
  exact weeksBack_null hm rounds

/-! ## Rules that have a date in 1972 -/

/-- The check that `validatePosixRule` makes of a date -/
def AcceptedDate (dateRule : List UInt8) : Prop :=
  ∃ rounds date, calculatePosixDate rounds dateRule 1972 = .ok date ∧ date.isValid = true

theorem readDate_weekday {r : PosixDate} (h : readDate dateRule = some r) :
    dateRule.head? = some 0x4d ↔ ∃ month week dow, r = .weekday month week dow := by
  unfold readDate at h
  split at h
  · rename_i hhead
    refine iff_of_true hhead ?_
    split at h
    · split at h
      · cases h
        exact ⟨_, _, _, rfl⟩
      · cases h
    · cases h
  · rename_i hhead
    refine iff_of_false hhead ?_
    rintro ⟨month, week, dow, rfl⟩
    split at h
    · cases hn : LocaleTools.toInt (dateRule.drop 1) <;> rw [hn] at h <;> cases h
    · cases hn : LocaleTools.toInt dateRule <;> rw [hn] at h <;> cases h

theorem AcceptedDate.read (h : AcceptedDate dateRule) : dateRule ≠ [] ∧
    ∃ r, readDate dateRule = some r ∧
      ∀ month week dow, r = .weekday month week dow →
        DowChecked month week dow ∧ 1 ≤ month ∧ month ≤ 12 := by
  obtain ⟨rounds, date, hdate, hvalid⟩ := h
  have hne : dateRule ≠ [] := fun hnil => by
    rw [hnil] at hdate
    cases hdate
  rw [calculatePosixDate_eq hne] at hdate
  refine ⟨hne, ?_⟩
  cases hread : readDate dateRule with
  | none =>
    rw [hread] at hdate
    cases hdate
    cases hvalid
  | some r =>
    rw [hread] at hdate
    refine ⟨r, rfl, ?_⟩
    rintro month week dow rfl
    change calculateDowDate rounds 1972 month dow week = .ok date at hdate
    unfold calculateDowDate at hdate
    split at hdate
    · cases hdate
      cases hvalid
    · rename_i hcheck
      obtain ⟨days, hdays, hback⟩ := bind_eq_ok hdate
      have hmonth := weeksBack_month hback
      have hparts := part_of_isValid hvalid YearMonthDay.month
      have hlow : 1 ≤ (partsFromJulian date.jd).month := monthTiling.one_le_month _
      have hhigh : (partsFromJulian date.jd).month ≤ 12 := monthTiling.month_le _
      change date.month = _ at hparts
      exact ⟨⟨hcheck, (checkedInt_eq_ok hdays).1⟩, by omega, by omega⟩

/-- Such a rule has a date in all the years of the range, or, if it names a week-day, in all but
the year 0. -/
theorem AcceptedDate.exists_date (h : AcceptedDate dateRule) (hrange : InYearRange year)
    (hzero : year = 0 → dateRule.head? ≠ some 0x4d) :
    ∃ date, calculatePosixDate 106 dateRule year = .ok date := by
  obtain ⟨hne, r, hread, hchecked⟩ := h.read
  rw [calculatePosixDate_eq hne, hread]
  cases r with
  | weekday month week dow =>
    obtain ⟨hok, hm, hm'⟩ := hchecked month week dow rfl
    have hhead := (readDate_weekday hread).2 ⟨_, _, _, rfl⟩
    exact calculateDowDate_ends (fun hy => hzero hy hhead) hrange hm hm' hok
  | julian doy =>
    by_cases hdoy : doy > 0 ∧ doy < 366
    · exact ⟨_, if_pos hdoy⟩
    · exact ⟨_, if_neg hdoy⟩
  | day doy =>
    by_cases hdoy : doy ≥ 0 ∧ doy < 366
    · exact ⟨_, if_pos hdoy⟩
    · exact ⟨_, if_neg hdoy⟩

theorem AcceptedDate.not_zero (h : AcceptedDate dateRule) (hhead : dateRule.head? = some 0x4d)
    (rounds : ℕ) : calculatePosixDate rounds dateRule 0 = .error .diverge := by
  obtain ⟨hne, r, hread, hchecked⟩ := h.read
  obtain ⟨month, week, dow, rfl⟩ := (readDate_weekday hread).1 hhead
  obtain ⟨hok, hm, -⟩ := hchecked month week dow rfl
  rw [calculatePosixDate_eq hne, hread]
  exact calculateDowDate_zero (by omega) hok rounds

/-! ## Offsets -/

variable {range : List UInt8} {simd : Simd AsciiByte}

theorem parsePosixTime_range {v : ℤ} (h : parsePosixTime range = .ok v) (hv : v ≠ INT_MIN) :
    -604800 < v ∧ v < 604800 := by
  rcases parsePosixTime_cases range with hmin | ⟨hv', below, htaken⟩
  · rw [hmin] at h
    exact absurd (Except.ok.inj h).symm hv
  · rw [parsePosixTime_taken htaken] at h
    rw [← Except.ok.inj h]
    exact taken_range htaken

theorem parsePosixOffset_range {v : ℤ} (h : parsePosixOffset range = .ok v) (hv : v ≠ INT_MIN) :
    -604800 < v ∧ v < 604800 := by
  have hsigned : ∀ (negate : Bool) (begin : List UInt8), (do
      let value ← parsePosixTime begin
      if value = INT_MIN then return value
      if negate then checkedInt (-value) else return value : Exec ℤ) = .ok v →
      -604800 < v ∧ v < 604800 := by
    intro negate begin h
    obtain ⟨value, htime, h⟩ := bind_eq_ok h
    split at h
    · rename_i hmin
      cases h
      exact absurd hmin hv
    · rename_i hmin
      have hrange := parsePosixTime_range htime hmin
      split at h
      · rw [checkedInt_of_fits (by unfold FitsInt; omega)] at h
        cases h
        omega
      · cases h
        exact hrange
  unfold parsePosixOffset at h
  split at h
  · cases h
  · exact hsigned true _ h
  · exact hsigned false _ h
  · exact hsigned true _ h

namespace PosixZone

theorem hasValidOffset_iff {z : PosixZone} : z.hasValidOffset = true ↔ z.offset ≠ INT_MIN :=
  bne_iff_ne

theorem parse_offset {z : PosixZone} {pos : ℕ} (h : parse simd range = .ok (z, pos))
    (hz : z.hasValidOffset = true) : -604800 < z.offset ∧ z.offset < 604800 := by
  rw [hasValidOffset_iff] at hz
  unfold parse at h
  obtain ⟨-, -, h⟩ := bind_eq_ok h
  obtain ⟨⟨nameBegin, nameEnd, zoneBegin⟩, -, h⟩ := bind_eq_ok h
  dsimp only at h
  split at h
  · cases h
    exact absurd rfl hz
  · obtain ⟨zoneEnd, -, h⟩ := bind_eq_ok h
    obtain ⟨offset, hoffset, h⟩ := bind_eq_ok h
    split at h
    · cases h
      exact absurd rfl hz
    · cases h
      unfold zoneOffset at hoffset
      split at hoffset
      · exact parsePosixOffset_range hoffset hz
      · cases hoffset
        exact absurd rfl hz

end PosixZone

/-! ## The parts of an accepted rule -/

theorem checkTransition_read {part : List UInt8} (h : checkTransition rounds part = .ok true) :
    ∃ dateRule time, readTransition part = .ok (dateRule, time) ∧ AcceptedDate dateRule ∧
      time ≠ INT_MIN := by
  unfold checkTransition at h
  unfold readTransition
  generalize part.splitOn 0x2f = fields at h ⊢
  cases fields with
  | nil => cases h
  | cons dateRule rest =>
    obtain ⟨date, hdate, h⟩ := bind_eq_ok h
    split at h
    · cases h
    · rename_i hvalid
      rw [Bool.not_eq_true, Bool.not_eq_false'] at hvalid
      cases rest with
      | nil => exact ⟨dateRule, twoOClock, rfl, ⟨rounds, date, hdate, hvalid⟩, by decide⟩
      | cons time rest =>
        obtain ⟨value, hvalue, h⟩ := bind_eq_ok h
        refine ⟨dateRule, value, ?_, ⟨rounds, date, hdate, hvalid⟩, ?_⟩
        · simp [hvalue]
        · exact of_decide_eq_true (Except.ok.inj h)

theorem checkTransitions_read {parts : List (List UInt8)}
    (h : checkTransitions rounds parts = .ok true) : ∃ dst std, parts = [dst, std] ∧
      ¬ (dst = [] ∨ std = []) ∧ checkTransition rounds dst = .ok true ∧
      checkTransition rounds std = .ok true := by
  match parts, h with
  | [], h | [_], h | _ :: _ :: _ :: _, h => cases h
  | [dst, std], h =>
    unfold checkTransitions at h
    dsimp only at h
    split at h
    · cases h
    · rename_i hsome
      obtain ⟨dstOk, hdst, h⟩ := bind_eq_ok h
      cases dstOk with
      | false => cases h
      | true => exact ⟨dst, std, rfl, hsome, hdst, h⟩

/-- The zones of an accepted rule, and that the transitions are checked if there are some. -/
theorem validatePosixRule_read {posixRule : List UInt8} {requireOffset : Bool} {check : RuleCheck}
    (h : validatePosixRule simd rounds posixRule requireOffset = .ok check)
    (hvalid : check.isValid = true) :
    ∃ zoneinfo parts posix begin, posixRule.splitOn 0x2c = zoneinfo :: parts ∧
      parse simd zoneinfo = .ok (posix, begin) ∧ posix.name ≠ [] ∧
      (parts = [] ∧ zoneinfo.length ≤ begin ∨
        begin < zoneinfo.length ∧ checkTransitions rounds parts = .ok true ∧
          ∃ posix' pos, parse simd (zoneinfo.drop begin) = .ok (posix', pos) ∧
            posix'.name ≠ []) := by
  unfold validatePosixRule at h
  cases hsplit : posixRule.splitOn 0x2c with
  | nil =>
    rw [hsplit] at h
    cases h
  | cons zoneinfo parts =>
    rw [hsplit] at h
    dsimp only at h
    split at h
    · cases h
      cases hvalid
    · obtain ⟨⟨posix, begin⟩, hparse, h⟩ := bind_eq_ok h
      dsimp only at h
      split at h
      · cases h
        cases hvalid
      · rename_i hname
        rw [not_or] at hname
        refine ⟨zoneinfo, parts, posix, begin, rfl, hparse, hname.1, ?_⟩
        split at h
        · rename_i hparts
          left
          refine ⟨hparts, ?_⟩
          by_contra hlt
          rw [if_pos (not_le.1 hlt)] at h
          cases h
          cases hvalid
        · right
          obtain ⟨second, hsecond, h⟩ := bind_eq_ok h
          cases second with
          | none =>
            cases h
            cases hvalid
          | some stop =>
            dsimp only at h
            split at h
            · cases h
              cases hvalid
            · obtain ⟨good, hgood, h⟩ := bind_eq_ok h
              cases good with
              | false =>
                cases h
                cases hvalid
              | true =>
                unfold secondZone at hsecond
                split at hsecond
                · cases hsecond
                · rename_i hmore
                  obtain ⟨⟨posix', pos⟩, hparse', hsecond⟩ := bind_eq_ok hsecond
                  refine ⟨not_le.1 hmore, hgood, posix', pos, hparse', fun hnil => ?_⟩
                  dsimp only at hsecond
                  rw [if_pos hnil] at hsecond
                  cases hsecond

/-! ## The rule -/

/-- What the check of a rule promises about the transitions. -/
structure PosixChanges.Accepted (c : PosixChanges) : Prop where
  std_name : c.stdZone.name ≠ []
  dst_name : c.dstZone.name ≠ []
  std_offset : -604800 < c.stdZone.offset ∧ c.stdZone.offset < 604800
  dst_offset : -604800 < c.dstZone.offset ∧ c.dstZone.offset < 608400
  dst_date : AcceptedDate c.dstDateRule
  std_date : AcceptedDate c.stdDateRule

theorem readZones_eq {zoneinfo : List UInt8} {posix posix' : PosixZone} {begin pos : ℕ}
    (hparse : parse simd zoneinfo = .ok (posix, begin)) (hlt : begin < zoneinfo.length)
    (hparse' : parse simd (zoneinfo.drop begin) = .ok (posix', pos)) :
    (∃ stdZone, readZones simd zoneinfo = .ok (stdZone, invalid)) ∨
      ∃ dstZone, readZones simd zoneinfo = .ok (posix, dstZone) ∧
        dstZone.name = posix'.name ∧ (-604800 < posix.offset ∧ posix.offset < 604800) ∧
        (-604800 < dstZone.offset ∧ dstZone.offset < 608400) := by
  unfold readZones
  rw [hparse, ok_bind]
  dsimp only
  cases hstd : posix.hasValidOffset with
  | false => exact Or.inl ⟨_, rfl⟩
  | true =>
    have hrange := parse_offset hparse hstd
    right
    rw [Bool.not_true, if_neg Bool.false_ne_true, if_pos hlt, hparse', ok_bind]
    dsimp only
    cases hdst : posix'.hasValidOffset with
    | true =>
      have hrange' := parse_offset hparse' hdst
      exact ⟨posix', rfl, rfl, hrange, by omega⟩
    | false =>
      rw [if_neg Bool.false_ne_true, checkedInt_of_fits (by unfold FitsInt; omega), ok_bind]
      exact ⟨_, rfl, rfl, hrange, by dsimp only; omega⟩

theorem readRule_of_check {posixRule : List UInt8} {requireOffset : Bool} {check : RuleCheck}
    (h : validatePosixRule simd rounds posixRule requireOffset = .ok check)
    (hvalid : check.isValid = true) :
    (∃ stdZone zoneinfo, readRule simd posixRule = .ok (.single stdZone zoneinfo)) ∨
      ∃ c, readRule simd posixRule = .ok (.changes c) ∧ c.Accepted := by
  obtain ⟨zoneinfo, parts, posix, begin, hsplit, hparse, hname, hrest⟩ :=
    validatePosixRule_read h hvalid
  unfold readRule
  rw [hsplit]
  dsimp only
  rcases hrest with ⟨rfl, hend⟩ | ⟨hlt, hcheck, posix', pos, hparse', hname'⟩
  · obtain ⟨zones, hzones⟩ : ∃ zones, readZones simd zoneinfo = .ok zones := by
      unfold readZones
      rw [hparse, ok_bind]
      dsimp only
      cases posix.hasValidOffset with
      | false => exact ⟨_, rfl⟩
      | true => exact ⟨_, if_neg (not_lt.2 hend)⟩
    rw [hzones, ok_bind]
    exact Or.inl ⟨zones.1, zoneinfo, rfl⟩
  · obtain ⟨dst, std, rfl, hsome, hdst, hstd⟩ := checkTransitions_read hcheck
    rcases readZones_eq hparse hlt hparse' with
      ⟨stdZone, hzones⟩ | ⟨dstZone, hzones, hsame, hstdOffset, hdstOffset⟩
    · rw [hzones, ok_bind]
      exact Or.inl ⟨stdZone, zoneinfo, rfl⟩
    · obtain ⟨dstDateRule, dstTime, hreadDst, hdstDate, hdstTime⟩ := checkTransition_read hdst
      obtain ⟨stdDateRule, stdTime, hreadStd, hstdDate, hstdTime⟩ := checkTransition_read hstd
      have hoffset : dstZone.hasValidOffset = true := by
        rw [hasValidOffset_iff]
        unfold INT_MIN
        omega
      right
      rw [hzones, ok_bind]
      dsimp only
      rw [if_neg (by rw [hoffset]; simp), if_neg hsome, hreadDst, ok_bind]
      dsimp only
      rw [hreadStd, ok_bind]
      dsimp only
      rw [if_neg (by simp [hdstDate.read.1, hstdDate.read.1, hdstTime, hstdTime])]
      exact ⟨_, rfl, hname, by rw [hsame]; exact hname', hstdOffset, hdstOffset, hdstDate, hstdDate⟩

end QtBase.Time
