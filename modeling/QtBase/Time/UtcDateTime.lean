import QtBase.Time.QDateTimeData

/-! Times in UTC: the start and the end of a day, sums of seconds, and the order of times. -/
namespace QtBase.Time

open QGregorianCalendar QRoundingDown QDate

/-! ## The functions -/

/-- A `QDateTime` in UTC, or a default-constructed one, with its `toMSecsSinceEpoch()`. -/
structure QDateTime where
  isValid : Bool
  toMSecsSinceEpoch : ℤ
  fits : isValid = true → FitsQint64 toMSecsSinceEpoch

inductive DaySide
  | Start
  | End

def inDateTimeRange (jd : ℤ) (side : DaySide) : Bool :=
  if jd < -9223372036854775808 + JULIAN_DAY_FOR_EPOCH then false
  else
    let jd := jd - JULIAN_DAY_FOR_EPOCH
    let maxDay := (9223372036854775807 : ℤ).tdiv MSECS_PER_DAY
    let minDay := (-9223372036854775808 : ℤ).tdiv MSECS_PER_DAY - 1
    match side with
    | .Start => decide (jd > minDay ∧ jd ≤ maxDay)
    | .End => decide (jd ≥ minDay ∧ jd < maxDay)

theorem daysAndMillis_fits {days millisInDay msecs : ℤ}
    (h : QDateTimeData.daysAndMillis days millisInDay = some msecs) : FitsQint64 msecs := by
  unfold QDateTimeData.daysAndMillis at h
  split at h
  · cases h
  · split at h
    · cases h
    · rename_i hfits
      cases h
      exact not_not.1 hfits

namespace QDateTime

/-- What the constructor makes of a valid date and a valid time in UTC. -/
def ofParts (date : QDate) (time : QTime) : QDateTime :=
  let days := date.jd - JULIAN_DAY_FOR_EPOCH
  let ds := time.mds
  match h : QDateTimeData.daysAndMillis (if days < 0 ∧ ds > 0 then days + 1 else days)
      (if days < 0 ∧ ds > 0 then ds - MSECS_PER_DAY else ds) with
  | none => { isValid := false, toMSecsSinceEpoch := 0, fits := fun h => by cases h }
  | some msecs =>
    { isValid := true, toMSecsSinceEpoch := msecs, fits := fun _ => daysAndMillis_fits h }

/-- The first year of `YearRange`, with its end, and the last one, with its start -/
def YearRange.First : ℤ := -292275056

def YearRange.Last : ℤ := 292278994

/-- The default constructor. Its `toMSecsSinceEpoch()` depends on the time zone of the system. -/
def null (nullMSecs : ℤ) : QDateTime :=
  { isValid := false, toMSecsSinceEpoch := nullMSecs, fits := fun h => by cases h }

def addMSecs (nullMSecs : ℤ) (dt : QDateTime) (msecs : ℤ) : QDateTime :=
  if !dt.isValid then null nullMSecs
  else if h : FitsQint64 (dt.toMSecsSinceEpoch + msecs) then
    { isValid := true, toMSecsSinceEpoch := dt.toMSecsSinceEpoch + msecs, fits := fun _ => h }
  else
    { isValid := false, toMSecsSinceEpoch := dt.toMSecsSinceEpoch, fits := fun h => by cases h }

def addSecs (nullMSecs : ℤ) (dt : QDateTime) (s : ℤ) : QDateTime :=
  if ¬ FitsQint64 (s * 1000) then null nullMSecs else addMSecs nullMSecs dt (s * 1000)

def precedes (dt other : QDateTime) : Bool :=
  if !dt.isValid then other.isValid
  else if !other.isValid then false
  else decide (dt.toMSecsSinceEpoch < other.toMSecsSinceEpoch)

def date (dt : QDateTime) : QDate :=
  if dt.isValid then
    QDate.fromJulianDay (JULIAN_DAY_FOR_EPOCH + qDiv MSECS_PER_DAY dt.toMSecsSinceEpoch)
  else QDate.null

end QDateTime

namespace QDate

variable (nullMSecs : ℤ) (date : QDate)

/-- In UTC no time is skipped, so that the first of the day is its midnight. -/
def startOfDay : QDateTime :=
  if !inDateTimeRange date.jd .Start then QDateTime.null nullMSecs
  else QDateTime.ofParts date { mds := 0 }

def endOfDay : QDateTime :=
  if !inDateTimeRange date.jd .End then QDateTime.null nullMSecs
  else QDateTime.ofParts date { mds := 86399999 }

end QDate

/-! ## Times of a day -/

namespace QDateTime

variable {date : QDate} {time : QTime}

theorem ofParts_of_fits (htime : time.isValid = true)
    (h : FitsQint64 ((date.jd - 2440588) * 86400000 + time.mds)) :
    ofParts date time = ⟨true, (date.jd - 2440588) * 86400000 + time.mds, fun _ => h⟩ := by
  obtain ⟨hlow, hhigh⟩ := QTime.isValid_iff.1 htime
  have hsum := @daysAndMillis_eq (date.jd - JULIAN_DAY_FOR_EPOCH) time.mds hlow hhigh
  change _ = if FitsQint64 ((date.jd - 2440588) * 86400000 + time.mds) then
    some ((date.jd - 2440588) * 86400000 + time.mds) else none at hsum
  rw [if_pos h] at hsum
  unfold ofParts
  dsimp only
  split
  · rename_i hnone
    rw [hsum] at hnone
    cases hnone
  · rename_i hsome
    rw [hsum] at hsome
    cases hsome
    rfl

theorem ofParts_setDateTime (hdate : date.isValid = true) (htime : time.isValid = true)
    (h : FitsQint64 ((date.jd - 2440588) * 86400000 + time.mds)) {p : ℕ} (d : QDateTimeData p) :
    ∃ d', QDateTimeData.setDateTime d date time = .ok d' ∧
      d'.getMSecs = (ofParts date time).toMSecsSinceEpoch := by
  refine ⟨_, QDateTimeData.setDateTime_eq d hdate htime, ?_⟩
  rw [if_pos h, QDateTimeData.getMSecs_store, ofParts_of_fits htime h]

theorem ofParts_setDateTime_epoch : ∃ d', QDateTimeData.setDateTime QDateTimeData.utc
      { jd := 2440588 } { mds := 1 } = .ok d' ∧
    d'.getMSecs = (ofParts { jd := 2440588 } { mds := 1 }).toMSecsSinceEpoch :=
  ofParts_setDateTime (by decide) (by decide) (by decide) _

end QDateTime

namespace QDate

variable {date : QDate}

/-- The rest of `startOfDay` is not for UTC: the midnight of a day in the range is valid. -/
theorem startOfDay_isValid (h : inDateTimeRange date.jd .Start = true) (nullMSecs : ℤ) :
    (date.startOfDay nullMSecs).isValid = true := by
  have hrange : -106751991168 < date.jd - 2440588 ∧ date.jd - 2440588 ≤ 106751991167 := by
    unfold inDateTimeRange at h
    split at h
    · cases h
    · exact of_decide_eq_true h
  unfold startOfDay
  rw [h, QDateTime.ofParts_of_fits rfl (by unfold FitsQint64; dsimp only; omega)]
  rfl

theorem endOfDay_isValid (h : inDateTimeRange date.jd .End = true) (nullMSecs : ℤ) :
    (date.endOfDay nullMSecs).isValid = true := by
  have hrange : -106751991168 ≤ date.jd - 2440588 ∧ date.jd - 2440588 < 106751991167 := by
    unfold inDateTimeRange at h
    split at h
    · cases h
    · exact of_decide_eq_true h
  unfold endOfDay
  rw [h, QDateTime.ofParts_of_fits rfl (by unfold FitsQint64; dsimp only; omega)]
  rfl

end QDate

/-! ## The order of times -/

namespace QDateTime

variable {dt other : QDateTime}

theorem date_of_isValid (h : dt.isValid = true) :
    dt.date = { jd := 2440588 + dt.toMSecsSinceEpoch / 86400000 } ∧ dt.date.isValid = true := by
  have hfits := dt.fits h
  have hjd : JULIAN_DAY_FOR_EPOCH + qDiv MSECS_PER_DAY dt.toMSecsSinceEpoch =
      2440588 + dt.toMSecsSinceEpoch / 86400000 := by
    rw [qDiv_eq (by decide)]
    rfl
  have hrange : minJd ≤ 2440588 + dt.toMSecsSinceEpoch / 86400000 ∧
      2440588 + dt.toMSecsSinceEpoch / 86400000 ≤ maxJd := by
    unfold FitsQint64 at hfits
    unfold minJd maxJd
    omega
  have hdate : dt.date = { jd := 2440588 + dt.toMSecsSinceEpoch / 86400000 } := by
    unfold date
    rw [if_pos h, hjd, fromJulianDay_of_range hrange]
  refine ⟨hdate, ?_⟩
  rw [hdate]
  exact isValid_iff.2 hrange

theorem year_ne_zero (h : dt.isValid = true) : dt.date.year ≠ 0 := by
  obtain ⟨-, hvalid⟩ := date_of_isValid h
  unfold year
  rw [part_of_isValid hvalid]
  exact monthTiling.year_ne_zero _

theorem lt_of_year_lt (h : dt.isValid = true) (hother : other.isValid = true)
    (hyear : dt.date.year < other.date.year) : dt.toMSecsSinceEpoch < other.toMSecsSinceEpoch := by
  obtain ⟨hdate, hvalid⟩ := date_of_isValid h
  obtain ⟨hdate', hvalid'⟩ := date_of_isValid hother
  by_contra hle
  have hjd : other.date.jd ≤ dt.date.jd := by
    simp [hdate, hdate']
    omega
  exact absurd (year_mono hvalid' hvalid hjd) (Int.not_le.2 hyear)

theorem precedes_iff (h : dt.isValid = true) (hother : other.isValid = true) :
    dt.precedes other = true ↔ dt.toMSecsSinceEpoch < other.toMSecsSinceEpoch := by
  unfold precedes
  rw [h, hother]
  exact decide_eq_true_iff

end QDateTime

end QtBase.Time
