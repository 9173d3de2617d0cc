import QtBase.Core.Signed
import QtBase.Time.QDate

/-! The data block of a `QDateTime`: a date and a time in, the same date and time out. -/
namespace QtBase.Time

open QRoundingDown QDate

def MSECS_PER_DAY : ℤ := 86400000

/-- The day number of 1970-01-01. -/
def JULIAN_DAY_FOR_EPOCH : ℤ := 2440588

/-- The milliseconds since the start of the day, -1 for no time. -/
structure QTime where
  mds : ℤ
  deriving DecidableEq, Repr

namespace QTime

def NullTime : ℤ := -1

/-- The default constructor. -/
def null : QTime := { mds := NullTime }

def isValid (time : QTime) : Bool := decide (time.mds > NullTime ∧ time.mds < MSECS_PER_DAY)

def fromMSecsSinceStartOfDay (msecs : ℤ) : QTime := { mds := msecs }

def msecsSinceStartOfDay (time : QTime) : ℤ := if time.mds = NullTime then 0 else time.mds

theorem isValid_iff {time : QTime} : time.isValid = true ↔ 0 ≤ time.mds ∧ time.mds < 86400000 := by
  unfold isValid NullTime MSECS_PER_DAY
  simp
  omega

end QTime

/-- `qDivMod<b>` with its sums in `qint64` -/
def qDivModQint64 (b a : ℤ) : Exec R := do
  if a < 0 then
    let a ← checkedQint64 (a + 1)
    let quotient ← checkedQint64 (a.tdiv b - 1)
    let less ← checkedQint64 (a.tmod b - 1)
    let remainder ← checkedQint64 (less + b)
    return { quotient := quotient, remainder := remainder }
  else return { quotient := a.tdiv b, remainder := a.tmod b }

/-! ## The data block -/

abbrev StatusFlags := BitVec 32

namespace StatusFlag

def ShortData : StatusFlags := 0x01
def ValidDate : StatusFlags := 0x02
def ValidTime : StatusFlags := 0x04
def ValidityMask : StatusFlags := 0x0e
def DaylightMask : StatusFlags := 0xc0

end StatusFlag

open StatusFlag

def StatusFlags.testFlag (i flag : StatusFlags) : Bool :=
  if flag ≠ 0 then i &&& flag == flag else i == 0

/-- `QDateTime::ShortData`, in the place of a pointer of `p + 8` bits. Its flag `ShortData` is the
bit that no pointer has. -/
structure ShortData (p : ℕ) where
  status : BitVec 8
  msecs : BitVec p
  isShort : status.getLsbD 0 = true

/-- `QDateTimePrivate`, the fields that hold the date and the time -/
structure QDateTimePrivate where
  ref : ℕ
  m_status : StatusFlags
  m_msecs : ℤ
  deriving DecidableEq

/-- `QDateTime::Data` -/
inductive QDateTimeData (p : ℕ) where
  | short (data : ShortData p)
  | long (d : QDateTimePrivate)

namespace QDateTimeData

variable {p : ℕ}

/-- `quintptr(d)` of a short block -/
def word (data : ShortData p) : BitVec (p + 8) := data.msecs ++ data.status

def CanBeSmall (p : ℕ) : Bool := decide (p + 8 > 50)

/-- The assignment of a `qint64` to `ShortData::msecs` -/
def shortMSecs (p : ℕ) (msecs : ℤ) : BitVec p := (BitVec.ofInt (p + 8) msecs).setWidth p

def msecsCanBeSmall (p : ℕ) (msecs : ℤ) : Bool :=
  if !CanBeSmall p then false else (shortMSecs p msecs).toInt == msecs

def getMSecs : QDateTimeData p → ℤ
  | short data => ((word data).sshiftRight 8).toInt
  | long d => d.m_msecs

def getStatus : QDateTimeData p → StatusFlags
  | short data => (word data &&& 0xff).setWidth 32
  | long d => d.m_status

/-- The block after `detach()`, not shared and not short. -/
def detach : QDateTimeData p → QDateTimePrivate
  | short data =>
    { ref := 1
      m_status := data.status.setWidth 32 &&& ~~~StatusFlag.ShortData
      m_msecs := data.msecs.toInt }
  | long d => if d.ref = 1 then d else { d with ref := 1 }

/-- `status &= ~(ValidityMask | DaylightMask)`, then `status |= newStatus` -/
def mergeStatus (w : ℕ) (status : BitVec w) (newStatus : StatusFlags) : BitVec w :=
  status &&& (~~~(ValidityMask ||| DaylightMask)).setWidth w ||| newStatus.setWidth w

/-- `daysAndMillisOverflow`, with the sum where there is no overflow -/
def daysAndMillis (days millisInDay : ℤ) : Option ℤ :=
  if ¬ FitsQint64 (days * MSECS_PER_DAY) then none
  else if ¬ FitsQint64 (days * MSECS_PER_DAY + millisInDay) then none
  else some (days * MSECS_PER_DAY + millisInDay)

/-- `newStatus`, from what of the date and the time is valid -/
def newStatus (date : QDate) (time : QTime) : StatusFlags :=
  (if date.isValid then ValidDate else 0) ||| if time.isValid then ValidTime else 0

/-- The short block with another date and time -/
def storeShort (data : ShortData p) (msecs : ℤ) (newStatus : StatusFlags) : ShortData p where
  status := mergeStatus 8 data.status newStatus
  msecs := shortMSecs p msecs
  isShort := by
    unfold mergeStatus
    rw [BitVec.getLsbD_or, BitVec.getLsbD_and, data.isShort, Bool.true_and]
    rfl

/-- The block, not short, with another date and time -/
def storeLong (d : QDateTimePrivate) (msecs : ℤ) (newStatus : StatusFlags) : QDateTimePrivate :=
  { d with m_msecs := msecs, m_status := mergeStatus 32 d.m_status newStatus }

/-- The end of `setDateTime`: a short block stays short where it can. -/
def store (d : QDateTimeData p) (msecs : ℤ) (newStatus : StatusFlags) : QDateTimeData p :=
  match d with
  | short data =>
    if msecsCanBeSmall p msecs then short (storeShort data msecs newStatus)
    else long (storeLong d.detach msecs newStatus)
  | long _ => long (storeLong d.detach msecs newStatus)

/-- A sum out of range makes the date and the time invalid. -/
def storeSum (d : QDateTimeData p) (sum : Option ℤ) (newStatus : StatusFlags) : QDateTimeData p :=
  match sum with
  | none => store d 0 0
  | some msecs => store d msecs newStatus

def setDateTime (d : QDateTimeData p) (date : QDate) (time : QTime) : Exec (QDateTimeData p) := do
  let time := if !time.isValid && date.isValid then QTime.fromMSecsSinceStartOfDay 0 else time
  let days ← if date.isValid then checkedQint64 (date.jd - JULIAN_DAY_FOR_EPOCH) else pure 0
  let ds := if time.isValid then time.msecsSinceStartOfDay else 0
  qAssert (ds < MSECS_PER_DAY)
  -- the start of the first day may be out of range where its later part is not
  let (days, ds) ←
    if days < 0 ∧ ds > 0 then do
      let days ← checkedQint64 (days + 1)
      let ds ← checkedQint64 (ds - MSECS_PER_DAY)
      pure (days, ds)
    else pure (days, ds)
  return storeSum d (daysAndMillis days ds) (newStatus date time)

def getDateTime (d : QDateTimeData p) : Exec (QDate × QTime) := do
  let status := getStatus d
  let dayMilli ← qDivModQint64 MSECS_PER_DAY (getMSecs d)
  let date ←
    if status.testFlag ValidDate then do
      let jd ← checkedQint64 (JULIAN_DAY_FOR_EPOCH + dayMilli.quotient)
      pure (QDate.fromJulianDay jd)
    else pure QDate.null
  return (date,
    if status.testFlag ValidTime then QTime.fromMSecsSinceStartOfDay dayMilli.remainder
    else QTime.null)

/-! ## Reading what was stored -/

theorem getMSecs_short (h : 0 < p) (data : ShortData p) :
    getMSecs (short data) = data.msecs.toInt := by
  have hp : (p == 0) = false := beq_eq_false_iff_ne.2 h.ne'
  show ((data.msecs ++ data.status).sshiftRight 8).toInt = _
  rw [BitVec.toInt_sshiftRight, BitVec.toInt_append, hp, Int.shiftRight_eq_div_pow]
  have hlow := data.status.isLt
  simp
  omega

theorem getStatus_short (data : ShortData p) :
    getStatus (short data) = data.status.setWidth 32 := by
  show ((data.msecs ++ data.status) &&& 0xff).setWidth 32 = _
  ext i hi
  have hbyte : (255 : ℕ).testBit i = decide (i < 8) := Nat.testBit_two_pow_sub_one 8 i
  simp only [BitVec.getElem_setWidth, BitVec.getLsbD_and, BitVec.getLsbD_append,
    BitVec.getLsbD_ofNat, hbyte, BitVec.ofNat_eq_ofNat]
  by_cases hlow : i < 8
  · simp [hlow, Nat.lt_add_left p hlow]
  · rw [BitVec.getLsbD_of_ge data.status i (by omega)]
    simp [hlow]

theorem testFlag_twoPow (i : StatusFlags) {k : ℕ} (hk : k < 32) :
    StatusFlags.testFlag i (BitVec.twoPow 32 k) = i.getLsbD k := by
  unfold StatusFlags.testFlag
  have hne : BitVec.twoPow 32 k ≠ 0 := by
    intro h
    have hbit := congrArg (fun x => BitVec.getLsbD x k) h
    simp [hk] at hbit
  rw [if_pos hne, BitVec.and_twoPow]
  cases i.getLsbD k 
  · simpa using Ne.symm hne
  · simp

theorem getLsbD_mergeStatus {w k : ℕ} (hw : k < w)
    (hmask : (ValidityMask ||| DaylightMask).getLsbD k = true) (status : BitVec w)
    (newStatus : StatusFlags) :
    (mergeStatus w status newStatus).getLsbD k = newStatus.getLsbD k := by
  unfold mergeStatus
  simp [hmask, hw]

theorem testFlag_store {k : ℕ} (hk : k < 8)
    (hmask : (ValidityMask ||| DaylightMask).getLsbD k = true) (d : QDateTimeData p) (msecs : ℤ)
    (newStatus : StatusFlags) :
    (getStatus (store d msecs newStatus)).testFlag (BitVec.twoPow 32 k) =
      newStatus.testFlag (BitVec.twoPow 32 k) := by
  have hlong : ∀ x : QDateTimePrivate,
      (storeLong x msecs newStatus).m_status.getLsbD k = newStatus.getLsbD k :=
    fun x => getLsbD_mergeStatus (by omega) hmask _ _
  rw [testFlag_twoPow _ (by omega), testFlag_twoPow _ (by omega)]
  cases d with
  | short data =>
    unfold store
    dsimp only
    split
    · rw [getStatus_short, BitVec.getLsbD_setWidth, decide_eq_true (by omega : k < 32),
        Bool.true_and]
      exact getLsbD_mergeStatus hk hmask _ _
    · exact hlong _
  | long x => exact hlong _

theorem getMSecs_store (d : QDateTimeData p) (msecs : ℤ) (newStatus : StatusFlags) :
    getMSecs (store d msecs newStatus) = msecs := by
  cases d with
  | short data =>
    unfold store
    dsimp only
    by_cases hsmall : msecsCanBeSmall p msecs = true
    · rw [if_pos hsmall]
      unfold msecsCanBeSmall CanBeSmall at hsmall
      by_cases hp : p + 8 > 50
      · rw [decide_eq_true hp] at hsmall
        rw [getMSecs_short (by omega)]
        exact eq_of_beq hsmall
      · rw [decide_eq_false hp] at hsmall
        cases hsmall
    · rw [if_neg hsmall]
      rfl
  | long x => rfl

end QDateTimeData

/-! ## Days and milliseconds -/

theorem qDivModQint64_eq {b a : ℤ} (hb : 0 < b) (hb' : b ≤ 2147483647) (ha : FitsQint64 a) :
    qDivModQint64 b a = .ok (qDivMod b a) := by
  unfold qDivModQint64 qDivMod
  unfold FitsQint64 at ha
  by_cases hneg : a < 0
  · have htdiv := Int.mul_tdiv_add_tmod (a + 1) b
    have hquot := tdiv_add_one_sub_one hb hneg
    have hrem := Int.mul_ediv_add_emod a b
    have hlow := Int.emod_nonneg a hb.ne'
    have hlt := Int.emod_lt_of_pos a hb
    have hmul : b * (a + 1).tdiv b = b * (a / b) + b := by
      rw [← hquot, Int.mul_sub, Int.mul_one]
      omega
    have hle : a ≤ a / b := by
      have hmore : a * b ≤ a * 1 := Int.mul_le_mul_of_nonpos_left (by omega) (by omega)
      exact Int.le_ediv_of_mul_le hb (by omega)
    have hneg' : a / b < 0 := Int.ediv_neg_of_neg_of_pos hneg hb
    rw [if_pos hneg, if_pos hneg, checkedQint64_of_fits (by unfold FitsQint64; omega), ok_bind,
      checkedQint64_of_fits (by unfold FitsQint64; omega), ok_bind,
      checkedQint64_of_fits (by unfold FitsQint64; omega), ok_bind,
      checkedQint64_of_fits (by unfold FitsQint64; omega), ok_bind]
    rfl
  · simp [hneg]

/-- The days and the milliseconds as `setDateTime` adds them, on the same side of zero. -/
theorem daysAndMillis_eq {days ds : ℤ} (hds : 0 ≤ ds) (hday : ds < 86400000) :
    QDateTimeData.daysAndMillis (if days < 0 ∧ ds > 0 then days + 1 else days)
      (if days < 0 ∧ ds > 0 then ds - MSECS_PER_DAY else ds) =
      if FitsQint64 (days * 86400000 + ds) then some (days * 86400000 + ds) else none := by
  obtain ⟨d, hd⟩ : ∃ d, d = if days < 0 ∧ ds > 0 then days + 1 else days := ⟨_, rfl⟩
  obtain ⟨m, hm⟩ : ∃ m, m = if days < 0 ∧ ds > 0 then ds - MSECS_PER_DAY else ds := ⟨_, rfl⟩
  have hsum : d * MSECS_PER_DAY + m = days * 86400000 + ds := by
    unfold MSECS_PER_DAY at hm ⊢
    split at hd <;> split at hm <;> omega
  -- the product is between zero and the sum
  have hproduct : FitsQint64 (days * 86400000 + ds) → FitsQint64 (d * MSECS_PER_DAY) := by
    unfold FitsQint64 MSECS_PER_DAY at *
    split at hd <;> split at hm <;> omega
  rw [← hd, ← hm]
  unfold QDateTimeData.daysAndMillis
  rw [hsum]
  by_cases hfits : FitsQint64 (days * 86400000 + ds)
  · rw [if_neg (not_not.2 (hproduct hfits)), if_neg (not_not.2 hfits), if_pos hfits]
  · rw [if_pos hfits, if_neg hfits, ite_self]

namespace QDateTimeData

variable {p : ℕ} {date : QDate} {time : QTime}

theorem setDateTime_eq (d : QDateTimeData p) (hdate : date.isValid = true)
    (htime : time.isValid = true) :
    setDateTime d date time = .ok
      (if FitsQint64 ((date.jd - 2440588) * 86400000 + time.mds) then
        store d ((date.jd - 2440588) * 86400000 + time.mds) (newStatus date time)
      else store d 0 0) := by
  obtain ⟨hlow, hhigh⟩ := QTime.isValid_iff.1 htime
  obtain ⟨hmin, hmax⟩ := isValid_iff.1 hdate
  have hds : time.msecsSinceStartOfDay = time.mds := if_neg (by unfold QTime.NullTime; omega)
  have hcombine := @daysAndMillis_eq (date.jd - JULIAN_DAY_FOR_EPOCH) time.mds hlow hhigh
  unfold minJd at hmin
  unfold maxJd at hmax
  have hsame : (if (!time.isValid && date.isValid) = true then QTime.fromMSecsSinceStartOfDay 0
      else time) = time := by
    rw [htime]
    rfl
  have hresult : storeSum d (daysAndMillis
        (if date.jd - JULIAN_DAY_FOR_EPOCH < 0 ∧ time.mds > 0
          then date.jd - JULIAN_DAY_FOR_EPOCH + 1 else date.jd - JULIAN_DAY_FOR_EPOCH)
        (if date.jd - JULIAN_DAY_FOR_EPOCH < 0 ∧ time.mds > 0 then time.mds - MSECS_PER_DAY
          else time.mds)) (newStatus date time) =
      if FitsQint64 ((date.jd - 2440588) * 86400000 + time.mds) then
        store d ((date.jd - 2440588) * 86400000 + time.mds) (newStatus date time)
      else store d 0 0 := by
    rw [hcombine]
    unfold JULIAN_DAY_FOR_EPOCH
    by_cases hfits : FitsQint64 ((date.jd - 2440588) * 86400000 + time.mds)
    · rw [if_pos hfits, if_pos hfits]
      rfl
    · rw [if_neg hfits, if_neg hfits]
      rfl
  have hassert : qAssert (time.mds < MSECS_PER_DAY) = .ok () := qAssert_pos hhigh
  rw [← hresult]
  unfold setDateTime
  dsimp only
  rw [hsame, hdate, if_pos rfl, htime, if_pos rfl, hds,
    checkedQint64_of_fits (by unfold FitsQint64 JULIAN_DAY_FOR_EPOCH; omega), ok_bind,
    hassert, ok_bind]
  by_cases hshift : date.jd - JULIAN_DAY_FOR_EPOCH < 0 ∧ time.mds > 0
  · rw [if_pos hshift, if_pos hshift, if_pos hshift,
      checkedQint64_of_fits (by unfold FitsQint64 JULIAN_DAY_FOR_EPOCH; omega), ok_bind,
      checkedQint64_of_fits (by unfold FitsQint64 MSECS_PER_DAY; omega), ok_bind]
    rfl
  · rw [if_neg hshift, if_neg hshift, if_neg hshift]
    rfl

/-- The date and the time come back, or are both invalid where their milliseconds since 1970 do not
fit in `qint64`. -/
theorem getDateTime_setDateTime (d : QDateTimeData p) (hdate : date.isValid = true)
    (htime : time.isValid = true) :
    ∃ d', setDateTime d date time = .ok d' ∧
      (FitsQint64 ((date.jd - 2440588) * 86400000 + time.mds) →
        getDateTime d' = .ok (date, time)) ∧
      (¬ FitsQint64 ((date.jd - 2440588) * 86400000 + time.mds) →
        (getStatus d').testFlag ValidDate = false ∧ (getStatus d').testFlag ValidTime = false ∧
        getDateTime d' = .ok (QDate.null, QTime.null)) := by
  have hdateFlag := fun msecs newStatus => testFlag_store (k := 1) (by decide) rfl d msecs newStatus
  have htimeFlag := fun msecs newStatus => testFlag_store (k := 2) (by decide) rfl d msecs newStatus
  change ∀ msecs newStatus, (getStatus (store d msecs newStatus)).testFlag ValidDate =
    newStatus.testFlag ValidDate at hdateFlag
  change ∀ msecs newStatus, (getStatus (store d msecs newStatus)).testFlag ValidTime =
    newStatus.testFlag ValidTime at htimeFlag
  refine ⟨_, setDateTime_eq d hdate htime, fun hfits => ?_, fun hnot => ?_⟩
  · rw [if_pos hfits]
    obtain ⟨hlow, hhigh⟩ := QTime.isValid_iff.1 htime
    obtain ⟨hmin, hmax⟩ := isValid_iff.1 hdate
    have hboth : newStatus date time = ValidDate ||| ValidTime := by
      unfold newStatus
      rw [hdate, htime]
      rfl
    have hquotient : ((date.jd - 2440588) * 86400000 + time.mds) / MSECS_PER_DAY =
        date.jd - 2440588 := by
      unfold MSECS_PER_DAY
      omega
    have hremainder : ((date.jd - 2440588) * 86400000 + time.mds) % MSECS_PER_DAY = time.mds := by
      unfold MSECS_PER_DAY
      omega
    have hjd : JULIAN_DAY_FOR_EPOCH + (date.jd - 2440588) = date.jd := by
      unfold JULIAN_DAY_FOR_EPOCH
      omega
    unfold minJd at hmin
    unfold maxJd at hmax
    unfold getDateTime
    dsimp only
    rw [getMSecs_store, qDivModQint64_eq (by decide) (by decide) hfits, qDivMod_eq (by decide),
      ok_bind, hdateFlag, htimeFlag, hboth]
    dsimp only
    rw [hquotient, hremainder, hjd, checkedQint64_of_fits (by unfold FitsQint64; omega)]
    show Except.ok (fromJulianDay date.jd, _) = _
    rw [fromJulianDay_self hdate]
    rfl
  · rw [if_neg hnot]
    refine ⟨hdateFlag 0 0, htimeFlag 0 0, ?_⟩
    unfold getDateTime
    dsimp only
    rw [getMSecs_store, hdateFlag, htimeFlag]
    rfl

/-- A short block of a `QDateTime` in UTC -/
def utc : QDateTimeData 56 := short { status := 0x11, msecs := 0, isShort := rfl }

/-- The first millisecond of `qint64`, 16:47:04.192 of its day, and the one before. -/
theorem getDateTime_setDateTime_first :
    (∃ d', setDateTime utc { jd := -106749550580 } { mds := 60424192 } = .ok d' ∧
      getDateTime d' = .ok ({ jd := -106749550580 }, { mds := 60424192 })) ∧
    ∃ d', setDateTime utc { jd := -106749550580 } { mds := 60424191 } = .ok d' ∧
      getDateTime d' = .ok (null, QTime.null) := by
  constructor
  · obtain ⟨d', hset, hget, -⟩ := @getDateTime_setDateTime _ { jd := -106749550580 }
      { mds := 60424192 } utc (by decide) (by decide)
    exact ⟨d', hset, hget (by decide)⟩
  · obtain ⟨d', hset, -, hget⟩ := @getDateTime_setDateTime _ { jd := -106749550580 }
      { mds := 60424191 } utc (by decide) (by decide)
    exact ⟨d', hset, (hget (by decide)).2.2⟩

end QDateTimeData

end QtBase.Time
