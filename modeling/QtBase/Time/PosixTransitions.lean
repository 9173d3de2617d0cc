import QtBase.Time.PosixDate
import QtBase.Time.PosixZone
import QtBase.Time.UtcDateTime

/-! The transitions that a POSIX rule describes, year by year. -/
namespace QtBase.Time

open PosixZone QUtf8

/-- What a zone says about the time from a moment on. -/
structure QTimeZonePrivate.Data where
  abbreviation : List UInt16
  atMSecsSinceEpoch : ℤ
  offsetFromUtc : ℤ
  standardTimeOffset : ℤ
  daylightTimeOffset : ℤ
  deriving DecidableEq

open QTimeZonePrivate

/-! ## The check of a rule -/

structure RuleCheck where
  isValid : Bool
  hasDst : Bool
  deriving DecidableEq

def RuleCheck.fail : RuleCheck := { isValid := false, hasDst := false }

section Rule

variable (simd : Simd AsciiByte) (rounds : ℕ)

/-- The second name at `begin`: where it and its offset end, if there is one. -/
def secondZone (zoneinfo : List UInt8) (begin : ℕ) : Exec (Option ℕ) :=
  if begin ≥ zoneinfo.length then .ok none
  else do
    let (posix, pos) ← parse simd (zoneinfo.drop begin)
    return if posix.name = [] then none else some (begin + pos)

/-- A round of the last loop: the date, and the time after a `/` -/
def checkTransition (part : List UInt8) : Exec Bool :=
  match part.splitOn 0x2f with
  | [] => .error .undefined
  | dateRule :: rest => do
    let date ← calculatePosixDate rounds dateRule 1972
    if !date.isValid then return false
    match rest with
    | [] => return true
    | time :: _ =>
      let value ← parsePosixTime time
      return decide (value ≠ INT_MIN)

/-- The last part of `validatePosixRule`, for what stands behind the zones. -/
def checkTransitions : List (List UInt8) → Exec Bool
  | [dst, std] => do
    if dst = [] ∨ std = [] then return false
    let dstOk ← checkTransition rounds dst
    if !dstOk then return false
    checkTransition rounds std
  | _ => .ok false

def validatePosixRule (posixRule : List UInt8) (requireOffset : Bool) : Exec RuleCheck :=
  match posixRule.splitOn 0x2c with
  | [] => .error .undefined
  | zoneinfo :: parts => do
    if zoneinfo = [] then return .fail
    let (posix, begin) ← parse simd zoneinfo
    if posix.name = [] ∨ (requireOffset = true ∧ posix.hasValidOffset = false) then return .fail
    if parts = [] then
      return if begin < zoneinfo.length then .fail else { isValid := true, hasDst := false }
    let second ← secondZone simd zoneinfo begin
    match second with
    | none => return .fail
    | some begin =>
      if begin < zoneinfo.length then return .fail
      let good ← checkTransitions rounds parts
      return if good then { isValid := true, hasDst := true } else .fail

/-! ## What a rule says -/

/-- The two zones, with the offset that the code takes where there is none. -/
def readZones (zoneinfo : List UInt8) : Exec (PosixZone × PosixZone) := do
  let (stdZone, begin) ← parse simd zoneinfo
  if !stdZone.hasValidOffset then return ({ stdZone with offset := 0 }, invalid)
  if begin < zoneinfo.length then
    let (dstZone, _) ← parse simd (zoneinfo.drop begin)
    if dstZone.hasValidOffset then return (stdZone, dstZone)
    let offset ← checkedInt (stdZone.offset + 60 * 60)
    return (stdZone, { dstZone with offset := offset })
  return (stdZone, invalid)

/-- Default transition time, when none specified -/
def twoOClock : ℤ := 7200

/-- The date and the time of a transition -/
def readTransition (part : List UInt8) : Exec (List UInt8 × ℤ) :=
  match part.splitOn 0x2f with
  | [] => .error .undefined
  | [dateRule] => .ok (dateRule, twoOClock)
  | dateRule :: time :: _ => do
    let value ← parsePosixTime time
    return (dateRule, value)

/-- The two transitions of a year, as a rule describes them -/
structure PosixChanges where
  stdZone : PosixZone
  dstZone : PosixZone
  dstDateRule : List UInt8
  dstTime : ℤ
  stdDateRule : List UInt8
  stdTime : ℤ

/-- A rule stands for one offset, or for changes each year; malformed ones for nothing. -/
inductive PosixReading
  | malformed
  | single (stdZone : PosixZone) (zoneinfo : List UInt8)
  | changes (c : PosixChanges)

def readRule (posixRule : List UInt8) : Exec PosixReading :=
  match posixRule.splitOn 0x2c with
  | [] => .error .undefined
  | zoneinfo :: parts => do
    let (stdZone, dstZone) ← readZones simd zoneinfo
    if parts = [] ∨ dstZone.hasValidOffset = false then return .single stdZone zoneinfo
    match parts with
    | dst :: std :: _ =>
      if dst = [] ∨ std = [] then return .malformed
      let (dstDateRule, dstTime) ← readTransition dst
      let (stdDateRule, stdTime) ← readTransition std
      if dstDateRule = [] ∨ stdDateRule = [] ∨ dstTime = INT_MIN ∨ stdTime = INT_MIN then
        return .malformed
      return .changes { stdZone, dstZone, dstDateRule, dstTime, stdDateRule, stdTime }
    | _ => return .malformed

end Rule

/-! ## The transitions of a year -/

/-- A moment of a transition, in the local time that the rule describes. -/
def describedTime (nullMSecs : ℤ) (rounds : ℕ) (dateRule : List UInt8) (time year : ℤ) :
    Exec QDateTime := do
  let date ← calculatePosixDate rounds dateRule year
  return (date.startOfDay nullMSecs).addSecs nullMSecs time

structure YearTransitions where
  dst : QDateTime
  std : QDateTime
  dstData : Data
  stdData : Data

namespace PosixChanges

variable (nullMSecs : ℤ) (rounds : ℕ) (c : PosixChanges)

def transitionsOf (year : ℤ) : Exec YearTransitions := do
  let daylight ← checkedInt (c.dstZone.offset - c.stdZone.offset)
  let dst ← describedTime nullMSecs rounds c.dstDateRule c.dstTime year
  let stdOffset ← checkedInt (c.stdZone.offset * 1000)
  let dstAt ← checkedQint64 (dst.toMSecsSinceEpoch - stdOffset)
  let std ← describedTime nullMSecs rounds c.stdDateRule c.stdTime year
  let dstOffset ← checkedInt (c.dstZone.offset * 1000)
  let stdAt ← checkedQint64 (std.toMSecsSinceEpoch - dstOffset)
  return {
    dst := dst
    std := std
    dstData :=
      { abbreviation := c.dstZone.name
        atMSecsSinceEpoch := dstAt
        offsetFromUtc := c.dstZone.offset
        standardTimeOffset := c.stdZone.offset
        daylightTimeOffset := daylight }
    stdData :=
      { abbreviation := c.stdZone.name
        atMSecsSinceEpoch := stdAt
        offsetFromUtc := c.stdZone.offset
        standardTimeOffset := c.stdZone.offset
        daylightTimeOffset := 0 } }

/-- From the first moment of a year to the last one -/
def wholeYear (year : ℤ) (first last : QDateTime) : Bool :=
  !((QDate.ofParts year 1 1).startOfDay nullMSecs).precedes first &&
    !last.precedes ((QDate.ofParts year 12 31).endOfDay nullMSecs)

/-- The fixed state that fake transitions at the start and the end of a year stand for. -/
def fixedState (t : YearTransitions) (year : ℤ) : Option Data :=
  if t.dstData.atMSecsSinceEpoch < t.stdData.atMSecsSinceEpoch then
    if wholeYear nullMSecs year t.dst t.std then some t.dstData else none
  else if wholeYear nullMSecs year t.std t.dst then some t.stdData else none

/-- What the list gets for a year -/
def entries (t : YearTransitions) (year : ℤ) : List Data :=
  let useStd := t.std.isValid = true ∧ t.std.date.year = year ∧ c.stdZone.name ≠ []
  let useDst := t.dst.isValid = true ∧ t.dst.date.year = year ∧ c.dstZone.name ≠ []
  if useStd ∧ useDst then
    if t.dst.precedes t.std then [t.dstData, t.stdData] else [t.stdData, t.dstData]
  else if useStd then [t.stdData]
  else if useDst then [t.dstData]
  else []

/-- The loop over the years, with `n` years to go. -/
def yearLoop (startYear lastTranMSecs : ℤ) : ℕ → ℤ → List Data → Exec (List Data)
  | 0, _, result => .ok result
  | n + 1, year, result => do
    let t ← c.transitionsOf nullMSecs rounds year
    match if year = startYear then fixedState nullMSecs t year else none with
    | some data => return result ++ [{ data with atMSecsSinceEpoch := lastTranMSecs }]
    | none => yearLoop startYear lastTranMSecs n (year + 1) (result ++ c.entries t year)

end PosixChanges

def qBound (min val max : ℤ) : ℤ := Max.max min (Min.min max val)

def calculatePosixTransitions (simd : Simd AsciiByte) (nullMSecs : ℤ) (rounds : ℕ)
    (posixRule : List UInt8) (startYear endYear lastTranMSecs : ℤ) : Exec (List Data) := do
  let reading ← readRule simd posixRule
  match reading with
  | .malformed => return []
  | .single stdZone zoneinfo =>
    return [{
      abbreviation :=
        if stdZone.name = [] then convertToUnicode simd zoneinfo else stdZone.name
      atMSecsSinceEpoch := lastTranMSecs
      offsetFromUtc := stdZone.offset
      standardTimeOffset := stdZone.offset
      daylightTimeOffset := 0 }]
  | .changes c =>
    let minYear := QDateTime.YearRange.First
    let maxYear := QDateTime.YearRange.Last
    let startYear := qBound minYear startYear maxYear
    let endYear := qBound minYear endYear maxYear
    qAssert (startYear ≤ endYear)
    c.yearLoop nullMSecs rounds startYear lastTranMSecs (endYear + 1 - startYear).toNat startYear []

end QtBase.Time
