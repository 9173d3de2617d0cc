import QtBase.Time.PosixRule

/-! When the transitions of an accepted rule come out in the order of time. -/
namespace QtBase.Time

open QTimeZonePrivate List Int

/-- In the order of time, as the searches in the list need it, and with offsets that add up -/
def InTimeOrder (result : List Data) : Prop :=
  result.Pairwise (fun a b => a.atMSecsSinceEpoch < b.atMSecsSinceEpoch) ∧
    ∀ e ∈ result, e.offsetFromUtc = e.standardTimeOffset + e.daylightTimeOffset

/-- A valid time in a year -/
def QDateTime.In (dt : QDateTime) (year : ℤ) : Prop := dt.isValid = true ∧ dt.date.year = year

instance (dt : QDateTime) (year : ℤ) : Decidable (dt.In year) := inferInstanceAs (Decidable (_ ∧ _))

variable {other : QDateTime}

theorem QDateTime.In.lt {dt : QDateTime} {year later : ℤ} (h : dt.In year) (hother : other.In later)
    (hlt : year < later) :
    dt.toMSecsSinceEpoch < other.toMSecsSinceEpoch :=
  lt_of_year_lt h.1 hother.1 (by rw [h.2, hother.2]; exact hlt)

theorem describedTime_unique {nullMSecs time year : ℤ} {rounds more : ℕ} {dateRule : List UInt8}
    {dt : QDateTime} (h : describedTime nullMSecs rounds dateRule time year = .ok dt)
    (hother : describedTime nullMSecs more dateRule time year = .ok other) : dt = other := by
  obtain ⟨date, hdate, h⟩ := bind_eq_ok h
  obtain ⟨date', hdate', hother⟩ := bind_eq_ok hother
  rw [calculatePosixDate_unique hdate hdate'] at h
  exact Except.ok.inj (h.symm.trans hother)

namespace PosixChanges

variable (nullMSecs : ℤ) (c : PosixChanges)

/-! ## The condition -/

/-- The local time to which the rule sets the change to daylight-saving time in a year -/
def DstAt (year : ℤ) (dst : QDateTime) : Prop :=
  ∃ rounds, describedTime nullMSecs rounds c.dstDateRule c.dstTime year = .ok dst

/-- The same for the change to standard time -/
def StdAt (year : ℤ) (std : QDateTime) : Prop :=
  ∃ rounds, describedTime nullMSecs rounds c.stdDateRule c.stdTime year = .ok std

/-- The two times minus the offsets that are in force until then fit in `qint64`, and a rule for a
week-day is not asked for the year 0. -/
def Computed (year : ℤ) : Prop :=
  (year = 0 → c.dstDateRule.head? ≠ some 0x4d ∧ c.stdDateRule.head? ≠ some 0x4d) ∧
    (∀ dst, c.DstAt nullMSecs year dst →
      FitsQint64 (dst.toMSecsSinceEpoch - c.stdZone.offset * 1000)) ∧
    ∀ std, c.StdAt nullMSecs year std →
      FitsQint64 (std.toMSecsSinceEpoch - c.dstZone.offset * 1000)

/-- From one time to the other it is the whole year. -/
def Lasting (year : ℤ) (dst std : QDateTime) : Prop :=
  if dst.toMSecsSinceEpoch - c.stdZone.offset * 1000 <
      std.toMSecsSinceEpoch - c.dstZone.offset * 1000 then
    wholeYear nullMSecs year dst std = true
  else wholeYear nullMSecs year std dst = true

/-- The local times are further apart than the clock is set forward between them. -/
def FarApart (dst std : QDateTime) : Prop :=
  (dst.toMSecsSinceEpoch < std.toMSecsSinceEpoch →
    (c.dstZone.offset - c.stdZone.offset) * 1000 <
      std.toMSecsSinceEpoch - dst.toMSecsSinceEpoch) ∧
  (std.toMSecsSinceEpoch ≤ dst.toMSecsSinceEpoch →
    (c.stdZone.offset - c.dstZone.offset) * 1000 <
      dst.toMSecsSinceEpoch - std.toMSecsSinceEpoch)

/-- A condition on the two times of each of the years, for a fixed state only of the first. -/
def Ordered (startYear endYear : ℤ) : Prop :=
  c.Computed nullMSecs startYear ∧
    ((∃ dst std, c.DstAt nullMSecs startYear dst ∧ c.StdAt nullMSecs startYear std ∧
        c.Lasting nullMSecs startYear dst std) ∨
      (∀ year, startYear ≤ year → year ≤ endYear → c.Computed nullMSecs year) ∧
        ∀ year year', startYear ≤ year → year ≤ endYear → startYear ≤ year' → year' ≤ endYear →
          ∀ dst std, c.DstAt nullMSecs year dst → c.StdAt nullMSecs year' std → dst.In year →
            std.In year' → c.FarApart dst std)

/-! ## One year -/

variable {nullMSecs c}

/-- The transition at a local time, to daylight-saving time -/
def toDst (c : PosixChanges) (dst : QDateTime) : Data where
  abbreviation := c.dstZone.name
  atMSecsSinceEpoch := dst.toMSecsSinceEpoch - c.stdZone.offset * 1000
  offsetFromUtc := c.dstZone.offset
  standardTimeOffset := c.stdZone.offset
  daylightTimeOffset := c.dstZone.offset - c.stdZone.offset

/-- The same to standard time -/
def toStd (c : PosixChanges) (std : QDateTime) : Data where
  abbreviation := c.stdZone.name
  atMSecsSinceEpoch := std.toMSecsSinceEpoch - c.dstZone.offset * 1000
  offsetFromUtc := c.stdZone.offset
  standardTimeOffset := c.stdZone.offset
  daylightTimeOffset := 0

@[simp] theorem toDst_at (dst : QDateTime) :
    (c.toDst dst).atMSecsSinceEpoch = dst.toMSecsSinceEpoch - c.stdZone.offset * 1000 := rfl

@[simp] theorem toStd_at (std : QDateTime) :
    (c.toStd std).atMSecsSinceEpoch = std.toMSecsSinceEpoch - c.dstZone.offset * 1000 := rfl

theorem toDst_sum (dst : QDateTime) : (c.toDst dst).offsetFromUtc =
    (c.toDst dst).standardTimeOffset + (c.toDst dst).daylightTimeOffset :=
  (add_sub_cancel _ _).symm

theorem toStd_sum (std : QDateTime) : (c.toStd std).offsetFromUtc =
    (c.toStd std).standardTimeOffset + (c.toStd std).daylightTimeOffset :=
  (add_zero _).symm

/-- The transitions of a year, from their local times -/
def yearOf (c : PosixChanges) (dst std : QDateTime) : YearTransitions where
  dst := dst
  std := std
  dstData := c.toDst dst
  stdData := c.toStd std

variable {rounds : ℕ} {year : ℤ} {dst std : QDateTime} {t : YearTransitions}

theorem transitionsOf_iff (hc : c.Accepted) :
    c.transitionsOf nullMSecs rounds year = .ok t ↔
      ∃ dst std, describedTime nullMSecs rounds c.dstDateRule c.dstTime year = .ok dst ∧
        describedTime nullMSecs rounds c.stdDateRule c.stdTime year = .ok std ∧
        FitsQint64 (dst.toMSecsSinceEpoch - c.stdZone.offset * 1000) ∧
        FitsQint64 (std.toMSecsSinceEpoch - c.dstZone.offset * 1000) ∧ t = c.yearOf dst std := by
  obtain ⟨hstd, hstd'⟩ := hc.std_offset
  obtain ⟨hdst, hdst'⟩ := hc.dst_offset
  have hdaylight := checkedInt_of_fits (a := c.dstZone.offset - c.stdZone.offset)
    (by unfold FitsInt; omega)
  have hstdOffset := checkedInt_of_fits (a := c.stdZone.offset * 1000) (by unfold FitsInt; omega)
  have hdstOffset := checkedInt_of_fits (a := c.dstZone.offset * 1000) (by unfold FitsInt; omega)
  unfold transitionsOf
  rw [hdaylight, ok_bind, hstdOffset, hdstOffset]
  constructor
  · intro h
    obtain ⟨dst, hdstTime, h⟩ := bind_eq_ok h
    rw [ok_bind] at h
    obtain ⟨dstAt, hdstAt, h⟩ := bind_eq_ok h
    obtain ⟨std, hstdTime, h⟩ := bind_eq_ok h
    rw [ok_bind] at h
    obtain ⟨stdAt, hstdAt, h⟩ := bind_eq_ok h
    obtain ⟨hfits, rfl⟩ := checkedQint64_eq_ok hdstAt
    obtain ⟨hfits', rfl⟩ := checkedQint64_eq_ok hstdAt
    exact ⟨dst, std, hdstTime, hstdTime, hfits, hfits', (Except.ok.inj h).symm⟩
  · rintro ⟨dst, std, hdstTime, hstdTime, hfits, hfits', rfl⟩
    rw [hdstTime, ok_bind, ok_bind, checkedQint64_of_fits hfits, ok_bind, hstdTime, ok_bind,
      ok_bind, checkedQint64_of_fits hfits', ok_bind]
    rfl

theorem exists_describedTime {dateRule : List UInt8} {time : ℤ} (h : AcceptedDate dateRule)
    (hrange : InYearRange year) (hzero : year = 0 → dateRule.head? ≠ some 0x4d) :
    ∃ dt, describedTime nullMSecs 106 dateRule time year = .ok dt := by
  obtain ⟨date, hdate⟩ := h.exists_date hrange hzero
  unfold describedTime
  rw [hdate, ok_bind]
  exact ⟨_, rfl⟩

theorem head?_of_describedTime {dateRule : List UInt8} {time : ℤ} {dt : QDateTime}
    (h : AcceptedDate dateRule) (hdt : describedTime nullMSecs rounds dateRule time 0 = .ok dt) :
    dateRule.head? ≠ some 0x4d := by
  intro hhead
  unfold describedTime at hdt
  rw [h.not_zero hhead] at hdt
  cases hdt

/-- In a year of the range the transitions come out exactly where the condition says so. -/
theorem Computed.exists_transitions (hc : c.Accepted) (hrange : InYearRange year)
    (h : c.Computed nullMSecs year) : ∃ t, c.transitionsOf nullMSecs 106 year = .ok t := by
  obtain ⟨hzero, hfits, hfits'⟩ := h
  obtain ⟨dst, hdst⟩ := @exists_describedTime nullMSecs _ _ c.dstTime hc.dst_date hrange
    fun hy => (hzero hy).1
  obtain ⟨std, hstd⟩ := @exists_describedTime nullMSecs _ _ c.stdTime hc.std_date hrange
    fun hy => (hzero hy).2
  exact ⟨_, (transitionsOf_iff hc).2
    ⟨dst, std, hdst, hstd, hfits dst ⟨106, hdst⟩, hfits' std ⟨106, hstd⟩, rfl⟩⟩

theorem Computed.of_transitions (hc : c.Accepted)
    (h : c.transitionsOf nullMSecs rounds year = .ok t) : c.Computed nullMSecs year := by
  obtain ⟨dst, std, hdst, hstd, hfits, hfits', -⟩ := (transitionsOf_iff hc).1 h
  refine ⟨?_, ?_, ?_⟩
  · rintro rfl
    exact ⟨head?_of_describedTime hc.dst_date hdst, head?_of_describedTime hc.std_date hstd⟩
  · rintro dst' ⟨rounds', hdst'⟩
    rw [← describedTime_unique hdst hdst']
    exact hfits
  · rintro std' ⟨rounds', hstd'⟩
    rw [← describedTime_unique hstd hstd']
    exact hfits'

theorem entries_eq (hc : c.Accepted) (dst std : QDateTime) (year : ℤ) :
    c.entries (c.yearOf dst std) year =
      if std.In year ∧ dst.In year then
        if dst.toMSecsSinceEpoch < std.toMSecsSinceEpoch then [c.toDst dst, c.toStd std]
        else [c.toStd std, c.toDst dst]
      else if std.In year then [c.toStd std]
      else if dst.In year then [c.toDst dst]
      else [] := by
  have hstd : ((c.yearOf dst std).std.isValid = true ∧ (c.yearOf dst std).std.date.year = year ∧
      c.stdZone.name ≠ []) ↔ std.In year :=
    ⟨fun h => ⟨h.1, h.2.1⟩, fun h => ⟨h.1, h.2, hc.std_name⟩⟩
  have hdst : ((c.yearOf dst std).dst.isValid = true ∧ (c.yearOf dst std).dst.date.year = year ∧
      c.dstZone.name ≠ []) ↔ dst.In year :=
    ⟨fun h => ⟨h.1, h.2.1⟩, fun h => ⟨h.1, h.2, hc.dst_name⟩⟩
  unfold entries
  dsimp only
  simp only [hstd, hdst]
  by_cases hboth : std.In year ∧ dst.In year
  · have hprecedes : (c.yearOf dst std).dst.precedes (c.yearOf dst std).std = true ↔
        dst.toMSecsSinceEpoch < std.toMSecsSinceEpoch :=
      QDateTime.precedes_iff hboth.2.1 hboth.1.1
    simp only [if_pos hboth, hprecedes]
    rfl
  · simp only [if_neg hboth]
    rfl

theorem mem_entries (hc : c.Accepted) {e : Data} : e ∈ c.entries (c.yearOf dst std) year ↔
    dst.In year ∧ e = c.toDst dst ∨ std.In year ∧ e = c.toStd std := by
  rw [entries_eq hc]
  by_cases hstd : std.In year
  · by_cases hdst : dst.In year
    · rw [if_pos ⟨hstd, hdst⟩]
      split <;> simp [hstd, hdst, or_comm]
    · simp [hstd, hdst]
  · by_cases hdst : dst.In year <;> simp [hstd, hdst]

theorem pairwise_entries (hc : c.Accepted) :
    (c.entries (c.yearOf dst std) year).Pairwise
        (fun a b => a.atMSecsSinceEpoch < b.atMSecsSinceEpoch) ↔
      (dst.In year → std.In year → c.FarApart dst std) := by
  rw [entries_eq hc]
  by_cases hboth : std.In year ∧ dst.In year
  · rw [if_pos hboth]
    unfold FarApart
    split
    · rename_i hlt
      rw [pairwise_pair]
      simp only [toDst_at, toStd_at, hboth, forall_const]
      omega
    · rename_i hle
      rw [pairwise_pair]
      simp only [toDst_at, toStd_at, hboth, forall_const]
      omega
  · rw [if_neg hboth]
    refine iff_of_true ?_ fun hdst hstd => absurd ⟨hstd, hdst⟩ hboth
    split
    · exact pairwise_singleton _ _
    · split
      · exact pairwise_singleton _ _
      · exact List.Pairwise.nil

/-! ## All years -/

/-- `n` years in a row -/
def yearsFrom (first : ℤ) : ℕ → List ℤ
  | 0 => []
  | n + 1 => first :: yearsFrom (first + 1) n

variable {n : ℕ}

theorem mem_yearsFrom {first y : ℤ} :
    y ∈ yearsFrom first n ↔ first ≤ y ∧ y < first + n := by
  induction n generalizing first with
  | zero => simp [yearsFrom]
  | succ n ih =>
    unfold yearsFrom
    rw [mem_cons, ih, Nat.cast_succ]
    omega

theorem pairwise_yearsFrom {R : ℤ → ℤ → Prop} {first : ℤ} :
    (yearsFrom first n).Pairwise R ↔
      ∀ y z, first ≤ y → y < z → z < first + n → R y z := by
  induction n generalizing first with
  | zero =>
    refine iff_of_true List.Pairwise.nil fun y z hy hlt hz => ?_
    rw [Nat.cast_zero] at hz
    omega
  | succ n ih =>
    unfold yearsFrom
    rw [pairwise_cons, ih, Nat.cast_succ]
    constructor
    · rintro ⟨hfirst, hrest⟩ y z hy hlt hz
      by_cases heq : y = first
      · rw [heq] at hlt ⊢
        exact hfirst z (mem_yearsFrom.2 ⟨by omega, by omega⟩)
      · exact hrest y z (by omega) hlt (by omega)
    · intro hall
      refine ⟨fun z hz => ?_, fun y z hy hlt hz => hall y z (by omega) hlt (by omega)⟩
      have hrange := mem_yearsFrom.1 hz
      exact hall first z (le_refl _) (by omega) (by omega)

variable (nullMSecs rounds c) in
/-- What the list gets for a year whose transitions come out. -/
def yearEntries (year : ℤ) : List Data :=
  match c.transitionsOf nullMSecs rounds year with
  | .ok t => c.entries t year
  | .error _ => []

variable {startYear lastTranMSecs : ℤ} {result r : List Data}

theorem yearLoop_iff (h : startYear ≤ year)
    (hfixed : ∀ t, year = startYear → c.transitionsOf nullMSecs rounds year = .ok t → fixedState nullMSecs t year = none) :
    c.yearLoop nullMSecs rounds startYear lastTranMSecs n year result = .ok r ↔
      (∀ y, year ≤ y → y < year + n → ∃ t, c.transitionsOf nullMSecs rounds y = .ok t) ∧
        r = result ++ (yearsFrom year n).flatMap (c.yearEntries nullMSecs rounds) := by
  induction n generalizing year result with
  | zero =>
    unfold yearLoop yearsFrom
    rw [flatMap_nil, append_nil, Except.ok.injEq]
    refine ⟨fun heq => ⟨fun y hy hlt => ?_, heq.symm⟩, fun heq => heq.2.symm⟩
    rw [Nat.cast_zero] at hlt
    omega
  | succ n ih =>
    unfold yearLoop yearsFrom
    cases ht : c.transitionsOf nullMSecs rounds year with
    | error e =>
      refine iff_of_false (fun hloop => by cases hloop) fun hall => ?_
      obtain ⟨t, hok⟩ := hall.1 year (le_refl _) (by rw [Nat.cast_succ]; omega)
      rw [ht] at hok
      cases hok
    | ok t =>
      have hentries : c.yearEntries nullMSecs rounds year = c.entries t year := by
        unfold yearEntries
        rw [ht]
      have hnone : (if year = startYear then fixedState nullMSecs t year else none) = none := by
        split
        · rename_i hyear
          exact hfixed t hyear ht
        · rfl
      rw [ok_bind, hnone]
      dsimp only
      rw [ih (by omega) fun _ hyear => by omega, flatMap_cons, hentries, append_assoc,
        Nat.cast_succ]
      refine and_congr_left fun _ => ⟨fun hall y hy hlt => ?_, fun hall y hy hlt => ?_⟩
      · by_cases heq : y = year
        · exact ⟨t, by rw [heq, ht]⟩
        · exact hall y (by omega) (by omega)
      · exact hall y (by omega) (by omega)

theorem yearLoop_fixed {data : Data} (ht : c.transitionsOf nullMSecs rounds startYear = .ok t)
    (hfixed : fixedState nullMSecs t startYear = some data) :
    c.yearLoop nullMSecs rounds startYear lastTranMSecs (n + 1) startYear [] =
      .ok [{ data with atMSecsSinceEpoch := lastTranMSecs }] := by
  unfold yearLoop
  rw [ht, ok_bind, if_pos rfl, hfixed]
  rfl

theorem yearEntries_eq (hc : c.Accepted)
    (h : ∃ t, c.transitionsOf nullMSecs rounds year = .ok t) :
    ∃ dst std, c.DstAt nullMSecs year dst ∧ c.StdAt nullMSecs year std ∧
      c.yearEntries nullMSecs rounds year = c.entries (c.yearOf dst std) year := by
  obtain ⟨t, ht⟩ := h
  obtain ⟨dst, std, hdst, hstd, -, -, rfl⟩ := (transitionsOf_iff hc).1 ht
  refine ⟨dst, std, ⟨rounds, hdst⟩, ⟨rounds, hstd⟩, ?_⟩
  unfold yearEntries
  rw [ht]

theorem DstAt.unique (h : c.DstAt nullMSecs year dst)
    (hother : c.DstAt nullMSecs year other) : dst = other := by
  obtain ⟨_, h⟩ := h
  obtain ⟨_, hother⟩ := hother
  exact describedTime_unique h hother

theorem StdAt.unique (h : c.StdAt nullMSecs year std)
    (hother : c.StdAt nullMSecs year other) : std = other := by
  obtain ⟨_, h⟩ := h
  obtain ⟨_, hother⟩ := hother
  exact describedTime_unique h hother

theorem mem_yearEntries (hc : c.Accepted)
    (h : ∃ t, c.transitionsOf nullMSecs rounds year = .ok t) {e : Data} :
    e ∈ c.yearEntries nullMSecs rounds year ↔
      (∃ dst, c.DstAt nullMSecs year dst ∧ dst.In year ∧ e = c.toDst dst) ∨
        ∃ std, c.StdAt nullMSecs year std ∧ std.In year ∧ e = c.toStd std := by
  obtain ⟨dst, std, hdst, hstd, hentries⟩ := yearEntries_eq hc h
  rw [hentries, mem_entries hc]
  constructor
  · rintro (⟨hin, he⟩ | ⟨hin, he⟩)
    · exact .inl ⟨dst, hdst, hin, he⟩
    · exact .inr ⟨std, hstd, hin, he⟩
  · rintro (⟨dst', hdst', hin, he⟩ | ⟨std', hstd', hin, he⟩)
    · rw [hdst.unique hdst']
      exact .inl ⟨hin, he⟩
    · rw [hstd.unique hstd']
      exact .inr ⟨hin, he⟩

/-- The times of all the years are in order if and only if those of different kinds are far enough
apart; in one kind they are as far apart as the local times. -/
theorem pairwise_years (hc : c.Accepted) {first : ℤ}
    (hall : ∀ y, first ≤ y → y < first + n → ∃ t, c.transitionsOf nullMSecs rounds y = .ok t) :
    ((yearsFrom first n).flatMap (c.yearEntries nullMSecs rounds)).Pairwise
        (fun a b => a.atMSecsSinceEpoch < b.atMSecsSinceEpoch) ↔
      ∀ y z, first ≤ y → y < first + n → first ≤ z → z < first + n → ∀ dst std,
        c.DstAt nullMSecs y dst → c.StdAt nullMSecs z std → dst.In y → std.In z →
          c.FarApart dst std := by
  rw [pairwise_flatMap, pairwise_yearsFrom]
  constructor
  · rintro ⟨hsame, hcross⟩ y z hy hy' hz hz' dst std hdst hstd hdstIn hstdIn
    have hdstMem := (mem_yearEntries hc (hall y hy hy')).2 (.inl ⟨dst, hdst, hdstIn, rfl⟩)
    have hstdMem := (mem_yearEntries hc (hall z hz hz')).2 (.inr ⟨std, hstd, hstdIn, rfl⟩)
    rcases lt_trichotomy y z with hlt | rfl | hgt
    · have hlocal := hdstIn.lt hstdIn hlt
      have horder := hcross y z hy hlt hz' _ hdstMem _ hstdMem
      rw [toDst_at, toStd_at] at horder
      unfold FarApart
      omega
    · obtain ⟨dst', std', hdst', hstd', hentries⟩ := yearEntries_eq hc (hall y hy hy')
      have hsorted := hsame y (mem_yearsFrom.2 ⟨hy, hy'⟩)
      rw [hentries, pairwise_entries hc, ← hdst.unique hdst', ← hstd.unique hstd'] at hsorted
      exact hsorted hdstIn hstdIn
    · have hlocal := hstdIn.lt hdstIn hgt
      have horder := hcross z y hz hgt hy' _ hstdMem _ hdstMem
      rw [toDst_at, toStd_at] at horder
      unfold FarApart
      omega
  · intro hapart
    constructor
    · intro y hy
      obtain ⟨hy, hy'⟩ := mem_yearsFrom.1 hy
      obtain ⟨dst, std, hdst, hstd, hentries⟩ := yearEntries_eq hc (hall y hy hy')
      rw [hentries, pairwise_entries hc]
      exact hapart y y hy hy' hy hy' dst std hdst hstd
    · intro y z hy hlt hz a ha b hb
      have hy' := hlt.trans hz
      have hz' := hy.trans hlt.le
      rw [mem_yearEntries hc (hall y hy hy')] at ha
      rw [mem_yearEntries hc (hall z hz' hz)] at hb
      rcases ha with ⟨dst, hdst, hin, rfl⟩ | ⟨std, hstd, hin, rfl⟩
      · rcases hb with ⟨dst', -, hin', rfl⟩ | ⟨std, hstd, hin', rfl⟩
        · have hlocal := hin.lt hin' hlt
          rw [toDst_at, toDst_at]
          omega
        · have hfar := (hapart y z hy hy' hz' hz dst std hdst hstd hin hin').1 (hin.lt hin' hlt)
          rw [toDst_at, toStd_at]
          omega
      · rcases hb with ⟨dst, hdst, hin', rfl⟩ | ⟨std', -, hin', rfl⟩
        · have hfar := (hapart z y hz' hz hy hy' dst std hdst hstd hin' hin).2 (hin.lt hin' hlt).le
          rw [toDst_at, toStd_at]
          omega
        · have hlocal := hin.lt hin' hlt
          rw [toStd_at, toStd_at]
          omega

/-! ## A fixed state -/

theorem lasting_iff : c.Lasting nullMSecs year dst std ↔
    ∃ data, fixedState nullMSecs (c.yearOf dst std) year = some data := by
  have hlt : ((c.yearOf dst std).dstData.atMSecsSinceEpoch <
      (c.yearOf dst std).stdData.atMSecsSinceEpoch) ↔
        dst.toMSecsSinceEpoch - c.stdZone.offset * 1000 <
          std.toMSecsSinceEpoch - c.dstZone.offset * 1000 := Iff.rfl
  unfold Lasting fixedState
  simp only [hlt]
  split
  · cases hwhole : wholeYear nullMSecs year dst std <;> simp [yearOf, hwhole]
  · cases hwhole : wholeYear nullMSecs year std dst <;> simp [yearOf, hwhole]

theorem fixedState_sum {data : Data}
    (h : fixedState nullMSecs (c.yearOf dst std) year = some data) :
    data.offsetFromUtc = data.standardTimeOffset + data.daylightTimeOffset := by
  unfold fixedState at h
  split at h <;> split at h <;> cases h
  · exact toDst_sum dst
  · exact toStd_sum std

/-! ## The list -/

theorem inTimeOrder_single {data : Data}
    (h : data.offsetFromUtc = data.standardTimeOffset + data.daylightTimeOffset) :
    InTimeOrder [data] :=
  ⟨pairwise_singleton _ _, forall_mem_singleton.2 h⟩

theorem inTimeOrder_years (hc : c.Accepted) {first : ℤ}
    (hall : ∀ y, first ≤ y → y < first + n → ∃ t, c.transitionsOf nullMSecs rounds y = .ok t) :
    InTimeOrder ((yearsFrom first n).flatMap (c.yearEntries nullMSecs rounds)) ↔
      ∀ y z, first ≤ y → y < first + n → first ≤ z → z < first + n → ∀ dst std,
        c.DstAt nullMSecs y dst → c.StdAt nullMSecs z std → dst.In y → std.In z →
          c.FarApart dst std := by
  refine (and_iff_left fun e he => ?_).trans (pairwise_years hc hall)
  obtain ⟨y, hy, he⟩ := mem_flatMap.1 he
  obtain ⟨hlow, hhigh⟩ := mem_yearsFrom.1 hy
  rcases (mem_yearEntries hc (hall y hlow hhigh)).1 he with
    ⟨dst, -, -, rfl⟩ | ⟨std, -, -, rfl⟩
  · exact toDst_sum dst
  · exact toStd_sum std

theorem exists_transitions_of_loop
    (h : c.yearLoop nullMSecs rounds startYear lastTranMSecs (n + 1) year result = .ok r) : ∃ t, c.transitionsOf nullMSecs rounds year = .ok t := by
  unfold yearLoop at h
  obtain ⟨t, ht, -⟩ := bind_eq_ok h
  exact ⟨t, ht⟩

theorem yearLoop_ordered (hc : c.Accepted) {endYear : ℤ} (hn : startYear + n = endYear)
    (hrange : ∀ y, startYear ≤ y → y ≤ endYear → InYearRange y) :
    (∃ rounds result, c.yearLoop nullMSecs rounds startYear lastTranMSecs (n + 1) startYear [] =
        .ok result ∧ InTimeOrder result) ↔ c.Ordered nullMSecs startYear endYear := by
  have hfirst : startYear ≤ endYear := by omega
  have hlast : ∀ y, y < startYear + ((n + 1 : ℕ) : ℤ) ↔ y ≤ endYear := fun y => by
    omega
  have hloop : ∀ {rounds t r}, c.transitionsOf nullMSecs rounds startYear = .ok t →
      fixedState nullMSecs t startYear = none →
      (c.yearLoop nullMSecs rounds startYear lastTranMSecs (n + 1) startYear [] = .ok r ↔
        (∀ y, startYear ≤ y → y ≤ endYear → ∃ t, c.transitionsOf nullMSecs rounds y = .ok t) ∧
          r = (yearsFrom startYear (n + 1)).flatMap (c.yearEntries nullMSecs rounds)) := by
    intro rounds t r ht hnone
    rw [yearLoop_iff (le_refl _), nil_append]
    · simp only [hlast]
    · intro t' _ ht'
      rw [← Except.ok.inj (ht.symm.trans ht'), hnone]
  have hyears : ∀ {rounds}, (∀ y, startYear ≤ y → y ≤ endYear →
      ∃ t, c.transitionsOf nullMSecs rounds y = .ok t) →
      (InTimeOrder ((yearsFrom startYear (n + 1)).flatMap (c.yearEntries nullMSecs rounds)) ↔
        ∀ y z, startYear ≤ y → y ≤ endYear → startYear ≤ z → z ≤ endYear → ∀ dst std,
          c.DstAt nullMSecs y dst → c.StdAt nullMSecs z std → dst.In y → std.In z →
            c.FarApart dst std) := by
    intro rounds hall
    rw [inTimeOrder_years hc fun y hy hlt => hall y hy ((hlast y).1 hlt)]
    simp only [hlast]
  constructor
  · rintro ⟨rounds, result, hresult, horder⟩
    obtain ⟨t, ht⟩ := exists_transitions_of_loop hresult
    refine ⟨Computed.of_transitions hc ht, ?_⟩
    cases hfixed : fixedState nullMSecs t startYear with
    | some data =>
      obtain ⟨dst, std, hdst, hstd, -, -, rfl⟩ := (transitionsOf_iff hc).1 ht
      exact .inl ⟨dst, std, ⟨rounds, hdst⟩, ⟨rounds, hstd⟩, lasting_iff.2 ⟨data, hfixed⟩⟩
    | none =>
      obtain ⟨hall, rfl⟩ := (hloop ht hfixed).1 hresult
      right
      refine ⟨fun y hy hy' => ?_, (hyears hall).1 horder⟩
      obtain ⟨t', ht'⟩ := hall y hy hy'
      exact Computed.of_transitions hc ht'
  · rintro ⟨hcomputed, hrest⟩
    obtain ⟨t, ht⟩ := hcomputed.exists_transitions hc (hrange _ (le_refl _) hfirst)
    obtain ⟨dst, std, hdst, hstd, -, -, rfl⟩ := (transitionsOf_iff hc).1 ht
    cases hfixed : fixedState nullMSecs (c.yearOf dst std) startYear with
    | some data =>
      have hsum := fixedState_sum hfixed
      exact ⟨106, _, yearLoop_fixed ht hfixed, inTimeOrder_single hsum⟩
    | none =>
      rcases hrest with ⟨dst', std', hdst', hstd', hlasting⟩ | ⟨hall, hapart⟩
      · rw [← DstAt.unique ⟨106, hdst⟩ hdst', ← StdAt.unique ⟨106, hstd⟩ hstd'] at hlasting
        obtain ⟨data, hdata⟩ := lasting_iff.1 hlasting
        rw [hfixed] at hdata
        cases hdata
      · have hall' : ∀ y, startYear ≤ y → y ≤ endYear →
            ∃ t, c.transitionsOf nullMSecs 106 y = .ok t := fun y hy hy' =>
          (hall y hy hy').exists_transitions hc (hrange y hy hy')
        exact ⟨106, _, (hloop ht hfixed).2 ⟨hall', rfl⟩, (hyears hall').2 hapart⟩

end PosixChanges

variable {simd : Simd QUtf8.AsciiByte} {posixRule : List UInt8} {rounds : ℕ}

theorem qBound_range {min max val : ℤ} (h : min ≤ max) :
    min ≤ qBound min val max ∧ qBound min val max ≤ max :=
  ⟨le_max_left _ _, max_le h (min_le_left _ _)⟩

theorem qBound_mono {min max val val' : ℤ} (h : val ≤ val') :
    qBound min val max ≤ qBound min val' max :=
  max_le_max_left _ (min_le_min_left _ h)

open QDateTime in
/-- The list of an accepted rule is in the order of time where the two changes are far enough apart
in all years. -/
theorem calculatePosixTransitions_iff {requireOffset : Bool} {check : RuleCheck}
    (h : validatePosixRule simd rounds posixRule requireOffset = .ok check)
    (hvalid : check.isValid = true) {startYear endYear : ℤ} (hyears : startYear ≤ endYear)
    (nullMSecs lastTranMSecs : ℤ) :
    (∃ rounds result, calculatePosixTransitions simd nullMSecs rounds posixRule startYear endYear
        lastTranMSecs = .ok result ∧ InTimeOrder result) ↔
      ∀ c, readRule simd posixRule = .ok (.changes c) →
        c.Ordered nullMSecs (qBound YearRange.First startYear YearRange.Last)
          (qBound YearRange.First endYear YearRange.Last) := by
  rcases readRule_of_check h hvalid with ⟨stdZone, zoneinfo, hread⟩ | ⟨c, hread, hc⟩
  · obtain ⟨data, hsingle, hsum⟩ : ∃ data, calculatePosixTransitions simd nullMSecs 0 posixRule
        startYear endYear lastTranMSecs = .ok [data] ∧
          data.offsetFromUtc = data.standardTimeOffset + data.daylightTimeOffset := by
      unfold calculatePosixTransitions
      rw [hread]
      exact ⟨_, rfl, (add_zero _).symm⟩
    refine iff_of_true ⟨0, _, hsingle, PosixChanges.inTimeOrder_single hsum⟩ fun c hc => ?_
    rw [hread] at hc
    cases hc
  · have hle : YearRange.First ≤ YearRange.Last := by decide
    obtain ⟨hlow, -⟩ := @qBound_range _ _ startYear hle
    obtain ⟨-, hhigh⟩ := @qBound_range _ _ endYear hle
    have hmono := @qBound_mono YearRange.First YearRange.Last _ _ hyears
    have hcall : ∀ rounds, calculatePosixTransitions simd nullMSecs rounds posixRule startYear
        endYear lastTranMSecs = c.yearLoop nullMSecs rounds
          (qBound YearRange.First startYear YearRange.Last) lastTranMSecs
          (qBound YearRange.First endYear YearRange.Last + 1 -
            qBound YearRange.First startYear YearRange.Last).toNat
          (qBound YearRange.First startYear YearRange.Last) [] := by
      intro rounds
      unfold calculatePosixTransitions
      rw [hread, ok_bind]
      dsimp only
      rw [qAssert_pos hmono, ok_bind]
    have honly : (∀ c', readRule simd posixRule = .ok (.changes c') →
        c'.Ordered nullMSecs (qBound YearRange.First startYear YearRange.Last)
          (qBound YearRange.First endYear YearRange.Last)) ↔
        c.Ordered nullMSecs (qBound YearRange.First startYear YearRange.Last)
          (qBound YearRange.First endYear YearRange.Last) := by
      refine ⟨fun hall => hall c hread, fun hordered c' hread' => ?_⟩
      rw [hread] at hread'
      cases hread'
      exact hordered
    simp only [hcall]
    rw [honly]
    generalize qBound YearRange.First startYear YearRange.Last = first at hlow hmono ⊢
    generalize qBound YearRange.First endYear YearRange.Last = last at hhigh hmono ⊢
    obtain ⟨n, hn⟩ : ∃ n : ℕ, first + n = last := ⟨(last - first).toNat, by omega⟩
    rw [show (last + 1 - first).toNat = n + 1 by omega]
    exact PosixChanges.yearLoop_ordered hc hn fun y hy hy' => ⟨hlow.trans hy, hy'.trans hhigh⟩

/-- "AAA0BBB,J60,J300": March 1st and October 27th of 2024 -/
theorem calculatePosixTransitions_iff_2024 : ∃ rounds result,
    calculatePosixTransitions QUtf8.simdDecodeAscii 0 rounds
      [0x41, 0x41, 0x41, 0x30, 0x42, 0x42, 0x42, 0x2c, 0x4a, 0x36, 0x30, 0x2c, 0x4a, 0x33, 0x30,
        0x30] 2024 2024 0 = .ok result ∧ InTimeOrder result := by
  have hcheck : validatePosixRule QUtf8.simdDecodeAscii 0 [0x41, 0x41, 0x41, 0x30, 0x42, 0x42, 0x42,
      0x2c, 0x4a, 0x36, 0x30, 0x2c, 0x4a, 0x33, 0x30, 0x30] false =
      .ok { isValid := true, hasDst := true } := rfl
  refine (calculatePosixTransitions_iff hcheck rfl (le_refl _) 0 0).2 fun c hread => ?_
  have hc : c = ⟨⟨[0x41, 0x41, 0x41], 0⟩, ⟨[0x42, 0x42, 0x42], 3600⟩, [0x4a, 0x36, 0x30], 7200,
      [0x4a, 0x33, 0x30, 0x30], 7200⟩ := by
    cases hread
    rfl
  have hyear : qBound QDateTime.YearRange.First 2024 QDateTime.YearRange.Last = 2024 := by decide
  have hdst : ∀ dst, c.DstAt 0 2024 dst → dst.toMSecsSinceEpoch = 1709258400000 := by
    rintro dst ⟨rounds, hdst⟩
    rw [hc] at hdst
    cases hdst
    rfl
  have hstd : ∀ std, c.StdAt 0 2024 std → std.toMSecsSinceEpoch = 1729994400000 := by
    rintro std ⟨rounds, hstd⟩
    rw [hc] at hstd
    cases hstd
    rfl
  have hcomputed : c.Computed 0 2024 := by
    refine ⟨fun hzero => absurd hzero (by decide), fun dst h => ?_, fun std h => ?_⟩
    · rw [hdst dst h, hc]
      decide
    · rw [hstd std h, hc]
      decide
  rw [hyear]
  refine ⟨hcomputed, .inr ⟨fun year hy hy' => ?_, ?_⟩⟩
  · rw [le_antisymm hy' hy]
    exact hcomputed
  · intro year year' hy hy' hz hz' dst std hdstAt hstdAt _ _
    rw [le_antisymm hy' hy] at hdstAt
    rw [le_antisymm hz' hz] at hstdAt
    unfold PosixChanges.FarApart
    rw [hdst dst hdstAt, hstd std hstdAt, hc]
    decide

/-- "AAA0BBB,J60/0,J60/0:30": daylight-saving time for half an hour, in which the clock is set
forward by one. The change back is listed last, but comes first. -/
theorem calculatePosixTransitions_unordered :
    validatePosixRule QUtf8.simdDecodeAscii 0 [0x41, 0x41, 0x41, 0x30, 0x42, 0x42, 0x42, 0x2c, 0x4a,
      0x36, 0x30, 0x2f, 0x30, 0x2c, 0x4a, 0x36, 0x30, 0x2f, 0x30, 0x3a, 0x33, 0x30] false =
        .ok { isValid := true, hasDst := true } ∧
    ¬ ∃ rounds result, calculatePosixTransitions QUtf8.simdDecodeAscii 0 rounds
      [0x41, 0x41, 0x41, 0x30, 0x42, 0x42, 0x42, 0x2c, 0x4a, 0x36, 0x30, 0x2f, 0x30, 0x2c, 0x4a,
        0x36, 0x30, 0x2f, 0x30, 0x3a, 0x33, 0x30] 2024 2024 0 = .ok result ∧
        InTimeOrder result := by
  refine ⟨rfl, ?_⟩
  rintro ⟨rounds, result, hresult, horder, -⟩
  cases hresult
  exact absurd (pairwise_pair.1 horder) (by decide)

end QtBase.Time
