import QtBase.Core.Signed
import QtBase.Text.SignedNumbers

/-! Times of a POSIX rule: what `parsePosixTime` accepts. -/
namespace QtBase.Time

open QIPAddressUtils LocaleTools List

def INT_MIN : ℤ := -2147483648

/-! ## Times -/

/-- The conversion of a `long long` to `int`. -/
def narrow (v : ℤ) : ℤ := v.bmod (2 ^ 32)

/-- The minutes or seconds at `begin`, and what follows them. -/
def parseSixty (begin : List UInt8) : Option (ℤ × List UInt8) :=
  let r := qstrntoll begin 10
  let min := narrow r.1
  if r.2 = 0 ∨ min < 0 ∨ min > 59 ∨ r.2 > 2 then none else some (min, begin.drop r.2)

/-- The end of `parsePosixTime`: everything must have been consumed. -/
def timeOf (hour min sec : ℤ) (begin : List UInt8) : Exec ℤ := do
  if begin ≠ [] then return INT_MIN
  let minutes ← checkedInt (hour * 60)
  let minutes ← checkedInt (minutes + min)
  let seconds ← checkedInt (minutes * 60)
  checkedInt (seconds + sec)

def maxHour : ℤ := 137

def parsePosixTime (range : List UInt8) : Exec ℤ :=
  let r := qstrntoll range 10
  let hour := narrow r.1
  if r.2 = 0 ∨ hour < -maxHour ∨ hour > maxHour ∨ r.2 > 2 then .ok INT_MIN
  else
    let begin := range.drop r.2
    if begin.head? = some 0x3a then
      match parseSixty begin.tail with
      | none => .ok INT_MIN
      | some (min, begin) =>
        if begin.head? = some 0x3a then
          match parseSixty begin.tail with
          | none => .ok INT_MIN
          | some (sec, begin) => timeOf hour min sec begin
        else timeOf hour min 0 begin
    else timeOf hour 0 0 begin

/-- The sign is inverted: POSIX counts in hours West of GMT. -/
def parsePosixOffset (range : List UInt8) : Exec ℤ := do
  let (negate, begin) ←
    match range with
    | [] => .error .undefined
    | 0x2b :: begin => .ok (true, begin)
    | 0x2d :: begin => .ok (false, begin)
    | begin => .ok (true, begin)
  let value ← parsePosixTime begin
  if value = INT_MIN then return value
  if negate then checkedInt (-value) else return value

/-! ## Fields with colons in between -/

/-- `h[:m[:s]]`, with the hours and the seconds below the hour. -/
inductive TimeText (hour sixty : List UInt8 → ℤ → Prop) : List UInt8 → ℤ → ℤ → Prop
  | hours {h hv} : hour h hv → TimeText hour sixty h hv 0
  | minutes {h m hv mv} : hour h hv → sixty m mv →
      TimeText hour sixty (h ++ 0x3a :: m) hv (60 * mv)
  | seconds {h m s hv mv sv} : hour h hv → sixty m mv → sixty s sv →
      TimeText hour sixty (h ++ 0x3a :: (m ++ 0x3a :: s)) hv (60 * mv + sv)

/-- A field that the code takes: spaces, a sign and digits, two characters at most. -/
def Taken (f : List UInt8) (v : ℤ) : Prop :=
  ∃ n : Numeral, n.text = f ∧ n.value = v ∧ f.length ≤ 2

def TakenSixty (f : List UInt8) (v : ℤ) : Prop := Taken f v ∧ 0 ≤ v ∧ v ≤ 59

theorem ofDigits_lt {digits : List ℕ} (h : ∀ d ∈ digits, d < 10) (n : ℕ) :
    digits.foldl (fun n d => n * 10 + d) n < (n + 1) * 10 ^ digits.length := by
  induction digits generalizing n with
  | nil => simp
  | cons d ds ih =>
    have hd := h d mem_cons_self
    have hrest := ih (fun e he => h e (mem_cons_of_mem d he)) (n * 10 + d)
    rw [foldl_cons, length_cons, Nat.pow_succ]
    refine Nat.lt_of_lt_of_le hrest ?_
    rw [Nat.mul_comm (10 ^ ds.length) 10, ← Nat.mul_assoc]
    exact Nat.mul_le_mul_right _ (by omega)

theorem size_lt {n : Numeral} (h : n.text.length ≤ 2) : n.size < 100 := by
  have hdigits : ∀ d ∈ n.digits.map digitValue, d < 10 := by
    intro d hd
    obtain ⟨c, hc, rfl⟩ := mem_map.1 hd
    exact n.digit_lt c hc
  have hlt := ofDigits_lt hdigits 0
  have hlen : n.digits.length ≤ 2 := by
    unfold Numeral.text at h
    rw [length_append, length_append] at h
    omega
  rw [length_map, Nat.zero_add, Nat.one_mul] at hlt
  exact Nat.lt_of_lt_of_le hlt (Nat.pow_le_pow_right (by decide) hlen)

/-- A field of two characters is a number of two digits. -/
theorem Taken.range {f : List UInt8} {v : ℤ} (h : Taken f v) : -100 < v ∧ v < 100 := by
  obtain ⟨n, rfl, rfl, hlen⟩ := h
  have hlt := size_lt hlen
  unfold Numeral.value
  split <;> omega

/-- What follows a field: nothing, or a colon. -/
def AtColon (tail : List UInt8) : Prop := tail = [] ∨ ∃ begin, tail = 0x3a :: begin

theorem AtColon.not_digit {tail : List UInt8} (h : AtColon tail) :
    ∀ c ∈ tail.head?, isAsciiDigit c = false := by
  rintro c hc
  obtain rfl | ⟨begin, rfl⟩ := h
  · cases hc
  · cases hc
    rfl

theorem narrow_of_range {v : ℤ} (h : -100 < v ∧ v < 100) : narrow v = v :=
  Int.bmod_eq_of_le (by omega) (by omega)

theorem Taken.qstrntoll {f tail : List UInt8} {v : ℤ} (h : Taken f v) (htail : AtColon tail) :
    qstrntoll (f ++ tail) 10 = (v, f.length) ∧ 0 < f.length := by
  obtain ⟨n, rfl, rfl, hlen⟩ := h
  have hsize := size_lt hlen
  have hpos : 0 < n.digits.length := length_pos_iff.2 n.ne_nil
  refine ⟨n.qstrntoll_text htail.not_digit (by omega), ?_⟩
  unfold Numeral.text
  simp
  omega

theorem exists_taken {begin : List UInt8} (h : (LocaleTools.qstrntoll begin 10).2 ≠ 0)
    (hused : (LocaleTools.qstrntoll begin 10).2 ≤ 2) :
    ∃ f, Taken f (LocaleTools.qstrntoll begin 10).1 ∧
      begin = f ++ begin.drop (LocaleTools.qstrntoll begin 10).2 := by
  obtain ⟨n, rest, hbegin, -, hread⟩ := exists_numeral h
  rw [hread] at hused ⊢
  refine ⟨n.text, ⟨n, rfl, rfl, hused⟩, ?_⟩
  show begin = n.text ++ begin.drop n.text.length
  rw [hbegin, drop_left]

/-! ## The code and its fields -/

theorem parseSixty_taken {f tail : List UInt8} {v : ℤ} (h : TakenSixty f v)
    (htail : AtColon tail) : parseSixty (f ++ tail) = some (v, tail) := by
  obtain ⟨htaken, hlow, hhigh⟩ := h
  obtain ⟨hread, hpos⟩ := htaken.qstrntoll htail
  have hlen : f.length ≤ 2 := by
    obtain ⟨n, -, -, hlen⟩ := htaken
    exact hlen
  unfold parseSixty
  rw [hread]
  dsimp only
  rw [narrow_of_range htaken.range, if_neg (by omega), drop_left]

theorem exists_sixty {begin tail : List UInt8} {v : ℤ} (h : parseSixty begin = some (v, tail)) :
    ∃ f, TakenSixty f v ∧ begin = f ++ tail := by
  unfold parseSixty at h
  dsimp only at h
  split at h
  · cases h
  · rename_i hok
    rw [not_or, not_or, not_or] at hok
    obtain ⟨f, htaken, hbegin⟩ := exists_taken hok.1 (by omega)
    rw [Option.some.injEq, Prod.mk.injEq, narrow_of_range htaken.range] at h
    rw [narrow_of_range htaken.range] at hok
    obtain ⟨rfl, rfl⟩ := h
    exact ⟨f, ⟨htaken, by omega, by omega⟩, hbegin⟩

theorem timeOf_nil {hour min sec : ℤ} (hh : -100 < hour ∧ hour < 100) (hm : 0 ≤ min ∧ min ≤ 59)
    (hs : 0 ≤ sec ∧ sec ≤ 59) : timeOf hour min sec [] = .ok ((hour * 60 + min) * 60 + sec) := by
  unfold timeOf
  rw [if_neg (fun h => h rfl), checkedInt_of_fits (by unfold FitsInt; omega), ok_bind,
    checkedInt_of_fits (by unfold FitsInt; omega), ok_bind,
    checkedInt_of_fits (by unfold FitsInt; omega), ok_bind,
    checkedInt_of_fits (by unfold FitsInt; omega)]

theorem timeOf_cons (hour min sec : ℤ) {begin : List UInt8} (h : begin ≠ []) :
    timeOf hour min sec begin = .ok INT_MIN := if_pos h

theorem parsePosixTime_taken {range : List UInt8} {hv below : ℤ}
    (h : TimeText Taken TakenSixty range hv below) :
    parsePosixTime range = .ok (3600 * hv + below) := by
  have hhour : ∀ {f tail : List UInt8} {v : ℤ}, Taken f v → AtColon tail →
      qstrntoll (f ++ tail) 10 = (v, f.length) ∧ narrow v = v ∧
        ¬ (f.length = 0 ∨ v < -maxHour ∨ v > maxHour ∨ f.length > 2) := by
    intro f tail v hf htail
    obtain ⟨hread, hpos⟩ := hf.qstrntoll htail
    have hrange := hf.range
    obtain ⟨n, -, -, hlen⟩ := hf
    refine ⟨hread, narrow_of_range hrange, ?_⟩
    unfold maxHour
    omega
  unfold parsePosixTime
  cases h with
  | hours hf =>
    obtain ⟨hread, hnarrow, hok⟩ := hhour hf (.inl rfl)
    rw [append_nil] at hread
    rw [hread]
    dsimp only
    rw [hnarrow, if_neg hok, drop_length, if_neg (by decide),
      timeOf_nil hf.range (by decide) (by decide)]
    congr 1
    omega
  | @minutes f m hv mv hf hm =>
    obtain ⟨hread, hnarrow, hok⟩ := hhour hf (.inr ⟨m, rfl⟩)
    have hsixty := parseSixty_taken hm (.inl rfl)
    rw [append_nil] at hsixty
    rw [hread]
    dsimp only
    rw [hnarrow, if_neg hok, drop_left, head?_cons, if_pos rfl, tail_cons, hsixty]
    dsimp only
    rw [if_neg (by decide), timeOf_nil hf.range hm.2 (by decide)]
    congr 1
    omega
  | @seconds f m s hv mv sv hf hm hs =>
    obtain ⟨hread, hnarrow, hok⟩ := hhour hf (.inr ⟨m ++ 0x3a :: s, rfl⟩)
    have hsixty := parseSixty_taken hm (.inr ⟨s, rfl⟩)
    have hsixty' := parseSixty_taken hs (.inl rfl)
    rw [append_nil] at hsixty'
    rw [hread]
    dsimp only
    rw [hnarrow, if_neg hok, drop_left, head?_cons, if_pos rfl, tail_cons, hsixty]
    dsimp only
    rw [head?_cons, if_pos rfl, tail_cons, hsixty']
    dsimp only
    rw [timeOf_nil hf.range hm.2 hs.2]
    congr 1
    omega

theorem eq_colon_cons {begin : List UInt8} (h : begin.head? = some 0x3a) :
    begin = 0x3a :: begin.tail := (cons_head?_tail h).symm

theorem parsePosixTime_cases (range : List UInt8) : parsePosixTime range = .ok INT_MIN ∨
    ∃ hv below, TimeText Taken TakenSixty range hv below := by
  unfold parsePosixTime
  dsimp only
  split
  · exact .inl rfl
  · rename_i hok
    rw [not_or, not_or, not_or] at hok
    obtain ⟨f, hf, hrange⟩ := exists_taken hok.1 (by omega)
    generalize range.drop (qstrntoll range 10).2 = begin at hrange ⊢
    split
    · rename_i hcolon
      cases hmin : parseSixty begin.tail with
      | none => exact .inl rfl
      | some r =>
        obtain ⟨min, begin'⟩ := r
        obtain ⟨m, hm, htail⟩ := exists_sixty hmin
        rw [eq_colon_cons hcolon, htail] at hrange
        dsimp only
        split
        · rename_i hcolon'
          cases hsec : parseSixty begin'.tail with
          | none => exact .inl rfl
          | some r =>
            obtain ⟨sec, begin''⟩ := r
            obtain ⟨t, ht, htail'⟩ := exists_sixty hsec
            rw [eq_colon_cons hcolon', htail'] at hrange
            dsimp only
            by_cases hnil : begin'' = []
            · rw [hnil, append_nil] at hrange
              rw [hrange]
              exact .inr ⟨_, _, .seconds hf hm ht⟩
            · exact .inl (timeOf_cons _ _ _ hnil)
        · by_cases hnil : begin' = []
          · rw [hnil, append_nil] at hrange
            rw [hrange]
            exact .inr ⟨_, _, .minutes hf hm⟩
          · exact .inl (timeOf_cons _ _ _ hnil)
    · by_cases hnil : begin = []
      · rw [hnil, append_nil] at hrange
        rw [hrange] at hf ⊢
        exact .inr ⟨_, _, .hours hf⟩
      · exact .inl (timeOf_cons _ _ _ hnil)

/-! ## Well-formed times -/

/-- Digits only -/
def Digits (f : List UInt8) (v : ℤ) : Prop :=
  f ≠ [] ∧ (∀ c ∈ f, isAsciiDigit c = true) ∧ v = ofDigits 10 (f.map digitValue)

theorem digits_singleton {c : UInt8} {v : ℤ} (hc : isAsciiDigit c = true)
    (hv : v = ofDigits 10 [digitValue c]) : Digits [c] v :=
  ⟨cons_ne_nil _ _, forall_mem_singleton.2 hc, hv⟩

/-- One to three digits, up to the hours of a week. -/
def PosixHour (f : List UInt8) (v : ℤ) : Prop := Digits f v ∧ f.length ≤ 3 ∧ v ≤ 167

/-- Two digits, for minutes or seconds. -/
def PosixSixty (f : List UInt8) (v : ℤ) : Prop := Digits f v ∧ f.length = 2 ∧ v < 60

/-- `[+|-]h[h][h][:mm[:ss]]`, with the sign for all of it. -/
inductive PosixTime : List UInt8 → ℤ → Prop
  | plain {range hv below} : TimeText PosixHour PosixSixty range hv below →
      PosixTime range (3600 * hv + below)
  | plus {range hv below} : TimeText PosixHour PosixSixty range hv below →
      PosixTime (0x2b :: range) (3600 * hv + below)
  | minus {range hv below} : TimeText PosixHour PosixSixty range hv below →
      PosixTime (0x2d :: range) (-(3600 * hv + below))

/-- The characters before the first colon -/
def firstField (range : List UInt8) : List UInt8 := range.takeWhile (· != 0x3a)

/-- What `parsePosixTime` reads as it should: of the well-formed times those with two characters
before the minutes, and no minutes or seconds after a minus. Of the others, those that it cannot
split into fields. -/
def ReadRight (range : List UInt8) : Prop :=
  ((∃ t, PosixTime range t) → (firstField range).length ≤ 2 ∧
    ∀ r hv below, range = 0x2d :: r → TimeText PosixHour PosixSixty r hv below → below = 0) ∧
  ((∀ t, ¬ PosixTime range t) → ∀ hv below, ¬ TimeText Taken TakenSixty range hv below)

theorem firstField_length {f tail : List UInt8} (htail : AtColon tail) :
    (firstField (f ++ tail)).length ≤ f.length := by
  have hnil : tail.takeWhile (· != 0x3a) = [] := by
    obtain rfl | ⟨begin, rfl⟩ := htail
    · rfl
    · exact takeWhile_cons_of_neg (by decide)
  unfold firstField
  rw [takeWhile_append]
  split
  · rw [hnil, append_nil]
  · exact (List.takeWhile_prefix _).length_le

theorem firstField_eq {f tail : List UInt8} (hf : ∀ c ∈ f, c ≠ 0x3a) (htail : AtColon tail) :
    firstField (f ++ tail) = f := by
  have hnil : tail.takeWhile (· != 0x3a) = [] := by
    obtain rfl | ⟨begin, rfl⟩ := htail
    · rfl
    · exact takeWhile_cons_of_neg (by decide)
  unfold firstField
  rw [takeWhile_append_of_pos (fun c hc => by simpa using hf c hc), hnil, append_nil]

/-- The hours are the first field, in the code's reading and in a well-formed time. -/
theorem TimeText.first {hour sixty : List UInt8 → ℤ → Prop} {range : List UInt8} {hv below : ℤ}
    (h : TimeText hour sixty range hv below) :
    ∃ f tail, hour f hv ∧ range = f ++ tail ∧ AtColon tail := by
  cases h with
  | hours hf => exact ⟨range, [], hf, (append_nil _).symm, .inl rfl⟩
  | minutes hf hm => exact ⟨_, _, hf, rfl, .inr ⟨_, rfl⟩⟩
  | seconds hf hm hs => exact ⟨_, _, hf, rfl, .inr ⟨_, rfl⟩⟩

/-- The fields after the hours can be read in the same text with other hours. -/
theorem TimeText.replace {hour sixty hour' sixty' : List UInt8 → ℤ → Prop} {sign range : List UInt8}
    {hv below : ℤ} {f : ℤ → ℤ} (h : TimeText hour sixty range hv below)
    (hhour : ∀ g tail, range = g ++ tail → AtColon tail → hour g hv → hour' (sign ++ g) (f hv))
    (hsixty : ∀ g v, sixty g v → sixty' g v) :
    TimeText hour' sixty' (sign ++ range) (f hv) below := by
  cases h with
  | hours hf => exact .hours (hhour _ [] (append_nil _).symm (.inl rfl) hf)
  | minutes hf hm =>
    rw [← append_assoc]
    exact .minutes (hhour _ _ rfl (.inr ⟨_, rfl⟩) hf) (hsixty _ _ hm)
  | seconds hf hm hs =>
    rw [← append_assoc]
    exact .seconds (hhour _ _ rfl (.inr ⟨_, rfl⟩) hf) (hsixty _ _ hm) (hsixty _ _ hs)

/-- A sign and digits as a numeral -/
theorem Digits.taken {sign f : List UInt8} {v : ℤ} (h : Digits f v)
    (hsign : sign = [] ∨ sign = [0x2b] ∨ sign = [0x2d]) (hlen : (sign ++ f).length ≤ 2) :
    Taken (sign ++ f) (if sign = [0x2d] then -v else v) := by
  obtain ⟨hne, hdigit, rfl⟩ := h
  exact ⟨⟨[], sign, f, fun c hc => absurd hc not_mem_nil, hsign, hdigit, hne⟩, rfl, rfl, hlen⟩

theorem PosixSixty.taken {f : List UInt8} {v : ℤ} (h : PosixSixty f v) : TakenSixty f v := by
  obtain ⟨hdigits, hlen, hlt⟩ := h
  refine ⟨hdigits.taken (.inl rfl) (by show f.length ≤ 2; omega), ?_, by omega⟩
  obtain ⟨-, -, rfl⟩ := hdigits
  exact Int.natCast_nonneg _

theorem taken_of_posix {sign range : List UInt8} {hv below : ℤ}
    (hsign : sign = [] ∨ sign = [0x2b] ∨ sign = [0x2d])
    (h : TimeText PosixHour PosixSixty range hv below)
    (hshort : (firstField (sign ++ range)).length ≤ 2) :
    TimeText Taken TakenSixty (sign ++ range) (if sign = [0x2d] then -hv else hv) below := by
  refine h.replace (f := fun v => if sign = [0x2d] then -v else v) ?_ fun g v hg => hg.taken
  intro g tail hrange htail hg
  refine hg.1.taken hsign ?_
  have hcolon : ∀ c ∈ sign ++ g, c ≠ 0x3a := by
    intro c hc
    rw [mem_append] at hc
    rcases hc with hc | hc
    · rcases hsign with rfl | rfl | rfl
      · cases hc
      · rw [mem_singleton.1 hc]
        decide
      · rw [mem_singleton.1 hc]
        decide
    · rintro rfl
      exact absurd (hg.1.2.1 _ hc) (by decide)
  rw [hrange, ← append_assoc, firstField_eq hcolon htail] at hshort
  exact hshort

/-- The parts of a well-formed time: a sign, and the rest without one. -/
theorem PosixTime.parts {range : List UInt8} {t : ℤ} (h : PosixTime range t) :
    ∃ sign r hv below, (sign = [] ∨ sign = [0x2b] ∨ sign = [0x2d]) ∧ range = sign ++ r ∧
      TimeText PosixHour PosixSixty r hv below ∧
      t = if sign = [0x2d] then -(3600 * hv + below) else 3600 * hv + below := by
  cases h with
  | plain h => exact ⟨[], _, _, _, .inl rfl, rfl, h, rfl⟩
  | plus h => exact ⟨[0x2b], _, _, _, .inr (.inl rfl), rfl, h, rfl⟩
  | minus h => exact ⟨[0x2d], _, _, _, .inr (.inr rfl), rfl, h, rfl⟩

theorem PosixSixty.range {f : List UInt8} {v : ℤ} (h : PosixSixty f v) : 0 ≤ v ∧ v ≤ 59 :=
  h.taken.2

theorem posix_range {range : List UInt8} {hv below : ℤ}
    (h : TimeText PosixHour PosixSixty range hv below) :
    0 ≤ hv ∧ hv ≤ 167 ∧ 0 ≤ below ∧ below ≤ 3599 := by
  obtain ⟨f, tail, ⟨hdigits, -, hmax⟩, -, -⟩ := h.first
  have hmin : 0 ≤ hv := by
    obtain ⟨-, -, rfl⟩ := hdigits
    exact Int.natCast_nonneg _
  refine ⟨hmin, hmax, ?_⟩
  cases h with
  | hours hf => decide
  | minutes hf hm =>
    have h1 := hm.range
    omega
  | seconds hf hm hs =>
    have h1 := hm.range
    have h2 := hs.range
    omega

/-- A well-formed time is read as such if and only if it is short enough, and zero below the hours
after a minus. -/
theorem posixTime_iff {range : List UInt8} (hposix : ∃ t, PosixTime range t) :
    (∀ t, PosixTime range t → parsePosixTime range = .ok t) ↔
      (firstField range).length ≤ 2 ∧
        ∀ r hv below, range = 0x2d :: r → TimeText PosixHour PosixSixty r hv below → below = 0 := by
  have hread : ∀ {sign r hv below}, (sign = [] ∨ sign = [0x2b] ∨ sign = [0x2d]) →
      range = sign ++ r → TimeText PosixHour PosixSixty r hv below →
      (firstField range).length ≤ 2 →
      parsePosixTime range = .ok (3600 * (if sign = [0x2d] then -hv else hv) + below) := by
    intro sign r hv below hsign hrange htext hshort
    rw [hrange] at hshort ⊢
    exact parsePosixTime_taken (taken_of_posix hsign htext hshort)
  constructor
  · intro hall
    have hshort : (firstField range).length ≤ 2 := by
      obtain ⟨t, ht⟩ := hposix
      have hok := hall t ht
      rcases parsePosixTime_cases range with hmin | ⟨hv, below, htaken⟩
      · rw [hmin, Except.ok.injEq] at hok
        obtain ⟨sign, r, hv, below, -, -, htext, hvalue⟩ := ht.parts
        have hrange := posix_range htext
        unfold INT_MIN at hok
        split at hvalue <;> omega
      · obtain ⟨f, tail, ⟨n, -, -, hlen⟩, rfl, htail⟩ := htaken.first
        exact Nat.le_trans (firstField_length htail) hlen
    refine ⟨hshort, fun r hv below hrange htext => ?_⟩
    have hcode := hread (.inr (.inr rfl)) hrange htext hshort
    have ht : PosixTime range (-(3600 * hv + below)) := by
      rw [hrange]
      exact .minus htext
    rw [hall _ ht, Except.ok.injEq, if_pos rfl] at hcode
    omega
  · rintro ⟨hshort, hzero⟩ t ht
    obtain ⟨sign, r, hv, below, hsign, hrange, htext, rfl⟩ := ht.parts
    rw [hread hsign hrange htext hshort]
    by_cases hminus : sign = [0x2d]
    · have hbelow := hzero r hv below (by rw [hrange, hminus]; rfl) htext
      rw [if_pos hminus, if_pos hminus, hbelow]
      congr 1
      omega
    · rw [if_neg hminus, if_neg hminus]

theorem taken_range {range : List UInt8} {hv below : ℤ}
    (h : TimeText Taken TakenSixty range hv below) :
    -604800 < 3600 * hv + below ∧ 3600 * hv + below < 604800 := by
  obtain ⟨f, tail, hf, -, -⟩ := h.first
  have hhour := hf.range
  cases h with
  | hours hf => omega
  | minutes hf hm =>
    have h1 := hm.2
    omega
  | seconds hf hm hs =>
    have h1 := hm.2
    have h2 := hs.2
    omega

theorem taken_ne_min {range : List UInt8} {hv below : ℤ}
    (h : TimeText Taken TakenSixty range hv below) : 3600 * hv + below ≠ INT_MIN := by
  have hrange := taken_range h
  unfold INT_MIN
  omega

theorem readRight_iff (range : List UInt8) :
    ((∀ t, PosixTime range t → parsePosixTime range = .ok t) ∧
      ((∀ t, ¬ PosixTime range t) → parsePosixTime range = .ok INT_MIN)) ↔ ReadRight range := by
  unfold ReadRight
  refine and_congr ?_ (forall_congr' fun hnot => ?_)
  · by_cases hposix : ∃ t, PosixTime range t
    · rw [posixTime_iff hposix]
      exact ⟨fun h _ => h, fun h => h hposix⟩
    · exact ⟨fun _ h => absurd h hposix, fun _ t ht => absurd ⟨t, ht⟩ hposix⟩
  · constructor
    · intro hfail hv below htaken
      rw [parsePosixTime_taken htaken, Except.ok.injEq] at hfail
      exact taken_ne_min htaken hfail
    · intro hnone
      rcases parsePosixTime_cases range with hmin | ⟨hv, below, htaken⟩
      · exact hmin
      · exact absurd htaken (hnone hv below)

theorem parsePosixOffset_ok {range : List UInt8} (h : range ≠ []) :
    ∃ value, parsePosixOffset range = .ok value := by
  have htime : ∀ (negate : Bool) (begin : List UInt8), ∃ value, (do
      let value ← parsePosixTime begin
      if value = INT_MIN then return value
      if negate then checkedInt (-value) else return value : Exec ℤ) = .ok value := by
    intro negate begin
    rcases parsePosixTime_cases begin with hmin | ⟨hv, below, htaken⟩
    · rw [hmin]
      exact ⟨INT_MIN, rfl⟩
    · have hne := taken_ne_min htaken
      have hrange := taken_range htaken
      rw [parsePosixTime_taken htaken, ok_bind, if_neg hne]
      cases negate with
      | false => exact ⟨_, rfl⟩
      | true => exact ⟨_, checkedInt_of_fits (by unfold FitsInt; omega)⟩
  unfold parsePosixOffset
  split
  · exact absurd rfl h
  · exact htime true _
  · exact htime false _
  · exact htime true _

end QtBase.Time
