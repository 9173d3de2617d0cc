import Mathlib.Data.Int.Order.Basic
import Mathlib.Data.List.DropRight
import Mathlib.Algebra.Order.Ring.Int

/-! `QUrlPrivate::setAuthority`: the user info, the port and the host of an authority. -/
namespace QtBase.UrlAuthority

open List Option Nat

inductive ParsingMode
  | TolerantMode
  | StrictMode
  | DecodedMode
  deriving DecidableEq, Repr

inductive ErrorCode
  | InvalidUserNameError
  | InvalidPasswordError
  | InvalidRegNameError
  | InvalidIPv4AddressError
  | InvalidIPv6AddressError
  | InvalidCharacterInIPv6Error
  | InvalidIPvFutureError
  | HostMissingEndBracket
  | InvalidPortError
  deriving DecidableEq, Repr

structure Error where
  source : List UInt16
  position : ℤ
  code : ErrorCode
  deriving DecidableEq, Repr

/-- The bits of `sectionIsPresent` that belong to the authority. -/
structure Sections where
  userName : Bool := false
  password : Bool := false
  host : Bool := false
  deriving DecidableEq, Repr

structure QUrlPrivate where
  port : ℤ := -1
  userName : List UInt16 := []
  password : List UInt16 := []
  host : List UInt16 := []
  error : Option Error := none
  sectionIsPresent : Sections := {}
  deriving DecidableEq, Repr

/-- The functions that `setAuthority` hands parts of the text to. -/
structure Parts where
  /-- `recodeFromUser` with `userNameInIsolation`. -/
  recodeUserName : List UInt16 → List UInt16
  /-- `recodeFromUser` with `passwordInIsolation`. -/
  recodePassword : List UInt16 → List UInt16
  /-- The error that `validateComponent` sets for the user info between two positions. -/
  validateUserInfo : List UInt16 → ℕ → ℕ → Option Error
  validateHost : List UInt16 → ℕ → ℕ → Option Error
  /-- The address that is printed. -/
  parseIp4 : List UInt16 → Option (List UInt16)
  /-- The host, and where in the text an invalid character stands. -/
  parseIpFuture : ParsingMode → List UInt16 → List UInt16 × Option ℕ
  parseIp6 : ParsingMode → List UInt16 → List UInt16 × Option ℕ
  /-- `qt_urlRecode`; `none` when nothing is to be decoded. -/
  urlRecode : List UInt16 → Option (List UInt16)
  aceDo : List UInt16 → List UInt16

abbrev colon : UInt16 := 0x3a

abbrev atSign : UInt16 := 0x40

abbrev openBracket : UInt16 := 0x5b

abbrev closeBracket : UInt16 := 0x5d

abbrev percent : UInt16 := 0x25

/-- The conversion to `size_t`, which makes -1 the largest number. -/
def sizeT (i : ℤ) : ℕ := (i % 2 ^ 64).toNat

/-- `text.indexOf(c, start)` -/
def indexOf (text : List UInt16) (c : UInt16) (start : ℕ) : ℤ :=
  match (text.drop start).findIdx? (· == c) with
  | some i => (start + i : ℕ)
  | none => -1

/-- `text.lastIndexOf(c, stop - 1)`, for a `stop` that is not 0. -/
def lastIndexOf (text : List UInt16) (c : UInt16) : ℕ → ℤ
  | 0 => -1
  | stop + 1 => if text[stop]? = some c then stop else lastIndexOf text c stop

def slice (text : List UInt16) (start stop : ℕ) : List UInt16 := (text.take stop).drop start

namespace QUrlPrivate

variable (d : QUrlPrivate)

def setError (code : ErrorCode) (source : List UInt16) (supplement : ℤ) : QUrlPrivate :=
  if d.error.isSome then d else { d with error := some ⟨source, supplement, code⟩ }

/-- `setError` with what `validateComponent` found. -/
def setComponentError (e : Error) : QUrlPrivate := d.setError e.code e.source e.position

def setUserName (p : Parts) (value : List UInt16) (start stop : ℕ) : QUrlPrivate :=
  { d with
    sectionIsPresent := { d.sectionIsPresent with userName := true }
    userName := p.recodeUserName (slice value start stop) }

def setPassword (p : Parts) (value : List UInt16) (start stop : ℕ) : QUrlPrivate :=
  { d with
    sectionIsPresent := { d.sectionIsPresent with password := true }
    password := p.recodePassword (slice value start stop) }

def setUserInfo (p : Parts) (userInfo : List UInt16) (start stop : ℕ) : QUrlPrivate :=
  let delimIndex := indexOf userInfo colon start
  let d := d.setUserName p userInfo start (min (sizeT delimIndex) stop)
  if sizeT delimIndex ≥ stop then
    { d with
      password := []
      sectionIsPresent := { d.sectionIsPresent with password := false } }
  else d.setPassword p userInfo (delimIndex + 1).toNat stop

/-- The body of `setHost`; `again` is its call with the decoded host. -/
def setHostBody (p : Parts) (again : QUrlPrivate → List UInt16 → QUrlPrivate)
    (value : List UInt16) (start iend : ℕ) (mode : ParsingMode) : QUrlPrivate :=
  let text := slice value start iend
  let d := { d with host := [], sectionIsPresent := { d.sectionIsPresent with host := true } }
  if text = [] then d
  else if text.head? = some openBracket then
    if text.getLast? ≠ some closeBracket then d.setError .HostMissingEndBracket value (-1)
    else if text.length > 5 ∧ text[1]? = some 0x76 then
      match p.parseIpFuture mode text with
      | (host, some i) => { d with host }.setError .InvalidIPvFutureError value (start + i : ℕ)
      | (host, none) => { d with host }
    else
      let d := if text[1]? = some 0x76 then d.setError .InvalidIPvFutureError value start else d
      match p.parseIp6 mode text.tail.dropLast with
      | (host, none) => { d with host }
      | (host, some i) =>
        if i = text.length - 2 then { d with host }.setError .InvalidIPv6AddressError value start
        else { d with host }.setError .InvalidCharacterInIPv6Error value (start + 1 + i : ℕ)
  else match p.parseIp4 text with
    | some host => { d with host }
    | none =>
      match if mode = .TolerantMode then p.urlRecode text else none with
      | some s =>
        let pos := indexOf s percent 0
        if pos ≠ -1 then d.setError .InvalidRegNameError s pos else again d s
      | none =>
        let s := p.aceDo text
        if s = [] then d.setError .InvalidRegNameError value (-1)
        else match p.parseIp4 s with
          | some host => { d with host }
          | none => { d with host := s }

/-- The decoded host is set in `StrictMode`, where it is not decoded again. -/
def setHost (p : Parts) (value : List UInt16) (start iend : ℕ) (mode : ParsingMode) :
    QUrlPrivate :=
  d.setHostBody p (fun d s => d.setHostBody p (fun d _ => d) s 0 s.length .StrictMode) value start
    iend mode

/-- The text before an "@" is the user info; where the host begins, and whether to go on. -/
def takeUserInfo (p : Parts) (auth : List UInt16) (start stop : ℕ) (mode : ParsingMode) :
    QUrlPrivate × ℕ × Bool :=
  let userInfoIndex := indexOf auth atSign start
  if sizeT userInfoIndex < stop then
    let d := d.setUserInfo p auth start userInfoIndex.toNat
    match if mode = .StrictMode then p.validateUserInfo auth start userInfoIndex.toNat else none
      with
    | some e => (d.setComponentError e, start, false)
    | none => (d, (userInfoIndex + 1).toNat, true)
  else (d, start, true)

end QUrlPrivate

/-- The colon before the port, or -1. -/
def portColon (auth : List UInt16) (start stop : ℕ) : ℤ :=
  let colonIndex := lastIndexOf auth colon stop
  let colonIndex := if colonIndex < start then -1 else colonIndex
  if sizeT colonIndex < stop ∧ auth[start]? = some openBracket ∧
      sizeT (indexOf auth closeBracket start) > sizeT colonIndex then -1
  else colonIndex

def isAsciiDigit (c : UInt16) : Bool := 0x30 ≤ c && c ≤ 0x39

/-- The loop over the digits, in an `unsigned long` of so many bits. -/
def portLoop (bits : ℕ) : List UInt16 → ℕ → ℕ
  | [], x => x
  | c :: cs, x =>
    if isAsciiDigit c then portLoop bits cs ((x * 10 % 2 ^ bits + (c.toNat - 0x30)) % 2 ^ bits)
    else 2 ^ bits - 1

namespace QUrlPrivate

variable (d : QUrlPrivate)

/-- The number behind the colon; `false` when it is no port. -/
def takePort (bits : ℕ) (auth : List UInt16) (colonIndex : ℤ) (stop : ℕ) : QUrlPrivate × Bool :=
  if sizeT colonIndex < stop - 1 then
    let x := portLoop bits (slice auth (colonIndex + 1).toNat stop) 0
    if x = x % 2 ^ 16 then ({ d with port := (x % 2 ^ 16 : ℕ) }, true)
    else (d.setError .InvalidPortError auth (colonIndex + 1), false)
  else (d, true)

/-- `setAuthority` from the user info on; `false` when it breaks off. -/
def takeAuthority (p : Parts) (bits : ℕ) (auth : List UInt16) (start stop : ℕ)
    (mode : ParsingMode) : QUrlPrivate × Bool :=
  match d.takeUserInfo p auth start stop mode with
  | (d, _, false) => (d, false)
  | (d, start, true) =>
    let colonIndex := portColon auth start stop
    let (d, valid) := d.takePort bits auth colonIndex stop
    if mode = .StrictMode ∧ valid = false then (d, false)
    else
      let iend := min stop (sizeT colonIndex)
      let d := d.setHost p auth start iend mode
      match if mode = .StrictMode then p.validateHost auth start iend else none with
      | some e => ({ d.setComponentError e with sectionIsPresent := {} }, false)
      | none => (d, true)

/-- All sections of the authority but the bit of the host are cleared. -/
def clearAuthority : QUrlPrivate :=
  { d with
    sectionIsPresent := { d.sectionIsPresent with userName := false, password := false }
    userName := [], password := [], host := [], port := -1 }

def setAuthority (p : Parts) (bits : ℕ) (auth : List UInt16) (start stop : ℕ)
    (mode : ParsingMode) : QUrlPrivate :=
  let d := { d with sectionIsPresent := { host := true }, port := -1 }
  if start ≠ stop then
    match d.takeAuthority p bits auth start stop mode with
    | (d, true) => d
    | (d, false) => d.clearAuthority
  else d.clearAuthority

/-- The error that was reported is that of a port. -/
def PortError : Prop := d.error.map Error.code = some .InvalidPortError

end QUrlPrivate

/-! ## The text of the port -/

/-- The text behind the last colon, if there is one. -/
def portText (text : List UInt16) : Option (List UInt16) :=
  if colon ∈ text then some (text.rtakeWhile (· != colon)) else none

def decimalValue (digits : List UInt16) : ℕ :=
  digits.foldl (fun n c => 10 * n + (c.toNat - 0x30)) 0

/-- A port as it is written. -/
structure IsPort (digits : List UInt16) (n : ℕ) : Prop where
  ne_nil : digits ≠ []
  decimal : ∀ c ∈ digits, isAsciiDigit c = true
  value : decimalValue digits = n
  le : n ≤ 65535

/-- The URL has the port that the authority says. -/
structure PortExact (text : List UInt16) (d : QUrlPrivate) : Prop where
  port : ∀ n : ℕ, d.port = n ∧ ¬ d.PortError ↔
    ∃ digits, portText text = some digits ∧ IsPort digits n
  absent : portText text = none ∨ portText text = some [] → d.port = -1 ∧ ¬ d.PortError
  invalid : ∀ digits, portText text = some digits → digits ≠ [] → (∀ n, ¬ IsPort digits n) →
    d.PortError

/-- The number of the port is taken for another one in so many bits. -/
def Wraps (bits : ℕ) (text : List UInt16) : Prop :=
  ∃ digits, portText text = some digits ∧ (∀ c ∈ digits, isAsciiDigit c = true) ∧
    65535 < decimalValue digits ∧ decimalValue digits % 2 ^ bits ≤ 65535

theorem portText_none {text : List UInt16} (h : colon ∉ text) : portText text = none := if_neg h

theorem portText_append {pre post : List UInt16} (h : colon ∉ post) :
    portText (pre ++ colon :: post) = some post := by
  have hpost : ∀ c ∈ post, (c != colon) = true := fun c hc => bne_iff_ne.2 fun heq => h (heq ▸ hc)
  rw [portText, if_pos (by simp), List.rtakeWhile, reverse_append, reverse_cons,
    append_assoc, takeWhile_append_of_pos fun c hc => hpost c (mem_reverse.1 hc),
    singleton_append, takeWhile_cons_of_neg (by simp), append_nil,
    reverse_reverse]

theorem exists_last_colon (text : List UInt16) :
    colon ∉ text ∨ ∃ pre post, text = pre ++ colon :: post ∧ colon ∉ post := by
  induction text with
  | nil => exact .inl not_mem_nil
  | cons c text ih =>
    rcases ih with h | ⟨pre, post, rfl, hpost⟩
    · by_cases hc : c = colon
      · exact .inr ⟨[], text, by rw [hc]; rfl, h⟩
      · exact .inl (not_mem_cons_of_ne_of_not_mem (Ne.symm hc) h)
    · exact .inr ⟨c :: pre, post, rfl, hpost⟩

theorem portLoop_digits {bits : ℕ} {digits : List UInt16} (h : ∀ c ∈ digits, isAsciiDigit c = true)
    (n : ℕ) : portLoop bits digits (n % 2 ^ bits) =
      digits.foldl (fun n c => 10 * n + (c.toNat - 0x30)) n % 2 ^ bits := by
  induction digits generalizing n with
  | nil => rfl
  | cons c digits ih =>
    have hstep : (n % 2 ^ bits * 10 % 2 ^ bits + (c.toNat - 0x30)) % 2 ^ bits =
        (10 * n + (c.toNat - 0x30)) % 2 ^ bits := by
      rw [Nat.mod_mul_mod, Nat.mod_add_mod, Nat.mul_comm]
    rw [portLoop, if_pos (h c mem_cons_self), hstep,
      ih fun x hx => h x (mem_cons_of_mem _ hx), foldl_cons]

theorem portLoop_invalid {bits : ℕ} {text : List UInt16}
    (h : ¬ ∀ c ∈ text, isAsciiDigit c = true) (x : ℕ) : portLoop bits text x = 2 ^ bits - 1 := by
  induction text generalizing x with
  | nil => exact absurd nofun h
  | cons c text ih =>
    rw [portLoop]
    by_cases hc : isAsciiDigit c = true
    · rw [if_pos hc]
      exact ih (fun hall => h (forall_mem_cons.2 ⟨hc, hall⟩)) _
    · rw [if_neg hc]

/-! ## Positions -/

theorem sizeT_natCast {n : ℕ} (h : n < 2 ^ 63) : sizeT n = n := by
  unfold sizeT
  omega

theorem sizeT_neg_one : sizeT (-1) = 2 ^ 64 - 1 := by decide

theorem lastIndexOf_eq {text : List UInt16} {c : UInt16} {stop k : ℕ} (hk : k < stop)
    (hc : text[k]? = some c) (hrest : ∀ i, k < i → i < stop → text[i]? ≠ some c) :
    lastIndexOf text c stop = k := by
  induction stop with
  | zero => omega
  | succ stop ih =>
    rw [lastIndexOf]
    by_cases heq : k = stop
    · rw [← heq, if_pos hc]
    · rw [if_neg (hrest stop (by omega) (lt_succ_self _))]
      exact ih (by omega) fun i hi hi' => hrest i hi (lt_succ_of_lt hi')

theorem lastIndexOf_lt {text : List UInt16} {c : UInt16} {start stop : ℕ}
    (h : ∀ i, start ≤ i → i < stop → text[i]? ≠ some c) : lastIndexOf text c stop < start := by
  induction stop with
  | zero => rw [lastIndexOf]; omega
  | succ stop ih =>
    rw [lastIndexOf]
    split
    · rename_i hc
      by_contra hge
      exact h stop (by omega) (lt_succ_self _) hc
    · exact ih fun i hi hi' => h i hi (lt_succ_of_lt hi')

theorem lastIndexOf_spec {text : List UInt16} {c : UInt16} {stop : ℕ} :
    lastIndexOf text c stop = -1 ∨ ∃ k : ℕ, lastIndexOf text c stop = k ∧ k < stop ∧
      text[k]? = some c := by
  induction stop with
  | zero => exact .inl rfl
  | succ stop ih =>
    rw [lastIndexOf]
    split
    · rename_i hc
      exact .inr ⟨stop, rfl, lt_succ_self _, hc⟩
    · exact ih.imp_right fun ⟨k, hk, hlt, hc⟩ => ⟨k, hk, lt_succ_of_lt hlt, hc⟩

theorem getElem?_slice {text : List UInt16} {start stop i : ℕ} (h : start + i < stop) :
    (slice text start stop)[i]? = text[start + i]? := by
  rw [slice, getElem?_drop, getElem?_take_of_lt h]

theorem length_slice {text : List UInt16} {start stop : ℕ} (h : stop ≤ text.length) :
    (slice text start stop).length = stop - start := by
  rw [slice, length_drop, length_take, min_eq_left h]

theorem indexOf_spec {text : List UInt16} {c : UInt16} {start : ℕ} :
    indexOf text c start = -1 ∨ ∃ i, indexOf text c start = (start + i : ℕ) ∧
      text[start + i]? = some c := by
  unfold indexOf
  cases h : (text.drop start).findIdx? (· == c) with
  | none => exact .inl rfl
  | some i =>
    obtain ⟨hi, hc, -⟩ := findIdx?_eq_some_iff_getElem.1 h
    refine .inr ⟨i, rfl, ?_⟩
    rw [← getElem?_drop, getElem?_eq_getElem hi, beq_iff_eq.1 hc]

section Slice

variable {auth : List UInt16} {start stop : ℕ}

/-- Without an "@" there is no user info. -/
theorem takeUserInfo_none (d : QUrlPrivate) (p : Parts) {mode : ParsingMode}
    (hstop : stop ≤ auth.length) (hsize : auth.length < 2 ^ 63)
    (hat : atSign ∉ slice auth start stop) :
    d.takeUserInfo p auth start stop mode = (d, start, true) := by
  refine if_neg ?_
  rcases @indexOf_spec auth atSign start with h | ⟨i, h, hc⟩
  · rw [h, sizeT_neg_one]
    omega
  · intro hlt
    have hlen : start + i < auth.length := (List.getElem?_eq_some_iff.1 hc).1
    rw [h, sizeT_natCast (by omega)] at hlt
    rw [← getElem?_slice hlt] at hc
    exact hat (mem_of_getElem? hc)

theorem portColon_none (hstop : stop ≤ auth.length) (hsize : auth.length < 2 ^ 63)
    (hcolon : colon ∉ slice auth start stop) : portColon auth start stop = -1 := by
  have hlt : lastIndexOf auth colon stop < start := lastIndexOf_lt fun i hi hi' hc => by
    obtain ⟨k, rfl⟩ := Nat.exists_eq_add_of_le hi
    rw [← getElem?_slice hi'] at hc
    exact hcolon (mem_of_getElem? hc)
  unfold portColon
  dsimp only
  rw [if_pos hlt, sizeT_neg_one, if_neg (by omega)]

theorem portColon_eq {pre post : List UInt16} (hstop : stop ≤ auth.length)
    (hbracket : (slice auth start stop).head? ≠ some openBracket)
    (htext : slice auth start stop = pre ++ colon :: post) (hpost : colon ∉ post) :
    portColon auth start stop = (start + pre.length : ℕ) ∧
      stop = start + pre.length + 1 + post.length ∧
      slice auth (start + pre.length + 1) stop = post := by
  have hlen := congrArg List.length htext
  rw [length_slice hstop, length_append, length_cons] at hlen
  have hdrop : slice auth (start + pre.length + 1) stop = post := by
    have : (slice auth start stop).drop (pre.length + 1) = post := by
      rw [htext, ← drop_drop, drop_left]
      rfl
    rw [← this, slice, slice, drop_drop]
    congr 1
  have hcolon : auth[start + pre.length]? = some colon := by
    rw [← @getElem?_slice auth start stop pre.length (by omega), htext,
      getElem?_append_right (Nat.le_refl _), Nat.sub_self]
    rfl
  have hfirst : auth[start]? ≠ some openBracket := by
    intro h
    rw [← Nat.add_zero start, ← @getElem?_slice auth start stop 0 (by omega),
      ← head?_eq_getElem?] at h
    exact hbracket h
  have hlast : lastIndexOf auth colon stop = (start + pre.length : ℕ) := by
    refine lastIndexOf_eq (by omega) hcolon fun i hi hi' hc => hpost ?_
    obtain ⟨k, rfl⟩ := Nat.exists_eq_add_of_le hi
    rw [← hdrop]
    rw [← @getElem?_slice auth (start + pre.length + 1) stop k (by omega)] at hc
    exact mem_of_getElem? hc
  have hge : ¬ ((start + pre.length : ℕ) : ℤ) < start := by omega
  refine ⟨?_, by omega, hdrop⟩
  unfold portColon
  dsimp only
  rw [hlast, if_neg hge, if_neg fun h => hfirst h.2.1]

theorem portColon_bracket (hstop : stop ≤ auth.length) (hsize : auth.length < 2 ^ 63)
    (hbracket : auth[start]? = some openBracket) (h : portColon auth start stop ≠ -1) :
    ∃ k, indexOf auth closeBracket start = (k : ℕ) ∧ auth[k]? = some closeBracket ∧
      start < k ∧ (k : ℤ) < portColon auth start stop := by
  unfold portColon at h ⊢
  dsimp only at h ⊢
  rcases @lastIndexOf_spec auth colon stop with hlast | ⟨c, hlast, hc, hcolon⟩
  · have hneg : (-1 : ℤ) < start := by omega
    rw [hlast, if_pos hneg, ite_self] at h
    exact absurd rfl h
  rw [hlast] at h ⊢
  by_cases hlt : (c : ℤ) < start
  · rw [if_pos hlt, ite_self] at h
    exact absurd rfl h
  rw [if_neg hlt, sizeT_natCast (by omega)] at h ⊢
  split_ifs at h ⊢ with hinside
  · exact absurd rfl h
  have hclose : sizeT (indexOf auth closeBracket start) ≤ c := by
    by_contra hgt
    exact hinside ⟨hc, hbracket, Nat.lt_of_not_le hgt⟩
  rcases @indexOf_spec auth closeBracket start with hindex | ⟨i, hindex, hi⟩
  · rw [hindex, sizeT_neg_one] at hclose
    omega
  · have hlen : start + i < auth.length := (List.getElem?_eq_some_iff.1 hi).1
    rw [hindex, sizeT_natCast (by omega)] at hclose
    have hne : start + i ≠ c := by
      rintro rfl
      rw [hi] at hcolon
      exact absurd (some.inj hcolon) (by decide)
    have hpos : i ≠ 0 := by
      rintro rfl
      rw [Nat.add_zero, hbracket] at hi
      exact absurd (some.inj hi) (by decide)
    exact ⟨start + i, hindex, hi, by omega, by omega⟩

end Slice

/-! ## The port -/

namespace QUrlPrivate

/-- A step behind the port: it keeps the port, and an error that is set, and sets no other error of
the port. -/
structure KeepsPort (d d' : QUrlPrivate) : Prop where
  port : d'.port = d.port
  portError : d'.PortError ↔ d.PortError

variable {d d' : QUrlPrivate}

theorem KeepsPort.trans {d'' : QUrlPrivate} (h : d.KeepsPort d') (h' : d'.KeepsPort d'') :
    d.KeepsPort d'' := ⟨h'.port.trans h.port, h'.portError.trans h.portError⟩

theorem keepsPort_of_eq (hport : d'.port = d.port) (herror : d'.error = d.error) :
    d.KeepsPort d' := ⟨hport, by rw [PortError, PortError, herror]⟩

theorem keepsPort_setError {code : ErrorCode} (hcode : code ≠ .InvalidPortError)
    (source : List UInt16) (supplement : ℤ) : d.KeepsPort (d.setError code source supplement) := by
  unfold setError
  split
  · exact ⟨rfl, Iff.rfl⟩
  · rename_i h
    have hnone : d.error = none := by simpa using h
    refine ⟨rfl, ?_⟩
    rw [PortError, PortError, hnone]
    simpa using hcode

theorem keepsPort_setHostBody (p : Parts) {again : QUrlPrivate → List UInt16 → QUrlPrivate}
    (hagain : ∀ d s, KeepsPort d (again d s)) (d : QUrlPrivate) (value : List UInt16)
    (start iend : ℕ) (mode : ParsingMode) :
    d.KeepsPort (d.setHostBody p again value start iend mode) := by
  have hhost : ∀ (d : QUrlPrivate) host, d.KeepsPort { d with host } := fun d host =>
    keepsPort_of_eq rfl rfl
  have hclear : d.KeepsPort
      { d with host := [], sectionIsPresent := { d.sectionIsPresent with host := true } } :=
    keepsPort_of_eq rfl rfl
  unfold setHostBody
  refine hclear.trans ?_
  generalize { d with host := [], sectionIsPresent := { d.sectionIsPresent with host := true } } = d
  dsimp only
  split
  · exact hhost d d.host
  split
  · split
    · exact keepsPort_setError (by decide) _ _
    split
    · split
      · exact (hhost d _).trans (keepsPort_setError (by decide) _ _)
      · exact hhost d _
    · have hv : d.KeepsPort (if (slice value start iend)[1]? = some 0x76 then
          d.setError .InvalidIPvFutureError value start else d) := by
        split
        · exact keepsPort_setError (by decide) _ _
        · exact hhost d d.host
      refine hv.trans ?_
      generalize (if (slice value start iend)[1]? = some 0x76 then
        d.setError .InvalidIPvFutureError value start else d) = d'
      split
      · exact hhost _ _
      · split
        · exact (hhost _ _).trans (keepsPort_setError (by decide) _ _)
        · exact (hhost _ _).trans (keepsPort_setError (by decide) _ _)
  · split
    · exact hhost d _
    · split
      · split
        · exact keepsPort_setError (by decide) _ _
        · exact hagain d _
      · split
        · exact keepsPort_setError (by decide) _ _
        · split
          · exact hhost d _
          · exact hhost d _

theorem keepsPort_setHost (p : Parts) (d : QUrlPrivate) (value : List UInt16) (start iend : ℕ)
    (mode : ParsingMode) : d.KeepsPort (d.setHost p value start iend mode) :=
  keepsPort_setHostBody p (fun d s => keepsPort_setHostBody p
    (fun _ _ => keepsPort_of_eq rfl rfl) d s 0 s.length .StrictMode) d value start iend mode

theorem setAuthority_keepsPort (p : Parts) (bits : ℕ) (d : QUrlPrivate) {auth : List UInt16}
    {start stop : ℕ} (hstart : start ≠ stop) (hstop : stop ≤ auth.length)
    (hsize : auth.length < 2 ^ 63) (hat : atSign ∉ slice auth start stop) :
    KeepsPort ({ d with sectionIsPresent := { host := true }, port := -1 }.takePort bits auth
        (portColon auth start stop) stop).1
      (d.setAuthority p bits auth start stop .TolerantMode) := by
  unfold setAuthority takeAuthority
  dsimp only
  rw [if_pos hstart, takeUserInfo_none _ p hstop hsize hat]
  exact keepsPort_setHost p _ _ _ _ _

theorem portError_setError (h : d.error = none) (source : List UInt16) (supplement : ℤ) :
    (d.setError .InvalidPortError source supplement).PortError := by
  rw [setError, h]
  rfl

theorem not_portError (h : d.error = none) : ¬ d.PortError := by
  rw [PortError, h]
  exact nofun

theorem takePort_text {bits : ℕ} (hbits : 16 < bits) {auth post : List UInt16} {k stop : ℕ}
    (hstop : stop = k + 1 + post.length) (hsize : stop < 2 ^ 63)
    (hpost : slice auth (k + 1) stop = post) (hport : d.port = -1) (herror : d.error = none) :
    let d' := (d.takePort bits auth k stop).1
    (post = [] ∧ d'.port = -1 ∧ ¬ d'.PortError) ∨
    (post ≠ [] ∧ (∀ c ∈ post, isAsciiDigit c = true) ∧ decimalValue post % 2 ^ bits ≤ 65535 ∧
      d'.port = (decimalValue post % 2 ^ bits : ℕ) ∧ ¬ d'.PortError) ∨
    (post ≠ [] ∧ ((∀ c ∈ post, isAsciiDigit c = true) → 65535 < decimalValue post % 2 ^ bits) ∧
      d'.port = -1 ∧ d'.PortError) := by
  have hk : sizeT k = k := sizeT_natCast (by omega)
  have hnat : ((k : ℤ) + 1).toNat = k + 1 := by omega
  unfold takePort
  rw [hk, hnat, hpost]
  by_cases hnil : post = []
  · subst hnil
    rw [if_neg (by rw [length_nil] at hstop; omega)]
    exact .inl ⟨rfl, hport, not_portError herror⟩
  have hpos := length_pos_iff.2 hnil
  rw [if_pos (by omega)]
  dsimp only
  by_cases hx : portLoop bits post 0 = portLoop bits post 0 % 2 ^ 16
  · rw [if_pos hx]
    have hdigits : ∀ c ∈ post, isAsciiDigit c = true := by
      by_contra hnot
      have hpow : 2 ^ 17 ≤ 2 ^ bits := Nat.pow_le_pow_right (by decide) hbits
      rw [portLoop_invalid hnot] at hx
      omega
    have hvalue : portLoop bits post 0 = decimalValue post % 2 ^ bits := by
      rw [← Nat.zero_mod (2 ^ bits), portLoop_digits hdigits]
      rfl
    rw [hvalue] at hx ⊢
    refine .inr (.inl ⟨hnil, hdigits, by omega, ?_, not_portError herror⟩)
    dsimp only
    rw [← hx]
  · rw [if_neg hx]
    have hport' : (d.setError .InvalidPortError auth (k + 1)).port = d.port := by
      rw [setError, herror]
      rfl
    refine .inr (.inr ⟨hnil, fun hdigits => ?_, hport'.trans hport,
      portError_setError herror _ _⟩)
    have hvalue : portLoop bits post 0 = decimalValue post % 2 ^ bits := by
      rw [← Nat.zero_mod (2 ^ bits), portLoop_digits hdigits]
      rfl
    rw [hvalue] at hx
    omega

end QUrlPrivate

open QUrlPrivate

theorem portExact_absent {text : List UInt16} {d : QUrlPrivate}
    (htext : portText text = none ∨ portText text = some []) (hport : d.port = -1)
    (herror : ¬ d.PortError) : PortExact text d := by
  refine ⟨fun n => iff_of_false ?_ ?_, fun _ => ⟨hport, herror⟩, ?_⟩
  · rintro ⟨h, -⟩
    omega
  · rintro ⟨digits, hdigits, his⟩
    rcases htext with h | h
    · rw [h] at hdigits
      cases hdigits
    · rw [h] at hdigits
      exact his.ne_nil (some.inj hdigits).symm
  · intro digits hdigits hne
    rcases htext with h | h
    · rw [h] at hdigits
      cases hdigits
    · rw [h] at hdigits
      exact absurd (some.inj hdigits).symm hne

section Text

variable {text post : List UInt16} {bits : ℕ} {d : QUrlPrivate}

theorem wraps_iff (htext : portText text = some post) :
    Wraps bits text ↔ (∀ c ∈ post, isAsciiDigit c = true) ∧ 65535 < decimalValue post ∧
      decimalValue post % 2 ^ bits ≤ 65535 := by
  constructor
  · rintro ⟨digits, hdigits, h⟩
    rw [htext] at hdigits
    obtain rfl := some.inj hdigits
    exact h
  · exact fun h => ⟨post, htext, h⟩

theorem not_wraps_absent (htext : portText text = none ∨ portText text = some []) :
    ¬ Wraps bits text := by
  rintro ⟨digits, hdigits, -, hlt, -⟩
  rcases htext with h | h
  · rw [h] at hdigits
    cases hdigits
  · rw [h] at hdigits
    obtain rfl := some.inj hdigits
    exact absurd hlt (by decide)

theorem portExact_number (hbits : 16 < bits) (htext : portText text = some post) (hne : post ≠ [])
    (hdigits : ∀ c ∈ post, isAsciiDigit c = true) (hle : decimalValue post % 2 ^ bits ≤ 65535)
    (hport : d.port = (decimalValue post % 2 ^ bits : ℕ)) (herror : ¬ d.PortError) :
    PortExact text d ↔ ¬ Wraps bits text := by
  rw [wraps_iff htext]
  constructor
  · rintro h ⟨-, hlt, -⟩
    refine herror (h.invalid post htext hne fun n hn => ?_)
    have := hn.value
    have := hn.le
    omega
  · intro h
    have hsmall : decimalValue post ≤ 65535 := by
      by_contra hgt
      exact h ⟨hdigits, Nat.lt_of_not_le hgt, hle⟩
    have hpow : 2 ^ 17 ≤ 2 ^ bits := Nat.pow_le_pow_right (by decide) hbits
    rw [Nat.mod_eq_of_lt (by omega)] at hport
    have his : IsPort post (decimalValue post) := ⟨hne, hdigits, rfl, hsmall⟩
    refine ⟨fun n => ⟨?_, ?_⟩, ?_, fun digits hdig _ hnot => ?_⟩
    · rintro ⟨hn, -⟩
      obtain rfl : decimalValue post = n := by omega
      exact ⟨post, htext, his⟩
    · rintro ⟨digits, hdig, hn⟩
      rw [htext] at hdig
      obtain rfl := some.inj hdig
      rw [hport, hn.value]
      exact ⟨rfl, herror⟩
    · rw [htext]
      rintro (h | h)
      · cases h
      · exact absurd (some.inj h) hne
    · rw [htext] at hdig
      obtain rfl := some.inj hdig
      exact absurd his (hnot _)

theorem portExact_error (htext : portText text = some post) (hne : post ≠ [])
    (hlt : (∀ c ∈ post, isAsciiDigit c = true) → 65535 < decimalValue post % 2 ^ bits)
    (herror : d.PortError) : PortExact text d ∧ ¬ Wraps bits text := by
  refine ⟨⟨fun n => iff_of_false (fun h => h.2 herror) ?_, ?_, fun _ _ _ _ => herror⟩, ?_⟩
  · rintro ⟨digits, hdig, hn⟩
    rw [htext] at hdig
    obtain rfl := some.inj hdig
    have h := hlt hn.decimal
    have hmod := mod_le (decimalValue post) (2 ^ bits)
    have := hn.value
    have := hn.le
    omega
  · rw [htext]
    rintro (h | h)
    · cases h
    · exact absurd (some.inj h) hne
  · rw [wraps_iff htext]
    rintro ⟨hdigits, -, hle⟩
    have := hlt hdigits
    omega

end Text

/-- The port of an authority without user info whose host is not in brackets is exactly the number
that is written, unless this number wraps to another port. In brackets no colon is taken. -/
theorem setAuthority_port_iff (p : Parts) {bits : ℕ} (hbits : 16 < bits) (d : QUrlPrivate)
    (herror : d.error = none) {auth : List UInt16} {start stop : ℕ} (hstop : stop ≤ auth.length)
    (hsize : auth.length < 2 ^ 63) :
    (atSign ∉ slice auth start stop → (slice auth start stop).head? ≠ some openBracket →
      (PortExact (slice auth start stop) (d.setAuthority p bits auth start stop .TolerantMode) ↔
        ¬ Wraps bits (slice auth start stop))) ∧
    ∀ host, auth[host]? = some openBracket → portColon auth host stop ≠ -1 →
      ∃ k, indexOf auth closeBracket host = (k : ℕ) ∧ auth[k]? = some closeBracket ∧ host < k ∧
        (k : ℤ) < portColon auth host stop := by
  refine ⟨fun hat hbracket => ?_, fun host hopen hcolon =>
    portColon_bracket hstop hsize hopen hcolon⟩
  by_cases hempty : start = stop
  · have hnone : portText (slice auth start stop) = none := by
      have hnil : slice auth start stop = [] :=
        eq_nil_of_length_eq_zero (by rw [length_slice hstop]; omega)
      rw [hnil]
      rfl
    have hclear : d.setAuthority p bits auth start stop .TolerantMode = clearAuthority
        { d with sectionIsPresent := { host := true }, port := -1 } := if_neg fun h => h hempty
    refine iff_of_true ?_ (not_wraps_absent (.inl hnone))
    rw [hclear]
    exact portExact_absent (.inl hnone) rfl (not_portError herror)
  have hkeeps := setAuthority_keepsPort p bits d hempty hstop hsize hat
  generalize d.setAuthority p bits auth start stop .TolerantMode = d' at hkeeps ⊢
  rcases exists_last_colon (slice auth start stop) with hnone | ⟨pre, post, htext, hpost⟩
  · have hnone' := portText_none hnone
    rw [portColon_none hstop hsize hnone, takePort, sizeT_neg_one, if_neg (by omega)] at hkeeps
    refine iff_of_true (portExact_absent (.inl hnone') hkeeps.port ?_)
      (not_wraps_absent (.inl hnone'))
    rw [hkeeps.portError]
    exact not_portError herror
  obtain ⟨hcolon, hlen, hslice⟩ := portColon_eq hstop hbracket htext hpost
  have hportText : portText (slice auth start stop) = some post := by
    rw [htext, portText_append hpost]
  rw [hcolon] at hkeeps
  obtain hcases := takePort_text (d := { d with sectionIsPresent := { host := true }, port := -1 })
    hbits hlen (by omega) hslice rfl herror
  dsimp only at hcases
  rw [← hkeeps.port, ← hkeeps.portError] at hcases
  rcases hcases with ⟨hnil, hport, hno⟩ | ⟨hne, hdigits, hle, hport, hno⟩ | ⟨hne, hlt, -, hyes⟩
  · have habsent : portText (slice auth start stop) = some [] := by rw [hportText, hnil]
    exact iff_of_true (portExact_absent (.inr habsent) hport hno)
      (not_wraps_absent (.inr habsent))
  · exact portExact_number hbits hportText hne hdigits hle hport hno
  · obtain ⟨hexact, hwraps⟩ := portExact_error hportText hne hlt hyes
    exact iff_of_true hexact hwraps

/-- Functions that leave the text as it is. -/
def Parts.plain : Parts where
  recodeUserName := id
  recodePassword := id
  validateUserInfo _ _ _ := none
  validateHost _ _ _ := none
  parseIp4 _ := none
  parseIpFuture _ text := (text, none)
  parseIp6 _ text := (text, none)
  urlRecode _ := none
  aceDo := id

/-- `"h:80"` and `"[:]:1"` -/
theorem setAuthority_port_http :
    (PortExact (slice [0x68, colon, 0x38, 0x30] 0 4)
        (setAuthority {} .plain 64 [0x68, colon, 0x38, 0x30] 0 4 .TolerantMode) ↔
      ¬ Wraps 64 (slice [0x68, colon, 0x38, 0x30] 0 4)) ∧
    ∃ k, indexOf [openBracket, colon, closeBracket, colon, 0x31] closeBracket 0 = (k : ℕ) ∧
      [openBracket, colon, closeBracket, colon, 0x31][k]? = some closeBracket ∧ 0 < k ∧
      (k : ℤ) < portColon [openBracket, colon, closeBracket, colon, 0x31] 0 5 := by
  have hcolon : portColon [openBracket, colon, closeBracket, colon, 0x31] 0 5 ≠ -1 := by decide
  exact ⟨(setAuthority_port_iff .plain (by decide) {} rfl (by decide) (by decide)).1 (by decide)
      (by decide),
    (@setAuthority_port_iff .plain 64 (by decide) {} rfl _ 0 5 (by decide) (by decide)).2 0 rfl
      hcolon⟩

/-- `"h:18446744073709551617"`, where the number is 2 ^ 64 + 1. -/
def wrapping : List UInt16 :=
  [0x68, colon, 0x31, 0x38, 0x34, 0x34, 0x36, 0x37, 0x34, 0x34, 0x30, 0x37, 0x33, 0x37, 0x30, 0x39,
    0x35, 0x35, 0x31, 0x36, 0x31, 0x37]

theorem setAuthority_wraps :
    (setAuthority {} .plain 64 wrapping 0 22 .TolerantMode).port = 1 ∧
    (setAuthority {} .plain 64 wrapping 0 22 .TolerantMode).error = none ∧
    ¬ PortExact (slice wrapping 0 22) (setAuthority {} .plain 64 wrapping 0 22 .TolerantMode) := by
  have hport : (setAuthority {} .plain 64 wrapping 0 22 .TolerantMode).port = 1 := rfl
  have herror : (setAuthority {} .plain 64 wrapping 0 22 .TolerantMode).error = none := rfl
  refine ⟨hport, herror, fun h => ?_⟩
  obtain ⟨digits, hdigits, his⟩ := (h.port 1).1 ⟨hport, not_portError herror⟩
  have htext : portText (slice wrapping 0 22) = some (wrapping.drop 2) := rfl
  rw [htext] at hdigits
  obtain rfl := some.inj hdigits
  have hvalue : decimalValue (wrapping.drop 2) = 2 ^ 64 + 1 := rfl
  have := his.value
  omega

end QtBase.UrlAuthority
