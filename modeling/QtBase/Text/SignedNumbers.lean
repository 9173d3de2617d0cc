import QtBase.Io.IPAddressNumbers

/-! `qstrntoll`, and the integers that a `QByteArray` is read as. -/
namespace QtBase.LocaleTools

open QIPAddressUtils List

/-! ## The functions -/

def isDigitForBase (d : UInt8) (base : ℕ) : Bool :=
  if d < 0x30 then false
  else if d.toNat - 0x30 < min base 10 then true
  else if base > 10 then
    let d := d ||| 0x20
    decide (0x61 ≤ d ∧ d.toNat < 0x61 + base - 10)
  else false

/-- `qstrntoll`: the result and how many characters are used. -/
def qstrntoll (begin : List UInt8) (base : ℕ) : ℤ × ℕ :=
  let p := begin.dropWhile ascii_isspace
  let negate := p.head? == some 0x2d
  let p := if negate || p.head? == some 0x2b then p.drop 1 else p
  let (next, base) := scanPrefix p base
  if base = 0 ∨ next.head?.all (fun c => !isDigitForBase c base) then (0, 0)
  else
    let digits := digitsIn base next
    let result := ofDigits base digits
    let used := begin.length - next.length + digits.length
    if result < 2 ^ 63 then (if negate then -result else result, used)
    else if negate ∧ result = 2 ^ 63 then (-2 ^ 63, used)
    else (0, 0)

def checkParsed (num : List UInt8) (used : ℕ) : Bool :=
  if used = 0 then false
  else
    let rest := num.drop used
    let rest := if rest.head?.any (· != 0) then rest.dropWhile ascii_isspace else rest
    !rest.head?.any (· != 0)

/-- `bytearrayToLongLong`, nothing if it is not `ok` -/
def bytearrayToLongLong (num : List UInt8) (base : ℕ) : Option ℤ :=
  let r := qstrntoll num base
  if checkParsed num r.2 then some r.1 else none

/-- `QByteArray::toInt`, nothing if it is not `ok` -/
def toInt (data : List UInt8) : Option ℤ :=
  if data = [] then none
  else
    match bytearrayToLongLong data 10 with
    | none => none
    | some val => if -2147483648 ≤ val ∧ val ≤ 2147483647 then some val else none

/-! ## What is read -/

theorem isDigitForBase_eq (c : UInt8) {base : ℕ} (hbase : base ≤ 36) :
    isDigitForBase c base = decide (digitValue c < base) := by
  have hall : ∀ c : UInt8, ∀ b : Fin 37, isDigitForBase c b = decide (digitValue c < b) := by
    apply forall_octet
    decide +kernel
  exact hall c ⟨base, by omega⟩

theorem digit_starts {c : UInt8} (h : digitValue c < 36) :
    ascii_isspace c = false ∧ c ≠ 0x2b ∧ c ≠ 0x2d := by
  revert c
  apply forall_octet
  decide +kernel

variable {spaces sign p next : List UInt8} {base b : ℕ}

/-- No more white space or sign is taken from the rest. -/
def Starts (sign p : List UInt8) : Prop :=
  sign = [] → ∀ c ∈ p.head?, ascii_isspace c = false ∧ c ≠ 0x2b ∧ c ≠ 0x2d

theorem exists_parts (begin : List UInt8) : ∃ spaces sign p : List UInt8,
    begin = spaces ++ (sign ++ p) ∧ (∀ c ∈ spaces, ascii_isspace c = true) ∧
      (sign = [] ∨ sign = [0x2b] ∨ sign = [0x2d]) ∧ Starts sign p := by
  have hbegin := takeWhile_append_dropWhile (p := ascii_isspace) (l := begin)
  have hspaces : ∀ c ∈ begin.takeWhile ascii_isspace, ascii_isspace c = true :=
    fun c hc => mem_takeWhile_imp hc
  have hhead := List.head?_dropWhile_not ascii_isspace begin
  cases hp : begin.dropWhile ascii_isspace with
  | nil =>
    rw [hp] at hbegin
    exact ⟨_, [], [], hbegin.symm, hspaces, .inl rfl, fun _ c hc => absurd hc (by simp)⟩
  | cons c cs =>
    rw [hp] at hbegin hhead
    by_cases hplus : c = 0x2b
    · exact ⟨_, [c], cs, hbegin.symm, hspaces, by simp [hplus], fun h => absurd h (by simp)⟩
    · by_cases hminus : c = 0x2d
      · exact ⟨_, [c], cs, hbegin.symm, hspaces, by simp [hminus], fun h => absurd h (by simp)⟩
      · refine ⟨_, [], c :: cs, hbegin.symm, hspaces, .inl rfl, fun _ d hd => ?_⟩
        have hd : c = d := Option.some.inj hd
        rw [← hd]
        exact ⟨hhead, hplus, hminus⟩

theorem qstrntoll_parts (hspaces : ∀ c ∈ spaces, ascii_isspace c = true)
    (hsign : sign = [] ∨ sign = [0x2b] ∨ sign = [0x2d]) (hstart : Starts sign p)
    (hscan : scanPrefix p base = (next, b)) (hb : b ≤ 36) {value : ℤ} {used : ℕ} :
    (qstrntoll (spaces ++ (sign ++ p)) base = (value, used) ∧ used ≠ 0) ↔
      b ≠ 0 ∧ digitsIn b next ≠ [] ∧
      value = (if sign = [0x2d] then -(ofDigits b (digitsIn b next) : ℤ)
        else ofDigits b (digitsIn b next)) ∧ -2 ^ 63 ≤ value ∧ value < 2 ^ 63 ∧
      used = (spaces ++ (sign ++ p)).length - next.length + (digitsIn b next).length := by
  have hdrop : (spaces ++ (sign ++ p)).dropWhile ascii_isspace = sign ++ p := by
    rw [dropWhile_append_of_pos hspaces]
    obtain rfl | rfl | rfl := hsign
    · cases p with
      | nil => rfl
      | cons c cs =>
        exact dropWhile_cons_of_neg (by rw [(hstart rfl c rfl).1]; exact Bool.false_ne_true)
    · rfl
    · rfl
  have hminus : ((sign ++ p).head? == some 0x2d) = decide (sign = [0x2d]) := by
    obtain rfl | rfl | rfl := hsign
    · cases p with
      | nil => rfl
      | cons c cs => simp [(hstart rfl c rfl).2.2]
    · rfl
    · rfl
  have hrest : (if ((sign ++ p).head? == some 0x2d || (sign ++ p).head? == some 0x2b) = true
      then (sign ++ p).drop 1 else sign ++ p) = p := by
    obtain rfl | rfl | rfl := hsign
    · cases p with
      | nil => rfl
      | cons c cs => simp [(hstart rfl c rfl).2]
    · rfl
    · rfl
  have hdigits : next.head?.all (fun c => !isDigitForBase c b) = true ↔ digitsIn b next = [] := by
    cases next with
    | nil => simp [digitsIn]
    | cons c cs => simp [digitsIn, takeWhile_cons, isDigitForBase_eq c hb]
  unfold qstrntoll
  dsimp only
  rw [hdrop, hrest, hminus, hscan]
  dsimp only
  simp only [hdigits, decide_eq_true_eq]
  generalize ofDigits b (digitsIn b next) = result
  have hlength : digitsIn b next ≠ [] → (digitsIn b next).length ≠ 0 :=
    fun h => mt length_eq_zero_iff.1 h
  generalize (spaces ++ (sign ++ p)).length - next.length = skipped
  by_cases hnone : b = 0 ∨ digitsIn b next = []
  · rw [if_pos hnone]
    constructor
    · rintro ⟨h, hused⟩
      exact absurd (Prod.mk.inj h).2.symm hused
    · rintro ⟨hb, hnil, -⟩
      exact absurd hnone (not_or.2 ⟨hb, hnil⟩)
  · rw [if_neg hnone]
    obtain ⟨hb0, hnil⟩ := not_or.1 hnone
    have hlen := hlength hnil
    by_cases hneg : sign = [0x2d]
    · simp only [hneg, if_true, true_and, ne_eq, hb0, hnil, not_false_eq_true]
      split
      · rw [Prod.mk.injEq]
        omega
      · split
        · rw [Prod.mk.injEq]
          omega
        · rw [Prod.mk.injEq]
          omega
    · simp only [hneg, if_false, false_and, ne_eq, hb0, hnil, not_false_eq_true, true_and]
      split
      · rw [Prod.mk.injEq]
        omega
      · rw [Prod.mk.injEq]
        omega

/-! ## Numerals -/

/-- What `qstrntoll` reads in base 10. -/
structure Numeral where
  spaces : List UInt8
  sign : List UInt8
  digits : List UInt8
  isSpace : ∀ c ∈ spaces, ascii_isspace c = true
  isSign : sign = [] ∨ sign = [0x2b] ∨ sign = [0x2d]
  isDigit : ∀ c ∈ digits, isAsciiDigit c = true
  ne_nil : digits ≠ []

namespace Numeral

def text (n : Numeral) : List UInt8 := n.spaces ++ (n.sign ++ n.digits)

/-- The value of the digits. -/
def size (n : Numeral) : ℕ := ofDigits 10 (n.digits.map digitValue)

def value (n : Numeral) : ℤ := if n.sign = [0x2d] then -n.size else n.size

end Numeral

theorem digitValue_lt_ten (c : UInt8) : decide (digitValue c < 10) = isAsciiDigit c := by
  revert c
  apply forall_octet
  decide +kernel

theorem scanPrefix_ten (p : List UInt8) : scanPrefix p 10 = (p, 10) := by
  unfold scanPrefix
  cases p with
  | nil => rfl
  | cons c rest =>
    dsimp only
    split
    · rfl
    · split
      · cases rest with
        | nil => rfl
        | cons x digits =>
          dsimp only
          split
          · rfl
          · split <;> rfl
      · rfl

theorem digitsIn_ten (p : List UInt8) :
    digitsIn 10 p = (p.takeWhile isAsciiDigit).map digitValue := by
  unfold digitsIn
  rw [takeWhile_map]
  congr 2
  funext c
  exact digitValue_lt_ten c

namespace Numeral

variable (n : Numeral)

theorem digit_lt : ∀ c ∈ n.digits, digitValue c < 10 := fun c hc =>
  of_decide_eq_true ((digitValue_lt_ten c).trans (n.isDigit c hc))

theorem starts (rest : List UInt8) : Starts n.sign (n.digits ++ rest) := by
  intro _ c hc
  obtain ⟨d, ds, hdigits⟩ := exists_cons_of_ne_nil n.ne_nil
  rw [hdigits] at hc
  have hc : d = c := Option.some.inj hc
  rw [← hc]
  exact digit_starts (lt_trans (n.digit_lt d (by rw [hdigits]; exact mem_cons_self)) (by decide))

theorem qstrntoll_text {rest : List UInt8} (hrest : ∀ c ∈ rest.head?, isAsciiDigit c = false)
    (hsize : n.size < 2 ^ 63) : qstrntoll (n.text ++ rest) 10 = (n.value, n.text.length) := by
  have hdigits : digitsIn 10 (n.digits ++ rest) = n.digits.map digitValue := by
    apply digitsIn_append n.digit_lt
    intro c hc
    have hc := hrest c hc
    rw [← digitValue_lt_ten] at hc
    exact Nat.not_lt.1 (of_decide_eq_false hc)
  have htext : n.text ++ rest = n.spaces ++ (n.sign ++ (n.digits ++ rest)) := by
    unfold text
    rw [append_assoc, append_assoc]
  have hread := @qstrntoll_parts _ _ _ _ _ _ n.isSpace n.isSign (n.starts rest)
    (scanPrefix_ten _) (by decide) n.value n.text.length
  rw [← htext, hdigits] at hread
  have hvalue : n.value = if n.sign = [0x2d] then -(n.size : ℤ) else n.size := rfl
  refine (hread.2 ⟨by decide, by simpa using n.ne_nil, rfl, ?_, ?_, ?_⟩).1
  · rw [hvalue]
    split <;> omega
  · rw [hvalue]
    split <;> omega
  · unfold text
    simp
    omega

end Numeral

theorem exists_numeral {begin : List UInt8} (h : (qstrntoll begin 10).2 ≠ 0) :
    ∃ (n : Numeral) (rest : List UInt8), begin = n.text ++ rest ∧
      (∀ c ∈ rest.head?, isAsciiDigit c = false) ∧
      qstrntoll begin 10 = (n.value, n.text.length) := by
  obtain ⟨spaces, sign, p, rfl, hspaces, hsign, hstart⟩ := exists_parts begin
  generalize hread : qstrntoll (spaces ++ (sign ++ p)) 10 = r at h ⊢
  obtain ⟨value, used⟩ := r
  obtain ⟨-, hne, hvalue, -, -, hused⟩ := (qstrntoll_parts hspaces hsign hstart
    (scanPrefix_ten p) (by decide)).1 ⟨hread, h⟩
  rw [digitsIn_ten] at hne hvalue hused
  let n : Numeral :=
    { spaces := spaces
      sign := sign
      digits := p.takeWhile isAsciiDigit
      isSpace := hspaces
      isSign := hsign
      isDigit := fun c hc => mem_takeWhile_imp hc
      ne_nil := fun hnil => hne (by rw [hnil]; rfl) }
  refine ⟨n, p.dropWhile isAsciiDigit, ?_, fun c hc => ?_, Prod.ext hvalue ?_⟩
  · show spaces ++ (sign ++ p) =
      spaces ++ (sign ++ p.takeWhile isAsciiDigit) ++ p.dropWhile isAsciiDigit
    rw [append_assoc, append_assoc, takeWhile_append_dropWhile]
  · have hhead := List.head?_dropWhile_not isAsciiDigit p
    rw [Option.mem_def.1 hc] at hhead
    exact hhead
  · rw [hused, length_map]
    show _ = (spaces ++ (sign ++ p.takeWhile isAsciiDigit)).length
    simp
    omega

end QtBase.LocaleTools
