import QtBase.Text.SignedNumbers
import Mathlib.Tactic.Ring

/-! The text of an integer in a base from 2 to 36, and what is read in such a base. -/
namespace QtBase.LocaleTools

open QIPAddressUtils List

/-! ## The functions -/

def buffsize : ℕ := 66

/-- `qulltoa2`: the digits are put before `p`, as long as there is room in the buffer. -/
def qulltoa2 : ℕ → List UInt8 → ℕ → ℕ → Option (List UInt8)
  | 0, _, _, _ => none
  | room + 1, p, n, base =>
    let c := n % base
    let n := n / base
    let p := UInt8.ofNat (c + if c < 10 then 0x30 else 0x61 - 10) :: p
    if n ≠ 0 then qulltoa2 room p n base else some p

/-- `QByteArray::setNum`, nothing if the number is not in the buffer. -/
def setNum (n : Int64) (base : ℕ) : Option (List UInt8) :=
  if n < 0 then
    match qulltoa2 buffsize [] ((-(1 + n)).toUInt64 + 1).toNat base with
    | none => none
    | some p => if p.length < buffsize then some (0x2d :: p) else none
  else qulltoa2 buffsize [] n.toUInt64.toNat base

/-- The overload for `qulonglong`. -/
def setNumUnsigned (n : UInt64) (base : ℕ) : Option (List UInt8) :=
  qulltoa2 buffsize [] n.toNat base

/-! ## What a number is -/

/-- The prefix of a number, what follows it and the base it is in. -/
inductive Prefixed (base : ℕ) : List UInt8 → List UInt8 → ℕ → Prop
  | hex {x : UInt8} {next : List UInt8} (hbase : base = 0 ∨ base = 16)
      (hx : x = 0x78 ∨ x = 0x58) : Prefixed base (0x30 :: x :: next) next 16
  | binary {x : UInt8} {next : List UInt8} (hbase : base = 0 ∨ base = 2)
      (hx : x = 0x62 ∨ x = 0x42) : Prefixed base (0x30 :: x :: next) next 2
  | octal {next : List UInt8} (hbase : base = 0)
      (hnext : ∀ x ∈ next.head?, ¬(x = 0x62 ∨ x = 0x42) ∧ ¬(x = 0x78 ∨ x = 0x58)) :
      Prefixed base (0x30 :: next) (0x30 :: next) 8
  | decimal {c : UInt8} {next : List UInt8} (hbase : base = 0) (hdigit : isAsciiDigit c = true)
      (hc : c ≠ 0x30) : Prefixed base (c :: next) (c :: next) 10
  | given {next : List UInt8} (hbase : base ≠ 0)
      (hnext : ∀ x rest, next = 0x30 :: x :: rest →
        ¬(base = 16 ∧ (x = 0x78 ∨ x = 0x58)) ∧ ¬(base = 2 ∧ (x = 0x62 ∨ x = 0x42))) :
      Prefixed base next next base

/-- The value of a text in a base, and how many characters it takes. -/
inductive Reads (base : ℕ) : List UInt8 → ℤ → ℕ → Prop
  | intro {spaces sign p digits rest : List UInt8} {b : ℕ} {value : ℤ}
      (hspaces : ∀ c ∈ spaces, ascii_isspace c = true)
      (hsign : sign = [] ∨ sign = [0x2b] ∨ sign = [0x2d])
      (hscanned : Prefixed base p (digits ++ rest) b)
      (hdigits : digits ≠ [] ∧ ∀ c ∈ digits, digitValue c < b)
      (hrest : ∀ c ∈ rest.head?, b ≤ digitValue c)
      (hvalue : value = if sign = [0x2d] then -(ofDigits b (digits.map digitValue) : ℤ)
        else ofDigits b (digits.map digitValue))
      (hfits : -2 ^ 63 ≤ value ∧ value < 2 ^ 63) :
      Reads base (spaces ++ (sign ++ p)) value ((spaces ++ (sign ++ p)).length - rest.length)

/-! ## Reading -/

variable {base b : ℕ} {p next : List UInt8}

theorem prefix_disjoint {x : UInt8} (hb : x = 0x62 ∨ x = 0x42) : ¬(x = 0x78 ∨ x = 0x58) := by
  obtain rfl | rfl := hb <;> decide

theorem scanPrefix_zero_b {x : UInt8} (hx : x = 0x62 ∨ x = 0x42) :
    scanPrefix (0x30 :: x :: next) base =
      if base = 0 ∨ base = 2 then (next, 2) else (0x30 :: x :: next, base) := by
  by_cases h0 : base = 0
  · simp [scanPrefix, isAsciiDigit, hx, h0]
  · by_cases h2 : base = 2
    · simp [scanPrefix, isAsciiDigit, hx, h2]
    · simp [scanPrefix, isAsciiDigit, hx, h0, h2]

theorem scanPrefix_zero_x {x : UInt8} (hx : x = 0x78 ∨ x = 0x58) :
    scanPrefix (0x30 :: x :: next) base =
      if base = 0 ∨ base = 16 then (next, 16) else (0x30 :: x :: next, base) := by
  have hb := not_or.1 (fun hb => prefix_disjoint hb hx)
  by_cases h0 : base = 0
  · simp [scanPrefix, isAsciiDigit, hx, hb, h0]
  · by_cases h16 : base = 16
    · simp [scanPrefix, isAsciiDigit, hx, hb, h16]
    · simp [scanPrefix, isAsciiDigit, hx, hb, h0, h16]

theorem scanPrefix_zero
    (hnext : ∀ x ∈ next.head?, ¬(x = 0x62 ∨ x = 0x42) ∧ ¬(x = 0x78 ∨ x = 0x58)) :
    scanPrefix (0x30 :: next) base = (0x30 :: next, if base = 0 then 8 else base) := by
  cases next with
  | nil => simp [scanPrefix, isAsciiDigit]
  | cons x rest =>
    obtain ⟨hb, hx⟩ := hnext x rfl
    simp [scanPrefix, isAsciiDigit, hb, hx]

theorem scanPrefix_nonzero {c : UInt8} (hc : c ≠ 0x30) : scanPrefix (c :: next) base =
    (c :: next, if base = 0 ∧ isAsciiDigit c = true then 10 else base) := by
  by_cases hdigit : isAsciiDigit c = true
  · simp [scanPrefix, hdigit, hc]
  · simp [scanPrefix, hdigit]

theorem prefix_cases (p : List UInt8) : p = [] ∨ (∃ c next, c ≠ 0x30 ∧ p = c :: next) ∨
    (∃ next : List UInt8, (∀ x ∈ next.head?, ¬(x = 0x62 ∨ x = 0x42) ∧ ¬(x = 0x78 ∨ x = 0x58)) ∧
      p = 0x30 :: next) ∨
    (∃ x next, (x = 0x62 ∨ x = 0x42) ∧ p = 0x30 :: x :: next) ∨
    ∃ x next, (x = 0x78 ∨ x = 0x58) ∧ p = 0x30 :: x :: next := by
  cases p with
  | nil => exact .inl rfl
  | cons c next =>
    by_cases hc : c = 0x30
    · subst hc
      cases next with
      | nil => exact .inr (.inr (.inl ⟨[], by simp, rfl⟩))
      | cons x rest =>
        by_cases hb : x = 0x62 ∨ x = 0x42
        · exact .inr (.inr (.inr (.inl ⟨x, rest, hb, rfl⟩)))
        · by_cases hx : x = 0x78 ∨ x = 0x58
          · exact .inr (.inr (.inr (.inr ⟨x, rest, hx, rfl⟩)))
          · refine .inr (.inr (.inl ⟨x :: rest, fun y hy => ?_, rfl⟩))
            have hy : x = y := Option.some.inj hy
            exact hy ▸ ⟨hb, hx⟩
    · exact .inr (.inl ⟨c, next, hc, rfl⟩)

theorem prefixed_scanPrefix (hb : (scanPrefix p base).2 ≠ 0) :
    Prefixed base p (scanPrefix p base).1 (scanPrefix p base).2 := by
  obtain rfl | ⟨c, next, hc, rfl⟩ | ⟨next, hnext, rfl⟩ | ⟨x, next, hx, rfl⟩ | ⟨x, next, hx, rfl⟩ :=
    prefix_cases p
  · exact .given hb (by simp)
  · rw [scanPrefix_nonzero hc] at hb ⊢
    by_cases hbase : base = 0
    · by_cases hdigit : isAsciiDigit c = true
      · rw [if_pos ⟨hbase, hdigit⟩]
        exact .decimal hbase hdigit hc
      · rw [if_neg (fun h => hdigit h.2)] at hb
        exact absurd hbase hb
    · rw [if_neg (fun h => hbase h.1)]
      exact .given hbase (fun _ _ h => absurd (cons.inj h).1 hc)
  · rw [scanPrefix_zero hnext]
    split
    · exact .octal ‹_› hnext
    · refine .given ‹_› (fun x rest h => ?_)
      have hx := hnext x (by rw [(cons.inj h).2]; rfl)
      exact ⟨fun h => hx.2 h.2, fun h => hx.1 h.2⟩
  · rw [scanPrefix_zero_b hx]
    by_cases hbase : base = 0 ∨ base = 2
    · rw [if_pos hbase]
      exact .binary hbase hx
    · rw [if_neg hbase]
      refine .given (fun h => hbase (.inl h)) (fun y rest h => ⟨?_, fun h => hbase (.inr h.1)⟩)
      rw [← (cons.inj (cons.inj h).2).1]
      rintro ⟨-, hx'⟩
      exact prefix_disjoint hx hx'
  · rw [scanPrefix_zero_x hx]
    by_cases hbase : base = 0 ∨ base = 16
    · rw [if_pos hbase]
      exact .hex hbase hx
    · rw [if_neg hbase]
      refine .given (fun h => hbase (.inl h)) (fun y rest h => ⟨fun h => hbase (.inr h.1), ?_⟩)
      rw [← (cons.inj (cons.inj h).2).1]
      rintro ⟨-, hx'⟩
      exact prefix_disjoint hx' hx

theorem Prefixed.scanPrefix_eq (h : Prefixed base p next b) :
    scanPrefix p base = (next, b) ∧ b ≠ 0 := by
  cases h with
  | hex hbase hx => exact ⟨by rw [scanPrefix_zero_x hx, if_pos hbase], by decide⟩
  | binary hbase hx => exact ⟨by rw [scanPrefix_zero_b hx, if_pos hbase], by decide⟩
  | octal hbase hnext => exact ⟨by rw [scanPrefix_zero hnext, if_pos hbase], by decide⟩
  | decimal hbase hdigit hc =>
    exact ⟨by rw [scanPrefix_nonzero hc, if_pos ⟨hbase, hdigit⟩], by decide⟩
  | given hbase hgiven =>
    refine ⟨?_, hbase⟩
    obtain rfl | ⟨c, next, hc, rfl⟩ | ⟨next, hnext, rfl⟩ | ⟨x, next, hx, rfl⟩ |
      ⟨x, next, hx, rfl⟩ := prefix_cases p
    · rfl
    · rw [scanPrefix_nonzero hc, if_neg (fun h => hbase h.1)]
    · rw [scanPrefix_zero hnext, if_neg hbase]
    · rw [scanPrefix_zero_b hx, if_neg (not_or.2 ⟨hbase, fun h => (hgiven x _ rfl).2 ⟨h, hx⟩⟩)]
    · rw [scanPrefix_zero_x hx, if_neg (not_or.2 ⟨hbase, fun h => (hgiven x _ rfl).1 ⟨h, hx⟩⟩)]

theorem Prefixed.base_le (h : Prefixed base p next b) (hbase : base ≤ 36) : b ≤ 36 := by
  cases h <;> omega

theorem Prefixed.head (h : Prefixed base p next b) : p.head? = some 0x30 ∨ p = next := by
  cases h with
  | hex | binary | octal => exact .inl rfl
  | decimal | given => exact .inr rfl

theorem Prefixed.length_le (h : Prefixed base p next b) : next.length ≤ p.length := by
  cases h with
  | hex | binary =>
    simp only [length_cons]
    omega
  | octal | decimal | given => exact le_rfl

theorem qstrntoll_iff (hbase : base ≤ 36) {begin : List UInt8} {value : ℤ} {used : ℕ} :
    (qstrntoll begin base = (value, used) ∧ used ≠ 0) ↔ Reads base begin value used := by
  constructor
  · intro h
    obtain ⟨spaces, sign, p, rfl, hspaces, hsign, hstart⟩ := exists_parts begin
    by_cases hb0 : (scanPrefix p base).2 = 0
    · have hparts := (qstrntoll_parts hspaces hsign hstart (Prod.mk.eta).symm
        (by rw [hb0]; decide)).1 h
      exact absurd hb0 hparts.1
    · have hscanned := prefixed_scanPrefix hb0
      obtain ⟨-, hne, hvalue, hleast, hgreatest, hused⟩ := (qstrntoll_parts hspaces hsign hstart
        (Prod.mk.eta).symm (hscanned.base_le hbase)).1 h
      generalize (scanPrefix p base).1 = next at *
      generalize (scanPrefix p base).2 = b at *
      have hmap : digitsIn b next =
          (next.takeWhile fun c => decide (digitValue c < b)).map digitValue := takeWhile_map ..
      have hnext := @takeWhile_append_dropWhile _ (fun c => decide (digitValue c < b)) next
      rw [hmap] at hne hvalue hused
      rw [← hnext] at hscanned
      have hreads := Reads.intro hspaces hsign hscanned
        ⟨fun hnil => hne (by rw [hnil]; rfl), fun c hc => by simpa using mem_takeWhile_imp hc⟩
        (fun c hc => ?_) hvalue ⟨hleast, hgreatest⟩
      · have hlen := hscanned.length_le
        rw [hnext] at hlen
        have hparts := congrArg List.length hnext
        rw [length_append] at hparts
        rw [hused, length_map]
        convert hreads using 1
        simp only [length_append]
        omega
      · have hhead := List.head?_dropWhile_not (fun c => decide (digitValue c < b)) next
        rw [Option.mem_def.1 hc] at hhead
        exact Nat.not_lt.1 (of_decide_eq_false hhead)
  · rintro ⟨hspaces, hsign, hscanned, hdigits, hrest, hvalue, hfits⟩
    rename_i spaces sign p digits rest b
    obtain ⟨hscan, hb⟩ := hscanned.scanPrefix_eq
    have hle := hscanned.base_le hbase
    have hstart : Starts sign p := by
      intro _ c hc
      obtain ⟨d, ds, rfl⟩ := exists_cons_of_ne_nil hdigits.1
      obtain hzero | rfl := hscanned.head
      · rw [hzero] at hc
        exact Option.some.inj hc ▸ (by decide)
      · exact Option.some.inj hc ▸
          digit_starts (lt_of_lt_of_le (hdigits.2 d mem_cons_self) hle)
    rw [qstrntoll_parts hspaces hsign hstart hscan hle, digitsIn_append hdigits.2 hrest]
    refine ⟨hb, by simpa using hdigits.1, hvalue, hfits.1, hfits.2, ?_⟩
    have hlen := hscanned.length_le
    simp only [length_append, length_map] at hlen ⊢
    omega

/-! ## Writing -/

theorem digitValue_char {c : ℕ} (hc : c < 36) :
    digitValue (UInt8.ofNat (c + if c < 10 then 0x30 else 0x61 - 10)) = c ∧
      (UInt8.ofNat (c + if c < 10 then 0x30 else 0x61 - 10) = 0x30 ↔ c = 0) := by
  have hall : ∀ c : Fin 36,
      digitValue (UInt8.ofNat (c + if c.val < 10 then 0x30 else 0x61 - 10)) = c ∧
        (UInt8.ofNat (c + if c.val < 10 then 0x30 else 0x61 - 10) = 0x30 ↔ c.val = 0) := by
    decide
  exact hall ⟨c, hc⟩

/-- What the digits of a number are, without a zero in front. -/
structure Digits (base n : ℕ) (digits : List UInt8) : Prop where
  ne_nil : digits ≠ []
  lt : ∀ c ∈ digits, digitValue c < base
  value : ofDigits base (digits.map digitValue) = n
  zero : digits.head? = some 0x30 → digits = [0x30]

theorem qulltoa2_eq (hlow : 2 ≤ base) (hhigh : base ≤ 36) (bits : ℕ) (hbits : bits ≠ 0) :
    ∀ (room n : ℕ) (p : List UInt8), bits ≤ room → n < 2 ^ bits →
      ∃ digits, qulltoa2 room p n base = some (digits ++ p) ∧ digits.length ≤ bits ∧
        Digits base n digits := by
  induction bits with
  | zero => exact absurd rfl hbits
  | succ bits ih =>
    intro room n p hroom hn
    obtain ⟨room, rfl⟩ := Nat.exists_eq_succ_of_ne_zero (show room ≠ 0 by omega)
    have hc : n % base < base := Nat.mod_lt _ (by omega)
    obtain ⟨hvalue, hzero⟩ := digitValue_char (lt_of_lt_of_le hc hhigh)
    rw [qulltoa2]
    generalize UInt8.ofNat (n % base + if n % base < 10 then 0x30 else 0x61 - 10) = d at *
    have hdiv := Nat.div_add_mod n base
    by_cases hrest : n / base = 0
    · refine ⟨[d], by rw [if_neg (not_not.2 hrest)]; rfl, by simp, by simp, ?_, ?_, ?_⟩
      · simpa [hvalue] using hc
      · simp [ofDigits, hvalue]
        rw [hrest] at hdiv
        omega
      · simp
    · have hhalf : n / base < 2 ^ bits := by
        rw [Nat.div_lt_iff_lt_mul (by omega)]
        calc n < 2 ^ bits * 2 := by rw [← Nat.pow_succ]; exact hn
          _ ≤ 2 ^ bits * base := Nat.mul_le_mul_left _ hlow
      have hbits : bits ≠ 0 := by
        rintro rfl
        exact hrest (Nat.lt_one_iff.1 hhalf)
      obtain ⟨digits, hdigits, hlen, h⟩ := ih hbits room (n / base) (d :: p) (by omega) hhalf
      rw [if_pos hrest, hdigits]
      refine ⟨digits ++ [d], by simp, by simpa using hlen, by simp, ?_, ?_, ?_⟩
      · intro c hcmem
        obtain hcmem | hcmem := mem_append.1 hcmem
        · exact h.lt c hcmem
        · rw [mem_singleton.1 hcmem, hvalue]
          exact hc
      · have hval := h.value
        unfold ofDigits at hval ⊢
        rw [map_append, foldl_append, hval]
        simp [hvalue]
        rw [Nat.mul_comm]
        exact hdiv
      · intro hhead
        rw [head?_append_of_ne_nil _ h.ne_nil] at hhead
        have hval := h.value
        rw [h.zero hhead] at hval
        exact absurd (hval.symm.trans (show 0 * base + 0 = 0 by omega)) hrest

theorem toInt_eq (n : Int64) : n.toInt = if 2 * n.toUInt64.toNat < 2 ^ 64
    then (n.toUInt64.toNat : ℤ) else n.toUInt64.toNat - 2 ^ 64 :=
  BitVec.toInt_eq_toNat_cond n.toBitVec

theorem toNat_negative {n : Int64} (h : n < 0) :
    (((-(1 + n)).toUInt64 + 1).toNat : ℤ) = -n.toInt := by
  have hneg : (-(1 + n)).toUInt64 + 1 = -n.toUInt64 := by
    rw [Int64.toUInt64_neg, Int64.toUInt64_add, show (1 : Int64).toUInt64 = 1 from rfl]
    grind
  have hlt : n.toInt < 0 := Int64.lt_iff_toInt_lt.1 h
  have hbound := n.toUInt64.toNat_lt
  rw [hneg, UInt64.toNat_neg, show UInt64.size = 2 ^ 64 from rfl]
  rw [toInt_eq] at hlt ⊢
  omega

theorem toNat_nonneg {n : Int64} (h : ¬n < 0) : (n.toUInt64.toNat : ℤ) = n.toInt := by
  have hle : ¬n.toInt < 0 := fun hlt => h (Int64.lt_iff_toInt_lt.2 hlt)
  have hbound := n.toUInt64.toNat_lt
  rw [toInt_eq] at hle ⊢
  split at hle <;> omega

variable {n : ℕ} {digits sign : List UInt8}

namespace Digits

theorem prefixed (h : Digits base n digits) (hbase : base ≠ 0) :
    Prefixed base digits digits base := by
  refine .given hbase (fun x rest hdigits => ?_)
  have hzero := h.zero (by rw [hdigits]; rfl)
  rw [hzero] at hdigits
  exact absurd hdigits (by simp)

theorem qstrntoll (h : Digits base n digits) (hlow : 2 ≤ base) (hhigh : base ≤ 36)
    (hsign : sign = [] ∨ sign = [0x2d]) {value : ℤ}
    (hvalue : value = if sign = [0x2d] then -(n : ℤ) else n)
    (hfits : -2 ^ 63 ≤ value ∧ value < 2 ^ 63) :
    LocaleTools.qstrntoll (sign ++ digits) base = (value, (sign ++ digits).length) := by
  have hreads := Reads.intro (fun c hc => absurd hc (not_mem_nil (a := c)))
    (hsign.imp_right .inr) (by rw [append_nil]; exact h.prefixed (by omega)) ⟨h.ne_nil, h.lt⟩
    (fun c hc => absurd hc (by simp)) (by rw [h.value]; exact hvalue) hfits
  simpa using ((qstrntoll_iff hhigh).2 hreads).1

theorem qstrntoull (h : Digits base n digits) (hlow : 2 ≤ base) (hhigh : base ≤ 36)
    (hn : n < 2 ^ 64) :
    QIPAddressUtils.qstrntoull digits base = (UInt64.ofNat n, digits.length) := by
  obtain ⟨c, cs, hcons⟩ := exists_cons_of_ne_nil h.ne_nil
  have hc := digit_starts (lt_of_lt_of_le (h.lt c (by rw [hcons]; exact mem_cons_self)) hhigh)
  have hread := @from_chars_digits base digits [] h.lt (by simp) h.ne_nil
    (by rw [h.value]; exact hn)
  rw [append_nil, h.value] at hread
  exact qstrntoull_eq (by rw [hcons]; rfl) hc.1 hc.2.2 hc.2.1 (by omega)
    ((h.prefixed (by omega)).scanPrefix_eq).1 hread

end Digits

theorem setNum_qstrntoll (hlow : 2 ≤ base) (hhigh : base ≤ 36) (n : Int64) :
    ∃ text, setNum n base = some text ∧ qstrntoll text base = (n.toInt, text.length) := by
  have hleast := n.le_toInt
  have hgreatest := n.toInt_lt
  unfold setNum
  split
  · have hvalue := toNat_negative ‹_›
    obtain ⟨digits, hwritten, hlen, hdigits⟩ := qulltoa2_eq hlow hhigh 64 (by decide)
      buffsize ((-(1 + n)).toUInt64 + 1).toNat [] (by decide) (UInt64.toNat_lt _)
    rw [append_nil] at hwritten
    rw [hwritten]
    refine ⟨0x2d :: digits, if_pos (by unfold buffsize; omega), ?_⟩
    exact hdigits.qstrntoll hlow hhigh (.inr rfl) (by rw [if_pos rfl]; omega) (by omega)
  · have hvalue := toNat_nonneg ‹_›
    obtain ⟨digits, hwritten, -, hdigits⟩ := qulltoa2_eq hlow hhigh 64 (by decide)
      buffsize n.toUInt64.toNat [] (by decide) (UInt64.toNat_lt _)
    rw [append_nil] at hwritten
    exact ⟨digits, hwritten, hdigits.qstrntoll hlow hhigh (.inl rfl)
      (by rw [if_neg (by simp)]; omega) (by omega)⟩

theorem setNum_qstrntoull (hlow : 2 ≤ base) (hhigh : base ≤ 36) (n : UInt64) :
    ∃ text, setNumUnsigned n base = some text ∧ qstrntoull text base = (n, text.length) := by
  obtain ⟨digits, hwritten, -, hdigits⟩ := qulltoa2_eq hlow hhigh 64 (by decide)
    buffsize n.toNat [] (by decide) n.toNat_lt
  rw [append_nil] at hwritten
  have hread := hdigits.qstrntoull hlow hhigh n.toNat_lt
  rw [UInt64.ofNat_toNat] at hread
  exact ⟨digits, hwritten, hread⟩

/-- An integer is read back from its text in every base, and `qstrntoll` takes exactly the numbers
that fit. -/
theorem setNum_round_trip (base : ℕ) (hhigh : base ≤ 36) :
    (2 ≤ base → ∀ n : Int64,
      ∃ text, setNum n base = some text ∧ qstrntoll text base = (n.toInt, text.length)) ∧
    (2 ≤ base → ∀ n : UInt64,
      ∃ text, setNumUnsigned n base = some text ∧ qstrntoull text base = (n, text.length)) ∧
    (base = 0 ∨ 2 ≤ base → ∀ (begin : List UInt8) (value : ℤ) (used : ℕ),
      (qstrntoll begin base = (value, used) ∧ used ≠ 0) ↔ Reads base begin value used) :=
  ⟨fun hlow => setNum_qstrntoll hlow hhigh, fun hlow => setNum_qstrntoull hlow hhigh,
    fun _ _ _ _ => qstrntoll_iff hhigh⟩

/-- -255 in base 16, 255 in base 2, and "-0x8000000000000000". -/
theorem setNum_round_trip_hex :
    (∃ text, setNum (-255) 16 = some text ∧ qstrntoll text 16 = (-255, text.length)) ∧
    (∃ text, setNumUnsigned 255 2 = some text ∧ qstrntoull text 2 = (255, text.length)) ∧
    Reads 0 (0x2d :: 0x30 :: 0x78 :: 0x38 :: replicate 15 0x30) (-2 ^ 63) 19 :=
  ⟨(setNum_round_trip 16 (by decide)).1 (by decide) (-255),
    (setNum_round_trip 2 (by decide)).2.1 (by decide) 255,
    ((setNum_round_trip 0 (by decide)).2.2 (.inl rfl) _ _ _).1
      ⟨by decide +kernel, by decide⟩⟩

end QtBase.LocaleTools
