import Mathlib.Data.List.GetD
import QtBase.Core.Exec
import QtBase.Io.IPAddress
import Mathlib.Algebra.Order.Ring.Int

/-! `parseIp6` with its accesses: every read of the buffer and every write to the address is at an
index, and `int` arithmetic stays in its range. -/
namespace QtBase

open List

namespace QIPAddressUtils

namespace InBuffer

variable (buffer : List UInt8)

/-- The character at an index, which has to be in the buffer. -/
def read (i : ℤ) : Exec UInt8 := do
  qAssert (0 ≤ i ∧ i < buffer.length)
  return buffer.getD i.toNat 0

/-- The result of arithmetic on `int`. -/
def int (n : ℤ) : Exec ℤ := do
  qAssert (-2 ^ 31 ≤ n ∧ n < 2 ^ 31)
  return n

/-! ## Numbers -/

/-- The loop of `qstrntoull` that skips spaces. -/
def skipSpaces (stop : ℕ) : ℕ → ℕ → Exec ℕ
  | 0, _ => .error .diverge
  | rounds + 1, p =>
    if p < stop then do
      let c ← read buffer p
      if ascii_isspace c then skipSpaces stop rounds (p + 1) else return p
    else return p

def scanPrefix (stop p base : ℕ) : Exec (ℕ × ℕ) :=
  if p < stop then do
    let c ← read buffer p
    if !isAsciiDigit c then return (p, base)
    else if c = 0x30 then
      if p + 1 < stop then do
        let x ← read buffer (p + 1 : ℕ)
        if x = 0x62 ∨ x = 0x42 then
          let base := if base = 0 then 2 else base
          return (if base = 2 then p + 2 else p, base)
        else if x = 0x78 ∨ x = 0x58 then
          let base := if base = 0 then 16 else base
          return (if base = 16 then p + 2 else p, base)
        else return (p, if base = 0 then 8 else base)
      else return (p, if base = 0 then 8 else base)
    else return (p, if base = 0 then 10 else base)
  else return (p, base)

/-- The digits that `std::from_chars` finds. -/
def digitsIn (base stop : ℕ) : ℕ → ℕ → Exec (List ℕ)
  | 0, _ => .error .diverge
  | rounds + 1, p =>
    if p < stop then do
      let c ← read buffer p
      if digitValue c < base then do
        let digits ← digitsIn base stop rounds (p + 1)
        return digitValue c :: digits
      else return []
    else return []

def from_chars (p stop base : ℕ) : Exec (Option (UInt64 × ℕ)) := do
  let digits ← digitsIn buffer base stop (stop - p + 1) p
  if digits = [] then return none
  else if ofDigits base digits < 2 ^ 64 then
    return some (UInt64.ofNat (ofDigits base digits), digits.length)
  else return none

def qstrntoull (begin size base : ℕ) : Exec (UInt64 × ℕ) := do
  let stop := begin + size
  let p ← skipSpaces buffer stop (size + 1) begin
  if p ≥ stop then return (0, 0)
  else do
    let c ← read buffer p
    if c = 0x2d then return (0, 0)
    else do
      let (next, base) ← scanPrefix buffer stop (if c = 0x2b then p + 1 else p) base
      if base = 0 ∨ next ≥ stop then return (0, 0)
      else do
        match ← from_chars buffer next stop base with
        | none => return (0, 0)
        | some (result, used) => return (result, next + used - begin)

/-! ## IPv4 -/

/-- `qstrlen`, by the index of the terminator. -/
def qstrlen : ℕ → ℕ → Exec ℕ
  | 0, _ => .error .diverge
  | rounds + 1, p => do
    let c ← read buffer p
    if c = 0 then return p else qstrlen rounds (p + 1)

/-- Whether a field starts with a zero that is not all of it. -/
def leadingZero (ptr : ℕ) : Exec Bool := do
  let c ← read buffer ptr
  if c = 0x30 then do
    let d ← read buffer (ptr + 1 : ℕ)
    return d != 0x2e && d != 0
  else return false

/-- The loop of `parseIp4Internal`. -/
def parseIp4Loop (acceptLeadingZero : Bool) (stop : ℕ) : ℕ → ℕ → ℕ → UInt32 → Exec (UInt32 × Bool)
  | 0, _, _, _ => .error .diverge
  | rounds + 1, dotCount, ptr, address =>
    if dotCount < 4 then do
      if ← (if acceptLeadingZero then return false else leadingZero buffer ptr) then
        return (address, false)
      else do
        let (ll, used) ← qstrntoull buffer ptr (stop - ptr) 0
        let x := ll.toUInt32
        if used = 0 ∨ ll ≠ x.toUInt64 then return (address, false)
        else do
          let next ← read buffer (ptr + used : ℕ)
          let byte := next = 0x2e ∨ dotCount = 3
          if byte ∧ x &&& ~~~0xff ≠ 0 then return (address, false)
          else if ¬byte ∧ dotCount = 2 ∧ x &&& ~~~0xffff ≠ 0 then return (address, false)
          else if ¬byte ∧ dotCount = 1 ∧ x &&& ~~~0xffffff ≠ 0 then return (address, false)
          else
            let address :=
              if byte then address <<< 8
              else if dotCount = 2 then address <<< 16
              else if dotCount = 1 then address <<< 24
              else address
            let address := address ||| x
            if dotCount = 3 ∨ next = 0 then return (address, next == 0)
            else if next ≠ 0x2e then return (address, false)
            else parseIp4Loop acceptLeadingZero stop rounds (dotCount + 1) (ptr + used + 1) address
    else return (address, false)

def parseIp4Internal (ptr : ℕ) (acceptLeadingZero : Bool) : Exec (UInt32 × Bool) := do
  let stop ← qstrlen buffer (buffer.length + 1) ptr
  parseIp4Loop buffer acceptLeadingZero stop 5 0 ptr 0

/-! ## IPv6 -/

/-- The loop that counts colons and dots. -/
def countChars : ℕ → ℕ → ℤ → ℤ → Exec (ℤ × ℤ)
  | 0, _, _, _ => .error .diverge
  | rounds + 1, ptr, colonCount, dotCount => do
    let c ← read buffer ptr
    if c = 0 then return (colonCount, dotCount)
    else do
      let colonCount ← (if c = 0x3a then int (colonCount + 1) else return colonCount)
      let dotCount ← (if c = 0x2e then int (dotCount + 1) else return dotCount)
      countChars rounds (ptr + 1) colonCount dotCount

/-- Whether there are colons at both of two places. -/
def doubleColon (i : ℤ) : Exec Bool := do
  let c ← read buffer i
  if c = 0x3a then do
    let d ← read buffer (i + 1)
    return d == 0x3a
  else return false

/-- `address[pos] = v` -/
def write (address : List UInt8) (pos : ℤ) (v : UInt8) : Exec (List UInt8) := do
  qAssert (0 ≤ pos ∧ pos < 16)
  return address.set pos.toNat v

/-- The loop of `parseIp6`: the address, and the index that is returned, or nothing if it is null;
`length` is the one of the text. -/
def parseIp6Loop (length : ℕ) (colonCount : ℤ) :
    ℕ → ℕ → ℤ → ℤ → List UInt8 → Exec (List UInt8 × Option ℕ)
  | 0, _, _, _, _ => .error .diverge
  | rounds + 1, ptr, pos, zeroWordsToFill, address =>
    if pos < 15 then do
      let c ← read buffer ptr
      if c = 0x3a then
        if zeroWordsToFill < 1 then return (address, some ptr)
        else do
          let atEnd ← (if pos = 0 then return true
            else do
              let last ← int (colonCount * 2)
              return decide (pos = last))
          let double ← (if atEnd then doubleColon buffer ptr else return true)
          if !double then return (address, some ptr)
          else do
            let ptr := if atEnd then ptr + 1 else ptr
            let zeros ← int (zeroWordsToFill * 2)
            let pos ← int (pos + zeros)
            parseIp6Loop length colonCount rounds (ptr + 1) pos 0 address
      else do
        let (ll, used) ← qstrntoull buffer ptr (buffer.length - ptr) 16
        let x := ll.toUInt16
        if used = 0 ∨ used > 4 then return (address, some ptr)
        else do
          let next ← read buffer (ptr + used : ℕ)
          if next = 0x2e then
            if pos ≠ 12 then return (address, some ptr)
            else do
              let (ip4, ok) ← parseIp4Internal buffer ptr false
              if !ok then return (address, some ptr)
              else do
                let address ← write address 12 (ip4 >>> 24).toUInt8
                let address ← write address 13 (ip4 >>> 16).toUInt8
                let address ← write address 14 (ip4 >>> 8).toUInt8
                let address ← write address 15 ip4.toUInt8
                return (address, none)
          else do
            let address ← write address pos (x >>> 8).toUInt8
            let pos ← int (pos + 1)
            let address ← write address pos (x &&& 0xff).toUInt8
            let pos ← int (pos + 1)
            if next = 0 then return (address, if pos = 16 then none else some length)
            else if next ≠ 0x3a then return (address, some (ptr + used))
            else parseIp6Loop length colonCount rounds (ptr + used + 1) pos zeroWordsToFill address
    else return (address, if pos = 16 then none else some length)

/-- `parseIp6`: the address, and the index that is returned, or nothing if it is null. -/
def parseIp6 (text : List UInt16) : Exec (List UInt8 × Option ℕ) :=
  match checkedToAscii text with
  | .error i => return (List.replicate 16 0, some i)
  | .ok buffer => do
    let (colonCount, dotCount) ← countChars buffer (buffer.length + 1) 0 0 0
    let address := List.replicate 16 0
    if dotCount ≠ 0 ∧ dotCount ≠ 3 then return (address, some text.length)
    else if colonCount = 2 ∧ text.length = 2 then return (address, none)
    else do
      let atStart ← doubleColon buffer 0
      let atEnd ← (if atStart then return true else doubleColon buffer ((text.length : ℤ) - 2))
      if !atEnd && (decide (colonCount < 2) || decide (colonCount > 7)) then
        return (address, some text.length)
      else do
        let zeroWordsToFill ← int ((if atEnd then 9 else 8) - colonCount)
        let zeroWordsToFill ← (if dotCount ≠ 0 then int (zeroWordsToFill - 1)
          else return zeroWordsToFill)
        parseIp6Loop buffer text.length colonCount buffer.length 0 0 zeroWordsToFill address

/-! ## What is read -/

/-- The characters from an index to another. -/
def upTo (stop p : ℕ) : List UInt8 := (buffer.take stop).drop p

variable {buffer} {stop p : ℕ}

theorem read_eq {i : ℕ} (h : i < buffer.length) : read buffer i = .ok (buffer.getD i 0) := by
  unfold read
  rw [qAssert_pos ⟨Int.natCast_nonneg i, by omega⟩]
  rfl

theorem int_eq {n : ℤ} (h : -2 ^ 31 ≤ n ∧ n < 2 ^ 31) : int n = .ok n := by
  unfold int
  rw [qAssert_pos h]
  rfl

theorem length_upTo (hstop : stop ≤ buffer.length) : (upTo buffer stop p).length = stop - p := by
  unfold upTo
  rw [length_drop, length_take, Nat.min_eq_left hstop]

theorem upTo_nil (h : stop ≤ p) : upTo buffer stop p = [] := by
  unfold upTo
  simp
  omega

theorem upTo_cons (hstop : stop ≤ buffer.length) (h : p < stop) :
    upTo buffer stop p = buffer.getD p 0 :: upTo buffer stop (p + 1) := by
  unfold upTo
  rw [drop_eq_getElem_cons (by rw [length_take]; omega), getElem_take,
    getD_eq_getElem _ _ (by omega)]

theorem upTo_eq_nil_iff (hstop : stop ≤ buffer.length) : upTo buffer stop p = [] ↔ stop ≤ p := by
  rw [← length_eq_zero_iff, length_upTo hstop]
  omega

variable {rounds : ℕ}

theorem skipSpaces_eq (hstop : stop ≤ buffer.length) (hrounds : stop < p + rounds)
    (hp : p ≤ stop) : ∃ p', skipSpaces buffer stop rounds p = .ok p' ∧ p ≤ p' ∧ p' ≤ stop ∧
      upTo buffer stop p' = (upTo buffer stop p).dropWhile ascii_isspace := by
  induction rounds generalizing p with
  | zero => omega
  | succ rounds ih =>
    unfold skipSpaces
    by_cases hlt : p < stop
    · rw [if_pos hlt, read_eq (by omega), ok_bind, upTo_cons hstop hlt, dropWhile_cons]
      by_cases hspace : ascii_isspace (buffer.getD p 0) = true
      · obtain ⟨p', hskip, hle, hle', heq⟩ := ih (p := p + 1) (by omega) hlt
        rw [if_pos hspace, if_pos hspace]
        exact ⟨p', hskip, by omega, hle', heq⟩
      · rw [if_neg hspace, if_neg hspace, ← upTo_cons hstop hlt]
        exact ⟨p, rfl, Nat.le_refl p, hp, rfl⟩
    · rw [if_neg hlt]
      refine ⟨p, rfl, Nat.le_refl p, hp, ?_⟩
      rw [upTo_nil (Nat.le_of_not_lt hlt), dropWhile_nil]

theorem scanPrefix_eq (hstop : stop ≤ buffer.length) (base : ℕ) :
    ∃ next, scanPrefix buffer stop p base =
        .ok (next, (QIPAddressUtils.scanPrefix (upTo buffer stop p) base).2) ∧
      p ≤ next ∧ (p ≤ stop → next ≤ stop) ∧
      upTo buffer stop next = (QIPAddressUtils.scanPrefix (upTo buffer stop p) base).1 := by
  unfold scanPrefix
  by_cases hlt : p < stop
  · rw [if_pos hlt, read_eq (by omega), ok_bind]
    rw [show QIPAddressUtils.scanPrefix (upTo buffer stop p) base =
      QIPAddressUtils.scanPrefix (buffer.getD p 0 :: upTo buffer stop (p + 1)) base by
        rw [upTo_cons hstop hlt]]
    have hback := upTo_cons hstop hlt
    generalize buffer.getD p 0 = c at hback ⊢
    unfold QIPAddressUtils.scanPrefix
    dsimp only
    by_cases hdigit : (!isAsciiDigit c) = true
    · rw [if_pos hdigit, if_pos hdigit]
      exact ⟨p, rfl, Nat.le_refl p, id, hback⟩
    rw [if_neg hdigit, if_neg hdigit]
    by_cases hzero : c = 0x30
    · rw [if_pos hzero, if_pos hzero]
      by_cases hlt' : p + 1 < stop
      · rw [if_pos hlt', read_eq (by omega), ok_bind, upTo_cons hstop hlt']
        rw [upTo_cons hstop hlt'] at hback
        generalize buffer.getD (p + 1) 0 = x at hback ⊢
        dsimp only
        split_ifs
        all_goals first
          | exact ⟨p, rfl, Nat.le_refl p, id, hback⟩
          | exact ⟨p + 2, rfl, by omega, fun _ => hlt', rfl⟩
      · rw [if_neg hlt', upTo_nil (p := p + 1) (by omega)]
        rw [upTo_nil (p := p + 1) (by omega)] at hback
        exact ⟨p, rfl, Nat.le_refl p, id, hback⟩
    · rw [if_neg hzero, if_neg hzero]
      exact ⟨p, rfl, Nat.le_refl p, id, hback⟩
  · rw [if_neg hlt, upTo_nil (Nat.le_of_not_lt hlt)]
    exact ⟨p, rfl, Nat.le_refl p, id, upTo_nil (Nat.le_of_not_lt hlt)⟩

theorem digitsIn_eq (hstop : stop ≤ buffer.length) (base : ℕ)
    (hrounds : stop - p < rounds) : digitsIn buffer base stop rounds p =
      .ok (QIPAddressUtils.digitsIn base (upTo buffer stop p)) := by
  induction rounds generalizing p with
  | zero => omega
  | succ rounds ih =>
    unfold digitsIn QIPAddressUtils.digitsIn
    by_cases hlt : p < stop
    · rw [if_pos hlt, read_eq (by omega), ok_bind, upTo_cons hstop hlt, map_cons,
        takeWhile_cons]
      by_cases hdigit : digitValue (buffer.getD p 0) < base
      · rw [if_pos hdigit, if_pos (decide_eq_true hdigit), ih (by omega)]
        rfl
      · rw [if_neg hdigit, if_neg fun h => hdigit (of_decide_eq_true h)]
        rfl
    · rw [if_neg hlt, upTo_nil (Nat.le_of_not_lt hlt)]
      rfl

theorem from_chars_eq (hstop : stop ≤ buffer.length) (base : ℕ) : from_chars buffer p stop base =
    .ok (QIPAddressUtils.from_chars (upTo buffer stop p) base) := by
  unfold from_chars QIPAddressUtils.from_chars
  rw [digitsIn_eq hstop base (by omega), ok_bind]
  dsimp only
  split_ifs <;> rfl

theorem qstrntoull_eq {begin size : ℕ} (hstop : begin + size ≤ buffer.length) (base : ℕ) :
    qstrntoull buffer begin size base =
      .ok (QIPAddressUtils.qstrntoull (upTo buffer (begin + size) begin) base) := by
  obtain ⟨p, hskip, hle, hle', heq⟩ := skipSpaces_eq hstop
    (by omega : begin + size < begin + (size + 1)) (by omega)
  unfold qstrntoull QIPAddressUtils.qstrntoull
  dsimp only
  rw [hskip, ok_bind, ← heq]
  by_cases hnil : p ≥ begin + size
  · rw [if_pos hnil, upTo_nil hnil, if_pos (Or.inl rfl)]
    rfl
  have hlt : p < begin + size := by omega
  rw [if_neg hnil, read_eq (by omega), ok_bind, upTo_cons hstop hlt]
  have hback := upTo_cons hstop hlt
  generalize buffer.getD p 0 = c at hback ⊢
  rw [List.head?_cons, List.drop_succ_cons, List.drop_zero]
  by_cases hminus : c = 0x2d
  · rw [if_pos hminus, if_pos (Or.inr (congrArg some hminus))]
    rfl
  rw [if_neg hminus, if_neg (not_or.mpr ⟨List.cons_ne_nil _ _,
    fun h => hminus (Option.some.inj h)⟩)]
  obtain ⟨start, hstart, hplus⟩ : ∃ start, (if c = 0x2b then p + 1 else p) = start ∧
      (if some c = some 0x2b then upTo buffer (begin + size) (p + 1)
        else c :: upTo buffer (begin + size) (p + 1)) = upTo buffer (begin + size) start := by
    by_cases hplus : c = 0x2b
    · exact ⟨p + 1, if_pos hplus, if_pos (congrArg some hplus)⟩
    · exact ⟨p, if_neg hplus, by rw [if_neg fun h => hplus (Option.some.inj h), hback]⟩
  have hstart' : p ≤ start ∧ start ≤ begin + size := by
    split_ifs at hstart <;> omega
  rw [hstart, hplus]
  obtain ⟨next, hscan, hle, hle', heq'⟩ := scanPrefix_eq (p := start) hstop base
  rw [hscan, ok_bind]
  generalize QIPAddressUtils.scanPrefix (upTo buffer (begin + size) start) base = r at heq' ⊢
  obtain ⟨digits, base'⟩ := r
  dsimp only at heq' ⊢
  rw [← heq']
  have hiff : base' = 0 ∨ next ≥ begin + size ↔
      base' = 0 ∨ upTo buffer (begin + size) next = [] :=
    or_congr_right (upTo_eq_nil_iff hstop).symm
  by_cases hnone : base' = 0 ∨ next ≥ begin + size
  · rw [if_pos hnone, if_pos (hiff.mp hnone)]
    rfl
  rw [if_neg hnone, if_neg (mt hiff.mpr hnone), from_chars_eq hstop, ok_bind]
  cases QIPAddressUtils.from_chars (upTo buffer (begin + size) next) base' with
  | none => rfl
  | some r =>
    obtain ⟨result, used⟩ := r
    dsimp only
    rw [length_upTo hstop, length_upTo hstop]
    exact congrArg (fun n => Except.ok (result, n)) (by omega)

/-! ## What is used -/

/-- Characters before the end of the text are skipped. -/
def Skips (p q : List UInt8) : Prop := ∃ front, p = front ++ q ∧ ∀ c ∈ front, c ≠ 0

/-- How many characters stand before the first NUL. -/
def textLength (p : List UInt8) : ℕ := (p.takeWhile (· ≠ 0)).length

namespace Skips

theorem refl (p : List UInt8) : Skips p p := ⟨[], rfl, fun _ hc => absurd hc not_mem_nil⟩

theorem trans {p q r : List UInt8} (h : Skips p q) (h' : Skips q r) : Skips p r := by
  obtain ⟨front, rfl, hfront⟩ := h
  obtain ⟨front', rfl, hfront'⟩ := h'
  refine ⟨front ++ front', (append_assoc _ _ _).symm, fun c hc => ?_⟩
  exact (mem_append.mp hc).elim (hfront c) (hfront' c)

theorem cons {c : UInt8} (hc : c ≠ 0) (p : List UInt8) : Skips (c :: p) p :=
  ⟨[c], rfl, fun _ hd => mem_singleton.mp hd ▸ hc⟩

theorem spaces (p : List UInt8) : Skips p (p.dropWhile ascii_isspace) := by
  refine ⟨p.takeWhile ascii_isspace, takeWhile_append_dropWhile.symm, fun c hc h0 => ?_⟩
  have hspace := all_eq_true.mp all_takeWhile c hc
  rw [h0] at hspace
  exact absurd hspace (by decide)

theorem scanned (p : List UInt8) (base : ℕ) : Skips p (QIPAddressUtils.scanPrefix p base).1 := by
  have hself := refl p
  unfold QIPAddressUtils.scanPrefix
  match p with
  | [] => exact hself
  | [c] =>
    dsimp only
    split_ifs <;> exact hself
  | c :: x :: digits =>
    dsimp only
    split_ifs with hdigit hzero hb h2 h2 h2 hx <;> try exact hself
    all_goals
      rw [hzero]
      refine (cons (by decide) _).trans (cons ?_ _)
      rintro rfl
      first | exact absurd hb (by decide) | exact absurd hx (by decide)

theorem textLength_eq {p q : List UInt8} (h : Skips p q) :
    p.length - q.length + textLength q = textLength p := by
  obtain ⟨front, rfl, hfront⟩ := h
  unfold textLength
  rw [takeWhile_append_of_pos fun c hc => decide_eq_true (hfront c hc), length_append,
    length_append]
  omega

end Skips

theorem length_digitsIn_le {base : ℕ} (hbase : base ≤ 36) (p : List UInt8) :
    (QIPAddressUtils.digitsIn base p).length ≤ textLength p := by
  unfold QIPAddressUtils.digitsIn textLength
  induction p with
  | nil => exact Nat.le_refl 0
  | cons c p ih =>
    rw [map_cons, takeWhile_cons, takeWhile_cons]
    by_cases hdigit : digitValue c < base
    · have hc : c ≠ 0 := by
        rintro rfl
        exact absurd (Nat.lt_of_lt_of_le hdigit hbase) (by decide)
      rw [if_pos (decide_eq_true hdigit), if_pos (decide_eq_true hc)]
      exact Nat.succ_le_succ ih
    · rw [if_neg fun h => hdigit (of_decide_eq_true h)]
      exact Nat.zero_le _

theorem scanPrefix_base {base : ℕ} (hbase : base ≤ 16) (p : List UInt8) :
    (QIPAddressUtils.scanPrefix p base).2 ≤ 16 := by
  unfold QIPAddressUtils.scanPrefix
  match p with
  | [] => exact hbase
  | [c] =>
    dsimp only
    split_ifs <;> dsimp only <;> omega
  | c :: x :: digits =>
    dsimp only
    split_ifs <;> dsimp only <;> omega

/-- Only characters of the text are used. -/
theorem used_le {base : ℕ} (hbase : base ≤ 16) (p : List UInt8) :
    (QIPAddressUtils.qstrntoull p base).2 ≤ textLength p := by
  unfold QIPAddressUtils.qstrntoull
  dsimp only
  have hspaces := Skips.spaces p
  generalize p.dropWhile ascii_isspace = q at hspaces ⊢
  have hsign : Skips q (if q.head? = some 0x2b then q.drop 1 else q) := by
    match q with
    | [] => exact Skips.refl []
    | c :: q =>
      split_ifs with hplus
      · refine Skips.cons ?_ q
        rintro rfl
        exact absurd (Option.some.inj hplus) (by decide)
      · exact Skips.refl (c :: q)
  have hnext := (hspaces.trans hsign).trans (Skips.scanned _ base)
  have hbase' := scanPrefix_base hbase (if q.head? = some 0x2b then q.drop 1 else q)
  generalize QIPAddressUtils.scanPrefix (if q.head? = some 0x2b then q.drop 1 else q) base = r
    at hnext hbase' ⊢
  split_ifs with hnone hbad
  · exact Nat.zero_le _
  · exact Nat.zero_le _
  · have hlength := hnext.textLength_eq
    have hdigits := length_digitsIn_le (Nat.le_trans hbase' (by decide)) r.1
    unfold QIPAddressUtils.from_chars
    dsimp only
    split_ifs <;> dsimp only <;> omega

/-! ## IPv4 -/

theorem getD_drop (p i : ℕ) : buffer.getD (p + i) 0 = at' (buffer.drop p) i := by
  unfold at'
  simp

theorem textLength_cons (c : UInt8) (q : List UInt8) :
    textLength (c :: q) = if c = 0 then 0 else textLength q + 1 := by
  unfold textLength
  rw [takeWhile_cons]
  by_cases hc : c = 0
  · rw [if_pos hc, if_neg (by rw [hc]; decide)]
    rfl
  · rw [if_neg hc, if_pos (decide_eq_true hc), length_cons]

theorem at'_textLength (q : List UInt8) : at' q (textLength q) = 0 := by
  induction q with
  | nil => rfl
  | cons c q ih =>
    rw [textLength_cons]
    split_ifs with hc
    · exact hc
    · exact ih

theorem textLength_drop {q : List UInt8} {k : ℕ} (h : k ≤ textLength q) :
    textLength (q.drop k) = textLength q - k := by
  induction k generalizing q with
  | zero => rfl
  | succ k ih =>
    cases q with
    | nil => exact absurd h (Nat.not_succ_le_zero k)
    | cons c q =>
      rw [textLength_cons] at h ⊢
      split_ifs at h ⊢ with hc
      · exact absurd h (Nat.not_succ_le_zero k)
      · rw [drop_succ_cons, ih (Nat.le_of_succ_le_succ h), Nat.add_sub_add_right]

theorem textLength_takeWhile (q : List UInt8) :
    textLength (q.takeWhile (· ≠ 0)) = textLength q := by
  induction q with
  | nil => rfl
  | cons c q ih =>
    rw [takeWhile_cons, textLength_cons]
    by_cases hc : c = 0
    · rw [if_neg (by rw [hc]; decide), if_pos hc]
      rfl
    · rw [if_pos (decide_eq_true hc), if_neg hc, textLength_cons, if_neg hc, ih]

theorem upTo_textLength (p : ℕ) : upTo buffer (p + textLength (buffer.drop p)) p =
    (buffer.drop p).takeWhile (· ≠ 0) := by
  unfold upTo textLength
  rw [drop_take, Nat.add_sub_cancel_left]
  exact (prefix_iff_eq_take.mp (List.takeWhile_prefix _)).symm

theorem drop_cons {p : ℕ} (h : p < buffer.length) :
    buffer.drop p = buffer.getD p 0 :: buffer.drop (p + 1) := by
  rw [drop_eq_getElem_cons h, getD_eq_getElem _ _ h]

/-- The text from a pointer on has an end in the buffer. -/
def Ended (buffer : List UInt8) (p : ℕ) : Prop :=
  p + textLength (buffer.drop p) < buffer.length

theorem Ended.lt {p : ℕ} (h : Ended buffer p) : p < buffer.length :=
  Nat.lt_of_le_of_lt (Nat.le_add_right _ _) h

theorem textLength_drop_succ {p : ℕ} (h : p < buffer.length) (hc : buffer.getD p 0 ≠ 0) :
    textLength (buffer.drop p) = textLength (buffer.drop (p + 1)) + 1 := by
  rw [drop_cons h, textLength_cons, if_neg hc]

theorem Ended.succ {p : ℕ} (h : Ended buffer p) (hc : buffer.getD p 0 ≠ 0) :
    Ended buffer (p + 1) := by
  have heq := textLength_drop_succ h.lt hc
  unfold Ended at h ⊢
  omega

theorem Ended.add {p k : ℕ} (h : Ended buffer p) (hk : k ≤ textLength (buffer.drop p)) :
    Ended buffer (p + k) := by
  have heq := textLength_drop hk
  rw [drop_drop] at heq
  unfold Ended at h ⊢
  omega

theorem qstrlen_eq {p : ℕ} (hrounds : textLength (buffer.drop p) < rounds) (hend : Ended buffer p) :
    qstrlen buffer rounds p = .ok (p + textLength (buffer.drop p)) := by
  induction rounds generalizing p with
  | zero => omega
  | succ rounds ih =>
    unfold qstrlen
    rw [read_eq hend.lt, ok_bind]
    by_cases hzero : buffer.getD p 0 = 0
    · rw [if_pos hzero, drop_cons hend.lt, textLength_cons, if_pos hzero]
      rfl
    · have heq := textLength_drop_succ hend.lt hzero
      rw [if_neg hzero, ih (by omega) (hend.succ hzero), heq]
      exact congrArg Except.ok (by omega)

theorem leadingZero_eq {p : ℕ} (hend : Ended buffer p) :
    leadingZero buffer p = .ok (at' (buffer.drop p) 0 == 0x30 && at' (buffer.drop p) 1 != 0x2e &&
      at' (buffer.drop p) 1 != 0) := by
  unfold leadingZero
  rw [read_eq hend.lt, ok_bind, ← getD_drop, ← getD_drop]
  rw [Nat.add_zero p]
  by_cases hzero : buffer.getD p 0 = 0x30
  · have hne : buffer.getD p 0 ≠ 0 := by
      rw [hzero]
      decide
    rw [if_pos hzero, read_eq (hend.succ hne).lt, ok_bind, hzero]
    rfl
  · rw [if_neg hzero, beq_eq_false_iff_ne.mpr hzero]
    rfl

theorem parseIp4Loop_eq (acceptLeadingZero : Bool) {dotCount p : ℕ} (address : UInt32)
    (hrounds : dotCount + rounds = 4) (hend : Ended buffer p) :
    parseIp4Loop buffer acceptLeadingZero (p + textLength (buffer.drop p)) (rounds + 1) dotCount p
        address =
      .ok (QIPAddressUtils.parseIp4Loop acceptLeadingZero rounds dotCount (buffer.drop p)
        address) := by
  induction rounds generalizing dotCount p address with
  | zero =>
    unfold parseIp4Loop QIPAddressUtils.parseIp4Loop
    rw [if_neg (by omega)]
    rfl
  | succ rounds ih =>
    have hleading : (if acceptLeadingZero = true then return false else leadingZero buffer p) =
        (.ok (!acceptLeadingZero && at' (buffer.drop p) 0 == 0x30 &&
          at' (buffer.drop p) 1 != 0x2e && at' (buffer.drop p) 1 != 0) : Exec Bool) := by
      cases acceptLeadingZero with
      | true => rfl
      | false => exact leadingZero_eq hend
    unfold parseIp4Loop QIPAddressUtils.parseIp4Loop
    rw [if_pos (by omega), hleading, ok_bind]
    by_cases hzero : (!acceptLeadingZero && at' (buffer.drop p) 0 == 0x30 &&
        at' (buffer.drop p) 1 != 0x2e && at' (buffer.drop p) 1 != 0) = true
    · simp [hzero]
    rw [if_neg hzero, if_neg hzero,
      qstrntoull_eq (by have := hend; unfold Ended at this; omega), ok_bind,
      show p + (p + textLength (buffer.drop p) - p) = p + textLength (buffer.drop p) by omega,
      upTo_textLength]
    have hused := used_le (by decide : 0 ≤ 16) ((buffer.drop p).takeWhile (· ≠ 0))
    rw [textLength_takeWhile] at hused
    generalize QIPAddressUtils.qstrntoull ((buffer.drop p).takeWhile (· ≠ 0)) 0 = r at hused ⊢
    obtain ⟨ll, used⟩ := r
    dsimp only at hused ⊢
    by_cases hbad : used = 0 ∨ ll ≠ ll.toUInt32.toUInt64
    · rw [if_pos hbad, if_pos hbad]
      rfl
    rw [if_neg hbad, if_neg hbad, read_eq (hend.add hused).lt, ok_bind, getD_drop]
    have hnext (address : UInt32) (hdot : ¬at' (buffer.drop p) used ≠ 0x2e) :
        parseIp4Loop buffer acceptLeadingZero (p + textLength (buffer.drop p)) (rounds + 1)
            (dotCount + 1) (p + used + 1) address =
          .ok (QIPAddressUtils.parseIp4Loop acceptLeadingZero rounds (dotCount + 1)
            ((buffer.drop p).drop (used + 1)) address) := by
      have hlt : used + 1 ≤ textLength (buffer.drop p) := by
        refine Nat.lt_of_le_of_ne hused fun heq => hdot fun hdot => ?_
        rw [heq, at'_textLength] at hdot
        exact absurd hdot (by decide)
      have heq := textLength_drop hlt
      have hrec := @ih (dotCount + 1) (p + (used + 1)) address (by omega)
        (hend.add hlt)
      rw [drop_drop] at heq ⊢
      rwa [heq, show p + (used + 1) + (textLength (buffer.drop p) - (used + 1)) =
        p + textLength (buffer.drop p) by omega] at hrec
    split_ifs
    all_goals first
      | rfl
      | exact hnext _ ‹_›

theorem parseIp4Internal_eq (acceptLeadingZero : Bool) {p : ℕ} (hend : Ended buffer p) :
    parseIp4Internal buffer p acceptLeadingZero =
      .ok (QIPAddressUtils.parseIp4Internal (buffer.drop p) acceptLeadingZero) := by
  have hend' := hend
  unfold Ended at hend'
  unfold parseIp4Internal QIPAddressUtils.parseIp4Internal
  rw [qstrlen_eq (by omega) hend, ok_bind]
  exact parseIp4Loop_eq acceptLeadingZero 0 rfl hend

end InBuffer

end QIPAddressUtils

end QtBase
