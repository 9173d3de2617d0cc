import Mathlib.Data.Int.Order.Basic
import Mathlib.Data.List.TakeWhile
import Mathlib.Algebra.Order.Ring.Int

/-! The line before a chunk: how `QHttpNetworkReplyPrivate::getChunkSize` finds its end and reads
the size. -/
namespace QtBase.Http

open List

def cr : UInt8 := 13

def lf : UInt8 := 10

def crlf : List UInt8 := [cr, lf]

def semicolon : UInt8 := 59

/-- A conversion to `int`. -/
def toInt (n : ℤ) : ℤ := n.bmod (2 ^ 32)

theorem toInt_of_lt {n : ℤ} (h0 : 0 ≤ n) (h : n < 2 ^ 31) : toInt n = n := by
  rw [toInt, Int.bmod_def]
  split <;> omega

/-- `ascii_isspace` -/
def isSpace (c : UInt8) : Bool := (9 ≤ c && c ≤ 13) || c == 32

/-- `isDigitForBase(d, 16)` -/
def isHexDigit (d : UInt8) : Bool := (48 ≤ d && d ≤ 57) || (65 ≤ d && d ≤ 70) || (97 ≤ d && d ≤ 102)

/-- The value of a digit for `std::from_chars`. -/
def digitValue (d : UInt8) : ℕ :=
  if d ≤ 57 then d.toNat - 48 else if d ≤ 70 then d.toNat - 55 else d.toNat - 87

def hexValue (digits : List UInt8) : ℕ := digits.foldl (fun n d => 16 * n + digitValue d) 0

/-- `data.toLong(&ok, 16)`, where `long` goes to `longMax`. -/
def toLong (longMax : ℤ) (data : List UInt8) : ℤ :=
  let p := data.dropWhile isSpace
  let negate := p.head? = some 45
  let p := if negate ∨ p.head? = some 43 then p.tail else p
  let p := if p.head? = some 48 ∧ (p.tail.head? = some 120 ∨ p.tail.head? = some 88) then
    p.drop 2 else p
  let digits := p.takeWhile isHexDigit
  let rest := p.dropWhile isHexDigit
  let rest := if rest.head? = some 0 then rest else rest.dropWhile isSpace
  let value : ℤ := if negate then -hexValue digits else hexValue digits
  if digits ≠ [] ∧ (rest = [] ∨ rest.head? = some 0) ∧ -longMax - 1 ≤ value ∧ value ≤ longMax then
    value
  else 0

/-- `QByteArray::trimmed` -/
def trimmed (data : List UInt8) : List UInt8 :=
  ((data.dropWhile isSpace).reverse.dropWhile isSpace).reverse

/-- `fragment.mid(0, fragment.indexOf(';')).trimmed().toLong(&ok, 16)` -/
def chunkSizeOf (longMax : ℤ) (fragment : List UInt8) : ℤ :=
  toLong longMax (trimmed (fragment.takeWhile (· ≠ semicolon)))

/-- The loop of `getChunkSize`: what it returns, the new `fragment`, the bytes that are left in the
socket and `*chunkSize`. -/
def getChunkSizeLoop (longMax bytesAvailable : ℤ) : List UInt8 → List UInt8 → ℤ →
    ℤ × List UInt8 × List UInt8 × ℤ
  | fragment, [], bytes => (bytes, fragment, [], -1)
  | fragment, c :: socket, bytes =>
    if bytesAvailable > bytes then
      if (fragment ≠ [] ∧ c = cr ∧ socket.head? = some lf) ∨
          (fragment.length > 1 ∧ fragment.getLast? = some cr ∧ c = lf) then
        let (bytes, socket) := if c = cr then (bytes + 2, socket.tail) else (bytes + 1, socket)
        (bytes, [], socket, chunkSizeOf longMax fragment)
      else getChunkSizeLoop longMax bytesAvailable (fragment ++ [c]) socket (bytes + 1)
    else (bytes, fragment, c :: socket, -1)

/-- `QHttpNetworkReplyPrivate::getChunkSize`, with the bytes that wait in the socket. -/
def getChunkSize (longMax : ℤ) (fragment socket : List UInt8) :
    ℤ × List UInt8 × List UInt8 × ℤ :=
  getChunkSizeLoop longMax (toInt socket.length) fragment socket 0

/-- A size line says `n`: hexadecimal digits, then perhaps blanks, a semicolon and an extension. -/
def SizeLine (line : List UInt8) (n : ℕ) : Prop :=
  ∃ digits ext, line = digits ++ ext ∧ digits ≠ [] ∧ (∀ d ∈ digits, isHexDigit d = true) ∧
    hexValue digits = n ∧ cr ∉ ext ∧ lf ∉ ext ∧
    (ext = [] ∨ ∃ blanks rest, ext = blanks ++ semicolon :: rest ∧ ∀ c ∈ blanks, c = 32 ∨ c = 9)

theorem isHexDigit_not_space {d : UInt8} (h : isHexDigit d = true) : isSpace d = false := by
  unfold isHexDigit at h
  unfold isSpace
  have := UInt8.toNat_lt d
  simp only [Bool.or_eq_true, Bool.and_eq_true, decide_eq_true_eq, UInt8.le_iff_toNat_le,
    UInt8.toNat_ofNat] at h
  simp only [Bool.or_eq_false_iff, Bool.and_eq_false_iff, decide_eq_false_iff_not,
    UInt8.le_iff_toNat_le, beq_eq_false_iff_ne, ne_eq, ← UInt8.toNat_inj, UInt8.toNat_ofNat]
  omega

theorem isHexDigit_ne {d c : UInt8} (h : isHexDigit d = true) (hc : isHexDigit c = false) :
    d ≠ c := by
  rintro rfl
  rw [h] at hc
  cases hc

theorem dropWhile_eq_self {p : UInt8 → Bool} {c : UInt8} {l : List UInt8} (hc : p c = false) :
    (c :: l).dropWhile p = c :: l := dropWhile_cons_of_neg (by simp [hc])

variable {pre : List UInt8}

theorem trimmed_digits {digits post : List UInt8} (hpre : ∀ c ∈ pre, isSpace c = true)
    (hpost : ∀ c ∈ post, isSpace c = true) (hne : digits ≠ [])
    (hdigits : ∀ d ∈ digits, isHexDigit d = true) :
    trimmed (pre ++ digits ++ post) = digits := by
  obtain ⟨d, ds, hd⟩ := exists_cons_of_ne_nil hne
  obtain ⟨es, e, he⟩ : ∃ es e, digits = es ++ [e] :=
    ⟨digits.dropLast, digits.getLast hne, (dropLast_concat_getLast hne).symm⟩
  have hfirst : isSpace d = false := isHexDigit_not_space (hdigits d (by simp [hd]))
  have hlast : isSpace e = false := isHexDigit_not_space (hdigits e (by simp [he]))
  have hfront : (pre ++ digits ++ post).dropWhile isSpace = digits ++ post := by
    rw [append_assoc, dropWhile_append_of_pos hpre, hd, cons_append,
      dropWhile_eq_self hfirst]
  unfold trimmed
  rw [hfront, reverse_append, dropWhile_append_of_pos (by simpa using hpost), he,
    reverse_concat, dropWhile_eq_self hlast, ← reverse_concat, reverse_reverse]

theorem toLong_digits {longMax : ℤ} {digits : List UInt8} (hne : digits ≠ [])
    (hdigits : ∀ d ∈ digits, isHexDigit d = true) (h0 : 0 ≤ longMax)
    (hmax : (hexValue digits : ℤ) ≤ longMax) : toLong longMax digits = hexValue digits := by
  obtain ⟨d, ds, rfl⟩ := exists_cons_of_ne_nil hne
  have hd := hdigits d (by simp)
  have hfront : (d :: ds).dropWhile isSpace = d :: ds := dropWhile_eq_self (isHexDigit_not_space hd)
  have hsign : ∀ c : UInt8, isHexDigit c = false → (d :: ds).head? ≠ some c := by
    intro c hc
    simpa using isHexDigit_ne hd hc
  have hx : ∀ c : UInt8, isHexDigit c = false → ds.head? ≠ some c := by
    intro c hc h
    have := hdigits c (mem_cons_of_mem _ (mem_of_mem_head? h))
    rw [this] at hc
    cases hc
  have htake : (d :: ds).takeWhile isHexDigit = d :: ds :=
    takeWhile_eq_self_iff.mpr hdigits
  have hdrop : (d :: ds).dropWhile isHexDigit = [] := dropWhile_eq_nil_iff.mpr hdigits
  have hminus := hsign 45 (by decide)
  have hplus := hsign 43 (by decide)
  have h120 := hx 120 (by decide)
  have h88 := hx 88 (by decide)
  unfold toLong
  simp only [hfront, hminus, hplus, if_false, tail_cons, h120, h88, or_self,
    and_false, htake, hdrop, List.head?_nil, reduceCtorEq, dropWhile_nil]
  rw [if_pos ⟨cons_ne_nil _ _, .inl trivial, by omega, hmax⟩]

variable {line : List UInt8}

theorem chunkSizeOf_line {longMax : ℤ} {post : List UInt8} {n : ℕ} (hline : SizeLine line n)
    (hpre : ∀ c ∈ pre, c = cr ∨ c = lf) (hpost : ∀ c ∈ post, c = cr)
    (hmax : (n : ℤ) ≤ longMax) : chunkSizeOf longMax (pre ++ line ++ post) = n := by
  obtain ⟨digits, ext, rfl, hne, hdigits, rfl, -, -, hext⟩ := hline
  have hpreSpace : ∀ c ∈ pre, isSpace c = true := by
    intro c hc
    rcases hpre c hc with rfl | rfl <;> decide
  have hpreSemi : ∀ c ∈ pre, decide (c ≠ semicolon) = true := by
    intro c hc
    rcases hpre c hc with rfl | rfl <;> decide
  have hdigitsSemi : ∀ c ∈ digits, decide (c ≠ semicolon) = true := by
    intro c hc
    exact decide_eq_true (isHexDigit_ne (hdigits c hc) (by decide))
  unfold chunkSizeOf
  rcases hext with rfl | ⟨blanks, rest, rfl, hblanks⟩
  · have hall : ∀ c ∈ pre ++ (digits ++ []) ++ post, decide (c ≠ semicolon) = true := by
      intro c hc
      rw [append_nil, append_assoc, mem_append, mem_append] at hc
      rcases hc with hc | hc | hc
      · exact hpreSemi c hc
      · exact hdigitsSemi c hc
      · rw [hpost c hc]
        decide
    rw [takeWhile_eq_self_iff.mpr hall, append_nil,
      trimmed_digits hpreSpace (fun c hc => by rw [hpost c hc]; decide) hne hdigits,
      toLong_digits hne hdigits (by omega) hmax]
  · have hall : ∀ c ∈ pre ++ digits ++ blanks, decide (c ≠ semicolon) = true := by
      intro c hc
      rw [append_assoc, mem_append, mem_append] at hc
      rcases hc with hc | hc | hc
      · exact hpreSemi c hc
      · exact hdigitsSemi c hc
      · rcases hblanks c hc with rfl | rfl <;> decide
    have hsplit : pre ++ (digits ++ (blanks ++ semicolon :: rest)) ++ post =
        (pre ++ digits ++ blanks) ++ semicolon :: (rest ++ post) := by simp
    have htake : (pre ++ (digits ++ (blanks ++ semicolon :: rest)) ++ post).takeWhile
        (· ≠ semicolon) = pre ++ digits ++ blanks := by
      rw [hsplit, takeWhile_append_of_pos hall, takeWhile_cons_of_neg (by simp),
        append_nil]
    rw [htake, trimmed_digits hpreSpace
      (fun c hc => by rcases hblanks c hc with rfl | rfl <;> decide) hne hdigits,
      toLong_digits hne hdigits (by omega) hmax]

theorem SizeLine.ne_nil {n : ℕ} (h : SizeLine line n) : line ≠ [] := by
  obtain ⟨digits, ext, rfl, hne, -⟩ := h
  simp [hne]

theorem SizeLine.not_mem {n : ℕ} (h : SizeLine line n) :
    cr ∉ line ∧ lf ∉ line := by
  obtain ⟨digits, ext, rfl, -, hdigits, -, hcr, hlf, -⟩ := h
  simp only [mem_append, not_or]
  exact ⟨⟨fun h => isHexDigit_ne (hdigits _ h) (by decide) rfl, hcr⟩,
    fun h => isHexDigit_ne (hdigits _ h) (by decide) rfl, hlf⟩

/-- What may be left of the line end after the chunk before, when the size line begins. -/
def LineEndRest (pre : List UInt8) : Prop := pre = [] ∨ pre = crlf ∨ pre = [lf]

theorem LineEndRest.mem (h : LineEndRest pre) : ∀ c ∈ pre, c = cr ∨ c = lf := by
  rcases h with rfl | rfl | rfl <;> simp [crlf]

theorem not_lineEnd {f u : List UInt8} {d : UInt8} {P Q : Prop} (hpre : LineEndRest pre)
    (hcr : cr ∉ line) (hlf : lf ∉ line) (h : f ++ d :: u = pre ++ line) :
    ¬ ((f ≠ [] ∧ d = cr ∧ P) ∨ (f.length > 1 ∧ Q ∧ d = lf)) := by
  have hin : d ∈ line → d ≠ cr ∧ d ≠ lf := fun hd =>
    ⟨fun h => hcr (h ▸ hd), fun h => hlf (h ▸ hd)⟩
  have hne : cr ≠ lf := by decide
  rintro (⟨hf, hd, -⟩ | ⟨hf, -, hd⟩)
  · rcases hpre with rfl | rfl | rfl
    · exact (hin (by rw [← nil_append line, ← h]; simp)).1 hd
    · match f, h with
      | [], _ => exact hf rfl
      | [x], h => simp [crlf] at h; exact hne (hd ▸ h.2.1)
      | x :: y :: f, h => simp [crlf] at h; exact (hin (by rw [← h.2.2]; simp)).1 hd
    · match f, h with
      | [], _ => exact hf rfl
      | x :: f, h => simp at h; exact (hin (by rw [← h.2]; simp)).1 hd
  · rcases hpre with rfl | rfl | rfl
    · exact (hin (by rw [← nil_append line, ← h]; simp)).2 hd
    · match f, h with
      | [], _ => simp at hf
      | [x], h => simp at hf
      | x :: y :: f, h => simp [crlf] at h; exact (hin (by rw [← h.2.2]; simp)).2 hd
    · match f, h with
      | [], _ => simp at hf
      | x :: f, h => simp at h; exact (hin (by rw [← h.2]; simp)).2 hd

section Loop

variable {longMax bytesAvailable bytes : ℤ} {f socket : List UInt8} {c : UInt8}

theorem getChunkSizeLoop_end (h : bytesAvailable > bytes)
    (hend : (f ≠ [] ∧ c = cr ∧ socket.head? = some lf) ∨
      (f.length > 1 ∧ f.getLast? = some cr ∧ c = lf)) :
    getChunkSizeLoop longMax bytesAvailable f (c :: socket) bytes =
      if c = cr then (bytes + 2, [], socket.tail, chunkSizeOf longMax f)
      else (bytes + 1, [], socket, chunkSizeOf longMax f) := by
  rw [getChunkSizeLoop, if_pos h, if_pos hend]
  split_ifs <;> rfl

theorem getChunkSizeLoop_next (h : bytesAvailable > bytes)
    (hend : ¬ ((f ≠ [] ∧ c = cr ∧ socket.head? = some lf) ∨
      (f.length > 1 ∧ f.getLast? = some cr ∧ c = lf))) :
    getChunkSizeLoop longMax bytesAvailable f (c :: socket) bytes =
      getChunkSizeLoop longMax bytesAvailable (f ++ [c]) socket (bytes + 1) := by
  rw [getChunkSizeLoop, if_pos h, if_neg hend]

end Loop

/-- `f` was read of a size line, `w` is left of it up to the line feed. Either the line feed is
found in the socket and the bytes after it stay there, or all bytes are taken. -/
theorem getChunkSizeLoop_spec {longMax : ℤ} {n : ℕ} (hpre : LineEndRest pre)
    (hline : SizeLine line n) (hmax : (n : ℤ) ≤ longMax) {f w socket future after : List UInt8}
    {bytesAvailable bytes : ℤ} (hall : bytesAvailable = bytes + socket.length)
    (hf : f ++ w = pre ++ line ++ [cr]) (hs : socket ++ future = w ++ lf :: after) :
    (∃ socket', getChunkSizeLoop longMax bytesAvailable f socket bytes =
        (bytesAvailable - socket'.length, [], socket', (n : ℤ)) ∧
      socket = w ++ lf :: socket' ∧ socket' ++ future = after) ∨
    (∃ w', getChunkSizeLoop longMax bytesAvailable f socket bytes =
        (bytesAvailable, f ++ socket, [], -1) ∧ w = socket ++ w') := by
  have hcrlf : cr ≠ lf := by decide
  obtain ⟨hcr, hlf⟩ := hline.not_mem
  have hne := hline.ne_nil
  induction socket generalizing f w bytes with
  | nil => exact .inr ⟨w, by simp [getChunkSizeLoop, hall], rfl⟩
  | cons c socket ih =>
    have hmore : bytesAvailable > bytes := by
      rw [length_cons] at hall
      omega
    cases w with
    | nil =>
      -- the carriage return came with an earlier call
      obtain ⟨rfl, hrest⟩ : c = lf ∧ socket ++ future = after := by simpa using hs
      have hlen : f.length > 1 := by
        have := congrArg List.length hf
        have hpos := length_pos_iff.mpr hne
        simp only [append_nil, length_append, length_singleton] at this
        omega
      have hlast : f.getLast? = some cr := by
        rw [← append_nil f, hf, List.getLast?_concat]
      left
      refine ⟨socket, ?_, rfl, hrest⟩
      rw [getChunkSizeLoop_end hmore (.inr ⟨hlen, hlast, rfl⟩), if_neg hcrlf.symm,
        ← append_nil f, hf, chunkSizeOf_line hline hpre.mem (by simp) hmax, hall,
        length_cons]
      simp
      omega
    | cons d w =>
      obtain ⟨rfl, hrest⟩ : c = d ∧ socket ++ future = w ++ lf :: after := by simpa using hs
      rcases eq_nil_or_concat w with rfl | ⟨u, x, hw⟩
      · -- the carriage return is next
        obtain ⟨rfl, hc⟩ : f = pre ++ line ∧ [c] = [cr] := append_inj' hf rfl
        obtain rfl : c = cr := by simpa using hc
        cases socket with
        | nil =>
          right
          rw [getChunkSizeLoop_next hmore (by simp [hcrlf])]
          exact ⟨[], by simp [getChunkSizeLoop, hall], rfl⟩
        | cons c' socket =>
          obtain ⟨rfl, hafter⟩ : c' = lf ∧ socket ++ future = after := by simpa using hs
          left
          refine ⟨socket, ?_, rfl, hafter⟩
          rw [getChunkSizeLoop_end hmore (.inl ⟨by simp [hne], rfl, rfl⟩), if_pos rfl,
            ← append_nil (pre ++ line), chunkSizeOf_line hline hpre.mem (by simp) hmax, hall]
          simp
          omega
      · obtain rfl : w = u ++ [x] := by rw [hw, concat_eq_append]
        have hsplit : f ++ c :: u = pre ++ line := by
          have : (f ++ c :: u) ++ [x] = (pre ++ line) ++ [cr] := by simpa using hf
          exact (append_inj' this rfl).1
        rw [getChunkSizeLoop_next hmore (not_lineEnd hpre hcr hlf hsplit)]
        have hall' : bytesAvailable = bytes + 1 + socket.length := by
          simp [hall]
          omega
        rcases ih (f := f ++ [c]) hall' (by simpa using hf) hrest with
          ⟨socket', hrun, heq, hafter⟩ | ⟨w', hrun, heq⟩
        · exact .inl ⟨socket', hrun, by rw [heq]; rfl, hafter⟩
        · exact .inr ⟨w', by rw [hrun]; simp, by rw [heq]; rfl⟩

theorem getChunkSize_spec {longMax : ℤ} {n : ℕ} (hpre : LineEndRest pre) (hline : SizeLine line n)
    (hmax : (n : ℤ) ≤ longMax) {f w socket future after : List UInt8}
    (hsmall : (socket.length : ℤ) < 2 ^ 31) (hf : f ++ w = pre ++ line ++ [cr])
    (hs : socket ++ future = w ++ lf :: after) :
    (∃ socket', getChunkSize longMax f socket =
        ((socket.length : ℤ) - socket'.length, [], socket', (n : ℤ)) ∧
      socket = w ++ lf :: socket' ∧ socket' ++ future = after) ∨
    (∃ w', getChunkSize longMax f socket = ((socket.length : ℤ), f ++ socket, [], -1) ∧
      w = socket ++ w') := by
  unfold getChunkSize
  rw [toInt_of_lt (by omega) hsmall]
  exact getChunkSizeLoop_spec hpre hline hmax (by omega) hf hs

end QtBase.Http
