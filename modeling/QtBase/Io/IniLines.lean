import QtBase.Core.View
import Mathlib.Data.List.DropRight
import Mathlib.Data.List.TakeWhile

/-! `QConfFileSettingsPrivate::readIniLine`: where the next line of an INI file begins and ends. -/
namespace QtBase.Ini

open View List Bool Nat

/-- `Space` in `charTraits` -/
def isSpace (ch : UInt8) : Bool := ch == 0x09 || ch == 0x0a || ch == 0x0d || ch == 0x20

/-- `Special` in `charTraits` -/
def isSpecial (ch : UInt8) : Bool :=
  ch == 0x0a || ch == 0x0d || ch == 0x22 || ch == 0x3b || ch == 0x3d || ch == 0x5c

def isNewline (ch : UInt8) : Bool := ch == 0x0a || ch == 0x0d

/-- \r\n, and \n\r -/
def isLineEndPair (ch ch2 : UInt8) : Bool :=
  (ch == 0x0a && ch2 == 0x0d) || (ch == 0x0d && ch2 == 0x0a)

/-- What `readIniLine` writes to its arguments. -/
structure Line where
  dataPos : ℕ
  lineStart : ℕ
  lineLen : ℤ
  equalsPos : ℤ
  deriving DecidableEq

/-- The variables of the outer loop. -/
structure LineScan where
  i : ℕ
  lineStart : ℕ
  equalsPos : ℤ := -1
  inQuotes : Bool := false

/-- How a round of the outer loop ends. -/
inductive Round
  | next (s : LineScan)
  /-- `goto break_out_of_outer_loop` -/
  | out (s : LineScan)

section Read

variable (data : List UInt8)

/-- The characters that a backslash takes with it. -/
def escapedEnd (i : ℕ) : Exec ℕ :=
  if i < data.length then do
    let ch ← elem data i
    if i + 1 < data.length then do
      let ch2 ← elem data (i + 1)
      if isLineEndPair ch ch2 then .ok (i + 2) else .ok (i + 1)
    else .ok (i + 1)
  else .ok i

/-- The rest of a comment, and the spaces after it. -/
def commentEnd (i : ℕ) : Exec ℕ := do
  let i ← scan data (fun ch => !isNewline ch) data.length i
  scan data isSpace data.length i

/-- The outer loop at the character `ch`, with `i` after it. -/
def specialRound (s : LineScan) (i : ℕ) (ch : UInt8) : Exec Round := do
  if ch = 0x3d then
    if s.inQuotes = false ∧ s.equalsPos = -1 then
      return .next { s with i := i, equalsPos := i - 1 }
    else return .next { s with i := i }
  else if isNewline ch then
    if i = s.lineStart + 1 then return .next { s with i := i, lineStart := s.lineStart + 1 }
    else if s.inQuotes then return .next { s with i := i }
    else return .out { s with i := i - 1 }
  else if ch = 0x5c then
    let i ← escapedEnd data i
    return .next { s with i := i }
  else if ch = 0x22 then return .next { s with i := i, inQuotes := !s.inQuotes }
  else
    qAssert (ch = 0x3b)
    if i = s.lineStart + 1 then
      let i ← commentEnd data i
      return .next { s with i := i, lineStart := i }
    else if s.inQuotes then return .next { s with i := i }
    else return .out { s with i := i - 1 }

def round (s : LineScan) : Exec Round := do
  let i ← scan data (fun ch => !isSpecial ch) data.length s.i
  if i = data.length then return .out { s with i := i }
  let ch ← elem data i
  specialRound data s (i + 1) ch

def outerLoop : ℕ → LineScan → Exec LineScan
  | 0, _ => .error .diverge
  | rounds + 1, s =>
    if s.i < data.length then do
      match ← round data s with
      | .next s => outerLoop rounds s
      | .out s => .ok s
    else .ok s

def readIniLine (dataPos : ℕ) : Exec (Bool × Line) := do
  let lineStart ← scan data isSpace data.length dataPos
  let s ← outerLoop data (data.length + 1) { i := lineStart, lineStart := lineStart }
  let lineLen : ℤ := s.i - s.lineStart
  return (decide (lineLen > 0),
    { dataPos := s.i, lineStart := s.lineStart, lineLen := lineLen, equalsPos := s.equalsPos })

end Read

/-! ## Lines of a text -/

/-- A line is over at a newline or a comment, out of quotes. -/
def endsLine (ch : UInt8) : Bool := isNewline ch || ch == 0x3b

variable {c : UInt8}

theorem length_dropWhile_lt {p : UInt8 → Bool} {t : List UInt8} (h : t.head? = some c)
    (hp : p c = true) : (t.dropWhile p).length < t.length := by
  obtain ⟨u, rfl⟩ : ∃ u, t = c :: u := ⟨t.tail, (cons_head?_tail h).symm⟩
  rw [dropWhile_cons_of_pos hp, length_cons]
  exact lt_succ_of_le (dropWhile_suffix p).length_le

/-- The text from where its next line begins, after spaces, and comments with their spaces. -/
def skipBlank (t : List UInt8) : List UInt8 :=
  if (t.dropWhile isSpace).head? = some 0x3b then
    skipBlank ((t.dropWhile isSpace).dropWhile fun ch => !isNewline ch)
  else t.dropWhile isSpace
termination_by t.length
decreasing_by
  rename_i h
  exact Nat.lt_of_lt_of_le (length_dropWhile_lt h rfl) (List.dropWhile_suffix isSpace).length_le

/-- How many characters the backslash before the text takes with it. -/
def escapedLen : List UInt8 → ℕ
  | [] => 0
  | ch :: t =>
    match t.head? with
    | some ch2 => if isLineEndPair ch ch2 then 2 else 1
    | none => 1

/-- How long the line is that has come to `t`, in quotes or not. -/
def lineLength (inQuotes : Bool) (t : List UInt8) : ℕ :=
  match t with
  | [] => 0
  | ch :: t =>
    if ch = 0x5c then lineLength inQuotes (t.drop (escapedLen t)) + (escapedLen t + 1)
    else if ch = 0x22 then lineLength (!inQuotes) t + 1
    else if inQuotes = false ∧ endsLine ch then 0
    else lineLength inQuotes t + 1
termination_by t.length
decreasing_by
  · simp only [length_drop, length_cons]
    omega
  · exact Nat.lt_succ_self _
  · exact Nat.lt_succ_self _

theorem skipBlank_comment {t : List UInt8} (h : (t.dropWhile isSpace).head? = some 0x3b) :
    skipBlank t = skipBlank ((t.dropWhile isSpace).dropWhile fun ch => !isNewline ch) := by
  rw [skipBlank, if_pos h]

theorem skipBlank_text {t : List UInt8} (h : (t.dropWhile isSpace).head? ≠ some 0x3b) :
    skipBlank t = t.dropWhile isSpace := by
  rw [skipBlank, if_neg h]

theorem skipBlank_congr {t t' : List UInt8} (h : t.dropWhile isSpace = t'.dropWhile isSpace) :
    skipBlank t = skipBlank t' := by
  rw [skipBlank, h, ← skipBlank]

theorem skipBlank_head {t : List UInt8} (h : (skipBlank t).head? = some c) :
    isSpace c = false ∧ c ≠ 0x3b := by
  induction t using skipBlank.induct with
  | case1 t hcomment ih =>
    rw [skipBlank_comment hcomment] at h
    exact ih h
  | case2 t htext =>
    rw [skipBlank_text htext] at h
    exact ⟨of_head?_dropWhile h, fun hc => htext (hc ▸ h)⟩

theorem skipBlank_self {t : List UInt8} (h : ∀ c, t.head? = some c → isSpace c = false ∧ c ≠ 0x3b) :
    skipBlank t = t := by
  have hdrop : t.dropWhile isSpace = t := by
    cases t with
    | nil => rfl
    | cons c t => exact dropWhile_cons_of_neg (by rw [(h c rfl).1]; exact false_ne_true)
  rw [skipBlank_text, hdrop]
  rw [hdrop]
  exact fun hc => (h _ hc).2 rfl

theorem endsLine_of_isNewline (h : isNewline c = true) : endsLine c = true := by
  unfold endsLine
  rw [h]
  rfl

theorem isSpace_of_isNewline (h : isNewline c = true) : isSpace c = true := by
  unfold isNewline at h
  unfold isSpace
  rw [or_eq_true] at h
  rcases h with h | h <;> simp [h]

theorem endsLine_of_text (hspace : isSpace c = false) (hsemicolon : c ≠ 0x3b) :
    endsLine c = false := by
  unfold endsLine
  rw [or_eq_false_iff]
  refine ⟨eq_false_iff.2 fun hnewline => ?_, beq_eq_false_iff_ne.2 hsemicolon⟩
  rw [isSpace_of_isNewline hnewline] at hspace
  cases hspace

/-- Spaces and comments, up to where a line begins. -/
def Blank (b : List UInt8) : Prop := ∀ u, skipBlank (b ++ u) = skipBlank u

theorem Blank.append {b b' : List UInt8} (h : Blank b) (h' : Blank b') : Blank (b ++ b') := by
  intro u
  rw [append_assoc, h, h']

theorem Blank.spaces {b : List UInt8} (h : ∀ c ∈ b, isSpace c = true) : Blank b := by
  intro u
  apply skipBlank_congr
  exact dropWhile_append_of_pos h

/-- A comment, with the newline after it. -/
theorem Blank.comment {c b : List UInt8} (hhead : c.head? = some 0x3b)
    (hc : ∀ ch ∈ c, isNewline ch = false) (hb : ∃ ch, b.head? = some ch ∧ isNewline ch = true)
    (h : Blank b) : Blank (c ++ b) := by
  intro u
  obtain ⟨c', rfl⟩ : ∃ c', c = 0x3b :: c' := ⟨c.tail, (cons_head?_tail hhead).symm⟩
  obtain ⟨ch, hch, hnewline⟩ := hb
  obtain ⟨b', rfl⟩ : ∃ b', b = ch :: b' := ⟨b.tail, (cons_head?_tail hch).symm⟩
  rw [append_assoc, skipBlank_comment rfl]
  have hdrop : ((0x3b :: c' ++ (ch :: b' ++ u)).dropWhile isSpace).dropWhile
      (fun ch => !isNewline ch) = ch :: b' ++ u := by
    change (0x3b :: c' ++ (ch :: b' ++ u)).dropWhile (fun ch => !isNewline ch) = _
    rw [dropWhile_append_of_pos fun a ha => by rw [hc a ha]; rfl]
    exact dropWhile_cons_of_neg (by rw [hnewline]; exact false_ne_true)
  rw [hdrop, h]

theorem exists_blank {t : List UInt8} (h : skipBlank t ≠ []) :
    ∃ b, t = b ++ skipBlank t ∧ Blank b := by
  induction t using skipBlank.induct with
  | case1 t hcomment ih =>
    rw [skipBlank_comment hcomment] at h ⊢
    obtain ⟨b, hb, hblank⟩ := ih h
    have hspaces : Blank (t.takeWhile isSpace) := .spaces fun c hc => mem_takeWhile_imp hc
    generalize hd : t.dropWhile isSpace = d at *
    have hnewline : ∃ ch, b.head? = some ch ∧ isNewline ch = true := by
      cases b with
      | nil =>
        obtain ⟨ch, hch⟩ : ∃ ch, (d.dropWhile fun ch => !isNewline ch).head? = some ch := by
          rw [hb, nil_append]
          exact ⟨_, head?_eq_some_head h⟩
        have hspace := isSpace_of_isNewline (by simpa using of_head?_dropWhile hch)
        rw [hb, nil_append] at hch
        rw [(skipBlank_head hch).1] at hspace
        cases hspace
      | cons ch b =>
        have hch : (d.dropWhile fun ch => !isNewline ch).head? = some ch := by
          rw [hb]
          rfl
        exact ⟨ch, rfl, by simpa using of_head?_dropWhile hch⟩
    have hc : Blank (d.takeWhile (fun ch => !isNewline ch) ++ b) := by
      refine .comment ?_ (fun ch hch => ?_) hnewline hblank
      · obtain ⟨d', rfl⟩ : ∃ d', d = 0x3b :: d' := ⟨d.tail, (cons_head?_tail hcomment).symm⟩
        rfl
      · simpa using mem_takeWhile_imp hch
    refine ⟨_, ?_, hspaces.append hc⟩
    rw [append_assoc, append_assoc, ← hb, takeWhile_append_dropWhile, ← hd,
      takeWhile_append_dropWhile]
  | case2 t htext =>
    rw [skipBlank_text htext]
    exact ⟨_, takeWhile_append_dropWhile.symm, .spaces fun c hc => mem_takeWhile_imp hc⟩

/-! ## The length of a line -/

section Length

variable {q : Bool} {ch : UInt8} {t : List UInt8}

theorem lineLength_nil : lineLength q [] = 0 := by rw [lineLength]

theorem lineLength_backslash :
    lineLength q (0x5c :: t) = lineLength q (t.drop (escapedLen t)) + (escapedLen t + 1) := by
  rw [lineLength, if_pos rfl]

theorem lineLength_quote : lineLength q (0x22 :: t) = lineLength (!q) t + 1 := by
  rw [lineLength, if_neg (by decide), if_pos rfl]

theorem not_special_of_endsLine (h : endsLine ch = true) : ch ≠ 0x5c ∧ ch ≠ 0x22 := by
  constructor
  · rintro rfl
    cases h
  · rintro rfl
    cases h

theorem lineLength_end (h : endsLine ch = true) : lineLength false (ch :: t) = 0 := by
  obtain ⟨hslash, hquote⟩ := not_special_of_endsLine h
  rw [lineLength, if_neg hslash, if_neg hquote, if_pos ⟨rfl, h⟩]

theorem lineLength_char (hslash : ch ≠ 0x5c) (hquote : ch ≠ 0x22)
    (h : ¬ (q = false ∧ endsLine ch = true)) : lineLength q (ch :: t) = lineLength q t + 1 := by
  rw [lineLength, if_neg hslash, if_neg hquote, if_neg h]

theorem escapedLen_le (t : List UInt8) : escapedLen t ≤ t.length := by
  cases t with
  | nil => exact le_refl 0
  | cons ch t =>
    unfold escapedLen
    cases t with
    | nil => exact le_refl 1
    | cons ch2 t =>
      change (if isLineEndPair ch ch2 then 2 else 1) ≤ t.length + 1 + 1
      split <;> omega

theorem lineLength_le (q : Bool) (t : List UInt8) : lineLength q t ≤ t.length := by
  induction q, t using lineLength.induct with
  | case1 q => rw [lineLength_nil]; exact le_refl 0
  | case2 q t ih =>
    have hle := escapedLen_le t
    rw [length_drop] at ih
    rw [lineLength_backslash, length_cons]
    omega
  | case3 q t hne ih =>
    rw [lineLength_quote, length_cons]
    omega
  | case4 q ch t hslash hquote hend =>
    obtain ⟨rfl, hend⟩ := hend
    rw [lineLength_end hend]
    exact zero_le _
  | case5 q ch t hslash hquote hend ih =>
    rw [lineLength_char hslash hquote hend, length_cons]
    omega

theorem lineLength_pos (h : endsLine ch = false) : 0 < lineLength false (ch :: t) := by
  by_cases hslash : ch = 0x5c
  · rw [hslash, lineLength_backslash]
    omega
  · by_cases hquote : ch = 0x22
    · rw [hquote, lineLength_quote]
      omega
    · rw [lineLength_char hslash hquote (by rw [h]; simp)]
      omega

theorem endsLine_of_lineLength (q : Bool) (t : List UInt8)
    (h : (t.drop (lineLength q t)).head? = some c) : endsLine c = true := by
  induction q, t using lineLength.induct with
  | case1 q =>
    rw [drop_nil] at h
    cases h
  | case2 q t ih =>
    rw [lineLength_backslash, ← Nat.add_assoc, drop_succ_cons, Nat.add_comm,
      ← drop_drop] at h
    exact ih h
  | case3 q t hne ih =>
    rw [lineLength_quote, drop_succ_cons] at h
    exact ih h
  | case4 q ch t hslash hquote hend =>
    obtain ⟨rfl, hend⟩ := hend
    rw [lineLength_end hend] at h
    cases h
    exact hend
  | case5 q ch t hslash hquote hend ih =>
    rw [lineLength_char hslash hquote hend, drop_succ_cons] at h
    exact ih h

theorem head?_take_append {n : ℕ} {t y : List UInt8} (h : y.head? = (t.drop n).head?) :
    (t.take n ++ y).head? = t.head? := by
  cases n with
  | zero => exact h
  | succ n =>
    cases t with
    | nil => simpa using h
    | cons c t => rfl

theorem escapedLen_congr {t t' : List UInt8} (h : t.head? = t'.head?) :
    escapedLen (ch :: t) = escapedLen (ch :: t') := by
  unfold escapedLen
  dsimp only
  rw [h]

theorem escapedLen_local {t w : List UInt8} (h : w.head? = (t.drop (escapedLen t)).head?) :
    escapedLen (t.take (escapedLen t) ++ w) = escapedLen t := by
  cases t with
  | nil =>
    rw [drop_nil] at h
    rw [head?_eq_none_iff.1 h]
    rfl
  | cons ch t =>
    cases t with
    | nil =>
      change w.head? = none at h
      rw [head?_eq_none_iff.1 h]
      rfl
    | cons ch2 t =>
      by_cases hpair : isLineEndPair ch ch2 = true
      · have hlen : ∀ u, escapedLen (ch :: ch2 :: u) = 2 := fun u => if_pos hpair
        rw [hlen t]
        exact hlen w
      · have hlen : escapedLen (ch :: ch2 :: t) = 1 := if_neg hpair
        have hsame : escapedLen (ch :: w) = escapedLen (ch :: ch2 :: t) := by
          rw [hlen] at h
          exact escapedLen_congr h
        rw [hlen] at hsame ⊢
        exact hsame

theorem lineLength_local (q : Bool) (t : List UInt8) {y : List UInt8}
    (h : y.head? = (t.drop (lineLength q t)).head?) :
    lineLength q (t.take (lineLength q t) ++ y) = lineLength q t := by
  induction q, t using lineLength.induct with
  | case1 q =>
    rw [drop_nil] at h
    rw [head?_eq_none_iff.1 h, take_nil, append_nil]
  | case2 q t ih =>
    rw [lineLength_backslash, ← Nat.add_assoc, drop_succ_cons, Nat.add_comm,
      ← drop_drop] at h
    rw [lineLength_backslash, ← Nat.add_assoc, take_succ_cons, Nat.add_comm _ (escapedLen t),
      take_add, cons_append, append_assoc]
    have hlen := escapedLen_local (head?_take_append h)
    have htake := length_take_of_le (escapedLen_le t)
    rw [lineLength_backslash, hlen, drop_left' htake, ih h]
    omega
  | case3 q t hne ih =>
    rw [lineLength_quote, drop_succ_cons] at h
    rw [lineLength_quote, take_succ_cons, cons_append, lineLength_quote, ih h]
  | case4 q ch t hslash hquote hend =>
    obtain ⟨rfl, hend⟩ := hend
    rw [lineLength_end hend] at h ⊢
    obtain ⟨y', rfl⟩ : ∃ y', y = ch :: y' := ⟨y.tail, (cons_head?_tail h).symm⟩
    exact lineLength_end hend
  | case5 q ch t hslash hquote hend ih =>
    rw [lineLength_char hslash hquote hend, drop_succ_cons] at h
    rw [lineLength_char hslash hquote hend, take_succ_cons, cons_append,
      lineLength_char hslash hquote hend, ih h]

end Length

/-! ## Positions -/

/-- The first `=` is nowhere, or stands in the line. -/
def EqualsIn (lineStart i : ℕ) (equalsPos : ℤ) : Prop :=
  equalsPos = -1 ∨ (lineStart ≤ equalsPos ∧ equalsPos < i)

theorem EqualsIn.mono {lineStart i j : ℕ} {equalsPos : ℤ} (h : EqualsIn lineStart i equalsPos)
    (hij : i ≤ j) : EqualsIn lineStart j equalsPos :=
  h.imp_right fun ⟨hle, hlt⟩ => ⟨hle, by omega⟩

variable {data : List UInt8}

theorem drop_succ_of_drop {j : ℕ} {ch : UInt8} {t : List UInt8} (h : data.drop j = ch :: t) :
    data.drop (j + 1) = t := by
  rw [← drop_drop, h]
  rfl

theorem lt_of_drop {j : ℕ} {ch : UInt8} {t : List UInt8} (h : data.drop j = ch :: t) :
    j < data.length := by
  have hlen := congrArg List.length h
  rw [length_drop, length_cons] at hlen
  omega

theorem escapedEnd_eq {i : ℕ} {t : List UInt8} (h : data.drop i = t) :
    escapedEnd data i = .ok (i + escapedLen t) := by
  unfold escapedEnd
  cases t with
  | nil => rw [if_neg (not_lt.2 (drop_eq_nil_iff.1 h))]; rfl
  | cons ch t =>
    have hnext := drop_succ_of_drop h
    rw [if_pos (lt_of_drop h), elem_drop h, ok_bind]
    cases t with
    | nil => rw [if_neg (not_lt.2 (drop_eq_nil_iff.1 hnext))]; rfl
    | cons ch2 t =>
      rw [if_pos (lt_of_drop hnext), elem_drop hnext, ok_bind]
      by_cases hpair : isLineEndPair ch ch2 = true
      · have hlen : escapedLen (ch :: ch2 :: t) = 2 := if_pos hpair
        rw [if_pos hpair, hlen]
      · have hlen : escapedLen (ch :: ch2 :: t) = 1 := if_neg hpair
        rw [if_neg hpair, hlen]

/-- A round of the outer loop in a line: it stops where the line ends, or goes on in it. -/
def Goes (data : List UInt8) (s : LineScan) (r : Round) : Prop :=
  match r with
  | .out s' => s'.i = s.i + lineLength s.inQuotes (data.drop s.i) ∧ s'.lineStart = s.lineStart ∧
      EqualsIn s.lineStart s'.i s'.equalsPos
  | .next s' => s.i < s'.i ∧ s'.i ≤ data.length ∧ s'.lineStart = s.lineStart ∧
      EqualsIn s.lineStart s'.i s'.equalsPos ∧
      s'.i + lineLength s'.inQuotes (data.drop s'.i) =
        s.i + lineLength s.inQuotes (data.drop s.i)

variable {s : LineScan} {ch : UInt8} {t : List UInt8}

/-- A character of the line, wherever the `=` is. -/
theorem Goes.char (h : data.drop s.i = ch :: t) {equalsPos : ℤ} {inQuotes : Bool}
    (hequals : EqualsIn s.lineStart (s.i + 1) equalsPos)
    (hlen : lineLength s.inQuotes (ch :: t) = lineLength inQuotes t + 1) :
    Goes data s (.next ⟨s.i + 1, s.lineStart, equalsPos, inQuotes⟩) := by
  refine ⟨lt_succ_self _, lt_of_drop h, rfl, hequals, ?_⟩
  change s.i + 1 + lineLength inQuotes (data.drop (s.i + 1)) = _
  rw [drop_succ_of_drop h, h, hlen]
  omega

theorem Goes.out (h : data.drop s.i = ch :: t) (hequals : EqualsIn s.lineStart s.i s.equalsPos)
    (hquotes : s.inQuotes = false) (hend : endsLine ch = true) : Goes data s (.out s) := by
  refine ⟨?_, rfl, hequals⟩
  rw [h, hquotes, lineLength_end hend, Nat.add_zero]

/-- A newline or a semicolon after the first character of the line. -/
theorem Goes.ender (h : data.drop s.i = ch :: t) (hequals : EqualsIn s.lineStart s.i s.equalsPos)
    (hend : endsLine ch = true) :
    Goes data s
      (if s.inQuotes then .next { s with i := s.i + 1 } else .out { s with i := s.i }) := by
  obtain ⟨hslash, hquote⟩ := not_special_of_endsLine hend
  by_cases hquotes : s.inQuotes = true
  · rw [if_pos hquotes]
    refine .char h (hequals.mono (le_succ _)) ?_
    exact lineLength_char hslash hquote fun hout => by rw [hquotes] at hout; cases hout.1
  · rw [if_neg hquotes]
    exact .out h hequals (eq_false_iff.2 hquotes) hend

theorem semicolon_of_special (hspecial : isSpecial ch = true) (hequals : ch ≠ 0x3d)
    (hnewline : isNewline ch = false) (hslash : ch ≠ 0x5c) (hquote : ch ≠ 0x22) : ch = 0x3b := by
  unfold isNewline at hnewline
  unfold isSpecial at hspecial
  simp only [or_eq_true, beq_iff_eq, or_eq_false_iff, beq_eq_false_iff_ne] at *
  tauto

theorem specialRound_spec (h : data.drop s.i = ch :: t) (hspecial : isSpecial ch = true)
    (hfirst : s.i = s.lineStart → endsLine ch = false)
    (hle : s.lineStart ≤ s.i) (hequals : EqualsIn s.lineStart s.i s.equalsPos) :
    ∃ r, specialRound data s (s.i + 1) ch = .ok r ∧ Goes data s r := by
  have hnext : EqualsIn s.lineStart (s.i + 1) s.equalsPos := hequals.mono (le_succ _)
  have hstart : endsLine ch = true → ¬ s.i + 1 = s.lineStart + 1 := fun hend heq => by
    rw [hfirst (by omega)] at hend
    cases hend
  unfold specialRound
  by_cases hassign : ch = 0x3d
  · have hlen : lineLength s.inQuotes (ch :: t) = lineLength s.inQuotes t + 1 := by
      rw [hassign]
      exact lineLength_char (by decide) (by decide) fun hend => absurd hend.2 (by decide)
    rw [if_pos hassign]
    split
    · refine ⟨_, rfl, .char h (.inr ?_) hlen⟩
      push_cast
      omega
    · exact ⟨_, rfl, .char h hnext hlen⟩
  rw [if_neg hassign]
  by_cases hnewline : isNewline ch = true
  · have hend := endsLine_of_isNewline hnewline
    rw [if_pos hnewline, if_neg (hstart hend)]
    have hgoes := Goes.ender h hequals hend
    by_cases hquotes : s.inQuotes = true
    · rw [if_pos hquotes] at hgoes ⊢
      exact ⟨_, rfl, hgoes⟩
    · rw [if_neg hquotes] at hgoes ⊢
      exact ⟨_, rfl, hgoes⟩
  rw [if_neg hnewline]
  by_cases hslash : ch = 0x5c
  · rw [if_pos hslash, escapedEnd_eq (drop_succ_of_drop h), ok_bind]
    have hlt := lt_of_drop h
    have hle := escapedLen_le t
    rw [← drop_succ_of_drop h, length_drop] at hle
    refine ⟨_, rfl, by dsimp only; omega, by dsimp only; rw [← drop_succ_of_drop h]; omega, rfl,
      hequals.mono (by dsimp only; omega), ?_⟩
    dsimp only
    rw [← drop_drop, drop_succ_of_drop h, h, hslash, lineLength_backslash]
    omega
  rw [if_neg hslash]
  by_cases hquote : ch = 0x22
  · rw [if_pos hquote]
    refine ⟨_, rfl, .char h hnext ?_⟩
    rw [hquote, lineLength_quote]
  rw [if_neg hquote]
  have hsemicolon := semicolon_of_special hspecial hassign (eq_false_iff.2 hnewline)
    hslash hquote
  have hend : endsLine ch = true := by
    rw [hsemicolon]
    rfl
  rw [qAssert_pos hsemicolon, ok_bind, if_neg (hstart hend)]
  have hgoes := Goes.ender h hequals hend
  by_cases hquotes : s.inQuotes = true
  · rw [if_pos hquotes] at hgoes ⊢
    exact ⟨_, rfl, hgoes⟩
  · rw [if_neg hquotes] at hgoes ⊢
    exact ⟨_, rfl, hgoes⟩

theorem lineLength_plain (q : Bool) (t : List UInt8) :
    lineLength q t = (t.takeWhile fun ch => !isSpecial ch).length +
      lineLength q (t.dropWhile fun ch => !isSpecial ch) := by
  induction t with
  | nil =>
    rw [lineLength_nil, dropWhile_nil, lineLength_nil, takeWhile_nil, length_nil]
  | cons ch t ih =>
    by_cases hplain : (!isSpecial ch) = true
    · rw [takeWhile_cons_of_pos (p := fun ch => !isSpecial ch) hplain,
        dropWhile_cons_of_pos (p := fun ch => !isSpecial ch) hplain, length_cons]
      have hspecial : isSpecial ch = false := by simpa using hplain
      have hslash : ch ≠ 0x5c := by rintro rfl; cases hspecial
      have hquote : ch ≠ 0x22 := by rintro rfl; cases hspecial
      have hend : endsLine ch = false := by
        unfold isSpecial at hspecial
        unfold endsLine isNewline
        simp only [or_eq_false_iff] at hspecial ⊢
        tauto
      have hgoes : ¬ (q = false ∧ endsLine ch = true) := by
        rw [hend]
        exact fun h => false_ne_true h.2
      rw [lineLength_char hslash hquote hgoes, ih]
      omega
    · rw [takeWhile_cons_of_neg (p := fun ch => !isSpecial ch) hplain,
        dropWhile_cons_of_neg (p := fun ch => !isSpecial ch) hplain, length_nil,
        Nat.zero_add]

/-- The first character of the line, if it has come to no other yet, is none to end a line. -/
def FirstIn (data : List UInt8) (s : LineScan) : Prop :=
  s.i = s.lineStart → ∀ c, (data.drop s.i).head? = some c → endsLine c = false

theorem round_spec (hlt : s.i < data.length) (hfirst : FirstIn data s) (hle : s.lineStart ≤ s.i)
    (hequals : EqualsIn s.lineStart s.i s.equalsPos) :
    ∃ r, round data s = .ok r ∧ Goes data s r := by
  obtain ⟨k, hscan, hik, hk, hdrop, hlen⟩ :=
    scan_spec (fun ch => !isSpecial ch) (le_of_lt hlt)
  have hplain : k + lineLength s.inQuotes (data.drop k) =
      s.i + lineLength s.inQuotes (data.drop s.i) := by
    rw [lineLength_plain _ (data.drop s.i), hdrop]
    omega
  unfold round
  rw [hscan, ok_bind]
  by_cases hend : k = data.length
  · rw [if_pos hend]
    refine ⟨_, rfl, ?_, rfl, hequals.mono hik⟩
    rw [← hplain, hend, drop_length, lineLength_nil]
    rfl
  · rw [if_neg hend]
    obtain ⟨ch, t, hch⟩ : ∃ ch t, data.drop k = ch :: t :=
      exists_cons_of_ne_nil fun hnil => hend (le_antisymm hk (drop_eq_nil_iff.1 hnil))
    have hspecial : isSpecial ch = true := by
      have hhead : ((data.drop s.i).dropWhile fun ch => !isSpecial ch).head? = some ch := by
        rw [← hdrop, hch]
        rfl
      simpa using of_head?_dropWhile hhead
    rw [elem_drop hch, ok_bind]
    obtain ⟨r, hr, hgoes⟩ := specialRound_spec (s := { s with i := k }) hch hspecial
      (fun heq => by
        have hki : s.i = k := le_antisymm hik (le_trans (le_of_eq heq) hle)
        refine hfirst (hki.trans heq) ch ?_
        rw [hki, hch]
        rfl) (hle.trans hik) (hequals.mono hik)
    refine ⟨r, hr, ?_⟩
    cases r with
    | out s' => exact ⟨hgoes.1.trans hplain, hgoes.2⟩
    | next s' =>
      obtain ⟨hlt', hle', hstart, heq, hlen'⟩ := hgoes
      exact ⟨hik.trans_lt hlt', hle', hstart, heq, hlen'.trans hplain⟩

theorem outerLoop_line {rounds : ℕ} (hrounds : data.length < s.i + rounds)
    (hi : s.i ≤ data.length) (hfirst : FirstIn data s) (hle : s.lineStart ≤ s.i)
    (hequals : EqualsIn s.lineStart s.i s.equalsPos) :
    ∃ s', outerLoop data rounds s = .ok s' ∧ s'.lineStart = s.lineStart ∧
      s'.i = s.i + lineLength s.inQuotes (data.drop s.i) ∧
      EqualsIn s.lineStart s'.i s'.equalsPos := by
  induction rounds generalizing s with
  | zero => omega
  | succ rounds ih =>
    unfold outerLoop
    by_cases hlt : s.i < data.length
    · obtain ⟨r, hr, hgoes⟩ := round_spec hlt hfirst hle hequals
      rw [if_pos hlt, hr, ok_bind]
      cases r with
      | out s' => exact ⟨s', rfl, hgoes.2.1, hgoes.1, hgoes.2.2⟩
      | next s₁ =>
        obtain ⟨hlt₁, hle₁, hstart₁, hequals₁, hlen₁⟩ := hgoes
        rw [← hstart₁] at hequals₁
        obtain ⟨s', hs', hstart, hi', hequals'⟩ := ih (by omega) hle₁ (fun heq => by omega)
          (by omega) hequals₁
        rw [hstart₁] at hstart hequals'
        exact ⟨s', hs', hstart, hi'.trans hlen₁, hequals'⟩
    · rw [if_neg hlt]
      refine ⟨s, rfl, rfl, ?_, hequals⟩
      rw [drop_eq_nil_of_le (not_lt.1 hlt), lineLength_nil]
      rfl

theorem commentEnd_spec {i : ℕ} (h : i ≤ data.length) :
    ∃ j, commentEnd data i = .ok j ∧ i ≤ j ∧ j ≤ data.length ∧
      data.drop j =
        ((data.drop i).dropWhile fun ch => !isNewline ch).dropWhile isSpace := by
  obtain ⟨k, hscan, hik, hk, hdrop, -⟩ := scan_spec (fun ch => !isNewline ch) h
  obtain ⟨j, hscan', hkj, hj, hdrop', -⟩ := scan_spec isSpace hk
  unfold commentEnd
  rw [hscan, ok_bind]
  exact ⟨j, hscan', hik.trans hkj, hj, by rw [hdrop', hdrop]⟩

theorem round_comment {i : ℕ} (h : data.drop i = 0x3b :: t) :
    ∃ j, round data { i := i, lineStart := i } = .ok (.next { i := j, lineStart := j }) ∧ i < j ∧
      j ≤ data.length ∧ data.drop j = (t.dropWhile fun ch => !isNewline ch).dropWhile isSpace := by
  have hlt := lt_of_drop h
  obtain ⟨j, hend, hij, hj, hdrop⟩ := commentEnd_spec (i := i + 1) hlt
  rw [drop_succ_of_drop h] at hdrop
  refine ⟨j, ?_, hij, hj, hdrop⟩
  have hscan : scan data (fun ch => !isSpecial ch) data.length i = .ok i := by
    rw [scan_eq (by omega), h]
    rfl
  unfold round
  rw [hscan, ok_bind, if_neg (Nat.ne_of_lt hlt), elem_drop h, ok_bind]
  unfold specialRound
  rw [if_neg (by decide), if_neg (by decide), if_neg (by decide), if_neg (by decide),
    qAssert_pos rfl, ok_bind, if_pos rfl, hend]
  rfl

/-- From where spaces have been skipped, the outer loop skips comments and takes a line. -/
theorem outerLoop_start {rounds i : ℕ} (hrounds : data.length < i + rounds) (hi : i ≤ data.length)
    (hspace : ∀ c, (data.drop i).head? = some c → isSpace c = false) :
    ∃ s', outerLoop data rounds { i := i, lineStart := i } = .ok s' ∧ i ≤ s'.lineStart ∧
      data.drop s'.lineStart = skipBlank (data.drop i) ∧
      s'.i = s'.lineStart + lineLength false (data.drop s'.lineStart) ∧
      s'.lineStart ≤ data.length ∧ EqualsIn s'.lineStart s'.i s'.equalsPos := by
  induction rounds generalizing i with
  | zero => omega
  | succ rounds ih =>
    by_cases hcomment : (data.drop i).head? = some 0x3b
    · obtain ⟨t, ht⟩ : ∃ t, data.drop i = 0x3b :: t :=
        ⟨(data.drop i).tail, (cons_head?_tail hcomment).symm⟩
      obtain ⟨j, hround, hij, hj, hdrop⟩ := round_comment ht
      have hspace' : ∀ c, (data.drop j).head? = some c → isSpace c = false := fun c hc => by
        rw [hdrop] at hc
        exact of_head?_dropWhile hc
      obtain ⟨s', hs', hstart, htext, hlen, hle, hequals⟩ := ih (by omega) hj hspace'
      refine ⟨s', ?_, by omega, ?_, hlen, hle, hequals⟩
      · unfold outerLoop
        rw [if_pos (lt_of_drop ht), hround, ok_bind]
        exact hs'
      · have hcomment' := skipBlank_comment (t := 0x3b :: t) rfl
        rw [htext, hdrop, ht, hcomment']
        exact skipBlank_congr (dropWhile_idempotent _ _)
    · have htext : skipBlank (data.drop i) = data.drop i :=
        skipBlank_self fun c hc => ⟨hspace c hc, fun h => hcomment (h ▸ hc)⟩
      obtain ⟨s', hs', hstart, hlen, hequals⟩ := outerLoop_line (s := { i := i, lineStart := i })
        hrounds hi (fun _ c hc => endsLine_of_text (hspace c hc) fun h => hcomment (h ▸ hc))
        (le_refl i) (.inl rfl)
      rw [← hstart] at hequals
      refine ⟨s', hs', le_of_eq hstart.symm, by rw [hstart, htext], ?_, ?_, hequals⟩
      · rw [hlen, hstart]
      · simp [hstart, hi]

/-- What `readIniLine` finds from `dataPos` on. -/
structure LineAt (data : List UInt8) (dataPos : ℕ) (line : Line) : Prop where
  start_ge : dataPos ≤ line.lineStart
  start_le : line.lineStart ≤ data.length
  text_eq : data.drop line.lineStart = skipBlank (data.drop dataPos)
  pos_eq : line.dataPos = line.lineStart + lineLength false (data.drop line.lineStart)
  len_eq : line.lineLen = lineLength false (data.drop line.lineStart)
  equals : EqualsIn line.lineStart line.dataPos line.equalsPos

theorem LineAt.pos_le {dataPos : ℕ} {line : Line} (h : LineAt data dataPos line) :
    line.dataPos ≤ data.length := by
  have hle := lineLength_le false (data.drop line.lineStart)
  have hstart := h.start_le
  rw [length_drop] at hle
  rw [h.pos_eq]
  omega

theorem readIniLine_spec {dataPos : ℕ} (h : dataPos ≤ data.length) :
    ∃ line, readIniLine data dataPos =
        .ok (decide (skipBlank (data.drop dataPos) ≠ []), line) ∧ LineAt data dataPos line := by
  obtain ⟨i, hscan, hpos, hi, hdrop, -⟩ := scan_spec isSpace h
  have hrounds : data.length < i + (data.length + 1) := by omega
  obtain ⟨s, hs, hstart, htext, hlen, hle, hequals⟩ :=
    outerLoop_start hrounds hi fun c hc => by
      rw [hdrop] at hc
      exact of_head?_dropWhile hc
  have hskip : skipBlank (data.drop i) = skipBlank (data.drop dataPos) := by
    rw [hdrop]
    exact skipBlank_congr (dropWhile_idempotent _ _)
  have hint : (s.i : ℤ) - s.lineStart = lineLength false (data.drop s.lineStart) := by omega
  refine ⟨⟨s.i, s.lineStart, s.i - s.lineStart, s.equalsPos⟩, ?_,
    ⟨hpos.trans hstart, hle, htext.trans hskip, hlen, hint, hequals⟩⟩
  unfold readIniLine
  rw [hscan, ok_bind, hs, ok_bind]
  have hfound : (s.i : ℤ) - s.lineStart > 0 ↔ skipBlank (data.drop dataPos) ≠ [] := by
    rw [hint, htext, hskip]
    constructor
    · rintro hpos hnil
      rw [hnil, lineLength_nil] at hpos
      exact absurd hpos (by decide)
    · intro hne
      obtain ⟨c, u, hu⟩ := exists_cons_of_ne_nil hne
      have hhead : (skipBlank (data.drop dataPos)).head? = some c := by rw [hu]; rfl
      obtain ⟨hspace, hsemicolon⟩ := skipBlank_head hhead
      rw [hu]
      exact Int.natCast_pos.2 (lineLength_pos (endsLine_of_text hspace hsemicolon))
  have hdecide : decide ((s.i : ℤ) - s.lineStart > 0) =
      decide (skipBlank (data.drop dataPos) ≠ []) := decide_eq_decide.2 hfound
  dsimp only
  rw [hdecide]
  rfl

/-- " a=b;c" -/
example : readIniLine [0x20, 0x61, 0x3d, 0x62, 0x3b, 0x63] 0 = .ok (true, ⟨4, 1, 3, 2⟩) := rfl

end QtBase.Ini
