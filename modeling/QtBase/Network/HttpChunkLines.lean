import QtBase.Network.HttpChunkedRun

/-! The size lines that `readReplyBodyChunked` reads, whatever bytes arrive, and what they say when
the reply is done. -/
namespace QtBase.Http

open List

/-- The line whose end the loop of `getChunkSize` finds. -/
def lineLoop (bytesAvailable : ℤ) : List UInt8 → List UInt8 → ℤ → Option (List UInt8)
  | _, [], _ => none
  | fragment, c :: socket, bytes =>
    if bytesAvailable > bytes then
      if (fragment ≠ [] ∧ c = cr ∧ socket.head? = some lf) ∨
          (fragment.length > 1 ∧ fragment.getLast? = some cr ∧ c = lf) then some fragment
      else lineLoop bytesAvailable (fragment ++ [c]) socket (bytes + 1)
    else none

def lineRead (fragment socket : List UInt8) : Option (List UInt8) :=
  lineLoop (toInt socket.length) fragment socket 0

namespace Reading

/-- The line that `beginChunk` comes to the end of. -/
def line (x : Reading) : Option (List UInt8) :=
  if ¬ x.d.lastChunkRead ∧ x.d.currentChunkRead ≥ x.d.currentChunkSize then
    if x.bytes ≠ 0 then
      if (x.socket.take 2).length ≠ (2 : ℤ) then none else lineRead x.d.fragment (x.socket.drop 2)
    else lineRead x.d.fragment x.socket
  else none

end Reading

/-- The size lines that the loop of `readReplyBodyChunked` reads. -/
def linesRead (longMax : ℤ) : ℕ → Reading → List (List UInt8)
  | 0, _ => []
  | k + 1, x =>
    if x.socket = [] then []
    else if x.d.readBufferMaxSize ≠ 0 ∧ x.bytes > x.d.readBufferMaxSize then []
    else
      let line := x.line.toList
      let (x, more) := x.beginChunk longMax
      if ¬ more then line
      else if x.d.currentChunkSize = 0 ∨ x.d.lastChunkRead then line
      else match readReplyBodyRaw x.d x.socket x.out (x.d.currentChunkSize - x.d.currentChunkRead)
        with
        | .error _ => line
        | .ok (haveRead, socket, out) => line ++ linesRead longMax k { x with
            d := { x.d with currentChunkRead := x.d.currentChunkRead + haveRead }
            socket, out, bytes := x.bytes + haveRead }

/-- The size lines that the call after a piece reads. -/
def receiveLines (longMax : ℤ) (x : Connection) (piece : List UInt8) : List (List UInt8) :=
  if x.d.state = .AllDoneState then []
  else linesRead longMax ((x.socket ++ piece).length + 1) ⟨x.d, x.socket ++ piece, x.out, 0⟩

def runLines (longMax : ℤ) : Connection → List (List UInt8) → List (List UInt8)
  | _, [] => []
  | x, piece :: pieces => receiveLines longMax x piece ++
    match receive longMax x piece with
    | .error _ => []
    | .ok x => runLines longMax x pieces

/-- The text of a size line: cut at the semicolon, without the blanks around it. -/
def sizeText (line : List UInt8) : List UInt8 := trimmed (line.takeWhile (· ≠ semicolon))

/-- A number of 63 bits in hexadecimal digits. -/
structure HexNumber (text : List UInt8) : Prop where
  ne_nil : text ≠ []
  digits : ∀ d ∈ text, isHexDigit d = true
  small : hexValue text < 2 ^ 63

/-- All size lines are numbers, and the last one is zero. -/
def SizesEnd (lines : List (List UInt8)) : Prop :=
  (∀ line ∈ lines, HexNumber (sizeText line)) ∧
    ∃ line, lines.getLast? = some line ∧ hexValue (sizeText line) = 0

/-- Nothing that `toLong` takes before, between or behind the digits. -/
structure Plain (text : List UInt8) : Prop where
  minus : text.head? ≠ some 45
  plus : text.head? ≠ some 43
  base : ¬ (text.head? = some 48 ∧ (text.tail.head? = some 120 ∨ text.tail.head? = some 88))
  nul : 0 ∉ text

/-- The last size line says nothing but zeros, and the others are plain. -/
def ZerosEnd (lines : List (List UInt8)) : Prop :=
  ∃ front line, lines = front ++ [line] ∧ (∀ l ∈ front, Plain (sizeText l)) ∧
    sizeText line ≠ [] ∧ ∀ c ∈ sizeText line, c = 48

/-! ## The texts -/

theorem HexNumber.plain {text : List UInt8} (h : HexNumber text) : Plain text := by
  have hnot : ∀ c : UInt8, isHexDigit c = false → c ∉ text := by
    intro c hc hmem
    rw [h.digits c hmem] at hc
    cases hc
  refine ⟨fun hm => hnot 45 (by decide) (mem_of_mem_head? hm),
    fun hm => hnot 43 (by decide) (mem_of_mem_head? hm), ?_, hnot 0 (by decide)⟩
  rintro ⟨-, hx | hx⟩
  · exact hnot 120 (by decide) (mem_of_mem_tail (mem_of_mem_head? hx))
  · exact hnot 88 (by decide) (mem_of_mem_tail (mem_of_mem_head? hx))

theorem digitValue_zero {d : UInt8} (hd : isHexDigit d = true) (h : digitValue d = 0) : d = 48 := by
  have h48 : (48 : UInt8).toNat = 48 := rfl
  unfold isHexDigit at hd
  unfold digitValue at h
  simp only [Bool.or_eq_true, Bool.and_eq_true, decide_eq_true_eq, UInt8.le_iff_toNat_le,
    UInt8.toNat_ofNat] at hd h
  rw [← UInt8.toNat_inj, h48]
  split_ifs at h <;> omega

variable {text : List UInt8}

theorem foldl_eq_zero_iff (h : ∀ d ∈ text, isHexDigit d = true) (n : ℕ) :
    text.foldl (fun n d => 16 * n + digitValue d) n = 0 ↔ n = 0 ∧ ∀ c ∈ text, c = 48 := by
  induction text generalizing n with
  | nil => simp
  | cons d text ih =>
    have hd : digitValue d = 0 ↔ d = 48 := ⟨digitValue_zero (h d (by simp)), fun h => h ▸ rfl⟩
    have hsum : 16 * n + digitValue d = 0 ↔ n = 0 ∧ d = 48 := by
      rw [← hd]
      omega
    rw [foldl_cons, ih (fun c hc => h c (mem_cons_of_mem _ hc)), hsum,
      forall_mem_cons, and_assoc]

theorem hexValue_eq_zero_iff (h : ∀ d ∈ text, isHexDigit d = true) :
    hexValue text = 0 ↔ ∀ c ∈ text, c = 48 := by
  rw [hexValue, foldl_eq_zero_iff h, and_iff_right rfl]

theorem hexNumber_zeros (hne : text ≠ []) (h : ∀ c ∈ text, c = 48) :
    HexNumber text ∧ hexValue text = 0 := by
  have hdigits : ∀ d ∈ text, isHexDigit d = true := by
    intro d hd
    rw [h d hd]
    decide
  have hzero := (hexValue_eq_zero_iff hdigits).mpr h
  exact ⟨⟨hne, hdigits, by omega⟩, hzero⟩

theorem trimmed_ends (data : List UInt8) :
    (trimmed data).dropWhile isSpace = trimmed data ∧
      ∀ c, (trimmed data).getLast? = some c → isSpace c = false := by
  have hlast : ∀ c, (trimmed data).getLast? = some c → isSpace c = false := by
    intro c hc
    rw [trimmed, getLast?_reverse] at hc
    have := head?_dropWhile_not isSpace (data.dropWhile isSpace).reverse
    rw [hc] at this
    simpa using this
  refine ⟨?_, hlast⟩
  have hfirst := head?_dropWhile_not isSpace data
  obtain ⟨post, hpost⟩ : trimmed data <+: data.dropWhile isSpace := by
    rw [trimmed, ← reverse_suffix, reverse_reverse]
    exact dropWhile_suffix _
  cases ht : trimmed data with
  | nil => rfl
  | cons c cs =>
    rw [ht] at hpost
    rw [← hpost] at hfirst
    exact dropWhile_eq_self (by simpa using hfirst)

theorem digits_of_blanks (hlast : ∀ c, text.getLast? = some c → isSpace c = false)
    (hblanks : ∀ c ∈ text.dropWhile isHexDigit, isSpace c = true) :
    ∀ d ∈ text, isHexDigit d = true := by
  by_contra hnot
  have hne : text.dropWhile isHexDigit ≠ [] := fun h => hnot (dropWhile_eq_nil_iff.mp h)
  obtain ⟨c, hc⟩ : ∃ c, (text.dropWhile isHexDigit).getLast? = some c :=
    ⟨_, getLast?_eq_some_getLast hne⟩
  have htext : text.getLast? = some c := by
    rw [← takeWhile_append_dropWhile (p := isHexDigit) (l := text), getLast?_append, hc]
    rfl
  have hspace := hblanks c (mem_of_getLast? hc)
  rw [hlast c htext] at hspace
  cases hspace

theorem hexNumber_of_toLong {longMax : ℤ} {data : List UInt8} (hmax : longMax < 2 ^ 63)
    (hplain : Plain (trimmed data)) (h : toLong longMax (trimmed data) ≠ 0) :
    HexNumber (trimmed data) := by
  obtain ⟨hfront, hlast⟩ := trimmed_ends data
  generalize trimmed data = text at hplain h hfront hlast
  have hnul : ∀ rest : List UInt8, rest <:+ text → rest.head? ≠ some 0 := fun rest hrest h0 =>
    hplain.nul (hrest.subset (mem_of_mem_head? h0))
  have hrest := dropWhile_suffix isHexDigit (l := text)
  have hblanks := (dropWhile_suffix isSpace (l := text.dropWhile isHexDigit)).trans hrest
  unfold toLong at h
  simp only [hfront, hplain.minus, hplain.plus, hplain.base, hnul _ hrest, hnul _ hblanks, or_self,
    or_false, if_false] at h
  split_ifs at h with hread
  · obtain ⟨hdigits, hnil, -, hle⟩ := hread
    have hall := digits_of_blanks hlast (dropWhile_eq_nil_iff.mp hnil)
    rw [takeWhile_eq_self_iff.mpr hall] at hdigits hle
    exact ⟨hdigits, hall, by omega⟩
  · exact absurd rfl h

/-! ## The calls -/

theorem getChunkSizeLoop_line {longMax bytesAvailable : ℤ} (fragment socket : List UInt8)
    (bytes : ℤ) :
    ∃ n f' socket' size,
      getChunkSizeLoop longMax bytesAvailable fragment socket bytes = (n, f', socket', size) ∧
      bytes ≤ n ∧
      (lineLoop bytesAvailable fragment socket bytes = none → size = -1) ∧
      ∀ line, lineLoop bytesAvailable fragment socket bytes = some line →
        size = chunkSizeOf longMax line ∧ socket'.length < socket.length := by
  induction socket generalizing fragment bytes with
  | nil => exact ⟨_, _, _, _, rfl, le_rfl, fun _ => rfl, fun _ h => by cases h⟩
  | cons c socket ih =>
    by_cases hmore : bytesAvailable > bytes
    · rw [lineLoop, if_pos hmore]
      by_cases hfound : (fragment ≠ [] ∧ c = cr ∧ socket.head? = some lf) ∨
          (fragment.length > 1 ∧ fragment.getLast? = some cr ∧ c = lf)
      · rw [getChunkSizeLoop_end hmore hfound, if_pos hfound]
        by_cases hcr : c = cr
        · rw [if_pos hcr]
          refine ⟨_, _, _, _, rfl, by omega, (fun h => by cases h), ?_⟩
          rintro line ⟨⟩
          exact ⟨rfl, by rw [length_tail, length_cons]; omega⟩
        · rw [if_neg hcr]
          refine ⟨_, _, _, _, rfl, by omega, (fun h => by cases h), ?_⟩
          rintro line ⟨⟩
          exact ⟨rfl, Nat.lt_succ_self _⟩
      · rw [getChunkSizeLoop_next hmore hfound, if_neg hfound]
        obtain ⟨n, f', socket', size, hrun, hn, hnone, hsome⟩ := ih (fragment ++ [c]) (bytes + 1)
        exact ⟨n, f', socket', size, hrun, by omega, hnone, fun line hline =>
          ⟨(hsome line hline).1, Nat.lt_succ_of_lt (hsome line hline).2⟩⟩
    · rw [lineLoop, if_neg hmore, getChunkSizeLoop, if_neg hmore]
      exact ⟨_, _, _, _, rfl, le_rfl, fun _ => rfl, fun _ h => by cases h⟩

theorem readRawLoop_returns {k : ℕ} {toBeRead size : ℤ} {socket out : List UInt8} {bytes : ℤ}
    (hk : socket.length < k) : ∃ n socket' out',
      readRawLoop k toBeRead size socket out bytes = .ok (n, socket', out') ∧ bytes ≤ n ∧
      socket'.length ≤ socket.length := by
  induction k generalizing toBeRead size socket out bytes with
  | zero => omega
  | succ k ih =>
    rw [readRawLoop]
    by_cases hpos : toBeRead > 0
    · rw [if_pos hpos]
      dsimp only
      by_cases hnone : ((socket.take toBeRead.toNat).length : ℤ) ≤ 0
      · rw [if_pos hnone]
        exact ⟨_, _, _, rfl, le_rfl, by rw [length_drop]; omega⟩
      · rw [if_neg hnone]
        have hshort : (socket.drop toBeRead.toNat).length < k := by
          rw [length_take] at hnone
          simp
          omega
        obtain ⟨n, socket', out', hrun, hn, hle⟩ := ih hshort
        exact ⟨n, socket', out', hrun, by omega, hle.trans (by rw [length_drop]; omega)⟩
    · rw [if_neg hpos]
      exact ⟨_, _, _, rfl, le_rfl, le_rfl⟩

theorem readReplyBodyRaw_returns (d : QHttpNetworkReplyPrivate) (socket out : List UInt8)
    (size : ℤ) : ∃ n socket' out',
      readReplyBodyRaw d socket out size = .ok (n, socket', out') ∧ 0 ≤ n ∧
      socket'.length ≤ socket.length :=
  readRawLoop_returns (Nat.lt_succ_self _)

/-- What `beginChunk` does: nothing inside a chunk, or the line does not end yet, or it ends. -/
inductive Begins (longMax : ℤ) (x : Reading) : Prop
  | inside (hbegin : x.beginChunk longMax = (x, true)) (hline : x.line = none)
      (hread : x.d.lastChunkRead = true ∨ x.d.currentChunkRead < x.d.currentChunkSize)
  | waits (x' : Reading) (hbegin : x.beginChunk longMax = (x', false)) (hline : x.line = none)
      (hlast : x.d.lastChunkRead = false) (hlast' : x'.d.lastChunkRead = false)
      (hread : x'.d.currentChunkRead = 0) (hstate : x'.d.state = x.d.state)
  | ends (line : List UInt8) (x' : Reading)
      (hbegin : x.beginChunk longMax = (x', decide (x'.d.currentChunkSize ≠ -1)))
      (hline : x.line = some line) (hlast : x.d.lastChunkRead = false)
      (hlast' : x'.d.lastChunkRead = false)
      (hread : x'.d.currentChunkRead = 0) (hstate : x'.d.state = x.d.state)
      (hsize : x'.d.currentChunkSize = chunkSizeOf longMax line) (hbytes : x.bytes ≤ x'.bytes)
      (hsocket : x'.socket.length < x.socket.length)

theorem begins_getChunkSize {longMax : ℤ} {x y : Reading} (hlast : x.d.lastChunkRead = false)
    (hbegin : x.beginChunk longMax =
      (y.getChunkSize longMax, decide ((y.getChunkSize longMax).d.currentChunkSize ≠ -1)))
    (hline : x.line = lineRead y.d.fragment y.socket) (hy : y.d.lastChunkRead = false)
    (hread : y.d.currentChunkRead = 0) (hstate : y.d.state = x.d.state)
    (hbytes : x.bytes ≤ y.bytes) (hsocket : y.socket.length ≤ x.socket.length) :
    Begins longMax x := by
  obtain ⟨n, f', socket', size, hrun, hn, hnone, hsome⟩ :=
    @getChunkSizeLoop_line longMax (toInt y.socket.length) y.d.fragment y.socket 0
  have hget : y.getChunkSize longMax = ⟨{ y.d with fragment := f', currentChunkSize := size },
      socket', y.out, y.bytes + n⟩ := by
    rw [Reading.getChunkSize, Http.getChunkSize, hrun]
  rw [hget] at hbegin
  cases hl : lineRead y.d.fragment y.socket with
  | none =>
    rw [hnone hl] at hbegin
    exact .waits _ hbegin (hline.trans hl) hlast hy hread hstate
  | some line =>
    obtain ⟨hsize, hlen⟩ := hsome line hl
    exact .ends line _ hbegin (hline.trans hl) hlast hy hread hstate hsize
      (by dsimp only; omega) (lt_of_lt_of_le hlen hsocket)

theorem begins (longMax : ℤ) (x : Reading) : Begins longMax x := by
  by_cases hbetween : ¬ x.d.lastChunkRead ∧ x.d.currentChunkRead ≥ x.d.currentChunkSize
  · have hlast : x.d.lastChunkRead = false := by simpa using hbetween.1
    by_cases hbytes : x.bytes ≠ 0
    · by_cases hcrlf : (x.socket.take 2).length ≠ (2 : ℤ)
      · refine .waits { x with
          d := { x.d with currentChunkSize := 0, currentChunkRead := 0 }
          socket := x.socket.drop 2 } ?_ ?_ hlast hlast rfl rfl
        · rw [Reading.beginChunk, if_pos hbetween]
          dsimp only
          rw [if_pos hbytes, if_pos hcrlf]
        · rw [Reading.line, if_pos hbetween, if_pos hbytes, if_pos hcrlf]
      · refine @begins_getChunkSize longMax x { x with
          d := { x.d with currentChunkSize := 0, currentChunkRead := 0 }
          socket := x.socket.drop 2
          bytes := x.bytes + (x.socket.take 2).length } hlast ?_ ?_ hlast rfl rfl ?_ ?_
        · rw [Reading.beginChunk, if_pos hbetween]
          dsimp only
          rw [if_pos hbytes, if_neg hcrlf]
        · rw [Reading.line, if_pos hbetween, if_pos hbytes, if_neg hcrlf]
        · dsimp only
          omega
        · simp
    · refine @begins_getChunkSize longMax x { x with
        d := { x.d with currentChunkSize := 0, currentChunkRead := 0 } } hlast ?_ ?_ hlast rfl rfl
          le_rfl le_rfl
      · rw [Reading.beginChunk, if_pos hbetween]
        simp [hbytes]
      · rw [Reading.line, if_pos hbetween, if_neg hbytes]
  · refine .inside ?_ ?_ ?_
    · rw [Reading.beginChunk, if_neg hbetween]
    · rw [Reading.line, if_neg hbetween]
    · rw [not_and_or, not_not] at hbetween
      exact hbetween.imp_right lt_of_not_ge

/-- What the size lines that were read say of the reply: the one that is read as zero, if any, was
the last. -/
structure Sized (longMax : ℤ) (d : QHttpNetworkReplyPrivate) (lines : List (List UInt8)) :
    Prop where
  read : 0 ≤ d.currentChunkRead
  done : d.state = .AllDoneState → d.lastChunkRead = true
  more : d.lastChunkRead = false → ∀ line ∈ lines, chunkSizeOf longMax line ≠ 0
  last : d.lastChunkRead = true → ∃ front line, lines = front ++ [line] ∧
    (∀ l ∈ front, chunkSizeOf longMax l ≠ 0) ∧ chunkSizeOf longMax line = 0

namespace Sized

variable {longMax : ℤ} {d d' : QHttpNetworkReplyPrivate} {lines : List (List UInt8)}

/-- As long as no line is read as zero. -/
theorem of_more (hread : 0 ≤ d.currentChunkRead) (hstate : d.state ≠ .AllDoneState)
    (hlast : d.lastChunkRead = false) (hmore : ∀ line ∈ lines, chunkSizeOf longMax line ≠ 0) :
    Sized longMax d lines :=
  ⟨hread, fun h => absurd h hstate, fun _ => hmore, fun h => by simp [hlast] at h⟩

theorem not_done (h : Sized longMax d lines) (hlast : d.lastChunkRead = false) :
    d.state ≠ .AllDoneState := by
  intro hstate
  rw [h.done hstate] at hlast
  cases hlast

/-- One more line that is not read as zero. -/
theorem append (h : Sized longMax d lines) (hlast : d.lastChunkRead = false) {line : List UInt8}
    (hline : chunkSizeOf longMax line ≠ 0) :
    ∀ l ∈ lines ++ [line], chunkSizeOf longMax l ≠ 0 := by
  intro l hl
  rcases mem_append.mp hl with hl | hl
  · exact h.more hlast l hl
  · rwa [mem_singleton.mp hl]

/-- The end of the stream is awaited. -/
theorem finish {x : Reading} (hread : 0 ≤ x.d.currentChunkRead)
    (hlast : ∃ front line, lines = front ++ [line] ∧
      (∀ l ∈ front, chunkSizeOf longMax l ≠ 0) ∧ chunkSizeOf longMax line = 0) :
    Sized longMax x.finish.d lines := by
  have hfinish : x.finish.d.lastChunkRead = true ∧
      x.finish.d.currentChunkRead = x.d.currentChunkRead := by
    unfold Reading.finish
    dsimp only
    split_ifs <;> exact ⟨rfl, rfl⟩
  exact ⟨hfinish.2 ▸ hread, fun _ => hfinish.1, fun h => by simp [hfinish.1] at h, fun _ => hlast⟩

end Sized

/-- The loop returns with `k` turns left, and its lines are those of the reply. -/
def LoopSized (longMax : ℤ) (k : ℕ) : Prop :=
  ∀ {x : Reading} {lines : List (List UInt8)}, x.socket.length < k → 0 ≤ x.bytes →
    Sized longMax x.d lines →
    ∃ x', chunkedLoop longMax k x = .ok x' ∧ Sized longMax x'.d (lines ++ linesRead longMax k x)

theorem turn_sized {longMax : ℤ} {k : ℕ} {x x₁ : Reading} {lines line : List (List UInt8)}
    (ih : LoopSized longMax k) (hsocket : x.socket ≠ [])
    (hlimit : ¬ (x.d.readBufferMaxSize ≠ 0 ∧ x.bytes > x.d.readBufferMaxSize))
    (hbegin : x.beginChunk longMax = (x₁, true))
    (hend : ¬ (x₁.d.currentChunkSize = 0 ∨ x₁.d.lastChunkRead)) (hbytes : 0 ≤ x₁.bytes)
    (hshort : ∀ n socket out, readReplyBodyRaw x₁.d x₁.socket x₁.out
      (x₁.d.currentChunkSize - x₁.d.currentChunkRead) = .ok (n, socket, out) → socket.length < k)
    (h : Sized longMax x₁.d (lines ++ line)) :
    ∃ x', chunkedLoop longMax (k + 1) x = .ok x' ∧ Sized longMax x'.d (lines ++
      match readReplyBodyRaw x₁.d x₁.socket x₁.out
        (x₁.d.currentChunkSize - x₁.d.currentChunkRead) with
      | .error _ => line
      | .ok (haveRead, socket, out) => line ++ linesRead longMax k { x₁ with
          d := { x₁.d with currentChunkRead := x₁.d.currentChunkRead + haveRead }
          socket, out, bytes := x₁.bytes + haveRead }) := by
  obtain ⟨n, socket, out, hraw, hn, -⟩ := readReplyBodyRaw_returns x₁.d x₁.socket x₁.out
    (x₁.d.currentChunkSize - x₁.d.currentChunkRead)
  rw [chunkedLoop_more hsocket hlimit hbegin hend hraw, hraw]
  dsimp only
  rw [← append_assoc]
  have hread := h.read
  exact ih (hshort n socket out hraw) (by dsimp only; omega)
    ⟨by dsimp only; omega, h.done, h.more, h.last⟩

theorem loopSized (longMax : ℤ) (k : ℕ) : LoopSized longMax k := by
  induction k with
  | zero => exact fun hk => absurd hk (Nat.not_lt_zero _)
  | succ k ih =>
    intro x lines hk hbytes h
    by_cases hsocket : x.socket = []
    · refine ⟨x, by rw [chunkedLoop, if_pos hsocket], ?_⟩
      rw [linesRead, if_pos hsocket, append_nil]
      exact h
    by_cases hlimit : x.d.readBufferMaxSize ≠ 0 ∧ x.bytes > x.d.readBufferMaxSize
    · refine ⟨x, by rw [chunkedLoop, if_neg hsocket, if_pos hlimit], ?_⟩
      rw [linesRead, if_neg hsocket, if_pos hlimit, append_nil]
      exact h
    rw [linesRead, if_neg hsocket, if_neg hlimit]
    cases begins longMax x with
    | inside hbegin hline hread =>
      rw [hbegin, hline]
      dsimp only
      rw [if_neg (by simp)]
      by_cases hlast : x.d.lastChunkRead = true
      · rw [if_pos (.inr hlast)]
        refine ⟨_, chunkedLoop_finish hsocket hlimit hbegin (.inr hlast), ?_⟩
        rw [Option.toList_none, append_nil]
        exact .finish h.read (h.last hlast)
      · have hsize : x.d.currentChunkRead < x.d.currentChunkSize := hread.resolve_left hlast
        have hend : ¬ (x.d.currentChunkSize = 0 ∨ x.d.lastChunkRead) := by
          have := h.read
          rintro (h0 | h0)
          · omega
          · exact hlast h0
        rw [if_neg hend]
        refine turn_sized ih hsocket hlimit hbegin hend hbytes ?_
          (by rwa [Option.toList_none, append_nil])
        intro n socket out hraw
        have hmax : 0 ≤ x.d.readBufferMaxSize := by omega
        rw [readReplyBodyRaw_spec hmax (by omega)] at hraw
        obtain ⟨-, rfl, -⟩ : _ ∧ _ ∧ _ := by simpa using Except.ok.inj hraw
        have := length_pos_iff.mpr hsocket
        simp
        omega
    | waits x' hbegin hline hlast hlast' hread hstate =>
      rw [hbegin, hline]
      refine ⟨x', chunkedLoop_return hsocket hlimit hbegin, ?_⟩
      simp only [Bool.false_eq_true, not_false_eq_true, if_true, Option.toList_none,
        append_nil]
      exact .of_more hread.ge (hstate ▸ h.not_done hlast) hlast' (h.more hlast)
    | ends line x' hbegin hline hlast hlast' hread hstate hsize hbytes' hshort =>
      rw [hbegin, hline, Option.toList_some]
      dsimp only
      by_cases hminus : x'.d.currentChunkSize = -1
      · rw [decide_eq_false (by simp [hminus])] at hbegin
        refine ⟨x', chunkedLoop_return hsocket hlimit hbegin, ?_⟩
        rw [if_pos (by simp [hminus])]
        exact .of_more hread.ge (hstate ▸ h.not_done hlast) hlast'
          (h.append hlast (by rw [← hsize, hminus]; decide))
      rw [decide_eq_true hminus] at hbegin
      rw [if_neg (by simp [hminus])]
      by_cases hzero : x'.d.currentChunkSize = 0
      · rw [if_pos (.inl hzero)]
        exact ⟨_, chunkedLoop_finish hsocket hlimit hbegin (.inl hzero),
          .finish hread.ge ⟨lines, line, rfl, h.more hlast, by rw [← hsize, hzero]⟩⟩
      · have hend : ¬ (x'.d.currentChunkSize = 0 ∨ x'.d.lastChunkRead) := by simp [hzero, hlast']
        rw [if_neg hend]
        refine turn_sized ih hsocket hlimit hbegin hend (by omega) ?_ ?_
        · intro n socket out hraw
          obtain ⟨n', socket', out', hraw', -, hle⟩ := readReplyBodyRaw_returns x'.d x'.socket
            x'.out (x'.d.currentChunkSize - x'.d.currentChunkRead)
          rw [hraw'] at hraw
          obtain ⟨-, rfl, -⟩ : _ ∧ _ ∧ _ := by simpa using Except.ok.inj hraw
          omega
        · exact .of_more hread.ge (hstate ▸ h.not_done hlast) hlast'
            (h.append hlast (hsize ▸ hzero))

theorem receive_sized {longMax : ℤ} {x : Connection} {lines : List (List UInt8)}
    (piece : List UInt8) (h : Sized longMax x.d lines) :
    ∃ x', receive longMax x piece = .ok x' ∧
      Sized longMax x'.d (lines ++ receiveLines longMax x piece) := by
  rw [receive, receiveLines]
  by_cases hstate : x.d.state = .AllDoneState
  · rw [if_pos hstate, if_pos hstate, append_nil]
    exact ⟨_, rfl, h⟩
  · rw [if_neg hstate, if_neg hstate]
    obtain ⟨r, hrun, hr⟩ := loopSized longMax _ (Nat.lt_succ_self _)
      (show 0 ≤ (Reading.mk x.d (x.socket ++ piece) x.out 0).bytes from le_rfl) h
    refine ⟨⟨r.d, r.socket, r.out⟩, ?_, hr⟩
    rw [readReplyBodyChunked, hrun]
    rfl

theorem run_sized {longMax : ℤ} {x : Connection} {lines : List (List UInt8)}
    (pieces : List (List UInt8)) (h : Sized longMax x.d lines) :
    ∃ x', run longMax x pieces = .ok x' ∧
      Sized longMax x'.d (lines ++ runLines longMax x pieces) := by
  induction pieces generalizing x lines with
  | nil => exact ⟨x, rfl, by rwa [runLines, append_nil]⟩
  | cons piece pieces ih =>
    obtain ⟨x₁, hrun₁, h₁⟩ := receive_sized piece h
    obtain ⟨x', hrun, h'⟩ := ih h₁
    refine ⟨x', ?_, ?_⟩
    · rw [run, foldlM_cons, hrun₁]
      exact hrun
    · rw [runLines, hrun₁, ← append_assoc]
      exact h'

/-- However the bytes arrive, every call returns. When the reply is done and the connection need
not be closed, the size lines are numbers with zero at the end exactly if the last one says nothing
but zeros and no sign, base or NUL byte is in the others. -/
theorem readReplyBodyChunked_sizes_iff (longMax : ℕ) (hmax : longMax < 2 ^ 63)
    (readBufferMaxSize : ℤ) (pieces : List (List UInt8)) :
    ∃ x, run longMax (start readBufferMaxSize) pieces = .ok x ∧
      (x.d.state = .AllDoneState → x.d.forceConnectionCloseEnabled = false →
        (SizesEnd (runLines longMax (start readBufferMaxSize) pieces) ↔
          ZerosEnd (runLines longMax (start readBufferMaxSize) pieces))) := by
  have hstart : Sized longMax (start readBufferMaxSize).d [] :=
    .of_more le_rfl (by simp [start]) rfl nofun
  obtain ⟨x, hrun, h⟩ := run_sized pieces hstart
  refine ⟨x, hrun, fun hstate _ => ?_⟩
  obtain ⟨front, line, hlines, hfront, -⟩ := h.last (h.done hstate)
  rw [nil_append] at hlines
  rw [hlines]
  constructor
  · rintro ⟨hall, last, hlast, hzero⟩
    rw [getLast?_concat] at hlast
    obtain rfl := Option.some.inj hlast
    have hline := hall line (by simp)
    exact ⟨front, line, rfl, fun l hl => (hall l (by simp [hl])).plain, hline.ne_nil,
      (hexValue_eq_zero_iff hline.digits).mp hzero⟩
  · rintro ⟨front', line', hlines', hplain, hne, hzeros⟩
    obtain ⟨rfl, heq⟩ := append_inj' hlines' rfl
    obtain rfl : line = line' := by simpa using heq
    obtain ⟨hnumber, hzero⟩ := hexNumber_zeros hne hzeros
    refine ⟨fun l hl => ?_, line, getLast?_concat, hzero⟩
    rcases mem_append.mp hl with hl | hl
    · exact hexNumber_of_toLong (by exact_mod_cast hmax) (hplain l hl) (hfront l hl)
    · rwa [mem_singleton.mp hl]

/-- `"+1\r\na\r\n0\r\n\r\n"` -/
theorem readReplyBodyChunked_sizes_plus :
    (127 : ℕ) < 2 ^ 63 ∧
    ∃ x, run (127 : ℕ) (start 0) [[43, 49, 13, 10, 97, 13, 10, 48, 13], [10, 13, 10]] = .ok x ∧
      (x.d.state = .AllDoneState → x.d.forceConnectionCloseEnabled = false →
        (SizesEnd (runLines (127 : ℕ) (start 0)
            [[43, 49, 13, 10, 97, 13, 10, 48, 13], [10, 13, 10]]) ↔
          ZerosEnd (runLines (127 : ℕ) (start 0)
            [[43, 49, 13, 10, 97, 13, 10, 48, 13], [10, 13, 10]]))) :=
  ⟨by decide, readReplyBodyChunked_sizes_iff 127 (by decide) 0 _⟩

/-- `"z\r\n\r\n"`: the size cannot be read, and passes for the last one. -/
theorem run_takes_no_number :
    run (127 : ℕ) (start 0) [[122, 13, 10, 13, 10]] =
      .ok ⟨⟨.AllDoneState, [], true, 0, 0, 0, false⟩, [], []⟩ ∧
    runLines (127 : ℕ) (start 0) [[122, 13, 10, 13, 10]] = [[122]] ∧
    ¬ SizesEnd [[122]] := by
  refine ⟨by decide, by decide, fun h => ?_⟩
  have := (h.1 [122] (by simp)).digits 122 (by decide)
  cases this

end QtBase.Http
