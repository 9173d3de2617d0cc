import QtBase.Text.Utf8Functions
import QtBase.Text.Simd

/-! `QUtf8`: the converters between UTF-8 and UTF-16, and the validity check. -/
namespace QtBase

structure QStringConverter.Flags where
  stateless : Bool := false
  convertInvalidToNull : Bool := false
  writeBom : Bool := false
  convertInitialBom : Bool := false
  deriving DecidableEq

namespace QUtf8

open QUtf8Functions

/-- `QStringConverter::State`: `remaining` holds what `remainingChars` counts in `state_data`. -/
structure State (α : Type) where
  flags : QStringConverter.Flags := {}
  headerDone : Bool := false
  remaining : List α := []
  invalidChars : ℕ := 0
  deriving DecidableEq

def utf8bom : List UInt8 := [0xef, 0xbb, 0xbf]

/-! ## The fast paths -/

def AsciiByte (b : UInt8) : Prop := b.toNat < 0x80

def AsciiUnit (u : UInt16) : Prop := u.toNat < 0x80

def nonAsciiByte (b : UInt8) : Bool := 0x80 ≤ b.toNat

/-- The signed comparison after the packing takes NUL for non-ASCII. -/
def nonAsciiUnit (u : UInt16) : Bool := u == 0 || 0x80 ≤ u.toNat

theorem asciiByte_of (b : UInt8) (h : nonAsciiByte b = false) : AsciiByte b := by
  unfold nonAsciiByte at h
  exact Nat.not_le.mp (of_decide_eq_false h)

theorem asciiUnit_of (u : UInt16) (h : nonAsciiUnit u = false) : AsciiUnit u := by
  unfold nonAsciiUnit at h
  rw [Bool.or_eq_false_iff] at h
  exact Nat.not_le.mp (of_decide_eq_false h.2)

/-- `simdDecodeAscii` and `simdEncodeAscii` with SSE2. -/
def sse2Ascii {α : Type} (nonAscii : α → Bool) (src : List α) : ℕ × Option ℕ :=
  simdBlocks nonAscii 16 (stopInBlock nonAscii 16) (eightAtOnce nonAscii) (src.length + 1) src

theorem passesAscii_sse2Ascii {α : Type} {ascii : α → Prop} {nonAscii : α → Bool}
    (h : ∀ a, nonAscii a = false → ascii a) : PassesAscii ascii (sse2Ascii nonAscii) := by
  intro src
  have hs := passesAscii_stopInBlock h 16
  exact passesAscii_simdBlocks h hs (passesAscii_eightAtOnce h) (src.length + 1) src

def simdDecodeAscii : Simd AsciiByte :=
  ⟨sse2Ascii nonAsciiByte, passesAscii_sse2Ascii asciiByte_of⟩

def simdEncodeAscii : Simd AsciiUnit :=
  ⟨sse2Ascii nonAsciiUnit, passesAscii_sse2Ascii asciiUnit_of⟩

/-- Four bytes at once; which of them is not ASCII is not looked for. -/
def findInFours (src : List UInt8) : ℕ × Option ℕ :=
  simdBlocks nonAsciiByte 4 (fun src => (0, some src.length)) (fun _ => (0, some 0))
    (src.length + 1) src

def simdFindNonAscii : Simd AsciiByte where
  run src := simdBlocks nonAsciiByte 16 (stopInBlock nonAsciiByte 16) findInFours
    (src.length + 1) src
  passes := by
    intro src
    have hs := passesAscii_stopInBlock asciiByte_of 16
    have hfours : PassesAscii AsciiByte findInFours := by
      intro src
      have hstop : PassesAscii AsciiByte fun src => (0, some src.length) := passesAscii_zero _
      have htail : PassesAscii AsciiByte fun _ => (0, some 0) := passesAscii_zero _
      exact passesAscii_simdBlocks asciiByte_of hstop htail (src.length + 1) src
    exact passesAscii_simdBlocks asciiByte_of hs hfours (src.length + 1) src

/-! ## The converters without a state -/

/-- What a converter has written, the errors it has counted, and what it has left unread at the end
of the input. -/
structure Cursor (α β : Type) where
  dst : List β := []
  invalidChars : ℕ := 0
  unread : List α := []
  deriving DecidableEq

def Cursor.write {α β : Type} (c : Cursor α β) (out : List β) : Cursor α β :=
  { c with dst := c.dst ++ out }

def Cursor.error {α β : Type} (c : Cursor α β) (replacement : List β) : Cursor α β :=
  { c with dst := c.dst ++ replacement, invalidChars := c.invalidChars + 1 }

def skipUnits (c : Cursor UInt16 UInt8) (src : List UInt16) : Cursor UInt16 UInt8 :=
  c.write (src.map (·.toUInt8))

def skipBytes (c : Cursor UInt8 UInt16) (src : List UInt8) : Cursor UInt8 UInt16 :=
  c.write (src.map (·.toUInt16))

/-- The loop of `QUtf8::convertFromUnicode(QStringView)`. -/
def encodeStatelessStep (c : Cursor UInt16 UInt8) (u : UInt16) (src : List UInt16) :
    Cursor UInt16 UInt8 × Option (List UInt16) :=
  match toUtf8 u src with
  | .ok bytes src => (c.write bytes, some src)
  | _ => (c.write ['?'.toUInt8], some src)

/-- `QUtf8::convertFromUnicode(QStringView)`. -/
def convertFromUnicode (simd : Simd AsciiUnit) (inp : List UInt16) : List UInt8 :=
  (asciiLoop simd true skipUnits encodeStatelessStep (inp.length + 1) inp.length {} inp).dst

/-- The loop of `QUtf8::convertToUnicode(char16_t *, QByteArrayView)`. -/
def decodeStatelessStep (c : Cursor UInt8 UInt16) (b : UInt8) (src : List UInt8) :
    Cursor UInt8 UInt16 × Option (List UInt8) :=
  match fromUtf8 false b src with
  | .ok units charsConsumed => (c.write units, some (src.drop (charsConsumed - 1)))
  | _ => (c.write [QChar.ReplacementCharacter], some src)

/-- `QUtf8::convertToUnicode(char16_t *, QByteArrayView)`. -/
def convertToUnicode (simd : Simd AsciiByte) (inp : List UInt8) : List UInt16 :=
  let n := (simd.run inp).1
  let src := inp.drop n
  let dst := (inp.take n).map (·.toUInt16)
  -- the input does not begin with ASCII, so the BOM may stand there
  let src := if n = 0 ∧ src.take 3 = utf8bom then src.drop 3 else src
  (asciiLoop simd true skipBytes decodeStatelessStep (src.length + 1) src.length { dst } src).dst

/-! ## The converters with a state -/

/-- `appendReplacementChar`. -/
def appendReplacementChar (flags : QStringConverter.Flags) : List UInt8 :=
  if flags.convertInvalidToNull then [0] else [0xef, 0xbf, 0xbd]

/-- The loop of `QUtf8::convertFromUnicode(char *, QStringView, State *)`. -/
def encodeStep (flags : QStringConverter.Flags) (c : Cursor UInt16 UInt8) (uc : UInt16)
    (src : List UInt16) : Cursor UInt16 UInt8 × Option (List UInt16) :=
  match toUtf8 uc src with
  | .ok bytes src => (c.write bytes, some src)
  | .error => (c.error (appendReplacementChar flags), some src)
  | .endOfString =>
    if flags.stateless then (c.error (appendReplacementChar flags), none)
    else ({ c with unread := [uc] }, none)

/-- `QUtf8::convertFromUnicode(char *, QStringView, State *)`. -/
def convertFromUnicodeState (simd : Simd AsciiUnit) (inp : List UInt16) (state : State UInt16) :
    List UInt8 × State UInt16 :=
  if inp = [] then ([], state)
  else
    let (cursor, src, state) :=
      if state.flags.stateless then ([], inp, state)
      else match state.remaining with
        | uc :: _ =>
          match toUtf8 uc inp with
          | .ok bytes src => (bytes, src, { state with remaining := [] })
          | _ => (appendReplacementChar state.flags, inp, { state with remaining := [] })
        | [] =>
          if !state.headerDone && state.flags.writeBom then
            (utf8bom, inp, { state with headerDone := true })
          else ([], inp, state)
    let c := asciiLoop simd true skipUnits (encodeStep state.flags) (src.length + 1) src.length
      ⟨cursor, state.invalidChars, state.remaining⟩ src
    (c.dst, { state with invalidChars := c.invalidChars, remaining := c.unread })

/-- The character that stands for an error. -/
def replacement (flags : QStringConverter.Flags) : UInt16 :=
  if flags.convertInvalidToNull then 0 else QChar.ReplacementCharacter

/-- The loop of `QUtf8::convertToUnicode(char16_t *, QByteArrayView, State *)`. -/
def decodeStep (flags : QStringConverter.Flags) (c : Cursor UInt8 UInt16) (ch : UInt8)
    (src : List UInt8) : Cursor UInt8 UInt16 × Option (List UInt8) :=
  match fromUtf8 false ch src with
  | .ok units charsConsumed => (c.write units, some (src.drop (charsConsumed - 1)))
  | .error => (c.error [replacement flags], some src)
  | .endOfString => ({ c with unread := ch :: src }, none)

/-- The main body of `convertToUnicodeState`, stateless decoding, and the unterminated sequence. -/
def decodeMainBody (simd : Simd AsciiByte) (dst : List UInt16) (src : List UInt8)
    (state : State UInt8) : List UInt16 × State UInt8 :=
  let c := asciiLoop simd false skipBytes (decodeStep state.flags) (src.length + 1) src.length
    ⟨dst, state.invalidChars, []⟩ src
  if state.flags.stateless then
    (c.dst ++ c.unread.map (fun _ => QChar.ReplacementCharacter),
      { state with invalidChars := c.invalidChars + c.unread.length, remaining := [] })
  else (c.dst, { state with invalidChars := c.invalidChars, remaining := c.unread })

/-- `QUtf8::convertToUnicode(char16_t *, QByteArrayView, State *)`. -/
def convertToUnicodeState (simd : Simd AsciiByte) (inp : List UInt8) (state : State UInt8) :
    List UInt16 × State UInt8 :=
  if inp = [] then ([], state)
  else if state.flags.stateless then
    if !state.flags.convertInitialBom && inp.take 3 == utf8bom then
      decodeMainBody simd [] (inp.drop 3) state
    else decodeMainBody simd [] inp state
  else
    let headerdone := state.headerDone || state.flags.convertInitialBom
    if state.remaining ≠ [] ∨ headerdone = false then
      -- handle incoming state first
      let remainingCharsCount := state.remaining.length
      let newCharsToCopy := min (4 - remainingCharsCount) inp.length
      let remainingCharsData := state.remaining ++ inp.take newCharsToCopy
      match fromUtf8 false (remainingCharsData.getD 0 0) (remainingCharsData.drop 1) with
      | .error =>
        decodeMainBody simd [replacement state.flags] (inp.drop 1)
          { state with invalidChars := state.invalidChars + 1, headerDone := true }
      | .endOfString => ([], { state with remaining := remainingCharsData })
      | .ok units res =>
        -- eat the UTF-8 BOM
        let dst := if !headerdone && units.getLast? == some 0xfeff then units.dropLast else units
        decodeMainBody simd dst (inp.drop (res - remainingCharsCount))
          { state with headerDone := true }
    else decodeMainBody simd [] inp state

/-! ## Validity -/

structure ValidUtf8Result where
  isValidUtf8 : Bool
  isValidAscii : Bool
  deriving DecidableEq

def validStep (c : ValidUtf8Result) (b : UInt8) (src : List UInt8) :
    ValidUtf8Result × Option (List UInt8) :=
  if b &&& 0x80 == 0 then (c, some src)
  else match fromUtf8 true b src with
    | .ok _ charsConsumed => (⟨true, false⟩, some (src.drop (charsConsumed - 1)))
    | _ => (⟨false, false⟩, none)

def isValidUtf8 (simd : Simd AsciiByte) (inp : List UInt8) : ValidUtf8Result :=
  asciiLoop simd true (fun c _ => c) validStep (inp.length + 1) inp.length ⟨true, true⟩ inp

end QUtf8

end QtBase
