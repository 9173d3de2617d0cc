import QtBase.Core.Unsigned
import QtBase.Text.Utf32

/-! `qurlidna.cpp`: labels of domain names to Punycode and back. -/
namespace QtBase

namespace Punycode

def base : UInt32 := 36
def tmin : UInt32 := 1
def tmax : UInt32 := 26
def skew : UInt32 := 38
def damp : UInt32 := 700
def initial_bias : UInt32 := 72
def initial_n : UInt32 := 128

def MaxDomainLabelLength : ℕ := 63

def encodeDigit (digit : UInt32) : Wraps UInt32 := do
  let letter ← uAdd digit 22
  let shift ← uMul 75 (if digit < 26 then 1 else 0)
  uAdd letter shift

/-- The loop of `adapt`. A `uint` is divided fewer times than it has bits. -/
def adaptLoop : ℕ → UInt32 → UInt32 → Wraps (UInt32 × UInt32)
  | 0, k, delta => pure (k, delta)
  | rounds + 1, k, delta =>
    if delta > (base - tmin) * tmax / 2 then do
      let k ← uAdd k base
      adaptLoop rounds k (delta / (base - tmin))
    else pure (k, delta)

def adapt (delta numpoints : UInt32) (firsttime : Bool) : Wraps UInt32 := do
  let delta := delta / (if firsttime then damp else 2)
  let delta ← uAdd delta (delta / numpoints)
  let (k, delta) ← adaptLoop 32 0 delta
  let numerator ← uMul (base - tmin + 1) delta
  let denominator ← uAdd delta skew
  uAdd k (numerator / denominator)

/-- The threshold of a digit, which both directions compute. -/
def threshold (k bias : UInt32) : Wraps UInt32 :=
  if k ≤ bias then pure tmin
  else do
    let top ← uAdd bias tmax
    if k ≥ top then pure tmax else uSub k bias

/-- The loop of `appendEncode` and the digit behind it. Each round divides the rest. -/
def appendDigits : ℕ → UInt32 → UInt32 → UInt32 → List UInt16 → Wraps (List UInt16)
  | 0, qq, _, _, output => do
    let digit ← encodeDigit qq
    pure (output ++ [digit.toUInt16])
  | rounds + 1, qq, k, bias, output => do
    let t ← threshold k bias
    if qq < t then
      let digit ← encodeDigit qq
      pure (output ++ [digit.toUInt16])
    else
      let rest ← uSub qq t
      let span ← uSub base t
      let digit ← uAdd t (rest % span)
      let digit ← encodeDigit digit
      let k ← uAdd k base
      appendDigits rounds (rest / span) k bias (output ++ [digit.toUInt16])

def appendEncode (output : List UInt16) (delta bias : UInt32) : Wraps (List UInt16) :=
  appendDigits 32 delta base bias output

/-! ## The encoder -/

/-- The variables of `qt_punycodeEncoder`. -/
structure Encoder where
  n : UInt32
  delta : UInt32
  bias : UInt32
  h : UInt32
  output : List UInt16

/-- The body of the second loop over the input: nothing if `delta` overflows. -/
def encodeStep (b : UInt32) (s : Encoder) (c : UInt32) : Wraps (Option Encoder) :=
  match if c < s.n then qAddOverflow s.delta 1 else some s.delta with
  | none => pure none
  | some delta =>
    if c = s.n then do
      let output ← appendEncode s.output delta s.bias
      let points ← uAdd s.h 1
      let bias ← adapt delta points (s.h == b)
      let h ← uAdd s.h 1
      pure (some { s with delta := 0, bias := bias, h := h, output := output })
    else pure (some { s with delta := delta })

def encodeFor (b : UInt32) : List UInt32 → Encoder → Wraps (Option Encoder)
  | [], s => pure (some s)
  | c :: input, s => do
    match ← encodeStep b s c with
    | none => pure none
    | some s => encodeFor b input s

/-- The lowest unprocessed value of the input. -/
def lowest (input : List UInt32) (n : UInt32) : UInt32 :=
  input.foldl (fun m c => if c ≥ n ∧ c < m then c else m) 0xffffffff

/-- How the encoder's loop is left. -/
inductive EncodeWhile
  | overflow
  | running
  | ended (s : Encoder)

/-- The body of the encoder's loop. -/
def encodeRound (b : UInt32) (input : List UInt32) (s : Encoder) : Wraps (Option Encoder) := do
  let m := lowest input s.n
  let skipped ← uSub m s.n
  let points ← uAdd s.h 1
  match qMulOverflow skipped points with
  | none => pure none
  | some tmp =>
    match qAddOverflow s.delta tmp with
    | none => pure none
    | some delta =>
      match ← encodeFor b input { s with n := m, delta := delta } with
      | none => pure none
      | some s =>
        let delta ← uAdd s.delta 1
        let n ← uAdd s.n 1
        pure (some { s with delta := delta, n := n })

def encodeWhile (b : UInt32) (input : List UInt32) (inputLength : UInt32) :
    ℕ → Encoder → Wraps EncodeWhile
  | 0, s => pure (if s.h < inputLength then .running else .ended s)
  | rounds + 1, s =>
    if s.h < inputLength then do
      match ← encodeRound b input s with
      | none => pure .overflow
      | some s => encodeWhile b input inputLength rounds s
    else pure (.ended s)

def acePrefix : List UInt16 := [0x78, 0x6e, 0x2d, 0x2d]

/-- `qt_punycodeEncoder`: nothing if it has not ended. By the check for invalid surrogates both kinds
of iterators see the same. -/
def qt_punycodeEncoder (input output : List UInt16) : Wraps (Option (List UInt16)) :=
  if input.length > MaxDomainLabelLength * 2 then pure (some output)
  else
    let copied := input.filter fun c => c < 0x80
    let skipped := input.any fun c => !decide (c < 0x80)
    if !skipped then pure (some (output ++ copied))
    else
      let b := UInt32.ofNat copied.length
      let work := if b > 0 then copied ++ [0x2d] else copied
      let codePoints := toUcs4 0xffffffff input
      if codePoints.contains 0xffffffff then pure (some output)
      else do
        match ← encodeWhile b codePoints (UInt32.ofNat codePoints.length) codePoints.length
          ⟨initial_n, 0, initial_bias, b, work⟩ with
        | .overflow => pure (some output)
        | .running => pure none
        | .ended s => pure (some (output ++ acePrefix ++ s.output))

/-! ## The decoder -/

/-- The digit of a character, or `base`. -/
def decodeDigit (c : UInt32) : Wraps UInt32 := do
  if (← uSub c 48) < 10 then uSub c 22
  else if (← uSub c 65) < 26 then uSub c 65
  else if (← uSub c 97) < 26 then uSub c 97
  else pure base

/-- The loop that reads a delta: the new `i` and the rest, or nothing if it fails. -/
def readDelta (bias : UInt32) : List UInt16 → UInt32 → UInt32 → UInt32 →
    Wraps (Option (UInt32 × List UInt16))
  | [], _, _, i => pure (some (i, []))
  | c :: pc, k, w, i => do
    let digit ← decodeDigit c.toUInt32
    if digit ≥ base then pure none
    else match qMulOverflow digit w with
      | none => pure none
      | some tmp =>
        match qAddOverflow i tmp with
        | none => pure none
        | some i => do
          let t ← threshold k bias
          if digit < t then pure (some (i, pc))
          else
            let span ← uSub base t
            match qMulOverflow w span with
            | none => pure none
            | some w => do
              let k ← uAdd k base
              readDelta bias pc k w i

/-- The variables of `qt_punycodeDecoder`. -/
structure Decoder where
  n : UInt32
  i : UInt32
  bias : UInt32
  output : List UInt32

/-- What follows a delta that was read. -/
def insertCodePoint (s : Decoder) (i : UInt32) : Wraps (Option Decoder) := do
  let outputLength := UInt32.ofNat s.output.length
  let delta ← uSub i s.i
  let points ← uAdd outputLength 1
  let bias ← adapt delta points (s.i == 0)
  let points ← uAdd outputLength 1
  match qAddOverflow s.n (i / points) with
  | none => pure none
  | some n =>
    let i := i % points
    if n < initial_n then pure none
    else if QChar.isSurrogate n || n > QChar.LastValidCodePoint then pure none
    else do
      let output := s.output.insertIdx i.toNat n
      let i ← uAdd i 1
      pure (some ⟨n, i, bias, output⟩)

/-- The decoder's loop. Each round takes at least one character. -/
def decodeWhile : ℕ → List UInt16 → Decoder → Wraps (Option Decoder)
  | rounds + 1, c :: pc, s => do
    match ← readDelta s.bias (c :: pc) base 1 s.i with
    | none => pure none
    | some (i, rest) =>
      match ← insertCodePoint s i with
      | none => pure none
      | some s => decodeWhile rounds rest s
  | _, _, s => pure (some s)

/-- `lastIndexOf(u'-')`, which is not negative behind the prefix. -/
def lastDelimiter (pc : List UInt16) : ℕ := pc.length - 1 - pc.reverse.findIdx fun c => c == 0x2d

def qt_punycodeDecoder (pc : List UInt16) : Wraps (List UInt16) :=
  if pc.length > MaxDomainLabelLength then pure []
  else if !acePrefix.isPrefixOf pc then pure pc
  else
    let delimiterPos := lastDelimiter pc
    let output := if delimiterPos < 4 then []
      else toStdU32String ((pc.drop 4).take (delimiterPos - 4))
    let rest := pc.drop (delimiterPos + 1)
    do
      match ← decodeWhile rest.length rest ⟨initial_n, 0, initial_bias, output⟩ with
      | none => pure []
      | some s => pure (fromStdU32String s.output)

end Punycode

end QtBase
