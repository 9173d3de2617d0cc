import QtBase.Serialization.CborContainer

/-! `QJsonPrivate::Parser`. Positions in the text are numbers, and reading at or behind its end is
undefined. -/
namespace QtBase

/-- `QJsonParseError::ParseError`. -/
inductive ParseError
  | noError | unterminatedObject | missingNameSeparator | unterminatedArray | missingValueSeparator
  | illegalValue | terminationByNumber | illegalNumber | illegalEscapeSequence | illegalUTF8String
  | unterminatedString | missingObject | deepNesting | documentTooLarge | garbageAtEnd
  deriving DecidableEq

structure QJsonParseError where
  offset : ℕ
  error : ParseError
  deriving DecidableEq

namespace JsonParser

open QUtf8Functions QtCbor QCborContainerPrivate

/-- The conversions of `QByteArray` that the parser leaves numbers to, on the bits of a `double`, and
`convertDoubleTo` for 64-bit integers. -/
structure Decimal where
  toLongLong : List UInt8 → Option Int64
  toDouble : List UInt8 → Option UInt64
  convertDoubleTo : UInt64 → Option Int64

structure Parser where
  json : ℕ
  nestingLevel : ℕ
  lastError : ParseError
  container : Option QCborContainerPrivate

def nestingLimit : ℕ := 1024

def BeginArray : UInt8 := 0x5b

def BeginObject : UInt8 := 0x7b

def EndArray : UInt8 := 0x5d

def EndObject : UInt8 := 0x7d

def NameSeparator : UInt8 := 0x3a

def ValueSeparator : UInt8 := 0x2c

def Quote : UInt8 := 0x22

def Backslash : UInt8 := 0x5c

def isSpace (c : UInt8) : Bool := c == 0x20 || c == 0x09 || c == 0x0a || c == 0x0d

def isToken (c : UInt8) : Bool :=
  c == BeginArray || c == BeginObject || c == NameSeparator || c == ValueSeparator ||
    c == EndArray || c == EndObject || c == Quote

def isAsciiDigit (c : UInt8) : Bool := 0x30 ≤ c && c ≤ 0x39

variable (text : List UInt8)

/-- `*json`. -/
def deref (json : ℕ) : Exec UInt8 := match text[json]? with
  | some b => .ok b
  | none => .error .undefined

/-- `while (json < end && p(*json)) ++json`. -/
def skipWhile (p : UInt8 → Bool) : ℕ → ℕ → Exec ℕ
  | 0, _ => .error .diverge
  | fuel + 1, json =>
    if json < text.length then do
      let c ← deref text json
      if p c then skipWhile p fuel (json + 1) else pure json
    else pure json

namespace Parser

variable (p : Parser)

/-- `lastError = error; return false`. -/
def fail (error : ParseError) : Bool × Parser := (false, { p with lastError := error })

def eatSpace : Exec (Bool × Parser) := do
  let json ← skipWhile text isSpace (text.length + 1) p.json
  pure (decide (json < text.length), { p with json })

/-- The next character behind the space if it is a structural one or a quote, 0 if it is another. -/
def nextToken : Exec (UInt8 × Parser) := do
  let (more, p) ← p.eatSpace text
  if !more then pure (0, p)
  else do
    let token ← deref text p.json
    pure (if isToken token then token else 0, { p with json := p.json + 1 })

/-- `container->append(value)`. -/
def append (value : QCborValue) : Exec Parser := match p.container with
  | none => .error .undefined
  | some c => .ok { p with container := some (c.append value) }

/-! ## Literals and numbers -/

/-- `*json++ == 'u' && *json++ == 'l' && *json++ == 'l'`, for the letters given. -/
def matchLetters : List UInt8 → ℕ → Exec (Bool × ℕ)
  | [], json => pure (true, json)
  | letter :: letters, json => do
    let c ← deref text json
    if c == letter then matchLetters letters (json + 1) else pure (false, json + 1)

/-- `null`, `true` and `false` behind their first letter. -/
def parseLiteral (needed : ℕ) (letters : List UInt8) (value : QCborValue) : Exec (Bool × Parser) :=
  if text.length - p.json < needed then pure (p.fail .illegalValue)
  else do
    let (matched, json) ← matchLetters text letters p.json
    let p := { p with json }
    if matched then do
      let p ← p.append value
      pure (true, p)
    else pure (p.fail .illegalValue)

/-- `json < end && *json == c`. -/
def looksAt (c : UInt8 → Bool) (json : ℕ) : Exec Bool :=
  if json < text.length then do
    let b ← deref text json
    pure (c b)
  else pure false

/-- Moves on if the next character is one of these. -/
def skipOne (c : UInt8 → Bool) (json : ℕ) : Exec (Bool × ℕ) := do
  let found ← looksAt text c json
  pure (found, if found then json + 1 else json)

/-- `int = zero / ( digit1-9 *DIGIT )` -/
def skipInt (json : ℕ) : Exec ℕ := do
  let (zero, json) ← skipOne text (· == 0x30) json
  if zero then pure json else skipWhile text isAsciiDigit (text.length + 1) json

/-- `frac = decimal-point 1*DIGIT`; also tells whether all digits are 0. -/
def skipFrac (json : ℕ) : Exec (Bool × ℕ) := do
  let (point, start) ← skipOne text (· == 0x2e) json
  if !point then pure (true, json)
  else do
    let json ← skipWhile text isAsciiDigit (text.length + 1) start
    pure (((text.drop start).take (json - start)).all (· == 0x30), json)

/-- `exp = e [ minus / plus ] 1*DIGIT`; also tells whether there is one. -/
def skipExp (json : ℕ) : Exec (Bool × ℕ) := do
  let (e, json) ← skipOne text (fun c => c == 0x65 || c == 0x45) json
  if !e then pure (false, json)
  else do
    let (_, json) ← skipOne text (fun c => c == 0x2d || c == 0x2b) json
    let json ← skipWhile text isAsciiDigit (text.length + 1) json
    pure (true, json)

/-- The value of a number. -/
def numberValue (decimal : Decimal) (isInt : Bool) (number : List UInt8) : Option QCborValue :=
  match if isInt then decimal.toLongLong number else none with
  | some n => some (.value .integer n)
  | none => match decimal.toDouble number with
    | none => none
    | some d => match decimal.convertDoubleTo d with
      | some n => some (.value .integer n)
      | none => some (.value .double d.toInt64)

def parseNumber (decimal : Decimal) : Exec (Bool × Parser) := do
  let start := p.json
  let (_, json) ← skipOne text (· == 0x2d) start
  let json ← skipInt text json
  let (zeros, json) ← skipFrac text json
  let (e, json) ← skipExp text json
  let p := { p with json }
  if text.length ≤ json then pure (p.fail .terminationByNumber)
  else match numberValue decimal (zeros && !e) ((text.drop start).take (json - start)) with
    | none => pure (p.fail .illegalNumber)
    | some value => do
      let p ← p.append value
      pure (true, p)

/-! ## Strings -/

/-- `fromHex`, -1 being none. -/
def fromHex (c : UInt8) : Option UInt32 :=
  if 0x30 ≤ c && c ≤ 0x39 then some (c - 0x30).toUInt32
  else if 0x41 ≤ c && c ≤ 0x46 then some (c - 0x41 + 10).toUInt32
  else if 0x61 ≤ c && c ≤ 0x66 then some (c - 0x61 + 10).toUInt32
  else none

/-- The four calls of `addHexDigit`. -/
def addHexDigits : ℕ → UInt32 → ℕ → Exec (Option UInt32 × ℕ)
  | 0, ch, json => pure (some ch, json)
  | n + 1, ch, json => do
    let digit ← deref text json
    match fromHex digit with
    | none => pure (none, json)
    | some h => addHexDigits n (ch <<< 4 ||| h) (json + 1)

/-- The character a letter behind a backslash stands for, or the letter itself. -/
def unescape (escaped : UInt8) : UInt32 :=
  if escaped == 0x62 then 0x8
  else if escaped == 0x66 then 0xc
  else if escaped == 0x6e then 0xa
  else if escaped == 0x72 then 0xd
  else if escaped == 0x74 then 0x9
  else escaped.toUInt32

def scanEscapeSequence (json : ℕ) : Exec (Option UInt32 × ℕ) :=
  let json := json + 1
  if text.length ≤ json then pure (none, json)
  else do
    let escaped ← deref text json
    let json := json + 1
    if escaped == 0x75 then
      if text.length < json + 4 then pure (none, json) else addHexDigits text 4 0 json
    else pure (some (unescape escaped), json)

/-- No byte at this position, or a continuation byte. -/
def continuesAt (src : ℕ) : Exec Bool :=
  if src < text.length then do
    let b ← deref text src
    pure (isContinuationByte b)
  else pure true

/-- The continuation bytes of `fromUtf8`, read from the text. -/
def continuationsAt (charsNeeded : ℕ) (min_uc uc : UInt32) (src : ℕ) : Exec FromUtf8 :=
  if text.length - src < charsNeeded - 1 then do
    let first ← continuesAt text src
    let second ← continuesAt text (src + 1)
    pure (if first && second then .endOfString else .error)
  else do
    let b ← deref text src
    if !isContinuationByte b then pure .error
    else
      let uc := appendBits uc b
      if charsNeeded > 2 then do
        let b ← deref text (src + 1)
        if !isContinuationByte b then pure .error
        else
          let uc := appendBits uc b
          if charsNeeded > 3 then do
            let b ← deref text (src + 2)
            if !isContinuationByte b then pure .error
            else pure (checked charsNeeded min_uc (appendBits uc b))
          else pure (checked charsNeeded min_uc uc)
      else pure (checked charsNeeded min_uc uc)

def fromUtf8At (b : UInt8) (src : ℕ) : Exec FromUtf8 :=
  if b < 0x80 then pure (.ok [b.toUInt16] 1)
  else match leadByte b with
    | none => pure .error
    | some (charsNeeded, min_uc, uc) => continuationsAt text charsNeeded min_uc uc src

def scanUtf8Char (json : ℕ) : Exec (Option UInt32 × ℕ) := do
  let b ← deref text json
  let res ← fromUtf8At text b (json + 1)
  match res with
  | .ok units charsConsumed => pure (some (ucs4 units), json + charsConsumed)
  | _ => pure (none, json)

/-- How the first loop over a string ends. -/
structure PlainScan where
  valid : Bool
  json : ℕ
  isUtf8 : Bool
  isAscii : Bool

/-- The loop over a string up to its end or the first escape sequence. -/
def scanPlain : ℕ → ℕ → Bool → Exec PlainScan
  | 0, _, _ => .error .diverge
  | fuel + 1, json, isAscii =>
    if json < text.length then do
      let c ← deref text json
      if c == Quote then pure ⟨true, json, true, isAscii⟩
      else if c == Backslash then pure ⟨true, json, false, false⟩
      else do
        let (ch, json) ← scanUtf8Char text json
        match ch with
        | none => pure ⟨false, json, true, isAscii⟩
        | some ch => scanPlain fuel json (if ch > 0x7f then false else isAscii)
    else pure ⟨true, json, true, isAscii⟩

/-- `QChar::fromUcs4`. -/
def fromUcs4 (ch : UInt32) : List UInt16 :=
  if QChar.requiresSurrogates ch then [QChar.highSurrogate ch, QChar.lowSurrogate ch]
  else [ch.toUInt16]

/-- The loop over a string with escape sequences: the error, if there is one, the position and the
UTF-16 of the string. -/
def scanEscaped : ℕ → ℕ → List UInt16 → Exec (Option ParseError × ℕ × List UInt16)
  | 0, _, _ => .error .diverge
  | fuel + 1, json, ucs4 =>
    if json < text.length then do
      let c ← deref text json
      if c == Quote then pure (none, json, ucs4)
      else if c == Backslash then do
        let (ch, json) ← scanEscapeSequence text json
        match ch with
        | none => pure (some .illegalEscapeSequence, json, ucs4)
        | some ch => scanEscaped fuel json (ucs4 ++ fromUcs4 ch)
      else do
        let (ch, json) ← scanUtf8Char text json
        match ch with
        | none => pure (some .illegalUTF8String, json, ucs4)
        | some ch => scanEscaped fuel json (ucs4 ++ fromUcs4 ch)
    else pure (none, json, ucs4)

/-- The part of `parseString` for strings with escape sequences. -/
def parseEscaped (start : ℕ) : Exec (Bool × Parser) := do
  let (error, json, ucs4) ← scanEscaped text (text.length + 1) start []
  match error with
  | some error => pure (fail { p with json } error)
  | none =>
    let p := { p with json := json + 1 }
    if text.length ≤ p.json then pure (p.fail .unterminatedString)
    else match p.container with
      | none => .error .undefined
      | some c =>
        let c := c.appendByteData (utf16Bytes ucs4) .string true false
        pure (true, { p with container := some c })

def parseString : Exec (Bool × Parser) := do
  let start := p.json
  let scan ← scanPlain text (text.length + 1) start true
  if !scan.valid then pure (fail { p with json := scan.json } .illegalUTF8String)
  else
    let p := { p with json := scan.json + 1 }
    if text.length ≤ p.json then pure (p.fail .unterminatedString)
    else if !scan.isUtf8 then p.parseEscaped text start
    else match p.container with
      | none => .error .undefined
      | some c =>
        let str := (text.drop start).take (p.json - start - 1)
        let c := if scan.isAscii then c.appendAsciiString str else c.appendUtf8String str
        pure (true, { p with container := some c })

/-! ## Sorting the members of an object -/

/-- A key and its value. -/
abbrev Member := Element × Element

/-- What `KeyIterator` passes over. -/
def members : List Element → List Member
  | key :: value :: elements => (key, value) :: members elements
  | _ => []

/-- The comparison that `sortContainer` sorts by. -/
def compareKeys (c : QCborContainerPrivate) (a b : Member) : ℤ :=
  match c.byteData a.1, c.byteData b.1 with
  | none, none => 0
  | none, some _ => -1
  | some _, none => 1
  | some aData, some bData =>
    if isUtf16 a.1 then
      if isUtf16 b.1 then compareStrings (asStringView aData) (asStringView bData)
      else -compareUtf8 bData (asStringView aData)
    else if isUtf16 b.1 then compareUtf8 aData (asStringView bData)
    else compareUtf8Bytes aData bData

/-- The loop of `customAssigningUniqueLast`, with the element that `result` points to. -/
def assignOnto (equal : Member → Member → Bool) : Member → List Member → List Member
  | result, [] => [result]
  | result, first :: rest =>
    if !equal result first then result :: assignOnto equal first rest
    else assignOnto equal first rest

/-- The recursion is `std::adjacent_find`. -/
def customAssigningUniqueLast (equal : Member → Member → Bool) : List Member → List Member
  | first :: second :: rest =>
    if equal first second then assignOnto equal second rest
    else first :: customAssigningUniqueLast equal (second :: rest)
  | rest => rest

/-- `std::stable_sort`, for a less-than. -/
abbrev StableSort := (Member → Member → Bool) → List Member → List Member

def sortContainer (stableSort : StableSort) (c : QCborContainerPrivate) : QCborContainerPrivate :=
  let sorted := stableSort (fun a b => compareKeys c a b < 0) (members c.elements)
  let unique := customAssigningUniqueLast (fun a b => compareKeys c a b == 0) sorted
  .mk c.data (unique.flatMap fun m => [m.1, m.2])

/-! ## Arrays, objects and values -/

/-- `if (!container) container = new QCborContainerPrivate`. -/
def ensureContainer : Parser :=
  { p with container := some (p.container.getD .empty) }

/-- A `StashedContainer` around a call: what the call builds is appended when it is over. -/
def stashed (type : CborType) (call : Parser → Exec (Bool × Parser)) : Exec (Bool × Parser) := do
  let (ok, q) ← call { p with container := none }
  match p.container with
  | none => .error .undefined
  | some c => pure (ok, { q with container := some (c.append (makeValue type q.container)) })

section

variable (parseValue : Parser → Exec (Bool × Parser))

/-- The loop of `parseArray`. -/
def arrayLoop : ℕ → Parser → Exec (Bool × Parser)
  | 0, _ => .error .diverge
  | fuel + 1, p => do
    let (more, p) ← p.eatSpace text
    if !more then pure (p.fail .unterminatedArray)
    else do
      let (ok, p) ← parseValue p.ensureContainer
      if !ok then pure (false, p)
      else do
        let (token, p) ← p.nextToken text
        if token == EndArray then pure (true, p)
        else if token != ValueSeparator then do
          let (more, p) ← p.eatSpace text
          pure (p.fail (if !more then .unterminatedArray else .missingValueSeparator))
        else arrayLoop fuel p

/-- `--nestingLevel`, after a call that has succeeded. -/
def leave : Bool × Parser → Bool × Parser
  | (false, p) => (false, p)
  | (true, p) => (true, { p with nestingLevel := p.nestingLevel - 1 })

def parseArray : Exec (Bool × Parser) :=
  let p := { p with nestingLevel := p.nestingLevel + 1 }
  if p.nestingLevel > nestingLimit then pure (p.fail .deepNesting)
  else do
    let (more, p) ← p.eatSpace text
    if !more then pure (p.fail .unterminatedArray)
    else do
      let c ← deref text p.json
      if c == EndArray then do
        let (_, p) ← p.nextToken text
        pure (leave (true, p))
      else do
        let r ← arrayLoop text parseValue (text.length + 1) p
        pure (leave r)

def parseMember : Exec (Bool × Parser) := do
  let (ok, p) ← p.parseString text
  if !ok then pure (false, p)
  else do
    let (token, p) ← p.nextToken text
    if token != NameSeparator then pure (p.fail .missingNameSeparator)
    else do
      let (more, p) ← p.eatSpace text
      if !more then pure (p.fail .unterminatedObject)
      else do
        let (ok, p) ← parseValue p
        pure (ok, p)

/-- The loop of `parseObject` with the token before it, and the check behind it. -/
def objectLoop : ℕ → UInt8 → Parser → Exec (Bool × Parser)
  | 0, _, _ => .error .diverge
  | fuel + 1, token, p =>
    if token == Quote then do
      let (ok, p) ← p.ensureContainer.parseMember text parseValue
      if !ok then pure (false, p)
      else do
        let (token, p) ← p.nextToken text
        if token != ValueSeparator then
          pure (if token != EndObject then p.fail .unterminatedObject else (true, p))
        else do
          let (token, p) ← p.nextToken text
          if token == EndObject then pure (p.fail .missingObject)
          else objectLoop fuel token p
    else pure (if token != EndObject then p.fail .unterminatedObject else (true, p))

/-- `--nestingLevel` and `sortContainer`, after the loop. -/
def finishObject (stableSort : StableSort) : Bool × Parser → Bool × Parser
  | (false, p) => (false, p)
  | (true, p) => (true, { p with
      nestingLevel := p.nestingLevel - 1
      container := p.container.map (sortContainer stableSort) })

def parseObject (stableSort : StableSort) : Exec (Bool × Parser) :=
  let p := { p with nestingLevel := p.nestingLevel + 1 }
  if p.nestingLevel > nestingLimit then pure (p.fail .deepNesting)
  else do
    let (token, p) ← p.nextToken text
    let r ← objectLoop text parseValue (text.length + 1) token p
    pure (finishObject stableSort r)

end

/-- `parseValue`, where at most `depth` containers are open inside each other. -/
def parseValue (decimal : Decimal) (stableSort : StableSort) :
    ℕ → Parser → Exec (Bool × Parser)
  | 0, _ => .error .diverge
  | depth + 1, p => do
    let c ← deref text p.json
    let q := { p with json := p.json + 1 }
    if c == 0x6e then q.parseLiteral text 4 [0x75, 0x6c, 0x6c] (.value .null 0)
    else if c == 0x74 then q.parseLiteral text 4 [0x72, 0x75, 0x65] (.value .isTrue 0)
    else if c == 0x66 then q.parseLiteral text 5 [0x61, 0x6c, 0x73, 0x65] (.value .isFalse 0)
    else if c == Quote then q.parseString text
    else if c == BeginArray then
      q.stashed .array fun q => q.parseArray text (parseValue decimal stableSort depth)
    else if c == BeginObject then
      q.stashed .map fun q => q.parseObject text (parseValue decimal stableSort depth) stableSort
    else if c == ValueSeparator then pure (q.fail .illegalValue)
    else if c == EndObject || c == EndArray then pure (q.fail .missingObject)
    else p.parseNumber text decimal

/-- `json[0] == utf8bom[0] && ...`, only if more than three characters are left. -/
def eatBOM : Exec Parser :=
  if text.length - p.json > 3 then do
    let (matched, json) ← matchLetters text QUtf8.utf8bom p.json
    pure (if matched then { p with json } else p)
  else pure p

end Parser

/-- `Parser::parse`: the value and the error. -/
def parse (decimal : Decimal) (stableSort : Parser.StableSort) (depth : ℕ) :
    Exec (QCborValue × QJsonParseError) := do
  let p ← Parser.eatBOM text ⟨0, 0, .noError, none⟩
  let (token, p) ← p.nextToken text
  let opened := { p with container := some .empty }
  let parseValue := Parser.parseValue text decimal stableSort depth
  if token == BeginArray then do
    let r ← opened.parseArray text parseValue
    finish .array r
  else if token == BeginObject then do
    let r ← opened.parseObject text parseValue stableSort
    finish .map r
  else pure (failed (p.fail .illegalValue).2)
where
  /-- The end of a text behind its array or object. -/
  finish (type : CborType) : Bool × Parser → Exec (QCborValue × QJsonParseError)
    | (false, p) => pure (failed p)
    | (true, p) => do
      let (more, q) ← p.eatSpace text
      pure (if more then failed (q.fail .garbageAtEnd).2
        else (makeValue type p.container, ⟨0, .noError⟩))
  failed (p : Parser) : QCborValue × QJsonParseError :=
    (.value .undefined 0, ⟨p.json, p.lastError⟩)

end JsonParser

end QtBase
