import QtBase.Serialization.CborView
import QtBase.Text.CompareOrder
import QtBase.Serialization.JsonParser
import QtBase.Lib.StableSort

/-! The grammar of JSON texts (RFC 8259) and what a text denotes. Whitespace stands around each
value and each key, where the structural characters have it. -/
namespace QtBase

namespace Json

open Unicode

/-- A string as the text writes it: its characters, or, where there are escape sequences, its
UTF-16, in which surrogates need not be paired. -/
inductive Str
  | plain (cs : List Char)
  | escaped (units : List UInt16)

def Str.units : Str → List UInt16
  | plain cs => utf16 cs
  | escaped units => units

end Json

open Json

/-- What a text denotes, the members of an object in the order of the text. -/
inductive Json
  | null
  | bool (b : Bool)
  | number (n : Int64)
  | double (bits : Int64)
  | string (s : Str)
  | array (elements : List Json)
  | object (members : List (Str × Json))

namespace Json

open JsonParser Unicode

/-! ## Numbers -/

/-- `ws`. -/
def Ws (w : List UInt8) : Prop := ∀ c ∈ w, isSpace c = true

def Digits (d : List UInt8) : Prop := ∀ c ∈ d, isAsciiDigit c = true

/-- `int = zero / ( digit1-9 *DIGIT )` -/
inductive IntText : List UInt8 → Prop
  | zero : IntText [0x30]
  | digits {c : UInt8} {d : List UInt8} : isAsciiDigit c = true → c ≠ 0x30 → Digits d →
      IntText (c :: d)

/-- `[ decimal-point 1*DIGIT ]` -/
inductive FracText : List UInt8 → Prop
  | none : FracText []
  | some {d : List UInt8} : d ≠ [] → Digits d → FracText (0x2e :: d)

/-- `[ minus / plus ]` -/
inductive SignText : List UInt8 → Prop
  | none : SignText []
  | minus : SignText [0x2d]
  | plus : SignText [0x2b]

/-- `[ e [ minus / plus ] 1*DIGIT ]` -/
inductive ExpText : List UInt8 → Prop
  | none : ExpText []
  | some {e : UInt8} {sign d : List UInt8} : e = 0x65 ∨ e = 0x45 → SignText sign → d ≠ [] →
      Digits d → ExpText (e :: (sign ++ d))

/-- `number = [ minus ] int [ frac ] [ exp ]` -/
inductive NumberText : List UInt8 → Prop
  | mk {minus int frac exp : List UInt8} : minus = [] ∨ minus = [0x2d] → IntText int →
      FracText frac → ExpText exp → NumberText (minus ++ (int ++ (frac ++ exp)))

/-- The number a text stands for: a 64-bit integer if it is written as one or equal to one, or else
a `double`. What the conversion rejects stands for no number. -/
def ofNumber (decimal : Decimal) (t : List UInt8) : Option Json :=
  match decimal.toLongLong t with
  | some n => some (number n)
  | none => (decimal.toDouble t).map fun d => match decimal.convertDoubleTo d with
    | some n => number n
    | none => double d.toInt64

/-! ## Strings -/

/-- `unescaped = %x20-21 / %x23-5B / %x5D-10FFFF` -/
def Unescaped (c : Char) : Prop := 0x20 ≤ c.val.toNat ∧ c.val.toNat ≠ 0x22 ∧ c.val.toNat ≠ 0x5c

/-- The letters behind a backslash. -/
def escapes : List (UInt8 × UInt16) :=
  [(0x22, 0x22), (0x5c, 0x5c), (0x2f, 0x2f), (0x62, 0x8), (0x66, 0xc), (0x6e, 0xa), (0x72, 0xd),
    (0x74, 0x9)]

/-- `HEXDIG` -/
def hexDigit (c : UInt8) : Option ℕ :=
  if 0x30 ≤ c.toNat ∧ c.toNat ≤ 0x39 then some (c.toNat - 0x30)
  else if 0x41 ≤ c.toNat ∧ c.toNat ≤ 0x46 then some (c.toNat - 0x41 + 10)
  else if 0x61 ≤ c.toNat ∧ c.toNat ≤ 0x66 then some (c.toNat - 0x61 + 10)
  else none

/-- `char`, and its UTF-16. -/
inductive CharText : List UInt8 → List UInt16 → Prop
  | unescaped {c : Char} : Unescaped c → CharText (String.utf8EncodeChar c) (utf16EncodeChar c)
  | escape {letter : UInt8} {u : UInt16} : (letter, u) ∈ escapes → CharText [0x5c, letter] [u]
  | unicode {a b c d : UInt8} {w x y z : ℕ} : hexDigit a = some w → hexDigit b = some x →
      hexDigit c = some y → hexDigit d = some z →
      CharText [0x5c, 0x75, a, b, c, d] [.ofNat (((w * 16 + x) * 16 + y) * 16 + z)]

/-- `*char` -/
inductive CharsText : List UInt8 → List UInt16 → Prop
  | nil : CharsText [] []
  | cons {t t' : List UInt8} {u u' : List UInt16} : CharText t u → CharsText t' u' →
      CharsText (t ++ t') (u ++ u')

/-- `string = quotation-mark *char quotation-mark` -/
inductive StringText : List UInt8 → Str → Prop
  | plain {cs : List Char} : (∀ c ∈ cs, Unescaped c) →
      StringText (Quote :: (utf8 cs ++ [Quote])) (.plain cs)
  | escaped {t : List UInt8} {units : List UInt16} : CharsText t units → Backslash ∈ t →
      StringText (Quote :: (t ++ [Quote])) (.escaped units)

/-! ## Values -/

variable (decimal : Decimal)

mutual

/-- `value`, with at most so many arrays and objects inside each other. -/
inductive ValueText : ℕ → List UInt8 → Json → Prop
  | null {n : ℕ} : ValueText n [0x6e, 0x75, 0x6c, 0x6c] .null
  | true {n : ℕ} : ValueText n [0x74, 0x72, 0x75, 0x65] (.bool true)
  | false {n : ℕ} : ValueText n [0x66, 0x61, 0x6c, 0x73, 0x65] (.bool false)
  | number {n : ℕ} {t : List UInt8} {j : Json} : NumberText t → ofNumber decimal t = some j →
      ValueText n t j
  | string {n : ℕ} {t : List UInt8} {s : Str} : StringText t s → ValueText n t (.string s)
  | emptyArray {n : ℕ} {w : List UInt8} : Ws w →
      ValueText (n + 1) (BeginArray :: (w ++ [EndArray])) (.array [])
  | array {n : ℕ} {t : List UInt8} {js : List Json} : ElementsText n t js →
      ValueText (n + 1) (BeginArray :: (t ++ [EndArray])) (.array js)
  | emptyObject {n : ℕ} {w : List UInt8} : Ws w →
      ValueText (n + 1) (BeginObject :: (w ++ [EndObject])) (.object [])
  | object {n : ℕ} {t : List UInt8} {ms : List (Str × Json)} : MembersText n t ms →
      ValueText (n + 1) (BeginObject :: (t ++ [EndObject])) (.object ms)

/-- `value *( value-separator value )` -/
inductive ElementsText : ℕ → List UInt8 → List Json → Prop
  | one {n : ℕ} {w t w' : List UInt8} {j : Json} : Ws w → ValueText n t j → Ws w' →
      ElementsText n (w ++ (t ++ w')) [j]
  | cons {n : ℕ} {w t w' ts : List UInt8} {j : Json} {js : List Json} : Ws w → ValueText n t j →
      Ws w' → ElementsText n ts js →
      ElementsText n (w ++ (t ++ (w' ++ ValueSeparator :: ts))) (j :: js)

/-- `member *( value-separator member )` -/
inductive MembersText : ℕ → List UInt8 → List (Str × Json) → Prop
  | one {n : ℕ} {w k w' w₁ t w₂ : List UInt8} {s : Str} {j : Json} : Ws w → StringText k s →
      Ws w' → Ws w₁ → ValueText n t j → Ws w₂ →
      MembersText n (w ++ (k ++ (w' ++ NameSeparator :: (w₁ ++ (t ++ w₂))))) [(s, j)]
  | cons {n : ℕ} {w k w' w₁ t w₂ ts : List UInt8} {s : Str} {j : Json} {ms : List (Str × Json)} :
      Ws w → StringText k s → Ws w' → Ws w₁ → ValueText n t j → Ws w₂ → MembersText n ts ms →
      MembersText n
        (w ++ (k ++ (w' ++ NameSeparator :: (w₁ ++ (t ++ (w₂ ++ ValueSeparator :: ts))))))
        ((s, j) :: ms)

end

/-- `JSON-text = object / array`, nested at most as deep as the parser goes. -/
inductive DocumentText : List UInt8 → Json → Prop
  | array {w t w' : List UInt8} {js : List Json} : Ws w →
      ValueText decimal nestingLimit t (.array js) → Ws w' →
      DocumentText (w ++ (t ++ w')) (.array js)
  | object {w t w' : List UInt8} {ms : List (Str × Json)} : Ws w →
      ValueText decimal nestingLimit t (.object ms) → Ws w' →
      DocumentText (w ++ (t ++ w')) (.object ms)

/-! ## Values that represent a text -/

/-- The members that count: the last one of each key. -/
def lastMembers : List (Str × Json) → List (Str × Json) :=
  StableSort.lasts fun a b => a.1.units == b.1.units

end Json

namespace Val

open QCborContainerPrivate Unicode

/-- A string in one of the formats it may be stored in. -/
inductive IsString : Val → List UInt16 → Prop
  | utf16 (units : List UInt16) : IsString (.bytes .string true false (utf16Bytes units)) units
  | utf8 (cs : List Char) (ascii : Bool) : (ascii = true → ∀ c ∈ cs, c.val.toNat < 0x80) →
      IsString (.bytes .string false ascii (utf8 cs)) (utf16 cs)

/-- An array or a map with these elements. The empty one needs no container. -/
inductive Contains (type : CborType) : Val → List Val → Prop
  | container (vs : List Val) : Contains type (.container type vs) vs
  | none : Contains type (.value type 0) []

mutual

/-- The value that a text denotes. The members of an object may be in any order. -/
inductive Represents : Val → Json → Prop
  | null : Represents (.value .null 0) .null
  | true : Represents (.value .isTrue 0) (.bool true)
  | false : Represents (.value .isFalse 0) (.bool false)
  | number (n : Int64) : Represents (.value .integer n) (.number n)
  | double (bits : Int64) : Represents (.value .double bits) (.double bits)
  | string {v : Val} {s : Str} : v.IsString s.units → Represents v (.string s)
  | array {v : Val} {vs : List Val} {js : List Json} : v.Contains .array vs →
      RepresentsElements vs js → Represents v (.array js)
  | object {v : Val} {vs : List Val} {ms kept : List (Str × Json)} : v.Contains .map vs →
      kept.Perm (lastMembers ms) → RepresentsMembers vs kept → Represents v (.object ms)

inductive RepresentsElements : List Val → List Json → Prop
  | nil : RepresentsElements [] []
  | cons {v : Val} {j : Json} {vs : List Val} {js : List Json} : Represents v j →
      RepresentsElements vs js → RepresentsElements (v :: vs) (j :: js)

inductive RepresentsMembers : List Val → List (Str × Json) → Prop
  | nil : RepresentsMembers [] []
  | cons {k v : Val} {s : Str} {j : Json} {vs : List Val} {ms : List (Str × Json)} :
      k.IsString s.units → Represents v j → RepresentsMembers vs ms →
      RepresentsMembers (k :: v :: vs) ((s, j) :: ms)

end

end Val

/-! ## Keys that have an order -/

namespace Json

open Unicode

/-- Two keys with escape sequences that are less in UTF-16 but not by their characters, and one
without that is between them by its characters. -/
def Str.Cycle : Str → Str → Str → Prop
  | .escaped a, .escaped b, .plain c =>
    a.map UInt16.toNat < b.map UInt16.toNat ∧ codePoints b ≤ c.map (fun ch => ch.val.toNat) ∧
      c.map (fun ch => ch.val.toNat) ≤ codePoints a
  | _, _, _ => False

def KeysOrdered (ms : List (Str × Json)) : Prop :=
  ∀ a ∈ ms, ∀ b ∈ ms, ∀ c ∈ ms, ¬ a.1.Cycle b.1 c.1

mutual

/-- No object that counts has keys in a cycle. -/
def Ordered : Json → Prop
  | array js => OrderedElements js
  | object ms => KeysOrdered ms ∧ OrderedMembers ms
  | _ => True

def OrderedElements : List Json → Prop
  | [] => True
  | j :: js => j.Ordered ∧ OrderedElements js

def OrderedMembers : List (Str × Json) → Prop
  | [] => True
  | (s, j) :: ms => ((∃ m ∈ ms, s.units = m.1.units) ∨ j.Ordered) ∧ OrderedMembers ms

end

end Json

end QtBase
