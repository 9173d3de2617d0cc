import QtBase.Core.Exec
import QtBase.Lib.PatternSearch
import QtBase.Lib.Unicode
import QtBase.Text.Utf8Functions
import Mathlib.Logic.Function.Basic
import Mathlib.Algebra.Order.Ring.Int

/-! `QtPrivate::findString` and `QStringMatcher`: the search for one character, with a rolling hash,
and after Boyer and Moore. `fold` stands for `QUnicodeTables::CaseFold`. -/
namespace QtBase.StringMatcher

open PatternSearch Unicode

inductive CaseSensitivity
  | CaseInsensitive
  | CaseSensitive
  deriving DecidableEq, Repr

/-- A pointer into memory and a size. The string is `utf16 0` to `utf16 (size - 1)`. -/
structure QStringView where
  utf16 : ℤ → UInt16
  size : ℕ

namespace QStringView

def sliced (v : QStringView) (pos : ℤ) (n : ℕ) : QStringView := ⟨fun i => v.utf16 (pos + i), n⟩

def toList (v : QStringView) : List UInt16 := (List.range v.size).map fun i => v.utf16 i

end QStringView

/-- `foldCase(ch, start)` for `ch = units + i`. `foldCase(ch, last)` is the same in a loop from
`start` on, where `last` is the unit before or 0. -/
def foldCase (fold : ℕ → ℕ) (units : ℤ → UInt16) (start i : ℤ) : ℕ :=
  if Low (units i) ∧ i > start ∧ High (units (i - 1)) then
    fold (QChar.surrogateToUcs4 (units (i - 1)) (units i)).toNat
  else fold (units i).toNat

/-- What the loops compare: the units or their folds. -/
def keyOf (fold : ℕ → ℕ) (cs : CaseSensitivity) (units : ℤ → UInt16) (start i : ℤ) : ℕ :=
  match cs with
  | .CaseSensitive => (units i).toNat
  | .CaseInsensitive => foldCase fold units start i

/-- The first difference of `n` keys from `i` on. -/
def firstDifference (a b : ℤ → ℕ) : ℕ → ℤ → ℤ
  | 0, _ => 0
  | n + 1, i => if (a i : ℤ) - b i ≠ 0 then a i - b i else firstDifference a b n (i + 1)

/-- `QtPrivate::compareStrings`: `ucstrcmp` or `ucstricmp`. -/
def compareStrings (fold : ℕ → ℕ) (lhs rhs : QStringView) (cs : CaseSensitivity) : ℤ :=
  let cmp := firstDifference (keyOf fold cs lhs.utf16 0) (keyOf fold cs rhs.utf16 0)
    (min lhs.size rhs.size) 0
  if cmp ≠ 0 then cmp
  else if lhs.size = rhs.size then 0 else if lhs.size < rhs.size then -1 else 1

/-- `qt_starts_with_impl` -/
def startsWith (fold : ℕ → ℕ) (haystack needle : QStringView) (cs : CaseSensitivity) : Bool :=
  if haystack.size = 0 then needle.size = 0
  else if needle.size > haystack.size then false
  else compareStrings fold (haystack.sliced 0 needle.size) needle cs = 0

/-! ## `bm_init_skiptable` and `bm_find` -/

def FoldBufferCapacity : ℕ := 256

/-- `while (l--) { skiptable[key & 0xff] = l; ++uc; }` -/
def fillSkiptable (key : ℤ → ℕ) : ℕ → ℤ → (ℕ → ℕ) → (ℕ → ℕ)
  | 0, _, skiptable => skiptable
  | l + 1, uc, skiptable =>
    fillSkiptable key l (uc + 1) (Function.update skiptable (key uc % 256) l)

/-- With a negative `l` the loop runs out of the needle. -/
def bm_init_skiptable (fold : ℕ → ℕ) (needle : QStringView) (cs : CaseSensitivity) :
    Exec (ℕ → ℕ) :=
  let len : ℤ := match cs with
    | .CaseSensitive => needle.size
    | .CaseInsensitive => min needle.size FoldBufferCapacity
  let l := min (len.bmod (2 ^ 32)) 255
  if l < 0 then .error .undefined
  else .ok (fillSkiptable (keyOf fold cs needle.utf16 (len - l)) l.toNat (len - l) fun _ => l.toNat)

/-- `while (skip < m) { if (key(current - skip) != pat[m - 1 - skip]) break; ++skip; }`, with `k`
turns left. -/
def matchBack (key : ℤ → ℕ) (pat : ℕ → ℕ) (m : ℕ) (current : ℤ) : ℕ → ℕ → ℕ
  | 0, skip => skip
  | k + 1, skip =>
    if key (current - skip) ≠ pat (m - 1 - skip) then skip
    else matchBack key pat m current k (skip + 1)

/-- The loop of `bm_find`. `pat` are the `m` keys that are compared, `rest` tells of the candidate
whether what is left of the needle follows. -/
def bmLoop (key : ℤ → ℕ) (pat : ℕ → ℕ) (m : ℕ) (skiptable : ℕ → ℕ) (rest : ℤ → Bool) (l : ℤ) :
    ℕ → ℤ → Exec ℤ
  | 0, _ => .error .diverge
  | k + 1, current =>
    if current < l then
      let skip := skiptable (key current % 256)
      let matched := matchBack key pat m current m 0
      if skip = 0 ∧ matched > m - 1 ∧ rest (current - (m - 1)) then .ok (current - (m - 1))
      else
        let skip :=
          if skip = 0 then
            if skiptable (key (current - matched) % 256) = m then m - matched else 1
          else skip
        if current > l - skip then .ok (-1)
        else bmLoop key pat m skiptable rest l k (current + skip)
    else .ok (-1)

def bm_find (fold : ℕ → ℕ) (haystack : QStringView) (index : ℤ) (needle : QStringView)
    (skiptable : ℕ → ℕ) (cs : CaseSensitivity) : Exec ℤ :=
  let l := haystack.size
  let pl := needle.size
  if pl = 0 then .ok (if index > l then -1 else index)
  else
    match cs with
    | .CaseSensitive =>
      bmLoop (fun i => (haystack.utf16 i).toNat) (fun t => (needle.utf16 t).toNat) pl skiptable
        (fun _ => true) l (l + 1) (index + (pl - 1))
    | .CaseInsensitive =>
      let foldBufferLength := min FoldBufferCapacity pl
      let foldBuffer : ℕ → ℕ := fun t => foldCase fold needle.utf16 0 t % 2 ^ 16
      let restNeedle := needle.sliced foldBufferLength (pl - foldBufferLength)
      let rest := fun candidatePos : ℤ =>
        let restHaystack := haystack.sliced (min (l : ℤ) (candidatePos + foldBufferLength))
          (l - (candidatePos + foldBufferLength).toNat)
        restNeedle.size = 0 || startsWith fold restHaystack restNeedle .CaseInsensitive
      bmLoop (foldCase fold haystack.utf16 0) foldBuffer foldBufferLength skiptable rest l (l + 1)
        (index + (foldBufferLength - 1))

def qFindStringBoyerMoore (fold : ℕ → ℕ) (haystack : QStringView) (haystackOffset : ℤ)
    (needle : QStringView) (cs : CaseSensitivity) : Exec ℤ := do
  let skiptable ← bm_init_skiptable fold needle cs
  bm_find fold haystack (if haystackOffset < 0 then 0 else haystackOffset) needle skiptable cs

/-- `QStringMatcher::indexIn(str, from)` of a matcher with this pattern. -/
def indexIn (fold : ℕ → ℕ) (pattern : QStringView) (cs : CaseSensitivity) (str : QStringView)
    (start : ℤ) : Exec ℤ := do
  let skiptable ← bm_init_skiptable fold pattern cs
  bm_find fold str (if start < 0 then 0 else start) pattern skiptable cs

/-! ## `findString` -/

/-- The first of the `k` places from `n` on with `p`, or the end of them. -/
def findIf (p : ℤ → Bool) : ℕ → ℤ → ℤ
  | 0, n => n
  | k + 1, n => if p n then n else findIf p k (n + 1)

def qFindChar (fold : ℕ → ℕ) (str : QStringView) (ch : UInt16) (start : ℤ) (cs : CaseSensitivity) :
    ℤ :=
  if start < -str.size then -1
  else
    let start := if start < 0 then max (start + str.size) 0 else start
    if start < str.size then
      let c := match cs with
        | .CaseSensitive => ch.toNat
        | .CaseInsensitive => fold ch.toNat % 2 ^ 16
      let key := match cs with
        | .CaseSensitive => fun i => (str.utf16 i).toNat
        | .CaseInsensitive => fun i => fold (str.utf16 i).toNat % 2 ^ 16
      let n := findIf (fun i => key i = c) (str.size - start.toNat) start
      if n ≠ str.size then n else -1
    else -1

/-- `std::size_t` -/
def sizeT (n : ℤ) : ℤ := n % 2 ^ 64

/-- `hash = (hash << 1) + key` for `k` keys from `i` on. -/
def hashKeys (key : ℤ → ℕ) : ℕ → ℤ → ℤ → ℤ
  | 0, _, hash => hash
  | k + 1, i, hash => hashKeys key k (i + 1) (sizeT (2 * hash + key i))

/-- `REHASH(a)` -/
def rehash (slMinus1 : ℕ) (hash : ℤ) (a : ℕ) : ℤ :=
  let hash := if slMinus1 < 64 then sizeT (hash - a * 2 ^ slMinus1) else hash
  sizeT (2 * hash)

/-- `while (haystack <= end)`, with `k` turns left. -/
def hashLoop (key : ℤ → ℕ) (slMinus1 : ℕ) (hashNeedle : ℤ) (same : ℤ → Bool) : ℕ → ℤ → ℤ → ℤ
  | 0, _, _ => -1
  | k + 1, haystack, hashHaystack =>
    let hashHaystack := sizeT (hashHaystack + key (haystack + slMinus1))
    if hashHaystack = hashNeedle ∧ same haystack then haystack
    else hashLoop key slMinus1 hashNeedle same k (haystack + 1)
      (rehash slMinus1 hashHaystack (key haystack))

def findString (fold : ℕ → ℕ) (haystack0 : QStringView) (start : ℤ) (needle0 : QStringView)
    (cs : CaseSensitivity) : Exec ℤ :=
  let l := haystack0.size
  let sl := needle0.size
  let start := if start < 0 then start + l else start
  -- compared as `std::size_t`
  if sl + start < 0 ∨ sl + start > l then .ok (-1)
  else if sl = 0 then .ok start
  else if l = 0 then .ok (-1)
  else if sl = 1 then .ok (qFindChar fold haystack0 (needle0.utf16 0) start cs)
  else if l > 500 ∧ sl > 5 then qFindStringBoyerMoore fold haystack0 start needle0 cs
  else
    let keyNeedle := keyOf fold cs needle0.utf16 0
    let keyHaystack := keyOf fold cs haystack0.utf16 0
    let hashNeedle := hashKeys keyNeedle sl 0 0
    let hashHaystack := hashKeys keyHaystack sl start 0
    .ok (hashLoop keyHaystack (sl - 1) hashNeedle
      (fun i => compareStrings fold needle0 (haystack0.sliced i sl) cs = 0)
      (l - sl + 1 - start).toNat start (sizeT (hashHaystack - keyHaystack (start + (sl - 1 : ℕ)))))

end QtBase.StringMatcher
