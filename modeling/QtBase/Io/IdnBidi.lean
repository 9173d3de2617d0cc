import QtBase.Io.IdnContextJ

/-! `DomainValidityChecker`: the Bidi rule, for a label and for the labels of a domain name. -/
namespace QtBase

open List

namespace Idn

/-- `QChar::Direction`. -/
inductive Direction
  | L | R | EN | ES | ET | AN | CS | B | S | WS | ON | LRE | LRO | AL | RLE | RLO | PDF | NSM | BN
  | LRI | RLI | FSI | PDI
  deriving DecidableEq

/-- `QUnicodeTables::IdnaStatus`. -/
inductive IdnaStatus
  | Disallowed | Valid | Ignored | Mapped | Deviation
  deriving DecidableEq

/-- What the checker looks up for a code point, and the Normalization Form C. -/
structure UnicodeTables where
  direction : UInt32 → Direction
  joiningType : UInt32 → JoiningType
  combiningClass : UInt32 → UInt8
  isMark : UInt32 → Bool
  idnaStatus : UInt32 → IdnaStatus
  normalizedC : List UInt16 → List UInt16

/-! ## The check of a label -/

/-- What the loop of `checkBidiRules` keeps. -/
structure BidiScanner where
  tailOk : Bool
  labelHasEN : Bool
  labelHasAN : Bool

/-- A character behind the first one, or nothing if the label is not valid. -/
def nextBidi (labelIsRTL : Bool) (s : BidiScanner) : Direction → Option BidiScanner
  | .R | .AL => if !labelIsRTL then none else some { s with tailOk := true }
  | .L => if labelIsRTL then none else some { s with tailOk := true }
  | .ES | .CS | .ET | .ON | .BN => some { s with tailOk := false }
  | .NSM => some s
  | .AN =>
    if labelIsRTL then
      if s.labelHasEN then none else some { s with labelHasAN := true, tailOk := true }
    else none
  | .EN =>
    if labelIsRTL then
      if s.labelHasAN then none else some { s with labelHasEN := true, tailOk := true }
    else some { s with tailOk := true }
  | _ => none

def scanBidi (labelIsRTL : Bool) : BidiScanner → List Direction → Bool
  | s, [] => s.tailOk
  | s, d :: label => match nextBidi labelIsRTL s d with
    | none => false
    | some s => scanBidi labelIsRTL s label

/-- `checkBidiRules`, on the directions of the characters. -/
def checkDirections : List Direction → Bool
  | [] => true
  | d :: label => match d with
    | .L => scanBidi false ⟨true, false, false⟩ label
    | .R | .AL => scanBidi true ⟨true, false, false⟩ label
    | _ => false

namespace UnicodeTables

variable (t : UnicodeTables)

def directions (label : List UInt16) : List Direction := (toStdU32String label).map t.direction

def checkBidiRules (label : List UInt16) : Bool := checkDirections (t.directions label)

end UnicodeTables

/-! ## The Bidi rule -/

/-- The directions that are allowed in an RTL label, and in an LTR label. -/
def allowed (labelIsRTL : Bool) : List Direction :=
  if labelIsRTL then [.R, .AL, .AN, .EN, .ES, .CS, .ET, .ON, .BN, .NSM]
  else [.L, .EN, .ES, .CS, .ET, .ON, .BN, .NSM]

/-- The directions that an RTL label ends with, and an LTR label. -/
def endings (labelIsRTL : Bool) : List Direction :=
  if labelIsRTL then [.R, .AL, .EN, .AN] else [.L, .EN]

/-- A label that begins with R or AL. -/
def RTL (label : List Direction) : Prop := ∃ d ∈ label.head?, d = .R ∨ d = .AL

/-- A label that begins with L. -/
def LTR (label : List Direction) : Prop := label.head? = some .L

/-- The label ends with one of these, and then nonspacing marks. -/
def EndsWith (ends label : List Direction) : Prop :=
  ∃ before d marks, label = before ++ d :: marks ∧ d ∈ ends ∧ ∀ m ∈ marks, m = .NSM

/-- The six conditions. -/
structure BidiRule (label : List Direction) : Prop where
  first : ∀ d ∈ label.head?, d = .L ∨ d = .R ∨ d = .AL
  rtl_allowed : RTL label → ∀ d ∈ label, d ∈ allowed true
  rtl_end : RTL label → EndsWith (endings true) label
  rtl_numbers : RTL label → ¬(.EN ∈ label ∧ .AN ∈ label)
  ltr_allowed : LTR label → ∀ d ∈ label, d ∈ allowed false
  ltr_end : LTR label → EndsWith (endings false) label

/-! ## The scanner -/

variable {labelIsRTL : Bool} {s : BidiScanner} {d : Direction} {before label : List Direction}

/-- EN and AN exclude each other in an RTL label. -/
def Clashes (labelIsRTL : Bool) (s : BidiScanner) (d : Direction) : Prop :=
  labelIsRTL = true ∧ (d = .AN ∧ s.labelHasEN = true ∨ d = .EN ∧ s.labelHasAN = true)

instance : Decidable (Clashes labelIsRTL s d) := inferInstanceAs (Decidable (_ ∧ _))

theorem nextBidi_eq (labelIsRTL : Bool) (s : BidiScanner) (d : Direction) :
    nextBidi labelIsRTL s d =
      if d ∈ allowed labelIsRTL ∧ ¬Clashes labelIsRTL s d then
        some ⟨if d = .NSM then s.tailOk else decide (d ∈ endings labelIsRTL),
          s.labelHasEN || labelIsRTL && d == .EN, s.labelHasAN || labelIsRTL && d == .AN⟩
      else none := by
  obtain ⟨tailOk, labelHasEN, labelHasAN⟩ := s
  cases d <;> cases labelIsRTL <;> cases labelHasEN <;> cases labelHasAN <;> rfl

theorem endsWith_snoc {ends : List Direction} (hmark : .NSM ∉ ends) (before : List Direction)
    (d : Direction) :
    EndsWith ends (before ++ [d]) ↔ if d = .NSM then EndsWith ends before else d ∈ ends := by
  constructor
  · rintro ⟨start, e, marks, heq, he, hmarks⟩
    rcases eq_nil_or_concat' marks with rfl | ⟨marks, m, rfl⟩
    · obtain ⟨-, hd⟩ := append_inj' heq rfl
      obtain rfl := singleton_inj.mp hd
      rw [if_neg fun hnsm : d = .NSM => hmark (hnsm ▸ he)]
      exact he
    · rw [← cons_append, ← append_assoc] at heq
      obtain ⟨rfl, hd⟩ := append_inj' heq rfl
      obtain rfl := singleton_inj.mp hd
      rw [if_pos (hmarks d (mem_append_right marks (mem_singleton_self d)))]
      exact ⟨start, e, marks, rfl, he, fun m hm => hmarks m (mem_append_left _ hm)⟩
  · intro h
    split_ifs at h with hnsm
    · obtain ⟨start, e, marks, rfl, he, hmarks⟩ := h
      refine ⟨start, e, marks ++ [d], by rw [append_assoc, cons_append], he, ?_⟩
      intro m hm
      rcases mem_append.mp hm with hm | hm
      · exact hmarks m hm
      · rw [mem_singleton.mp hm, hnsm]
    · exact ⟨before, d, [], rfl, h, fun m hm => absurd hm not_mem_nil⟩

theorem nsm_notMem_endings (labelIsRTL : Bool) : .NSM ∉ endings labelIsRTL := by
  cases labelIsRTL with
  | true => decide
  | false => decide

/-- What the scanner knows about the text before it. -/
structure Reads (labelIsRTL : Bool) (before : List Direction) (s : BidiScanner) : Prop where
  tail : s.tailOk = true ↔ EndsWith (endings labelIsRTL) before
  en : s.labelHasEN = true ↔ labelIsRTL = true ∧ .EN ∈ before
  an : s.labelHasAN = true ↔ labelIsRTL = true ∧ .AN ∈ before

theorem Reads.next (h : Reads labelIsRTL before s) (d : Direction) :
    Reads labelIsRTL (before ++ [d])
    ⟨if d = .NSM then s.tailOk else decide (d ∈ endings labelIsRTL),
      s.labelHasEN || labelIsRTL && d == .EN, s.labelHasAN || labelIsRTL && d == .AN⟩ where
  tail := by
    rw [endsWith_snoc (nsm_notMem_endings labelIsRTL)]
    split_ifs with hnsm
    · exact h.tail
    · exact decide_eq_true_iff
  en := by
    rw [Bool.or_eq_true, h.en, Bool.and_eq_true, beq_iff_eq, mem_append, mem_singleton,
      ← and_or_left, @eq_comm _ d]
  an := by
    rw [Bool.or_eq_true, h.an, Bool.and_eq_true, beq_iff_eq, mem_append, mem_singleton,
      ← and_or_left, @eq_comm _ d]

/-- What is asked of a label, of which the scanner has read a part. -/
structure Wanted (labelIsRTL : Bool) (before label : List Direction) : Prop where
  allowed : ∀ d ∈ label, d ∈ allowed labelIsRTL
  ends : EndsWith (endings labelIsRTL) (before ++ label)
  numbers : labelIsRTL = true → ¬(.EN ∈ before ++ label ∧ .AN ∈ before ++ label)

theorem scanBidi_iff (h : Reads labelIsRTL before s)
    (hnumbers : labelIsRTL = true → ¬(.EN ∈ before ∧ .AN ∈ before)) :
    scanBidi labelIsRTL s label = true ↔ Wanted labelIsRTL before label := by
  induction label generalizing before s with
  | nil =>
    unfold scanBidi
    rw [h.tail]
    constructor
    · intro hends
      refine ⟨fun d hd => absurd hd not_mem_nil, ?_, ?_⟩
      · simp [hends]
      · rw [append_nil]
        exact hnumbers
    · intro hwanted
      have hends := hwanted.ends
      rw [append_nil] at hends
      exact hends
  | cons d label ih =>
    have hmove : before ++ [d] ++ label = before ++ d :: label := by
      rw [append_assoc, singleton_append]
    have hclash : Clashes labelIsRTL s d ↔
        labelIsRTL = true ∧ .EN ∈ before ++ [d] ∧ .AN ∈ before ++ [d] := by
      unfold Clashes
      rw [h.en, h.an, mem_append, mem_append, mem_singleton, mem_singleton]
      constructor
      · rintro ⟨hrtl, ⟨rfl, -, hen⟩ | ⟨rfl, -, han⟩⟩
        · exact ⟨hrtl, .inl hen, .inr rfl⟩
        · exact ⟨hrtl, .inr rfl, .inl han⟩
      · rintro ⟨hrtl, hen | hen, han | han⟩
        · exact absurd ⟨hen, han⟩ (hnumbers hrtl)
        · exact ⟨hrtl, .inl ⟨han.symm, hrtl, hen⟩⟩
        · exact ⟨hrtl, .inr ⟨hen.symm, hrtl, han⟩⟩
        · exact Direction.noConfusion (hen.trans han.symm)
    unfold scanBidi
    rw [nextBidi_eq]
    by_cases hnext : d ∈ allowed labelIsRTL ∧ ¬Clashes labelIsRTL s d
    · rw [if_pos hnext]
      dsimp only
      rw [ih (h.next d) fun hrtl hand => hnext.2 (hclash.mpr ⟨hrtl, hand⟩)]
      constructor
      · intro hw
        refine ⟨fun e he => ?_, hmove ▸ hw.ends, hmove ▸ hw.numbers⟩
        rcases mem_cons.mp he with rfl | he
        · exact hnext.1
        · exact hw.allowed e he
      · intro hw
        exact ⟨fun e he => hw.allowed e (mem_cons_of_mem d he), hmove.symm ▸ hw.ends,
          hmove.symm ▸ hw.numbers⟩
    · rw [if_neg hnext]
      refine ⟨fun hf => Bool.noConfusion hf, fun hw => ?_⟩
      refine absurd ⟨hw.allowed d mem_cons_self, fun hc => ?_⟩ hnext
      obtain ⟨hrtl, hen, han⟩ := hclash.mp hc
      have hnot := hw.numbers hrtl
      rw [← hmove] at hnot
      exact hnot ⟨mem_append_left label hen, mem_append_left label han⟩

theorem reads_first (hends : d ∈ endings labelIsRTL) (hen : d ≠ .EN) (han : d ≠ .AN) :
    Reads labelIsRTL [d] ⟨true, false, false⟩ where
  tail := ⟨fun _ => ⟨[], d, [], rfl, hends, fun _ hm => absurd hm not_mem_nil⟩, fun _ => rfl⟩
  en := ⟨fun h => Bool.noConfusion h, fun h => absurd (mem_singleton.mp h.2).symm hen⟩
  an := ⟨fun h => Bool.noConfusion h, fun h => absurd (mem_singleton.mp h.2).symm han⟩

theorem scanBidi_first (hends : d ∈ endings labelIsRTL) (hallowed : d ∈ allowed labelIsRTL)
    (hen : d ≠ .EN) (han : d ≠ .AN) :
    scanBidi labelIsRTL ⟨true, false, false⟩ label = true ↔
      (∀ e ∈ d :: label, e ∈ allowed labelIsRTL) ∧ EndsWith (endings labelIsRTL) (d :: label) ∧
        (labelIsRTL = true → ¬(.EN ∈ d :: label ∧ .AN ∈ d :: label)) := by
  rw [scanBidi_iff (reads_first hends hen han) fun _ hand =>
    hen (mem_singleton.mp hand.1).symm]
  constructor
  · intro hw
    refine ⟨fun e he => ?_, hw.ends, hw.numbers⟩
    rcases mem_cons.mp he with rfl | he
    · exact hallowed
    · exact hw.allowed e he
  · intro hand
    exact ⟨fun e he => hand.1 e (mem_cons_of_mem d he), hand.2.1, hand.2.2⟩

theorem rtl_cons : RTL (d :: label) ↔ d = .R ∨ d = .AL :=
  ⟨fun ⟨_, he, h⟩ => Option.some.inj he ▸ h, fun h => ⟨d, rfl, h⟩⟩

theorem bidiRule_rtl (hd : d = .R ∨ d = .AL) : BidiRule (d :: label) ↔
    (∀ e ∈ d :: label, e ∈ allowed true) ∧ EndsWith (endings true) (d :: label) ∧
      (true = true → ¬(.EN ∈ d :: label ∧ .AN ∈ d :: label)) := by
  have hrtl : RTL (d :: label) := rtl_cons.2 hd
  have hnot : ¬LTR (d :: label) := by
    intro hltr
    obtain rfl := Option.some.inj hltr
    rcases hd with heq | heq
    · cases heq
    · cases heq
  constructor
  · intro h
    exact ⟨h.rtl_allowed hrtl, h.rtl_end hrtl, fun _ => h.rtl_numbers hrtl⟩
  · intro h
    exact ⟨fun e he => Option.some.inj he ▸ .inr hd, fun _ => h.1, fun _ => h.2.1,
      fun _ => h.2.2 rfl, fun hltr => absurd hltr hnot, fun hltr => absurd hltr hnot⟩

theorem bidiRule_ltr : BidiRule (.L :: label) ↔
    (∀ e ∈ .L :: label, e ∈ allowed false) ∧ EndsWith (endings false) (.L :: label) ∧
      (false = true → ¬(.EN ∈ .L :: label ∧ .AN ∈ .L :: label)) := by
  have hltr : LTR (.L :: label) := rfl
  have hnot : ¬RTL (.L :: label) := by
    rw [rtl_cons]
    decide
  constructor
  · intro h
    exact ⟨h.ltr_allowed hltr, h.ltr_end hltr, fun hf => Bool.noConfusion hf⟩
  · intro h
    exact ⟨fun e he => .inl (Option.some.inj he).symm, fun hrtl => absurd hrtl hnot,
      fun hrtl => absurd hrtl hnot, fun hrtl => absurd hrtl hnot, fun _ => h.1, fun _ => h.2.1⟩

theorem checkDirections_iff (label : List Direction) :
    checkDirections label = true ↔ BidiRule label := by
  cases label with
  | nil =>
    have hrtl (P : Prop) : RTL [] → P := fun ⟨_, he, _⟩ => by cases he
    have hltr (P : Prop) : LTR [] → P := fun h => by cases h
    have hfirst : ∀ d ∈ ([] : List Direction).head?, d = .L ∨ d = .R ∨ d = .AL :=
      fun d hd => by cases hd
    exact ⟨fun _ => ⟨hfirst, hrtl _, hrtl _, hrtl _, hltr _, hltr _⟩, fun _ => rfl⟩
  | cons d label =>
    by_cases hltr : d = .L
    · subst hltr
      rw [bidiRule_ltr]
      exact scanBidi_first (by decide) (by decide) (by decide) (by decide)
    by_cases hrtl : d = .R ∨ d = .AL
    · rw [bidiRule_rtl hrtl]
      rcases hrtl with rfl | rfl
      · exact scanBidi_first (by decide) (by decide) (by decide) (by decide)
      · exact scanBidi_first (by decide) (by decide) (by decide) (by decide)
    · have hfalse : checkDirections (d :: label) = false := by
        cases d with
        | L => exact absurd rfl hltr
        | R => exact absurd (.inl rfl) hrtl
        | AL => exact absurd (.inr rfl) hrtl
        | _ => rfl
      rw [hfalse]
      refine ⟨fun hf => Bool.noConfusion hf, fun h => ?_⟩
      rcases h.first d rfl with heq | heq
      · exact absurd heq hltr
      · exact absurd heq hrtl

/-! ## The labels of a domain name -/

structure DomainValidityChecker where
  domainNameIsBidi : Bool
  hadBidiErrors : Bool

/-- A label, and whether the options have `AceTransitionalProcessing`. -/
structure LabelCall where
  label : List UInt16
  transitional : Bool

def isBidiDirection (d : Direction) : Bool := d == .R || d == .AL || d == .AN

/-- Whether the status of a code point lets a label be valid. -/
def statusOk (transitional : Bool) : IdnaStatus → Bool
  | .Valid => true
  | .Deviation => !transitional
  | _ => false

namespace DomainValidityChecker

variable (t : UnicodeTables) (k : DomainValidityChecker)

/-- The look at the direction of a code point, and whether the label is refused for it. -/
def seeDirection (d : Direction) : DomainValidityChecker × Bool :=
  if !k.domainNameIsBidi && isBidiDirection d then
    ({ k with domainNameIsBidi := true }, k.hadBidiErrors)
  else (k, false)

/-- The loop of `checkLabel`: whether there are joiners, or nothing if the label is refused. -/
def scanLabel (transitional : Bool) : DomainValidityChecker → Bool → List UInt32 →
    DomainValidityChecker × Option Bool
  | k, hasJoiners, [] => (k, some hasJoiners)
  | k, hasJoiners, c :: label =>
    let seen := k.seeDirection (t.direction c)
    if seen.2 then (seen.1, none)
    else if statusOk transitional (t.idnaStatus c) then
      scanLabel transitional seen.1 (hasJoiners || c == ZWNJ || c == ZWJ) label
    else (seen.1, none)

def checkLabel (call : LabelCall) : DomainValidityChecker × Bool :=
  let label := call.label
  if label = [] then (k, true)
  else if label ≠ t.normalizedC label then (k, false)
  else if 4 ≤ label.length ∧ label.getD 2 0 = 0x2d ∧ label.getD 3 0 = 0x2d then (k, false)
  else if label.head? = some 0x2d ∨ label.getLast? = some 0x2d then (k, false)
  else if 0x2e ∈ label then (k, false)
  else if t.isMark ((toStdU32String label).headD 0) then (k, false)
  else match scanLabel t call.transitional k false (toStdU32String label) with
    | (k, none) => (k, false)
    | (k, some hasJoiners) =>
      if hasJoiners && !checkContextJRules t.joiningType t.combiningClass label then (k, false)
      else
        let k := { k with hadBidiErrors := k.hadBidiErrors || !t.checkBidiRules label }
        (k, !(k.domainNameIsBidi && k.hadBidiErrors))

/-- What the calls of one checker return. -/
def checkLabels : DomainValidityChecker → List LabelCall → List Bool
  | _, [] => []
  | k, call :: calls => (k.checkLabel t call).2 :: checkLabels (k.checkLabel t call).1 calls

end DomainValidityChecker

/-- The other checks of a label that is not empty. -/
structure PassesOthers (t : UnicodeTables) (call : LabelCall) : Prop where
  normalized : call.label = t.normalizedC call.label
  hyphens : ¬(4 ≤ call.label.length ∧ call.label.getD 2 0 = 0x2d ∧ call.label.getD 3 0 = 0x2d)
  ends : ¬(call.label.head? = some 0x2d ∨ call.label.getLast? = some 0x2d)
  dot : 0x2e ∉ call.label
  mark : t.isMark ((toStdU32String call.label).headD 0) = false
  status : ∀ c ∈ toStdU32String call.label, statusOk call.transitional (t.idnaStatus c) = true
  contextJ : (∃ c ∈ toStdU32String call.label, IsJoiner c) →
    checkContextJRules t.joiningType t.combiningClass call.label = true

/-- The label has an R, AL or AN character. -/
def HasBidi (t : UnicodeTables) (call : LabelCall) : Prop :=
  ∃ d ∈ t.directions call.label, d = .R ∨ d = .AL ∨ d = .AN

namespace DomainValidityChecker

variable {t : UnicodeTables} {k : DomainValidityChecker} {call : LabelCall}

theorem isBidiDirection_iff (d : Direction) :
    isBidiDirection d = true ↔ d = .R ∨ d = .AL ∨ d = .AN := by
  unfold isBidiDirection
  rw [Bool.or_eq_true, Bool.or_eq_true, beq_iff_eq, beq_iff_eq, beq_iff_eq, or_assoc]

theorem any_isBidiDirection : (t.directions call.label).any isBidiDirection = true ↔
    HasBidi t call := by
  rw [any_eq_true]
  unfold HasBidi
  constructor
  · rintro ⟨d, hd, h⟩
    exact ⟨d, hd, (isBidiDirection_iff d).mp h⟩
  · rintro ⟨d, hd, h⟩
    exact ⟨d, hd, (isBidiDirection_iff d).mpr h⟩

theorem seeDirection_eq (k : DomainValidityChecker) (d : Direction) : k.seeDirection d =
    ({ k with domainNameIsBidi := k.domainNameIsBidi || isBidiDirection d },
      !k.domainNameIsBidi && k.hadBidiErrors && isBidiDirection d) := by
  obtain ⟨isBidi, hadErrors⟩ := k
  unfold seeDirection
  cases isBidi with
  | true => rfl
  | false =>
    cases isBidiDirection d with
    | true => cases hadErrors <;> rfl
    | false => cases hadErrors <;> rfl

theorem scanLabel_eq {transitional : Bool} {label : List UInt32}
    (hstatus : ∀ c ∈ label, statusOk transitional (t.idnaStatus c) = true)
    (k : DomainValidityChecker) (hasJoiners : Bool) :
    let found := (label.map t.direction).any isBidiDirection
    scanLabel t transitional k hasJoiners label =
      ({ k with domainNameIsBidi := k.domainNameIsBidi || found },
        if (!k.domainNameIsBidi && k.hadBidiErrors && found) = true then none
        else some (hasJoiners || label.any fun c => c == ZWNJ || c == ZWJ)) := by
  induction label generalizing k hasJoiners with
  | nil =>
    intro found
    rw [show found = false from rfl, Bool.and_false, if_neg Bool.false_ne_true, Bool.or_false]
    unfold scanLabel
    rw [any_nil, Bool.or_false]
  | cons c label ih =>
    intro found
    have hc := hstatus c mem_cons_self
    have ih := ih fun e he => hstatus e (mem_cons_of_mem c he)
    have hfound : found = (isBidiDirection (t.direction c) ||
      (label.map t.direction).any isBidiDirection) := rfl
    unfold scanLabel
    rw [seeDirection_eq, hfound, any_cons]
    dsimp only
    by_cases hrefused : (!k.domainNameIsBidi && k.hadBidiErrors &&
        isBidiDirection (t.direction c)) = true
    · have hd := (Bool.and_eq_true_iff.mp hrefused).2
      rw [if_pos hrefused, hd, Bool.true_or, if_pos (hd ▸ hrefused), Bool.or_true]
    · rw [if_neg hrefused, if_pos hc, ih]
      have hrest : ((!(k.domainNameIsBidi || isBidiDirection (t.direction c)) && k.hadBidiErrors &&
          (label.map t.direction).any isBidiDirection) = true) =
          ((!k.domainNameIsBidi && k.hadBidiErrors && (isBidiDirection (t.direction c) ||
            (label.map t.direction).any isBidiDirection)) = true) := by
        revert hrefused
        cases k.domainNameIsBidi <;> cases k.hadBidiErrors <;>
          cases isBidiDirection (t.direction c) <;> simp
      dsimp only
      rw [if_congr (iff_of_eq hrest) rfl rfl, Bool.or_assoc, Bool.or_assoc, Bool.or_assoc,
        Bool.or_assoc]

/-- A label that passes the other checks is remembered, and refused if the name is bidirectional and
has had an error. -/
theorem checkLabel_eq (h : call.label ≠ [] → PassesOthers t call) (k : DomainValidityChecker) :
    k.checkLabel t call =
      let k' : DomainValidityChecker :=
        ⟨k.domainNameIsBidi || (t.directions call.label).any isBidiDirection,
          k.hadBidiErrors || !t.checkBidiRules call.label⟩
      (k', call.label == [] || !(k'.domainNameIsBidi && k'.hadBidiErrors)) := by
  by_cases hnil : call.label = []
  · unfold checkLabel UnicodeTables.checkBidiRules UnicodeTables.directions
    rw [hnil]
    dsimp only
    rw [if_pos rfl, show toStdU32String [] = [] from rfl]
    simp [checkDirections]
  · have h := h hnil
    have hjoiners : (toStdU32String call.label).any (fun c => c == ZWNJ || c == ZWJ) = true →
        checkContextJRules t.joiningType t.combiningClass call.label = true := by
      rw [any_eq_true]
      rintro ⟨c, hc, hjoiner⟩
      rw [Bool.or_eq_true, beq_iff_eq, beq_iff_eq] at hjoiner
      exact h.contextJ ⟨c, hc, hjoiner.symm⟩
    unfold checkLabel
    dsimp only
    rw [if_neg hnil, if_neg (not_not.mpr h.normalized), if_neg h.hyphens, if_neg h.ends,
      if_neg h.dot, if_neg (by rw [h.mark]; exact Bool.false_ne_true), scanLabel_eq h.status,
      beq_false_of_ne hnil, Bool.false_or, Bool.false_or]
    unfold UnicodeTables.directions
    by_cases hrefused : (!k.domainNameIsBidi && k.hadBidiErrors &&
        ((toStdU32String call.label).map t.direction).any isBidiDirection) = true
    · rw [if_pos hrefused]
      rw [Bool.and_eq_true, Bool.and_eq_true] at hrefused
      rw [hrefused.1.2, hrefused.2, Bool.or_true, Bool.true_or]
      rfl
    · rw [if_neg hrefused]
      dsimp only
      rw [if_neg fun hand => ?_]
      rw [Bool.and_eq_true] at hand
      rw [hjoiners hand.1] at hand
      exact Bool.noConfusion hand.2

/-- A name is refused once, if its labels pass the other checks, exactly if there is a bidirectional
label and one that does not follow the rule. -/
theorem false_mem_checkLabels_iff {calls : List LabelCall}
    (h : ∀ call ∈ calls, call.label ≠ [] → PassesOthers t call)
    (hk : (k.domainNameIsBidi && k.hadBidiErrors) = false) :
    false ∈ checkLabels t k calls ↔
      (k.domainNameIsBidi = true ∨ ∃ call ∈ calls, HasBidi t call) ∧
        (k.hadBidiErrors = true ∨ ∃ call ∈ calls, ¬BidiRule (t.directions call.label)) := by
  induction calls generalizing k with
  | nil =>
    refine ⟨fun hf => absurd hf not_mem_nil, fun hand => ?_⟩
    have hbidi := hand.1.resolve_right fun ⟨_, hc, _⟩ => not_mem_nil hc
    have herrors := hand.2.resolve_right fun ⟨_, hc, _⟩ => not_mem_nil hc
    rw [hbidi, herrors] at hk
    exact Bool.noConfusion hk
  | cons call calls ih =>
    have hcall := h call mem_cons_self
    have hrule : (!t.checkBidiRules call.label) = true ↔ ¬BidiRule (t.directions call.label) := by
      unfold UnicodeTables.checkBidiRules
      rw [Bool.not_eq_true', ← Bool.not_eq_true, checkDirections_iff]
    unfold checkLabels
    rw [checkLabel_eq hcall, mem_cons, exists_mem_cons_iff, exists_mem_cons_iff,
      ← or_assoc, ← or_assoc, ← any_isBidiDirection, ← hrule, ← Bool.or_eq_true, ← Bool.or_eq_true]
    dsimp only
    obtain ⟨isBidi, hisBidi⟩ : ∃ b, b = (k.domainNameIsBidi ||
      (t.directions call.label).any isBidiDirection) := ⟨_, rfl⟩
    obtain ⟨hadErrors, hhadErrors⟩ : ∃ b, b = (k.hadBidiErrors || !t.checkBidiRules call.label) :=
      ⟨_, rfl⟩
    rw [← hisBidi, ← hhadErrors]
    by_cases hboth : (isBidi && hadErrors) = true
    · rw [Bool.and_eq_true] at hboth
      refine ⟨fun _ => ⟨.inl hboth.1, .inl hboth.2⟩, fun _ => .inl ?_⟩
      have hne : call.label ≠ [] := fun hnil => by
        rw [hnil] at hisBidi hhadErrors
        rw [hboth.1] at hisBidi
        rw [hboth.2] at hhadErrors
        have hempty : t.directions [] = [] := rfl
        unfold UnicodeTables.checkBidiRules at hhadErrors
        rw [hempty] at hisBidi hhadErrors
        rw [any_nil, Bool.or_false] at hisBidi
        rw [show checkDirections [] = true from rfl, Bool.not_true, Bool.or_false] at hhadErrors
        rw [← hisBidi, ← hhadErrors] at hk
        exact Bool.noConfusion hk
      rw [beq_false_of_ne hne, hboth.1, hboth.2]
      rfl
    · have hfalse := Bool.not_eq_true _ ▸ hboth
      rw [ih (fun c hc => h c (mem_cons_of_mem call hc)) hfalse, hfalse]
      have hnot : ¬false = (call.label == [] || !false) := by
        simp
      exact or_iff_right hnot

end DomainValidityChecker

/-- The check of one label is the rule, for any directions; and a checker refuses a name by its
calls exactly if there is a bidirectional label and one that breaks the rule, in any order. -/
theorem checkBidiRules_iff (t : UnicodeTables) :
    (∀ label, t.checkBidiRules label = true ↔ BidiRule (t.directions label)) ∧
      ∀ calls : List LabelCall, (∀ call ∈ calls, call.label ≠ [] → PassesOthers t call) →
        (false ∈ DomainValidityChecker.checkLabels t ⟨false, false⟩ calls ↔
          (∃ call ∈ calls, HasBidi t call) ∧
            ∃ call ∈ calls, ¬BidiRule (t.directions call.label)) := by
  refine ⟨fun label => checkDirections_iff _, fun calls h => ?_⟩
  rw [DomainValidityChecker.false_mem_checkLabels_iff h rfl]
  have hdrop (P : Prop) : false = true ∨ P ↔ P := or_iff_right Bool.false_ne_true
  rw [hdrop, hdrop]

/-- A label that ends with a separator, and then a Hebrew letter. -/
theorem checkBidiRules_iff_hebrew :
    let t : UnicodeTables :=
      { direction := fun c => if c = 0x5d0 then .R else if c = 0x2b then .ES else .L
        joiningType := fun _ => .none
        combiningClass := fun _ => 0
        isMark := fun _ => false
        idnaStatus := fun _ => .Valid
        normalizedC := fun s => s }
    let calls : List LabelCall := [⟨[0x61, 0x2b], false⟩, ⟨[0x5d0], false⟩]
    (∀ call ∈ calls, call.label ≠ [] → PassesOthers t call) ∧
      false ∈ DomainValidityChecker.checkLabels t ⟨false, false⟩ calls := by
  intro t calls
  have hpass (label : List UInt16) (hlabel : label = [0x61, 0x2b] ∨ label = [0x5d0]) :
      PassesOthers t ⟨label, false⟩ := by
    rcases hlabel with rfl | rfl
    · exact ⟨rfl, by decide, by decide, by decide, rfl, fun _ _ => rfl, fun _ => by decide⟩
    · exact ⟨rfl, by decide, by decide, by decide, rfl, fun _ _ => rfl, fun _ => by decide⟩
  have hothers : ∀ call ∈ calls, call.label ≠ [] → PassesOthers t call := by
    intro call hcall _
    rcases mem_cons.mp hcall with rfl | hcall
    · exact hpass _ (.inl rfl)
    · rw [mem_singleton.mp hcall]
      exact hpass _ (.inr rfl)
  have hrule : ¬BidiRule (t.directions [0x61, 0x2b]) := by
    rw [← (checkBidiRules_iff t).1]
    decide
  refine ⟨hothers, ((checkBidiRules_iff t).2 calls hothers).mpr ⟨?_, ?_⟩⟩
  · exact ⟨⟨[0x5d0], false⟩, mem_cons_of_mem _ (mem_singleton_self _), .R,
      mem_singleton_self _, .inl rfl⟩
  · exact ⟨⟨[0x61, 0x2b], false⟩, mem_cons_self, hrule⟩

end Idn

end QtBase
