import QtBase.Text.Utf32

/-! `DomainValidityChecker::checkContextJRules`: where joiners may stand in a label. -/
namespace QtBase

open List Option

namespace Idn

/-- `QChar::JoiningType`. -/
inductive JoiningType
  | none | causing | dual | right | left | transparent
  deriving DecidableEq

def ZWNJ : UInt32 := 0x200c

def ZWJ : UInt32 := 0x200d

def CombiningClassVirama : UInt8 := 9

/-- The state for the regular expression: as at the start, behind L or D and then T, behind a ZWNJ
and then T. -/
inductive ScannerState
  | Initial | LD_T | ZWNJ_T
  deriving DecidableEq

structure ContextScanner where
  regexpState : ScannerState
  previousIsVirama : Bool

section

variable (joiningType : UInt32 → JoiningType) (combiningClass : UInt32 → UInt8)

/-- What a character does to the state of the regular expression, or nothing if the label is not
valid. -/
def nextState (s : ContextScanner) (ch : UInt32) : Option ScannerState :=
  if ch = ZWJ then if s.previousIsVirama then some .Initial else none
  else if ch = ZWNJ then
    if !s.previousIsVirama && s.regexpState != .LD_T then none
    else some (if s.previousIsVirama then .Initial else .ZWNJ_T)
  else match joiningType ch with
    | .left => if s.regexpState = .ZWNJ_T then none else some .LD_T
    | .right => some .Initial
    | .dual => some .LD_T
    | .transparent => some s.regexpState
    | .none | .causing => some .Initial

def scanContexts : ContextScanner → List UInt32 → Bool
  | s, [] => s.regexpState != .ZWNJ_T
  | s, ch :: label => match nextState joiningType s ch with
    | none => false
    | some state => scanContexts ⟨state, combiningClass ch == CombiningClassVirama⟩ label

def checkContextJRules (label : List UInt16) : Bool :=
  scanContexts joiningType combiningClass ⟨.Initial, false⟩ (toStdU32String label)

/-! ## The rules -/

/-- A character before is a virama. -/
def BehindVirama (before : List UInt32) : Prop :=
  ∃ c ∈ before.getLast?, combiningClass c = CombiningClassVirama

/-- `(Joining_Type:{L,D})(Joining_Type:T)*` up to the joiner. -/
def LeftContext (before : List UInt32) : Prop :=
  ∃ start c ts, before = start ++ c :: ts ∧ (joiningType c = .left ∨ joiningType c = .dual) ∧
    ∀ t ∈ ts, joiningType t = .transparent

/-- `(Joining_Type:T)*(Joining_Type:{R,D})` from the joiner on. -/
def RightContext (after : List UInt32) : Prop :=
  ∃ ts c rest, after = ts ++ c :: rest ∧ (joiningType c = .right ∨ joiningType c = .dual) ∧
    ∀ t ∈ ts, joiningType t = .transparent

/-- The rules for U+200D and U+200C. -/
structure ContextJ (label : List UInt32) : Prop where
  zwj : ∀ before after, label = before ++ ZWJ :: after → BehindVirama combiningClass before
  zwnj : ∀ before after, label = before ++ ZWNJ :: after → BehindVirama combiningClass before ∨
    LeftContext joiningType before ∧ RightContext joiningType after

/-! ## What the scanner looks at -/

def IsJoiner (c : UInt32) : Prop := c = ZWJ ∨ c = ZWNJ

instance (c : UInt32) : Decidable (IsJoiner c) := inferInstanceAs (Decidable (_ ∨ _))

/-- A character that the scanner passes over. -/
def passes (c : UInt32) : Bool := joiningType c == .transparent && !decide (IsJoiner c)

/-- The last character that is not passed over is L or D, and no joiner. -/
def ScannedLeft (before : List UInt32) : Prop :=
  ∃ c ∈ before.reverse.find? fun c => !passes joiningType c,
    ¬IsJoiner c ∧ (joiningType c = .left ∨ joiningType c = .dual)

/-- The next character that is not passed over is there, and a joiner or not L. -/
def ScannedRight (after : List UInt32) : Prop :=
  ∃ c ∈ after.find? fun c => !passes joiningType c, IsJoiner c ∨ joiningType c ≠ .left

/-- The last character that is not passed over is a ZWNJ that needs a right context. -/
def Pending (before : List UInt32) : Prop :=
  ∃ start ts, before = start ++ ZWNJ :: ts ∧ ¬BehindVirama combiningClass start ∧
    ∀ t ∈ ts, passes joiningType t = true

end

variable {joiningType : UInt32 → JoiningType} {combiningClass : UInt32 → UInt8}

/-- What the scanner knows about the text before it. -/
structure Stands (joiningType : UInt32 → JoiningType) (combiningClass : UInt32 → UInt8)
    (before : List UInt32) (s : ContextScanner) : Prop where
  virama : s.previousIsVirama = true ↔ BehindVirama combiningClass before
  left : s.regexpState = .LD_T ↔ ScannedLeft joiningType before
  pending : s.regexpState = .ZWNJ_T ↔ Pending joiningType combiningClass before

theorem behindVirama_snoc (before : List UInt32) (ch : UInt32) :
    BehindVirama combiningClass (before ++ [ch]) ↔ combiningClass ch = CombiningClassVirama := by
  unfold BehindVirama
  rw [getLast?_concat]
  exact ⟨fun ⟨c, hc, h⟩ => some.inj hc ▸ h, fun h => ⟨ch, rfl, h⟩⟩

theorem scannedLeft_snoc (before : List UInt32) (ch : UInt32) :
    ScannedLeft joiningType (before ++ [ch]) ↔
      if passes joiningType ch then ScannedLeft joiningType before
      else ¬IsJoiner ch ∧ (joiningType ch = .left ∨ joiningType ch = .dual) := by
  unfold ScannedLeft
  rw [reverse_append, reverse_singleton, singleton_append, find?_cons]
  cases hpass : passes joiningType ch with
  | true => rfl
  | false => exact ⟨fun ⟨c, hc, h⟩ => some.inj hc ▸ h, fun h => ⟨ch, rfl, h⟩⟩

theorem scannedRight_cons (ch : UInt32) (after : List UInt32) :
    ScannedRight joiningType (ch :: after) ↔
      if passes joiningType ch then ScannedRight joiningType after
      else IsJoiner ch ∨ joiningType ch ≠ .left := by
  unfold ScannedRight
  rw [find?_cons]
  cases hpass : passes joiningType ch with
  | true => rfl
  | false => exact ⟨fun ⟨c, hc, h⟩ => some.inj hc ▸ h, fun h => ⟨ch, rfl, h⟩⟩

theorem passes_joiner {ch : UInt32} (h : IsJoiner ch) : passes joiningType ch = false := by
  unfold passes
  rw [decide_eq_true h, Bool.not_true, Bool.and_false]

theorem passes_of_not_joiner {ch : UInt32} (h : ¬IsJoiner ch) :
    passes joiningType ch = true ↔ joiningType ch = .transparent := by
  unfold passes
  rw [decide_eq_false h, Bool.not_false, Bool.and_true]
  exact beq_iff_eq

theorem pending_snoc (before : List UInt32) (ch : UInt32) :
    Pending joiningType combiningClass (before ++ [ch]) ↔
      if passes joiningType ch then Pending joiningType combiningClass before
      else ch = ZWNJ ∧ ¬BehindVirama combiningClass before := by
  constructor
  · rintro ⟨start, ts, heq, hvirama, hts⟩
    rcases eq_nil_or_concat' ts with rfl | ⟨ts, t, rfl⟩
    · obtain ⟨rfl, hch⟩ := append_inj' heq rfl
      have hch : ch = ZWNJ := singleton_inj.mp hch
      rw [passes_joiner (.inr hch), if_neg Bool.false_ne_true]
      exact ⟨hch, hvirama⟩
    · rw [← cons_append, ← append_assoc] at heq
      obtain ⟨rfl, hch⟩ := append_inj' heq rfl
      obtain rfl := singleton_inj.mp hch
      rw [if_pos (hts ch (mem_append_right ts (mem_singleton_self ch)))]
      exact ⟨start, ts, rfl, hvirama, fun t ht => hts t (mem_append_left _ ht)⟩
  · intro h
    split_ifs at h with hpass
    · obtain ⟨start, ts, rfl, hvirama, hts⟩ := h
      refine ⟨start, ts ++ [ch], by rw [append_assoc, cons_append], hvirama, ?_⟩
      intro t ht
      rcases mem_append.mp ht with ht | ht
      · exact hts t ht
      · rw [mem_singleton.mp ht]
        exact hpass
    · exact ⟨before, [], by rw [h.1], h.2, fun t ht => absurd ht not_mem_nil⟩

theorem Stands.nil : Stands joiningType combiningClass [] ⟨.Initial, false⟩ where
  virama := ⟨fun h => Bool.noConfusion h, fun ⟨_, hc, _⟩ => by cases hc⟩
  left := ⟨fun h => ScannerState.noConfusion h, fun ⟨_, hc, _⟩ => by cases hc⟩
  pending := ⟨fun h => ScannerState.noConfusion h, fun ⟨start, ts, heq, _⟩ => by
    cases start with
    | nil => cases heq
    | cons => cases heq⟩

/-- A character that is not passed over. -/
theorem Stands.stop {before : List UInt32} {ch : UInt32} {state : ScannerState}
    (hstop : passes joiningType ch = false)
    (hleft : state = .LD_T ↔ ¬IsJoiner ch ∧ (joiningType ch = .left ∨ joiningType ch = .dual))
    (hpending : state = .ZWNJ_T ↔ ch = ZWNJ ∧ ¬BehindVirama combiningClass before) :
    Stands joiningType combiningClass (before ++ [ch])
      ⟨state, combiningClass ch == CombiningClassVirama⟩ where
  virama := by
    rw [behindVirama_snoc]
    exact beq_iff_eq
  left := by
    rw [scannedLeft_snoc, hstop, if_neg Bool.false_ne_true]
    exact hleft
  pending := by
    rw [pending_snoc, hstop, if_neg Bool.false_ne_true]
    exact hpending

/-- The scanner still knows what it needs behind the next character. -/
theorem Stands.next {before : List UInt32} {s : ContextScanner} {ch : UInt32}
    {state : ScannerState} (h : Stands joiningType combiningClass before s)
    (hnext : nextState joiningType s ch = some state) :
    Stands joiningType combiningClass (before ++ [ch])
      ⟨state, combiningClass ch == CombiningClassVirama⟩ := by
  unfold nextState at hnext
  by_cases hzwj : ch = ZWJ
  · rw [if_pos hzwj] at hnext
    have hjoiner : IsJoiner ch := .inl hzwj
    have hne : ch ≠ ZWNJ := by
      rw [hzwj]
      decide
    split_ifs at hnext
    obtain rfl := some.inj hnext
    exact Stands.stop (passes_joiner hjoiner)
      ⟨fun heq => ScannerState.noConfusion heq, fun hand => absurd hjoiner hand.1⟩
      ⟨fun heq => ScannerState.noConfusion heq, fun hand => absurd hand.1 hne⟩
  by_cases hzwnj : ch = ZWNJ
  · rw [if_neg hzwj, if_pos hzwnj] at hnext
    have hjoiner : IsJoiner ch := .inr hzwnj
    split_ifs at hnext with hrefused hbehind
    · obtain rfl := some.inj hnext
      exact Stands.stop (passes_joiner hjoiner)
        ⟨fun heq => ScannerState.noConfusion heq, fun hand => absurd hjoiner hand.1⟩
        ⟨fun heq => ScannerState.noConfusion heq,
          fun hand => absurd (h.virama.mp hbehind) hand.2⟩
    · obtain rfl := some.inj hnext
      exact Stands.stop (passes_joiner hjoiner)
        ⟨fun heq => ScannerState.noConfusion heq, fun hand => absurd hjoiner hand.1⟩
        ⟨fun _ => ⟨hzwnj, fun hv => hbehind (h.virama.mpr hv)⟩, fun _ => rfl⟩
  rw [if_neg hzwj, if_neg hzwnj] at hnext
  have hnot : ¬IsJoiner ch := not_or_intro hzwj hzwnj
  by_cases hpass : passes joiningType ch = true
  · have htype := (passes_of_not_joiner hnot).mp hpass
    rw [htype] at hnext
    obtain rfl := some.inj hnext
    refine ⟨?_, ?_, ?_⟩
    · rw [behindVirama_snoc]
      exact beq_iff_eq
    · rw [scannedLeft_snoc, if_pos hpass]
      exact h.left
    · rw [pending_snoc, if_pos hpass]
      exact h.pending
  have hne := mt (passes_of_not_joiner hnot).mpr hpass
  refine Stands.stop (Bool.not_eq_true _ ▸ hpass) ?_
    ⟨fun heq => ?_, fun hand => absurd hand.1 hzwnj⟩
  · cases htype : joiningType ch with
    | transparent => exact absurd htype hne
    | left =>
      rw [htype] at hnext
      dsimp only at hnext
      split_ifs at hnext
      exact ⟨fun _ => ⟨hnot, .inl rfl⟩, fun _ => (some.inj hnext).symm⟩
    | dual =>
      rw [htype] at hnext
      exact ⟨fun _ => ⟨hnot, .inr rfl⟩, fun _ => (some.inj hnext).symm⟩
    | _ =>
      rw [htype] at hnext
      obtain rfl := some.inj hnext
      refine ⟨fun heq => ScannerState.noConfusion heq, fun hand => ?_⟩
      rcases hand.2 with heq | heq
      · cases heq
      · cases heq
  · subst heq
    cases htype : joiningType ch with
    | transparent => exact absurd htype hne
    | left =>
      rw [htype] at hnext
      dsimp only at hnext
      split_ifs at hnext
      cases hnext
    | _ =>
      rw [htype] at hnext
      cases hnext

theorem Stands.isSome_iff {before : List UInt32} {s : ContextScanner}
    (h : Stands joiningType combiningClass before s) (ch : UInt32) :
    (∃ state, nextState joiningType s ch = some state) ↔
      (ch = ZWJ → BehindVirama combiningClass before) ∧
        (ch = ZWNJ → BehindVirama combiningClass before ∨ ScannedLeft joiningType before) ∧
          (¬IsJoiner ch → joiningType ch = .left →
            ¬Pending joiningType combiningClass before) := by
  unfold nextState
  rw [← h.virama, ← h.left, ← h.pending]
  by_cases hzwj : ch = ZWJ
  · have hne : ch ≠ ZWNJ := by
      rw [hzwj]
      decide
    rw [if_pos hzwj]
    constructor
    · rintro ⟨state, hstate⟩
      split_ifs at hstate with hv
      exact ⟨fun _ => hv, fun heq => absurd heq hne, fun hnot => absurd (.inl hzwj) hnot⟩
    · intro hand
      exact ⟨_, if_pos (hand.1 hzwj)⟩
  rw [if_neg hzwj]
  by_cases hzwnj : ch = ZWNJ
  · have hrefused : (!s.previousIsVirama && s.regexpState != .LD_T) = true ↔
        ¬(s.previousIsVirama = true ∨ s.regexpState = .LD_T) := by
      simp
    rw [if_pos hzwnj]
    by_cases hbehind : s.previousIsVirama = true ∨ s.regexpState = .LD_T
    · rw [if_neg fun hr => hrefused.mp hr hbehind]
      exact ⟨fun _ => ⟨fun heq => absurd heq hzwj, fun _ => hbehind,
        fun hnot => absurd (.inr hzwnj) hnot⟩, fun _ => ⟨_, rfl⟩⟩
    · rw [if_pos (hrefused.mpr hbehind)]
      refine ⟨fun hsome => ?_, fun hand => absurd (hand.2.1 hzwnj) hbehind⟩
      obtain ⟨state, hstate⟩ := hsome
      cases hstate
  rw [if_neg hzwnj]
  have hnot : ¬IsJoiner ch := not_or_intro hzwj hzwnj
  cases htype : joiningType ch with
  | left =>
    dsimp only
    constructor
    · rintro ⟨state, hstate⟩
      split_ifs at hstate with hpending
      exact ⟨fun heq => absurd heq hzwj, fun heq => absurd heq hzwnj, fun _ _ => hpending⟩
    · intro hand
      exact ⟨_, if_neg (hand.2.2 hnot rfl)⟩
  | _ =>
    exact ⟨fun _ => ⟨fun heq => absurd heq hzwj, fun heq => absurd heq hzwnj,
      fun _ heq => by cases heq⟩, fun _ => ⟨_, rfl⟩⟩

/-! ## Labels -/

/-- What the scanner asks of the rest of a label. -/
structure Scanned (joiningType : UInt32 → JoiningType) (combiningClass : UInt32 → UInt8)
    (before label : List UInt32) : Prop where
  zwj : ∀ b a, label = b ++ ZWJ :: a → BehindVirama combiningClass (before ++ b)
  zwnj : ∀ b a, label = b ++ ZWNJ :: a → BehindVirama combiningClass (before ++ b) ∨
    ScannedLeft joiningType (before ++ b) ∧ ScannedRight joiningType a
  pending : Pending joiningType combiningClass before → ScannedRight joiningType label

theorem forall_split_cons {α : Type} {x ch : α} {label : List α} {P : List α → List α → Prop} :
    (∀ b a, ch :: label = b ++ x :: a → P b a) ↔
      (ch = x → P [] label) ∧ ∀ b a, label = b ++ x :: a → P (ch :: b) a := by
  constructor
  · intro h
    exact ⟨fun heq => h [] label (by rw [heq]; rfl),
      fun b a heq => h (ch :: b) a (by rw [heq]; rfl)⟩
  · intro h b a heq
    cases b with
    | nil =>
      obtain ⟨hch, hlabel⟩ := List.cons.inj heq
      exact hlabel ▸ h.1 hch
    | cons c b =>
      obtain ⟨rfl, hlabel⟩ := List.cons.inj heq
      exact h.2 b a hlabel

theorem scanned_cons (before : List UInt32) (ch : UInt32) (label : List UInt32) :
    Scanned joiningType combiningClass before (ch :: label) ↔
      ((ch = ZWJ → BehindVirama combiningClass before) ∧
        (ch = ZWNJ → BehindVirama combiningClass before ∨ ScannedLeft joiningType before) ∧
          (¬IsJoiner ch → joiningType ch = .left →
            ¬Pending joiningType combiningClass before)) ∧
        Scanned joiningType combiningClass (before ++ [ch]) label := by
  have hmove (b : List UInt32) : before ++ [ch] ++ b = before ++ ch :: b := by
    rw [append_assoc, singleton_append]
  constructor
  · rintro ⟨hzwj, hzwnj, hpending⟩
    rw [forall_split_cons] at hzwj hzwnj
    rw [append_nil] at hzwj hzwnj
    rw [scannedRight_cons] at hpending
    refine ⟨⟨hzwj.1, fun heq => (hzwnj.1 heq).imp_right And.left, fun hnot hleft hp => ?_⟩,
      fun b a heq => by rw [hmove]; exact hzwj.2 b a heq,
      fun b a heq => by rw [hmove]; exact hzwnj.2 b a heq, fun hp => ?_⟩
    · have hright := hpending hp
      rw [if_neg (by rw [passes_of_not_joiner hnot, hleft]; exact JoiningType.noConfusion)]
        at hright
      exact hright.elim hnot fun hne => hne hleft
    · rw [pending_snoc] at hp
      split_ifs at hp hpending with hpass
      · exact hpending hp
      · exact ((hzwnj.1 hp.1).resolve_left hp.2).2
  · rintro ⟨⟨hzwj, hzwnj, hleft⟩, hrest⟩
    have hpending := hrest.pending
    rw [pending_snoc] at hpending
    refine ⟨?_, ?_, fun hp => ?_⟩
    · rw [forall_split_cons, append_nil]
      exact ⟨hzwj, fun b a heq => hmove b ▸ hrest.zwj b a heq⟩
    · rw [forall_split_cons, append_nil]
      refine ⟨fun heq => ?_, fun b a h => hmove b ▸ hrest.zwnj b a h⟩
      by_cases hv : BehindVirama combiningClass before
      · exact .inl hv
      · rw [passes_joiner (.inr heq), if_neg Bool.false_ne_true] at hpending
        exact .inr ⟨(hzwnj heq).resolve_left hv, hpending ⟨heq, hv⟩⟩
    · rw [scannedRight_cons]
      split_ifs with hpass
      · rw [if_pos hpass] at hpending
        exact hpending hp
      · by_cases hjoiner : IsJoiner ch
        · exact .inl hjoiner
        · exact .inr fun htype => hleft hjoiner htype hp

theorem scanContexts_iff {before label : List UInt32} {s : ContextScanner}
    (h : Stands joiningType combiningClass before s) :
    scanContexts joiningType combiningClass s label = true ↔
      Scanned joiningType combiningClass before label := by
  induction label generalizing before s with
  | nil =>
    unfold scanContexts
    rw [bne_iff_ne, ne_eq, h.pending]
    constructor
    · intro hp
      have hne (b a : List UInt32) (x : UInt32) : [] ≠ b ++ x :: a :=
        (append_ne_nil_of_right_ne_nil b (cons_ne_nil x a)).symm
      exact ⟨fun b a heq => absurd heq (hne b a ZWJ), fun b a heq => absurd heq (hne b a ZWNJ),
        fun hpending => absurd hpending hp⟩
    · intro hscanned hp
      obtain ⟨c, hc, -⟩ := hscanned.pending hp
      cases hc
  | cons ch label ih =>
    unfold scanContexts
    rw [scanned_cons, ← h.isSome_iff ch]
    cases hnext : nextState joiningType s ch with
    | none =>
      refine ⟨fun hf => Bool.noConfusion hf, fun hand => ?_⟩
      obtain ⟨state, hstate⟩ := hand.1
      cases hstate
    | some state =>
      dsimp only
      rw [ih (h.next hnext)]
      exact ⟨fun hrest => ⟨⟨state, rfl⟩, hrest⟩, And.right⟩

theorem ScannedLeft.leftContext {before : List UInt32} (h : ScannedLeft joiningType before) :
    LeftContext joiningType before := by
  obtain ⟨c, hc, -, htype⟩ := h
  obtain ⟨-, ts, start, heq, hts⟩ := find?_eq_some_iff_append.mp hc
  refine ⟨start.reverse, c, ts.reverse, ?_, htype, fun t ht => ?_⟩
  · rw [← reverse_reverse before, heq, reverse_append, reverse_cons,
      append_assoc, singleton_append]
  · have hpass := hts t (mem_reverse.mp ht)
    rw [Bool.not_not] at hpass
    exact beq_iff_eq.mp (Bool.and_eq_true_iff.mp hpass).1

theorem RightContext.scannedRight {after : List UInt32} (h : RightContext joiningType after) :
    ScannedRight joiningType after := by
  obtain ⟨ts, c, rest, rfl, htype, hts⟩ := h
  induction ts with
  | nil =>
    rw [nil_append, scannedRight_cons]
    have hstop : ¬passes joiningType c = true := fun hp => by
      have htransparent := beq_iff_eq.mp (Bool.and_eq_true_iff.mp hp).1
      rcases htype with heq | heq
      · exact JoiningType.noConfusion (heq.symm.trans htransparent)
      · exact JoiningType.noConfusion (heq.symm.trans htransparent)
    rw [if_neg hstop]
    right
    rcases htype with heq | heq
    · rw [heq]
      exact JoiningType.noConfusion
    · rw [heq]
      exact JoiningType.noConfusion
  | cons t ts ih =>
    rw [cons_append, scannedRight_cons]
    split_ifs with hpass
    · exact ih fun u hu => hts u (mem_cons_of_mem t hu)
    · left
      by_contra hnot
      exact hpass ((passes_of_not_joiner hnot).mpr (hts t mem_cons_self))

section

variable (joiningType : UInt32 → JoiningType) (combiningClass : UInt32 → UInt8)
  (label : List UInt32)

/-- A ZWNJ that no virama goes before, and what is around it. -/
def Bare (before after : List UInt32) : Prop :=
  label = before ++ ZWNJ :: after ∧ ¬BehindVirama combiningClass before

/-- A label with a ZWNJ that has no right context, but is followed by something else that ends the
state of waiting for it. -/
structure AcceptedWrongly : Prop where
  zwj : ∀ before after, label = before ++ ZWJ :: after → BehindVirama combiningClass before
  scanned : ∀ before after, Bare combiningClass label before after →
    ScannedLeft joiningType before ∧ ScannedRight joiningType after
  wrong : ∃ before after, Bare combiningClass label before after ∧ ¬RightContext joiningType after

/-- A label with a ZWNJ that only has a left context if a joiner is L, D or T. -/
structure RefusedWrongly : Prop where
  zwj : ∀ before after, label = before ++ ZWJ :: after → BehindVirama combiningClass before
  contexts : ∀ before after, Bare combiningClass label before after →
    LeftContext joiningType before ∧ RightContext joiningType after
  wrong : ∃ before after, Bare combiningClass label before after ∧ ¬ScannedLeft joiningType before

variable {joiningType combiningClass label}

theorem contextJ_iff : ContextJ joiningType combiningClass label ↔
    (∀ before after, label = before ++ ZWJ :: after → BehindVirama combiningClass before) ∧
      ∀ before after, Bare combiningClass label before after →
        LeftContext joiningType before ∧ RightContext joiningType after := by
  constructor
  · intro h
    exact ⟨h.zwj, fun before after hbare => (h.zwnj before after hbare.1).resolve_left hbare.2⟩
  · intro h
    refine ⟨h.1, fun before after heq => ?_⟩
    by_cases hv : BehindVirama combiningClass before
    · exact .inl hv
    · exact .inr (h.2 before after ⟨heq, hv⟩)

theorem scanned_iff : Scanned joiningType combiningClass [] label ↔
    (∀ before after, label = before ++ ZWJ :: after → BehindVirama combiningClass before) ∧
      ∀ before after, Bare combiningClass label before after →
        ScannedLeft joiningType before ∧ ScannedRight joiningType after := by
  constructor
  · intro h
    exact ⟨h.zwj, fun before after hbare => (h.zwnj before after hbare.1).resolve_left hbare.2⟩
  · intro h
    refine ⟨h.1, fun before after heq => ?_, fun hp => ?_⟩
    · by_cases hv : BehindVirama combiningClass before
      · exact .inl hv
      · exact .inr (h.2 before after ⟨heq, hv⟩)
    · exact ScannerState.noConfusion (Stands.nil.pending.mpr hp)

end

/-- The check is that of the rules, but for labels whose ZWNJ is followed by something that is
neither L nor a right context, and for joiners that are themselves taken for L, D or T. -/
theorem checkContextJRules_iff (joiningType : UInt32 → JoiningType)
    (combiningClass : UInt32 → UInt8) (label : List UInt16) :
    (checkContextJRules joiningType combiningClass label = true ↔
      ContextJ joiningType combiningClass (toStdU32String label)) ↔
    ¬AcceptedWrongly joiningType combiningClass (toStdU32String label) ∧
      ¬RefusedWrongly joiningType combiningClass (toStdU32String label) := by
  have hscan : checkContextJRules joiningType combiningClass label = true ↔
      Scanned joiningType combiningClass [] (toStdU32String label) := scanContexts_iff Stands.nil
  rw [hscan, scanned_iff, contextJ_iff]
  constructor
  · intro hagree
    constructor
    · intro h
      obtain ⟨before, after, hbare, hright⟩ := h.wrong
      exact hright ((hagree.mp ⟨h.zwj, h.scanned⟩).2 before after hbare).2
    · intro h
      obtain ⟨before, after, hbare, hleft⟩ := h.wrong
      exact hleft ((hagree.mpr ⟨h.zwj, h.contexts⟩).2 before after hbare).1
  · intro hnot
    constructor
    · intro h
      refine ⟨h.1, fun before after hbare => ⟨(h.2 before after hbare).1.leftContext, ?_⟩⟩
      by_contra hright
      exact hnot.1 ⟨h.1, h.2, before, after, hbare, hright⟩
    · intro h
      refine ⟨h.1, fun before after hbare => ⟨?_, (h.2 before after hbare).2.scannedRight⟩⟩
      by_contra hleft
      exact hnot.2 ⟨h.1, h.2, before, after, hbare, hleft⟩

/-- The Arabic letter beh, a ZWNJ and a Latin letter, which does not join. -/
theorem checkContextJRules_accepts_latin :
    let joiningType : UInt32 → JoiningType := fun c => if c = 0x628 then .dual else .none
    checkContextJRules joiningType (fun _ => 0) [0x628, 0x200c, 0x61] = true ∧
      ¬ContextJ joiningType (fun _ => 0) (toStdU32String [0x628, 0x200c, 0x61]) := by
  intro joiningType
  refine ⟨by decide, fun h => ?_⟩
  have hlabel : toStdU32String [0x628, 0x200c, 0x61] = [0x628] ++ ZWNJ :: [0x61] := by decide
  rcases h.zwnj [0x628] [0x61] hlabel with ⟨c, -, hvirama⟩ | ⟨-, ts, c, rest, heq, htype, -⟩
  · cases hvirama
  · have hc : c ∈ [(0x61 : UInt32)] := heq ▸ mem_append_right ts mem_cons_self
    obtain rfl := mem_singleton.mp hc
    rcases htype with heq | heq
    · cases heq
    · cases heq

end Idn

end QtBase
