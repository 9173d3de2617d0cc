import QtBase.Text.Utf8Chunks

/-! Encoding in parts against encoding at once. -/
namespace QtBase

open Unicode QUtf8Functions Incremental List Nat

namespace QUtf8

variable {flags : QStringConverter.Flags}

/-! ## The reader -/

theorem toUtf8_cases (u : UInt16) :
    (¬ High u ∧ ¬ Low u ∧ ∃ bytes, ∀ src, toUtf8 u src = .ok bytes src) ∨
    ((High u ∨ Low u) ∧ toUtf8 u [] = .endOfString ∧
      ∀ v src, if High u ∧ Low v then ∃ bytes, ∀ src, toUtf8 u (v :: src) = .ok bytes src
        else toUtf8 u (v :: src) = .error) := by
  by_cases hs : High u ∨ Low u
  · right
    refine ⟨hs, toUtf8_nil hs, ?_⟩
    intro v src
    split
    · rename_i huv
      obtain ⟨c, hc, -⟩ := exists_utf16_pair huv.1 huv.2
      exact ⟨_, toUtf8_pair hc⟩
    · exact toUtf8_error hs ‹_› src
  · left
    rw [not_or] at hs
    obtain ⟨c, hc, -⟩ := exists_utf16_singleton hs.1 hs.2
    exact ⟨hs.1, hs.2, _, toUtf8_singleton hc⟩

/-- A character of UTF-16, or an error of one unit. -/
def encodeItem (flags : QStringConverter.Flags) (uc : UInt16) (src : List UInt16) :
    Option (Item UInt8) :=
  match toUtf8 uc src with
  | .ok bytes rest => some ⟨bytes, 0, src.length - rest.length⟩
  | .error => some ⟨appendReplacementChar flags, 1, 0⟩
  | .endOfString => none

variable {u : UInt16}

theorem encodeItem_of_not_surrogate (flags : QStringConverter.Flags) (hh : ¬ High u)
    (hl : ¬ Low u) :
    ∃ bytes, ∀ src, toUtf8 u src = .ok bytes src ∧ encodeItem flags u src = some ⟨bytes, 0, 0⟩ := by
  rcases toUtf8_cases u with ⟨-, -, bytes, hu⟩ | ⟨hs, -⟩
  · refine ⟨bytes, fun src => ⟨hu src, ?_⟩⟩
    unfold encodeItem
    simp [hu]
  · exact absurd hs (not_or.mpr ⟨hh, hl⟩)

theorem encodeItem_pair (flags : QStringConverter.Flags) {v : UInt16} (hu : High u) (hv : Low v) :
    ∃ bytes, ∀ src, toUtf8 u (v :: src) = .ok bytes src ∧
      encodeItem flags u (v :: src) = some ⟨bytes, 0, 1⟩ := by
  obtain ⟨c, hc, -⟩ := exists_utf16_pair hu hv
  refine ⟨_, fun src => ⟨toUtf8_pair hc src, ?_⟩⟩
  unfold encodeItem
  rw [toUtf8_pair hc]
  simp only [length_cons, Nat.add_sub_cancel_left]

theorem encodeItem_unpaired {v : UInt16} (hs : High u ∨ Low u) (huv : ¬ (High u ∧ Low v))
    (src : List UInt16) :
    encodeItem flags u (v :: src) = some ⟨appendReplacementChar flags, 1, 0⟩ := by
  unfold encodeItem
  rw [toUtf8_error hs huv]

theorem encodeItem_nil (hs : High u ∨ Low u) : encodeItem flags u [] = none := by
  unfold encodeItem
  rw [toUtf8_nil hs]

theorem encodeItem_append {src : List UInt16} {it : Item UInt8}
    (h : encodeItem flags u src = some it) (rest : List UInt16) :
    it.more ≤ src.length ∧ encodeItem flags u (src ++ rest) = some it := by
  by_cases hs : High u ∨ Low u
  · cases src with
    | nil =>
      rw [encodeItem_nil hs] at h
      cases h
    | cons v src =>
      by_cases huv : High u ∧ Low v
      · obtain ⟨bytes, hok⟩ := encodeItem_pair flags huv.1 huv.2
        rw [(hok src).2] at h
        cases h
        exact ⟨succ_le_succ (zero_le _), (hok (src ++ rest)).2⟩
      · rw [encodeItem_unpaired hs huv] at h
        cases h
        exact ⟨zero_le _, encodeItem_unpaired hs huv (src ++ rest)⟩
  · rw [not_or] at hs
    obtain ⟨bytes, hok⟩ := encodeItem_of_not_surrogate flags hs.1 hs.2
    rw [(hok src).2] at h
    cases h
    exact ⟨zero_le _, (hok (src ++ rest)).2⟩

def encodeReader (flags : QStringConverter.Flags) : Reader UInt16 UInt8 where
  next := encodeItem flags
  more_le h := (encodeItem_append h []).1
  next_append h rest := (encodeItem_append h rest).2

theorem encodeItem_eq_none {src : List UInt16} (h : encodeItem flags u src = none) :
    (High u ∨ Low u) ∧ src = [] := by
  by_cases hs : High u ∨ Low u
  · cases src with
    | nil => exact ⟨hs, rfl⟩
    | cons v src =>
      by_cases huv : High u ∧ Low v
      · obtain ⟨bytes, hok⟩ := encodeItem_pair flags huv.1 huv.2
        rw [(hok src).2] at h
        cases h
      · rw [encodeItem_unpaired hs huv] at h
        cases h
  · rw [not_or] at hs
    obtain ⟨bytes, hok⟩ := encodeItem_of_not_surrogate flags hs.1 hs.2
    rw [(hok src).2] at h
    cases h

theorem readsItems_encodeStep (hf : flags.stateless = false) :
    ReadsItems (encodeReader flags) (encodeStep flags) where
  item := by
    intro c u src it h
    change encodeItem flags u src = some it at h
    unfold encodeStep
    by_cases hs : High u ∨ Low u
    · cases src with
      | nil =>
        rw [encodeItem_nil hs] at h
        cases h
      | cons v src =>
        by_cases huv : High u ∧ Low v
        · obtain ⟨bytes, hok⟩ := encodeItem_pair flags huv.1 huv.2
          rw [(hok src).2] at h
          cases h
          rw [(hok src).1]
          rfl
        · rw [encodeItem_unpaired hs huv] at h
          cases h
          rw [toUtf8_error hs huv]
          rfl
    · rw [not_or] at hs
      obtain ⟨bytes, hok⟩ := encodeItem_of_not_surrogate flags hs.1 hs.2
      rw [(hok src).2] at h
      cases h
      rw [(hok src).1]
      rfl
  unfinished := by
    intro c u src h
    obtain ⟨hs, rfl⟩ := encodeItem_eq_none h
    unfold encodeStep
    rw [toUtf8_nil hs, hf]
    rfl

theorem encodesChars_encodeStep : EncodesChars (encodeStep flags) where
  ok := by
    intro c u src bytes src' h
    unfold encodeStep
    rw [h]
  error := by
    intro c u src c' src' hne hstep
    unfold encodeStep at hstep
    split at hstep
    · exact absurd ‹_› (hne _ _)
    · cases hstep
      rfl
    · split at hstep <;> cases hstep

/-! ## What one call does -/

/-- Whether no BOM is to be written any more. -/
def State.bomDone (s : State UInt16) : Bool := s.headerDone || !s.flags.writeBom

/-- The whole input, behind the BOM. -/
def encodeText (flags : QStringConverter.Flags) (header : Bool) (src : List UInt16) :
    Result UInt16 UInt8 × Bool :=
  if src = [] then (⟨[], 0, []⟩, header)
  else (((encodeReader flags).read src).after (if header then [] else utf8bom) 0, true)

theorem encodeText_true (flags : QStringConverter.Flags) (src : List UInt16) :
    encodeText flags true src = ((encodeReader flags).read src, true) := by
  unfold encodeText
  split
  · rename_i h
    rw [h, Reader.read_nil]
  · rw [if_pos rfl, Result.after_nil]

theorem encodeText_append (header : Bool) (xs ys : List UInt16) : encodeText flags header (xs ++ ys) =
    let d := encodeText flags header xs
    let d' := encodeText flags d.2 (d.1.pending ++ ys)
    (d'.1.after d.1.out d.1.errors, d'.2) := by
  by_cases hxs : xs = []
  · subst hxs
    have hd : encodeText flags header [] = (⟨[], 0, []⟩, header) := if_pos rfl
    simp only [hd, nil_append, Result.after_nil]
  · have hne : xs ++ ys ≠ [] := fun h => hxs (append_eq_nil_iff.mp h).1
    have hd : encodeText flags header xs =
        (((encodeReader flags).read xs).after (if header then [] else utf8bom) 0, true) :=
      if_neg hxs
    have hd' : encodeText flags header (xs ++ ys) =
        (((encodeReader flags).read (xs ++ ys)).after (if header then [] else utf8bom) 0, true) :=
      if_neg hne
    rw [hd, hd', Reader.read_append]
    simp only [encodeText_true, Result.after_pending, Result.after_out, Result.after_errors,
      Result.after_after]

/-- Nothing, or a surrogate that waits for the other one. -/
def Parked (r : List UInt16) : Prop := r = [] ∨ ∃ u, r = [u] ∧ (High u ∨ Low u)

theorem parked_pending (flags : QStringConverter.Flags) (xs : List UInt16) : Parked ((encodeReader flags).read xs).pending := by
  rcases Reader.pending_eq_nil_or (R := encodeReader flags) xs with hp | ⟨u, src, -, hp, hu, -⟩
  · exact .inl hp
  · obtain ⟨hs, rfl⟩ := encodeItem_eq_none hu
    exact .inr ⟨u, hp, hs⟩

theorem encodeText_pending (flags : QStringConverter.Flags) (header : Bool) (xs : List UInt16) :
    (encodeText flags header xs).1.pending = ((encodeReader flags).read xs).pending := by
  unfold encodeText
  split
  · rename_i h
    rw [h, Reader.read_nil]
  · rfl

theorem read_parked (flags : QStringConverter.Flags) {r : List UInt16} (h : Parked r) :
    (encodeReader flags).read r = ⟨[], 0, r⟩ := by
  rcases h with rfl | ⟨u, rfl, hs⟩
  · exact Reader.read_nil _
  · have hnext : (encodeReader flags).next u [] = none := encodeItem_nil hs
    exact Reader.read_unfinished hnext

/-- A state as the converter leaves it: what is parked is a surrogate, behind the BOM. -/
structure WellFormed (s : State UInt16) : Prop where
  stateful : s.flags.stateless = false
  parked : Parked s.remaining
  header : s.remaining ≠ [] → s.bomDone = true

theorem encodeLoop_eq (simd : Simd AsciiUnit) (hf : flags.stateless = false) (cursor : List UInt8)
    (invalidChars : ℕ) (src : List UInt16) :
    asciiLoop simd true skipUnits (encodeStep flags) (src.length + 1) src.length
      ⟨cursor, invalidChars, []⟩ src =
      ⟨cursor ++ ((encodeReader flags).read src).out,
        invalidChars + ((encodeReader flags).read src).errors,
        ((encodeReader flags).read src).pending⟩ := by
  have hencodes : EncodesChars (encodeStep flags) := encodesChars_encodeStep
  have hsteps := steps_asciiLoop hencodes.skipsAscii simd true (src.length + 1) src.length
    ⟨cursor, invalidChars, []⟩ src (lt_succ_self _)
  exact (readsItems_encodeStep hf).steps hsteps rfl

theorem yields_of_not_parked (simd : Simd AsciiUnit) {s : State UInt16} (hs : WellFormed s)
    (hrem : s.remaining = []) (inp : List UInt16) :
    Yields State.bomDone s (encodeText s.flags s.bomDone inp).1
      (encodeText s.flags s.bomDone inp).2 (convertFromUnicodeState simd inp s) := by
  unfold convertFromUnicodeState encodeText
  by_cases hne : inp = []
  · rw [if_pos hne, if_pos hne]
    exact ⟨rfl, rfl, rfl, hrem, rfl⟩
  · rw [if_neg hne, if_neg hne, hs.stateful, hrem]
    simp only [Bool.false_eq_true, if_false]
    by_cases hbom : s.bomDone = true
    · have hno : (!s.headerDone && s.flags.writeBom) = false := by
        unfold State.bomDone at hbom
        revert hbom
        cases s.headerDone <;> cases s.flags.writeBom <;> decide
      simp only [hno, Bool.false_eq_true, if_false, hbom, if_true, hrem]
      rw [encodeLoop_eq simd hs.stateful]
      exact ⟨rfl, rfl, by simp, rfl, hbom⟩
    · have hyes : (!s.headerDone && s.flags.writeBom) = true := by
        unfold State.bomDone at hbom
        revert hbom
        cases s.headerDone <;> cases s.flags.writeBom <;> decide
      simp only [hyes, if_true, hbom]
      rw [encodeLoop_eq simd hs.stateful]
      exact ⟨rfl, rfl, by simp, rfl, rfl⟩

/-- A call that finds a parked surrogate: the bytes are those of the whole, but where the surrogate
turns out to be unpaired the error is not counted. -/
theorem yields_of_parked (simd : Simd AsciiUnit) {s : State UInt16} (hs : WellFormed s) {v : UInt16}
    (hrem : s.remaining = [u]) (src : List UInt16) :
    ∃ d lost, Yields State.bomDone s d true (convertFromUnicodeState simd (v :: src) s) ∧
      d.out = ((encodeReader s.flags).read (u :: v :: src)).out ∧
      d.pending = ((encodeReader s.flags).read (u :: v :: src)).pending ∧
      d.errors + lost = ((encodeReader s.flags).read (u :: v :: src)).errors ∧
      (lost = 0 ↔ High u ∧ Low v) := by
  have hsur : High u ∨ Low u := by
    rcases hs.parked with hp | ⟨u', hp, hsur⟩
    · rw [hrem] at hp
      cases hp
    · rw [hrem] at hp
      cases hp
      exact hsur
  have hbom : s.bomDone = true := hs.header (by rw [hrem]; exact cons_ne_nil _ _)
  unfold convertFromUnicodeState
  rw [if_neg (cons_ne_nil _ _), hs.stateful, hrem]
  simp only [Bool.false_eq_true, if_false]
  by_cases huv : High u ∧ Low v
  · obtain ⟨bytes, hok⟩ := encodeItem_pair s.flags huv.1 huv.2
    have hnext : (encodeReader s.flags).next u (v :: src) = some ⟨bytes, 0, 1⟩ := (hok src).2
    rw [(hok src).1, Reader.read_item hnext]
    simp only [drop_succ_cons, drop_zero]
    rw [encodeLoop_eq simd hs.stateful]
    refine ⟨⟨bytes ++ ((encodeReader s.flags).read src).out,
      ((encodeReader s.flags).read src).errors, ((encodeReader s.flags).read src).pending⟩, 0,
      ⟨rfl, rfl, rfl, rfl, hbom⟩, ?_⟩
    simp only [Result.after_out, Result.after_errors, Result.after_pending, Nat.zero_add,
      Nat.add_zero, huv, and_self]
  · have hnext : (encodeReader s.flags).next u (v :: src) =
        some ⟨appendReplacementChar s.flags, 1, 0⟩ := encodeItem_unpaired hsur huv src
    rw [toUtf8_error hsur huv, Reader.read_item hnext]
    simp only [drop_zero]
    rw [encodeLoop_eq simd hs.stateful]
    refine ⟨⟨_, ((encodeReader s.flags).read (v :: src)).errors, _⟩, 1,
      ⟨rfl, rfl, rfl, rfl, hbom⟩, rfl, rfl, Nat.add_comm _ _, ?_⟩
    simp [huv]

/-! ## Runs -/

/-- What is parked at a cut is completed by the unit that follows. -/
def CutsComplete (flags : QStringConverter.Flags) (parked : List UInt16)
    (chunks : List (List UInt16)) : Prop :=
  ∀ before after, chunks = before ++ after → ∀ u v rest,
    ((encodeReader flags).read (parked ++ before.flatten)).pending = [u] →
      after.flatten = v :: rest → High u ∧ Low v

theorem cutsComplete_cons {parked chunk : List UInt16} {chunks : List (List UInt16)}
    (hp : Parked parked) : CutsComplete flags parked (chunk :: chunks) ↔
      (∀ u v rest, parked = [u] → chunk ++ chunks.flatten = v :: rest → High u ∧ Low v) ∧
      CutsComplete flags ((encodeReader flags).read (parked ++ chunk)).pending chunks := by
  have hread : ∀ before : List (List UInt16),
      ((encodeReader flags).read (parked ++ (chunk :: before).flatten)).pending =
      ((encodeReader flags).read
        (((encodeReader flags).read (parked ++ chunk)).pending ++ before.flatten)).pending := by
    intro before
    rw [flatten_cons, ← append_assoc, Reader.read_append]
    rfl
  constructor
  · intro h
    constructor
    · intro u v rest hu hv
      apply h [] (chunk :: chunks) rfl u v rest _ hv
      rw [flatten_nil, append_nil, read_parked flags hp, hu]
    · rintro before after rfl u v rest hu hv
      rw [← hread] at hu
      exact h (chunk :: before) after rfl u v rest hu hv
  · rintro ⟨hfirst, hrest⟩ before after heq u v rest hu hv
    cases before with
    | nil =>
      rw [flatten_nil, append_nil, read_parked flags hp] at hu
      rw [nil_append] at heq
      rw [← heq, flatten_cons] at hv
      exact hfirst u v rest hu hv
    | cons chunk' before =>
      rw [cons_append, List.cons.injEq] at heq
      obtain ⟨rfl, rfl⟩ := heq
      rw [hread] at hu
      exact hrest before after rfl u v rest hu hv

/-- The parts yield the bytes of the whole; the errors that are not counted are those of parked
surrogates. -/
theorem exists_yields_encode (simd : Simd AsciiUnit) (chunks : List (List UInt16))
    {s : State UInt16} (hs : WellFormed s) : ∃ d lost header,
      Yields State.bomDone s d header (feedChunks (convertFromUnicodeState simd) chunks s) ∧
      ∃ w, (encodeText s.flags s.bomDone (s.remaining ++ chunks.flatten)).1 = w ∧
        d.out = w.out ∧ d.pending = w.pending ∧ d.errors + lost = w.errors ∧
        (lost = 0 ↔ CutsComplete s.flags s.remaining chunks) := by
  induction chunks generalizing s with
  | nil =>
    have hread := read_parked s.flags hs.parked
    have hcuts : CutsComplete s.flags s.remaining [] := by
      intro before after heq u v rest _ hv
      rw [(append_eq_nil_iff.mp heq.symm).2] at hv
      cases hv
    refine ⟨⟨[], 0, s.remaining⟩, 0, s.bomDone, ⟨rfl, rfl, rfl, rfl, rfl⟩, _, rfl, ?_⟩
    rw [flatten_nil, append_nil]
    by_cases hnil : s.remaining = []
    · rw [hnil]
      rw [hnil] at hcuts
      exact ⟨rfl, rfl, rfl, by simp [hcuts]⟩
    · rw [hs.header hnil, encodeText_true, hread]
      exact ⟨rfl, rfl, rfl, by simp [hcuts]⟩
  | cons chunk chunks ih =>
    obtain ⟨d, lost, hcall, hout, hpend, herr, hlost⟩ : ∃ d lost,
        Yields State.bomDone s d (encodeText s.flags s.bomDone (s.remaining ++ chunk)).2
          (convertFromUnicodeState simd chunk s) ∧
        d.out = (encodeText s.flags s.bomDone (s.remaining ++ chunk)).1.out ∧
        d.pending = (encodeText s.flags s.bomDone (s.remaining ++ chunk)).1.pending ∧
        d.errors + lost = (encodeText s.flags s.bomDone (s.remaining ++ chunk)).1.errors ∧
        (lost = 0 ↔ ∀ u v rest, s.remaining = [u] → chunk = v :: rest → High u ∧ Low v) := by
      rcases hs.parked with hrem | ⟨u, hrem, hsur⟩
      · have hcall := yields_of_not_parked simd hs hrem chunk
        rw [hrem, nil_append]
        exact ⟨_, 0, hcall, rfl, rfl, rfl, by simp⟩
      · have hbom : s.bomDone = true := hs.header (by rw [hrem]; exact cons_ne_nil _ _)
        rw [hbom, encodeText_true, hrem]
        cases chunk with
        | nil =>
          have hread := read_parked s.flags hs.parked
          rw [hrem] at hread
          rw [append_nil, hread]
          refine ⟨⟨[], 0, [u]⟩, 0, ⟨?_, ?_, ?_, ?_, ?_⟩, rfl, rfl, rfl, by simp⟩ <;>
            unfold convertFromUnicodeState <;> rw [if_pos rfl]
          · rfl
          · exact hrem
          · exact hbom
        | cons v src =>
          obtain ⟨d, lost, hcall, hout, hpend, herr, hlost⟩ := yields_of_parked simd hs (v := v) hrem src
          refine ⟨d, lost, hcall, hout, hpend, herr, hlost.trans ?_⟩
          constructor
          · intro huv u' v' rest hu' hv'
            cases hu'
            cases hv'
            exact huv
          · intro h
            exact h u v src rfl rfl
    have hpend' : d.pending = ((encodeReader s.flags).read (s.remaining ++ chunk)).pending := by
      rw [hpend, encodeText_pending]
    have hs' : WellFormed (convertFromUnicodeState simd chunk s).2 := by
      refine ⟨by rw [hcall.flags, hs.stateful], ?_, ?_⟩
      · rw [hcall.remaining, hpend']
        exact parked_pending _ _
      · rw [hcall.remaining, hcall.header, hpend']
        intro hne
        have hnil : s.remaining ++ chunk ≠ [] := by
          intro h
          rw [h, Reader.read_nil] at hne
          exact hne rfl
        unfold encodeText
        rw [if_neg hnil]
    obtain ⟨d', lost', header, hrun, w, hw, hout', hpend'', herr', hlost'⟩ := ih hs'
    rw [hcall.flags, hcall.header, hcall.remaining, hpend] at hw
    rw [hcall.flags, hcall.remaining, hpend'] at hlost'
    refine ⟨_, lost + lost', header, hcall.append hrun, _, rfl, ?_⟩
    have happ : encodeText s.flags s.bomDone (s.remaining ++ chunk ++ chunks.flatten) = _ :=
      encodeText_append s.bomDone (s.remaining ++ chunk) chunks.flatten
    rw [flatten_cons, ← append_assoc, happ]
    simp only [hw, Result.after_out, Result.after_errors, Result.after_pending]
    refine ⟨by rw [hout, hout'], hpend'', by omega, ?_⟩
    rw [cutsComplete_cons hs.parked, Nat.add_eq_zero_iff, hlost, hlost']
    constructor
    · rintro ⟨hfirst, hrest⟩
      refine ⟨?_, hrest⟩
      intro u v rest hu hv
      cases chunk with
      | nil =>
        have hself := read_parked s.flags hs.parked
        rw [hu] at hself
        apply hrest [] chunks rfl u v rest _ hv
        simp [hu, hself]
      | cons v' src =>
        rw [cons_append, List.cons.injEq] at hv
        exact hfirst u v src hu (by rw [hv.1])
    · rintro ⟨hfirst, hrest⟩
      refine ⟨?_, hrest⟩
      rintro u v rest hu rfl
      exact hfirst u v (rest ++ chunks.flatten) hu rfl

theorem read_pair_pending (flags : QStringConverter.Flags) {h l : UInt16} (hh : High h) (hl : Low l) :
    ((encodeReader flags).read [h, l]).pending = [] := by
  obtain ⟨bytes, hok⟩ := encodeItem_pair flags hh hl
  have hnext : (encodeReader flags).next h [l] = some ⟨bytes, 0, 1⟩ := (hok []).2
  rw [Reader.read_item hnext, drop_succ_cons, drop_zero, Reader.read_nil]
  rfl

theorem read_unpaired_pending {v : UInt16} (hs : High u ∨ Low u) (huv : ¬ (High u ∧ Low v))
    (src : List UInt16) : ((encodeReader flags).read (u :: v :: src)).pending =
      ((encodeReader flags).read (v :: src)).pending := by
  have hnext : (encodeReader flags).next u (v :: src) =
      some ⟨appendReplacementChar flags, 1, 0⟩ := encodeItem_unpaired hs huv src
  rw [Reader.read_item hnext, drop_zero]
  rfl

/-- What is parked is an unpaired surrogate so far: a high one, or a low one with no high one before
it. -/
theorem pending_singleton_iff (flags : QStringConverter.Flags) {xs : List UInt16} :
    ((encodeReader flags).read xs).pending = [u] ↔
      ∃ done, xs = done ++ [u] ∧
        (High u ∨ (Low u ∧ ∀ done' h, done = done' ++ [h] → ¬ High h)) := by
  constructor
  · intro hp
    rcases Reader.pending_eq_nil_or (R := encodeReader flags) xs with hnil | ⟨u', src, done, hp', hu, hxs⟩
    · rw [hp] at hnil
      cases hnil
    obtain ⟨hs, rfl⟩ := encodeItem_eq_none hu
    rw [hp] at hp'
    cases hp'
    refine ⟨done, hxs, ?_⟩
    by_cases hh : High u
    · exact .inl hh
    right
    refine ⟨hs.resolve_left hh, ?_⟩
    rintro done' h rfl hhigh
    have hpair := read_pair_pending flags hhigh (hs.resolve_left hh)
    have happ : xs = done' ++ [h, u] := by rw [hxs, append_assoc]; rfl
    rw [happ, Reader.read_append, Result.after_pending] at hp
    rcases parked_pending flags done' with hq | ⟨w, hq, hw⟩
    · rw [hq, nil_append, hpair] at hp
      cases hp
    · have hno : ¬ (High w ∧ Low h) := fun hwh => hwh.2.not_high hhigh
      rw [hq, singleton_append, read_unpaired_pending hw hno, hpair] at hp
      cases hp
  · rintro ⟨done, rfl, hu⟩
    have hs : High u ∨ Low u := hu.imp_right And.left
    have hself : (encodeReader flags).read [u] = ⟨[], 0, [u]⟩ :=
      read_parked flags (.inr ⟨u, rfl, hs⟩)
    rw [Reader.read_append, Result.after_pending]
    rcases Reader.pending_eq_nil_or (R := encodeReader flags) done with hq | ⟨w, src, done', hq, hw, hdone⟩
    · rw [hq, nil_append, hself]
    · obtain ⟨hws, rfl⟩ := encodeItem_eq_none hw
      have hno : ¬ (High w ∧ Low u) := by
        rintro ⟨hhigh, hlow⟩
        rcases hu with hh | ⟨-, hbefore⟩
        · exact hlow.not_high hh
        · exact hbefore done' w hdone hhigh
      rw [hq, singleton_append, read_unpaired_pending hws hno, hself]

/-- Encoding in parts yields the bytes and the error count of encoding at once, exactly when no cut
stands right behind an unpaired surrogate. -/
theorem feedChunks_encode_iff (simd : Simd AsciiUnit) (s : State UInt16)
    (hs : s.flags.stateless = false) (hr : s.remaining = []) (chunks : List (List UInt16)) :
    (let parts := feedChunks (convertFromUnicodeState simd) chunks s
     let whole := convertFromUnicodeState simd chunks.flatten s
     parts.1 = whole.1 ∧ parts.2.invalidChars = whole.2.invalidChars) ↔
    ∀ before after, chunks = before ++ after →
      ∀ done u v rest, before.flatten = done ++ [u] → after.flatten = v :: rest →
        (High u → Low v) ∧ (Low u → ∃ done' h, done = done' ++ [h] ∧ High h) := by
  have hwf : WellFormed s := ⟨hs, .inl hr, fun hne => absurd hr hne⟩
  have hwhole := yields_of_not_parked simd hwf hr chunks.flatten
  obtain ⟨d, lost, header, hparts, w, hw, hout, -, herr, hlost⟩ :=
    exists_yields_encode simd chunks hwf
  rw [hr, nil_append] at hw
  rw [hw] at hwhole
  have hcond : (∀ before after, chunks = before ++ after →
      ∀ done u v rest, before.flatten = done ++ [u] → after.flatten = v :: rest →
        (High u → Low v) ∧ (Low u → ∃ done' h, done = done' ++ [h] ∧ High h)) ↔
      CutsComplete s.flags s.remaining chunks := by
    unfold CutsComplete
    rw [hr]
    simp only [nil_append, pending_singleton_iff]
    constructor
    · rintro h before after heq u v rest ⟨done, hdone, hu⟩ hv
      obtain ⟨hhigh, hlow⟩ := h before after heq done u v rest hdone hv
      rcases hu with hu | ⟨hu, hbefore⟩
      · exact ⟨hu, hhigh hu⟩
      · obtain ⟨done', x, hx, hxh⟩ := hlow hu
        exact absurd hxh (hbefore done' x hx)
    · intro h before after heq done u v rest hdone hv
      constructor
      · intro hu
        exact (h before after heq u v rest ⟨done, hdone, .inl hu⟩ hv).2
      · intro hu
        by_contra hno
        have hbefore : ∀ done' x, done = done' ++ [x] → ¬ High x :=
          fun done' x hx hxh => hno ⟨done', x, hx, hxh⟩
        have hpair := h before after heq u v rest ⟨done, hdone, .inr ⟨hu, hbefore⟩⟩ hv
        exact hu.not_high hpair.1
  rw [hcond, ← hlost]
  show _ ∧ _ ↔ _
  rw [hparts.out, hwhole.out, hparts.invalidChars, hwhole.invalidChars, Nat.add_left_cancel_iff]
  constructor
  · rintro ⟨-, heq⟩
    omega
  · rintro rfl
    exact ⟨hout, herr⟩

theorem feedChunks_encode_bytes (simd : Simd AsciiUnit) (s : State UInt16)
    (hs : s.flags.stateless = false) (hr : s.remaining = []) (chunks : List (List UInt16)) :
    (feedChunks (convertFromUnicodeState simd) chunks s).1 =
      (convertFromUnicodeState simd chunks.flatten s).1 := by
  have hwf : WellFormed s := ⟨hs, .inl hr, fun hne => absurd hr hne⟩
  have hwhole := yields_of_not_parked simd hwf hr chunks.flatten
  obtain ⟨d, lost, header, hparts, w, hw, hout, -⟩ := exists_yields_encode simd chunks hwf
  rw [hr, nil_append] at hw
  rw [hparts.out, hwhole.out, hw, hout]

theorem feedChunks_encode_bytes_pair :
    (feedChunks (convertFromUnicodeState simdEncodeAscii) [[0xd83d], [0xde00]] {}).1 =
      (convertFromUnicodeState simdEncodeAscii [[0xd83d], [0xde00]].flatten {}).1 :=
  feedChunks_encode_bytes simdEncodeAscii {} rfl rfl [[0xd83d], [0xde00]]

/-- A surrogate pair in two parts. -/
theorem feedChunks_encode_iff_pair :
    (feedChunks (convertFromUnicodeState simdEncodeAscii) [[0xd83d], [0xde00]] {}).1 =
      [0xf0, 0x9f, 0x98, 0x80] ∧
    ∀ before after, [[0xd83d], [0xde00]] = before ++ after →
      ∀ done u v rest, before.flatten = done ++ [u] → after.flatten = v :: rest →
        (High u → Low v) ∧ (Low u → ∃ done' h, done = done' ++ [h] ∧ High h) := by
  constructor
  · decide +kernel
  · exact (feedChunks_encode_iff simdEncodeAscii {} rfl rfl [[0xd83d], [0xde00]]).mp
      (by decide +kernel)

/-- A high surrogate at the end of a part, with a letter in the next one, is not counted. -/
theorem feedChunks_encode_not_counted :
    ¬ ∀ (simd : Simd AsciiUnit) (flags : QStringConverter.Flags) (chunks : List (List UInt16)),
      flags.stateless = false →
      (feedChunks (convertFromUnicodeState simd) chunks { flags }).2.invalidChars =
        (convertFromUnicodeState simd chunks.flatten { flags }).2.invalidChars := by
  intro h
  have hcount := h simdEncodeAscii {} [[0xd83d], [0x41]] rfl
  revert hcount
  decide +kernel

end QUtf8

end QtBase
