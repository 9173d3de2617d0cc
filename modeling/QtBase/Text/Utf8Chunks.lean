import QtBase.Text.Utf8RoundTrip
import QtBase.Lib.Reader

/-! Text that comes in parts: what the converters with a state do in one call. -/
namespace QtBase

open Unicode QUtf8Functions Incremental

namespace QUtf8

variable {α β : Type}

/-- The parts one after another, with one state. -/
def feedChunks (convert : List α → State α → List β × State α) :
    List (List α) → State α → List β × State α
  | [], s => ([], s)
  | chunk :: chunks, s =>
    let (out, s) := convert chunk s
    let (out', s) := feedChunks convert chunks s
    (out ++ out', s)

/-- A step that writes the items of a reader. -/
structure ReadsItems (R : Reader α β)
    (step : Cursor α β → α → List α → Cursor α β × Option (List α)) : Prop where
  item : ∀ c {a src it}, R.next a src = some it → step c a src =
    ({ c with dst := c.dst ++ it.out, invalidChars := c.invalidChars + it.errors },
      some (src.drop it.more))
  unfinished : ∀ c {a src}, R.next a src = none → step c a src = ({ c with unread := a :: src }, none)

theorem ReadsItems.steps {R : Reader α β}
    {step : Cursor α β → α → List α → Cursor α β × Option (List α)} (h : ReadsItems R step)
    {c r : Cursor α β} {src : List α} (hs : Steps step c src r) (hc : c.unread = []) :
    r = ⟨c.dst ++ (R.read src).out, c.invalidChars + (R.read src).errors,
      (R.read src).pending⟩ := by
  induction hs with
  | @done c =>
    rw [R.read_nil, List.append_nil, ← hc]
    rfl
  | @stop c a src r hstep =>
    cases hnext : R.next a src with
    | none =>
      rw [h.unfinished c hnext] at hstep
      cases hstep
      rw [Reader.read_unfinished hnext, List.append_nil]
      rfl
    | some it =>
      rw [h.item c hnext] at hstep
      cases hstep
  | @next c a src c' src' r hstep _ ih =>
    cases hnext : R.next a src with
    | none =>
      rw [h.unfinished c hnext] at hstep
      cases hstep
    | some it =>
      rw [h.item c hnext] at hstep
      cases hstep
      rw [ih hc, Reader.read_item hnext]
      unfold Result.after
      simp only [List.append_assoc, Nat.add_assoc]

/-- What a call on the state `s` has written and left in the state; `hdr` says whether the header of
the text is done. -/
structure Yields (hdr : State α → Bool) (s : State α) (d : Result α β) (header : Bool)
    (r : List β × State α) : Prop where
  out : r.1 = d.out
  flags : r.2.flags = s.flags
  invalidChars : r.2.invalidChars = s.invalidChars + d.errors
  remaining : r.2.remaining = d.pending
  header : hdr r.2 = header

theorem Yields.append {hdr : State α → Bool} {s s' : State α} {d d' : Result α β}
    {header header' : Bool} {out : List β} {r : List β × State α}
    (h : Yields hdr s d header (out, s')) (h' : Yields hdr s' d' header' r) :
    Yields hdr s (d'.after d.out d.errors) header' (out ++ r.1, r.2) where
  out := by
    have hout : out = d.out := h.out
    rw [hout, h'.out]
    rfl
  flags := h'.flags.trans h.flags
  invalidChars := by
    have hinv : s'.invalidChars = s.invalidChars + d.errors := h.invalidChars
    show r.2.invalidChars = s.invalidChars + (d.errors + d'.errors)
    rw [h'.invalidChars, hinv, Nat.add_assoc]
  remaining := h'.remaining
  header := h'.header

/-! ## Decoding -/

/-- A character of UTF-8, or an error of one byte. -/
def decodeItem (flags : QStringConverter.Flags) (b : UInt8) (src : List UInt8) :
    Option (Item UInt16) :=
  match fromUtf8 false b src with
  | .ok units n => some ⟨units, 0, n - 1⟩
  | .error => some ⟨[replacement flags], 1, 0⟩
  | .endOfString => none

variable {flags : QStringConverter.Flags}

theorem decodeItem_eq_none_iff {b : UInt8} {src : List UInt8} :
    decodeItem flags b src = none ↔ Unfinished (b :: src) := by
  rw [← fromUtf8_endOfString_iff]
  unfold decodeItem
  cases fromUtf8 false b src <;> simp

def decodeReader (flags : QStringConverter.Flags) : Reader UInt8 UInt16 where
  next := decodeItem flags
  more_le := by
    intro b src it h
    unfold decodeItem at h
    cases hfrom : fromUtf8 false b src with
    | ok units n =>
      rw [hfrom] at h
      cases h
      exact (fromUtf8_ok_le hfrom).2
    | error =>
      rw [hfrom] at h
      cases h
      exact Nat.zero_le _
    | endOfString =>
      rw [hfrom] at h
      cases h
  next_append := by
    intro b src it h rest
    have hne : ¬ Unfinished (b :: src) := by
      intro hu
      rw [decodeItem_eq_none_iff.2 hu] at h
      cases h
    unfold decodeItem
    rw [fromUtf8_append hne]
    exact h

theorem readsItems_decodeStep : ReadsItems (decodeReader flags) (decodeStep flags) where
  item := by
    intro c b src it h
    change decodeItem flags b src = some it at h
    unfold decodeItem at h
    unfold decodeStep
    cases hfrom : fromUtf8 false b src with
    | ok units n =>
      rw [hfrom] at h
      cases h
      rfl
    | error =>
      rw [hfrom] at h
      cases h
      rfl
    | endOfString =>
      rw [hfrom] at h
      cases h
  unfinished := by
    intro c b src h
    change decodeItem flags b src = none at h
    rw [decodeItem_eq_none_iff, ← fromUtf8_endOfString_iff] at h
    unfold decodeStep
    rw [h]

theorem decodesChars_decodeStep : DecodesChars (decodeStep flags) where
  ok := by
    intro c b src units n h
    unfold decodeStep
    rw [h]
  error := by
    intro c b src c' src' hne hstep
    unfold decodeStep at hstep
    split at hstep
    · exact absurd ‹_› (hne _ _)
    · cases hstep
      rfl
    · cases hstep

theorem decodeMainBody_eq (simd : Simd AsciiByte) (dst : List UInt16) (src : List UInt8)
    {state : State UInt8} (hs : state.flags.stateless = false) :
    decodeMainBody simd dst src state =
      (dst ++ ((decodeReader state.flags).read src).out,
        { state with
          invalidChars := state.invalidChars + ((decodeReader state.flags).read src).errors,
          remaining := ((decodeReader state.flags).read src).pending }) := by
  have hdecodes : DecodesChars (decodeStep state.flags) := decodesChars_decodeStep
  have hsteps := steps_asciiLoop hdecodes.skipsAscii simd
    false (src.length + 1) src.length ⟨dst, state.invalidChars, []⟩ src (Nat.lt_succ_self _)
  unfold decodeMainBody
  rw [readsItems_decodeStep.steps hsteps rfl, hs]
  rfl

/-- Nothing, or a sequence that may go on. -/
def Waiting (r : List UInt8) : Prop := r = [] ∨ Unfinished r

/-- The input begins with a whole sequence, or with one that may go on. -/
def WellBegun (r : List UInt8) : Prop :=
  Unfinished r ∨ ∃ c rest, r = String.utf8EncodeChar c ++ rest

theorem not_wellBegun_iff {b : UInt8} {src : List UInt8} :
    ¬ WellBegun (b :: src) ↔ fromUtf8 false b src = .error := by
  unfold WellBegun
  rw [← fromUtf8_endOfString_iff]
  cases h : fromUtf8 false b src with
  | error =>
    have hno : ¬ ∃ c rest, b :: src = String.utf8EncodeChar c ++ rest := by
      rintro ⟨c, rest, heq⟩
      rw [fromUtf8_encodeChar heq] at h
      cases h
    simp [hno]
  | endOfString => simp
  | ok units n =>
    have hyes := exists_of_fromUtf8_ok h
    simp [hyes]

end QUtf8

end QtBase
