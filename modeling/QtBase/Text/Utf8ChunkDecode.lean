import QtBase.Text.Utf8Chunks

/-! Decoding in parts against decoding at once. -/
namespace QtBase

open Unicode QUtf8Functions Incremental List

namespace QUtf8

variable {flags : QStringConverter.Flags}

/-! ## What one call does -/

/-- The first character of a text is not written when it is the BOM. -/
def eatBom (units : List UInt16) : List UInt16 :=
  if units.getLast? == some 0xfeff then units.dropLast else units

/-- The whole input, and whether the header is done afterwards. -/
def readText (flags : QStringConverter.Flags) :
    Bool → List UInt8 → Result UInt8 UInt16 × Bool
  | true, src => ((decodeReader flags).read src, true)
  | false, [] => (⟨[], 0, []⟩, false)
  | false, b :: src =>
    match decodeItem flags b src with
    | none => (⟨[], 0, b :: src⟩, false)
    | some it =>
      (((decodeReader flags).read (src.drop it.more)).after (eatBom it.out) it.errors, true)

variable {b : UInt8} {src : List UInt8}

theorem readText_unfinished (h : decodeItem flags b src = none) :
    readText flags false (b :: src) = (⟨[], 0, b :: src⟩, false) := by
  unfold readText
  simp only [h]

theorem readText_item {it : Item UInt16}
    (h : decodeItem flags b src = some it) : readText flags false (b :: src) =
      (((decodeReader flags).read (src.drop it.more)).after (eatBom it.out) it.errors, true) := by
  unfold readText
  simp only [h]

theorem readText_append (header : Bool) (xs ys : List UInt8) : readText flags header (xs ++ ys) =
    let d := readText flags header xs
    let d' := readText flags d.2 (d.1.pending ++ ys)
    (d'.1.after d.1.out d.1.errors, d'.2) := by
  cases header with
  | true =>
    show ((decodeReader flags).read (xs ++ ys), true) = _
    rw [Reader.read_append]
    rfl
  | false =>
    cases xs with
    | nil =>
      show _ = ((readText flags false ys).1.after [] 0, _)
      rw [Result.after_nil]
      rfl
    | cons b src =>
      cases hb : decodeItem flags b src with
      | none =>
        rw [readText_unfinished hb]
        show _ = ((readText flags false ((b :: src) ++ ys)).1.after [] 0, _)
        rw [Result.after_nil]
      | some it =>
        have happ : decodeItem flags b (src ++ ys) = some it :=
          (decodeReader flags).next_append hb ys
        have hle : it.more ≤ src.length := (decodeReader flags).more_le hb
        rw [cons_append, readText_item hb, readText_item happ,
          drop_append_of_le_length hle, Reader.read_append, Result.after_after]
        rfl

theorem readText_pending (flags : QStringConverter.Flags) (header : Bool) (xs : List UInt8) :
    (readText flags header xs).1.pending = ((decodeReader flags).read xs).pending := by
  cases header with
  | true => rfl
  | false =>
    cases xs with
    | nil =>
      rw [Reader.read_nil]
      rfl
    | cons b src =>
      cases hb : decodeItem flags b src with
      | none =>
        have hnext : (decodeReader flags).next b src = none := hb
        rw [readText_unfinished hb, Reader.read_unfinished hnext]
      | some it =>
        have hnext : (decodeReader flags).next b src = some it := hb
        rw [readText_item hb, Reader.read_item hnext]
        rfl

theorem waiting_pending (xs : List UInt8) : Waiting ((decodeReader flags).read xs).pending := by
  rcases Reader.pending_eq_nil_or (R := decodeReader flags) xs with hp | ⟨b, src, -, hp, hb, -⟩
  · exact .inl hp
  · right
    rw [hp]
    exact decodeItem_eq_none_iff.1 hb

theorem length_lt_of_unfinished {more : List UInt8} {units : List UInt16} {n : ℕ}
    (h : Unfinished (b :: src)) (hok : fromUtf8 false b (src ++ more) = .ok units n) :
    src.length + 1 < n := by
  obtain ⟨k, m, uc, hl, hlen, -⟩ := h
  obtain ⟨hk, hb⟩ := leadByte_length hl
  rw [fromUtf8_of_ge hb, hl] at hok
  obtain ⟨-, -, hchk⟩ := continuations_ok hk hok
  have hn := (checked_ok_iff.1 hchk).1
  omega

variable {inp r : List UInt8}

theorem fromUtf8_window {n : ℕ} (hn : n = min (4 - r.length) inp.length) (hr : r.length < 4)
    (hdata : r ++ inp.take n = b :: src) :
    ∃ rest, r ++ inp = b :: (src ++ rest) ∧
      fromUtf8 false b (src ++ rest) = fromUtf8 false b src ∧
      (Unfinished (b :: src) → rest = []) := by
  refine ⟨inp.drop n, ?_, ?_, ?_⟩
  · rw [← cons_append, ← hdata, append_assoc, take_append_drop]
  · by_cases hu : Unfinished (b :: src)
    · have hlt := hu.length_lt.2
      rw [← hdata, length_append, length_take] at hlt
      rw [drop_of_length_le (by omega), append_nil]
    · exact fromUtf8_append hu _
  · intro hu
    have hlt := hu.length_lt.2
    rw [← hdata, length_append, length_take] at hlt
    exact drop_of_length_le (by omega)

/-- Whether a BOM is not looked for any more. -/
def State.header (s : State UInt8) : Bool := s.headerDone || s.flags.convertInitialBom

variable {s : State UInt8}

theorem yields_mainBody (simd : Simd AsciiByte) (hs : s.flags.stateless = false) (dst : List UInt16)
    (src : List UInt8) (errors : ℕ) :
    Yields State.header s (((decodeReader s.flags).read src).after dst errors) true
      (decodeMainBody simd dst src
        { s with invalidChars := s.invalidChars + errors, headerDone := true }) := by
  have hstate : { s with invalidChars := s.invalidChars + errors, headerDone := true
      : State UInt8 }.flags.stateless = false := hs
  rw [decodeMainBody_eq simd dst src hstate]
  exact ⟨rfl, rfl, Nat.add_assoc _ _ _, rfl, Bool.true_or _⟩

theorem eatBom_replacement (flags : QStringConverter.Flags) :
    eatBom [replacement flags] = [replacement flags] := by
  unfold replacement
  cases flags.convertInvalidToNull <;> rfl

theorem readText_endOfString (header : Bool) (h : fromUtf8 false b src = .endOfString) :
    readText flags header (b :: src) = (⟨[], 0, b :: src⟩, header) := by
  have hitem : decodeItem flags b src = none := by
    unfold decodeItem
    rw [h]
  have hnext : (decodeReader flags).next b src = none := hitem
  cases header with
  | true =>
    show ((decodeReader flags).read (b :: src), true) = _
    rw [Reader.read_unfinished hnext]
  | false => exact readText_unfinished hitem

theorem readText_ok {units : List UInt16} {n : ℕ} (header : Bool)
    (h : fromUtf8 false b src = .ok units n) : readText flags header (b :: src) =
      (((decodeReader flags).read (src.drop (n - 1))).after
        (if header then units else eatBom units) 0, true) := by
  have hitem : decodeItem flags b src = some ⟨units, 0, n - 1⟩ := by
    unfold decodeItem
    rw [h]
  have hnext : (decodeReader flags).next b src = some ⟨units, 0, n - 1⟩ := hitem
  cases header with
  | true =>
    show ((decodeReader flags).read (b :: src), true) = _
    rw [Reader.read_item hnext]
    rfl
  | false => exact readText_item hitem

theorem readText_error (header : Bool)
    (h : fromUtf8 false b src = .error) : readText flags header (b :: src) =
      (((decodeReader flags).read src).after [replacement flags] 1, true) := by
  have hitem : decodeItem flags b src = some ⟨[replacement flags], 1, 0⟩ := by
    unfold decodeItem
    rw [h]
  have hnext : (decodeReader flags).next b src = some ⟨[replacement flags], 1, 0⟩ := hitem
  cases header with
  | true =>
    show ((decodeReader flags).read (b :: src), true) = _
    rw [Reader.read_item hnext]
    rfl
  | false =>
    rw [readText_item hitem, eatBom_replacement]
    rfl

theorem convertToUnicodeState_carry (simd : Simd AsciiByte) (hs : s.flags.stateless = false)
    (hne : inp ≠ []) (hcarry : s.remaining ≠ [] ∨ s.header = false)
    (hdata : s.remaining ++ inp.take (min (4 - s.remaining.length) inp.length) = b :: src) :
    convertToUnicodeState simd inp s =
      match fromUtf8 false b src with
      | .error => decodeMainBody simd [replacement s.flags] (inp.drop 1)
          { s with invalidChars := s.invalidChars + 1, headerDone := true }
      | .endOfString => ([], { s with remaining := b :: src })
      | .ok units res =>
        decodeMainBody simd (if s.header then units else eatBom units)
          (inp.drop (res - s.remaining.length)) { s with headerDone := true } := by
  have hbom : ∀ units : List UInt16, (if (!(s.headerDone || s.flags.convertInitialBom) &&
      units.getLast? == some 0xfeff) = true then units.dropLast else units) =
      if s.header then units else eatBom units := by
    intro units
    show (if (!s.header && _) = true then _ else _) = _
    cases s.header <;> rfl
  have hcarry' : s.remaining ≠ [] ∨ (s.headerDone || s.flags.convertInitialBom) = false := hcarry
  unfold convertToUnicodeState
  rw [if_neg hne, hs]
  simp only [Bool.false_eq_true, if_false]
  rw [if_pos hcarry', hdata]
  show (match fromUtf8 false b src with | .error => _ | .endOfString => _ | .ok units res => _) = _
  cases fromUtf8 false b src with
  | error => rfl
  | endOfString => rfl
  | ok units res => simp only [hbom]

theorem Waiting.length_lt (h : Waiting r) : r.length < 4 := by
  rcases h with rfl | h
  · decide
  · exact h.length_lt.2

theorem yields_of_wellBegun (simd : Simd AsciiByte) (hs : s.flags.stateless = false)
    (hr : Waiting s.remaining) (hne : inp ≠ [])
    (hbegun : s.remaining = [] ∨ WellBegun (s.remaining ++ inp)) :
    Yields State.header s (readText s.flags s.header (s.remaining ++ inp)).1
      (readText s.flags s.header (s.remaining ++ inp)).2 (convertToUnicodeState simd inp s) := by
  by_cases hcarry : s.remaining ≠ [] ∨ s.header = false
  · cases hdata : s.remaining ++ inp.take (min (4 - s.remaining.length) inp.length) with
    | nil =>
      have hlt := hr.length_lt
      have hpos := length_pos_iff.mpr hne
      have hlen := congrArg List.length hdata
      rw [length_append, length_take, length_nil] at hlen
      omega
    | cons b src =>
      obtain ⟨rest, hall, hfrom, hrest⟩ := fromUtf8_window rfl hr.length_lt hdata
      rw [convertToUnicodeState_carry simd hs hne hcarry hdata, hall]
      cases h : fromUtf8 false b src with
      | error =>
        rw [h] at hfrom
        have hnil : s.remaining = [] := by
          rw [hall] at hbegun
          exact hbegun.resolve_right (not_wellBegun_iff.2 hfrom)
        rw [hnil, nil_append] at hall
        rw [readText_error _ hfrom, hall]
        exact yields_mainBody simd hs [replacement s.flags] (src ++ rest) 1
      | endOfString =>
        have hnil := hrest (fromUtf8_endOfString_iff.1 h)
        rw [hnil, append_nil, readText_endOfString _ h]
        exact ⟨rfl, rfl, rfl, rfl, rfl⟩
      | ok units n =>
        rw [h] at hfrom
        have hlt : s.remaining.length < n := by
          cases hrem : s.remaining with
          | nil => exact (fromUtf8_ok_le h).1
          | cons b' src' =>
            rw [hrem] at hr hall
            have hu := hr.resolve_left (cons_ne_nil _ _)
            rw [cons_append, List.cons.injEq] at hall
            rw [← hall.1, ← hall.2] at hfrom
            exact length_lt_of_unfinished hu hfrom
        have hdrop : inp.drop (n - s.remaining.length) = (src ++ rest).drop (n - 1) := by
          have heq := congrArg (List.drop n) hall
          rw [drop_append, drop_of_length_le (by omega), nil_append] at heq
          rw [heq]
          conv_lhs => rw [← Nat.sub_add_cancel (by omega : 1 ≤ n), drop_succ_cons]
        rw [readText_ok _ hfrom, ← hdrop]
        exact yields_mainBody simd hs _ _ 0
  · rw [not_or, not_not, Bool.not_eq_false] at hcarry
    have hmain : convertToUnicodeState simd inp s = decodeMainBody simd [] inp s := by
      have hneg : ¬ (s.remaining ≠ [] ∨ (s.headerDone || s.flags.convertInitialBom) = false) := by
        rw [not_or, not_not, Bool.not_eq_false]
        exact hcarry
      unfold convertToUnicodeState
      rw [if_neg hne, hs]
      simp only [Bool.false_eq_true, if_false]
      rw [if_neg hneg]
    rw [hmain, hcarry.1, hcarry.2, decodeMainBody_eq simd [] inp hs]
    exact ⟨rfl, rfl, rfl, rfl, hcarry.2⟩

/-- A call that finds what was waiting malformed writes one replacement, and passes over the first
byte of the new part in place of it. -/
theorem yields_of_not_wellBegun (simd : Simd AsciiByte) (hs : s.flags.stateless = false)
    (hr : Waiting s.remaining) (hne : inp ≠ []) (hrem : s.remaining ≠ [])
    (hbegun : ¬ WellBegun (s.remaining ++ inp)) :
    Yields State.header s (((decodeReader s.flags).read (inp.drop 1)).after [replacement s.flags] 1) true
      (convertToUnicodeState simd inp s) := by
  cases hdata : s.remaining ++ inp.take (min (4 - s.remaining.length) inp.length) with
  | nil => exact absurd (append_eq_nil_iff.mp hdata).1 hrem
  | cons b src =>
    obtain ⟨rest, hall, hfrom, -⟩ := fromUtf8_window rfl hr.length_lt hdata
    rw [hall, not_wellBegun_iff, hfrom] at hbegun
    rw [convertToUnicodeState_carry simd hs hne (.inl hrem) hdata, hbegun]
    exact yields_mainBody simd hs [replacement s.flags] (inp.drop 1) 1

/-! ## Runs -/

theorem wellBegun_of_append {xs ys : List UInt8} (hne : xs ≠ []) (h : WellBegun (xs ++ ys)) :
    WellBegun xs := by
  cases xs with
  | nil => exact absurd rfl hne
  | cons b src =>
    by_contra hnot
    have hu : ¬ Unfinished (b :: src) := fun hu => hnot (.inl hu)
    rw [not_wellBegun_iff] at hnot
    have herror : fromUtf8 false b (src ++ ys) = .error := by rw [fromUtf8_append hu, hnot]
    exact absurd h (not_wellBegun_iff.2 herror)

theorem readText_waiting (h : Waiting r) (header : Bool) :
    readText flags header r = (⟨[], 0, r⟩, header) := by
  cases r with
  | nil =>
    cases header with
    | true =>
      show ((decodeReader flags).read [], true) = _
      rw [Reader.read_nil]
    | false => rfl
  | cons b src =>
    exact readText_endOfString header
      (fromUtf8_endOfString_iff.2 (h.resolve_left (cons_ne_nil _ _)))

theorem yields_nil (simd : Simd AsciiByte) (hr : Waiting s.remaining) :
    Yields State.header s (readText s.flags s.header s.remaining).1 (readText s.flags s.header s.remaining).2
      (convertToUnicodeState simd [] s) := by
  rw [readText_waiting hr]
  unfold convertToUnicodeState
  rw [if_pos rfl]
  exact ⟨rfl, rfl, rfl, rfl, rfl⟩

theorem not_continuation_of_unfinished (h : Unfinished (b :: src)) :
    ¬ isContinuationByte b = true := by
  obtain ⟨n, m, uc, hl, -⟩ := h
  rw [isContinuationByte_iff]
  rintro ⟨-, hlt⟩
  obtain ⟨-, hnone⟩ | ⟨hb, -⟩ | ⟨hb, -⟩ | ⟨hb, -⟩ := leadByte_cases b
  · rw [hnone] at hl
    cases hl
  · omega
  · omega
  · omega

theorem more_le_of_unfinished {done : List UInt8} {it : Item UInt16} (hr : Unfinished r)
    (h : decodeItem flags b (done ++ r) = some it) :
    it.more ≤ done.length := by
  unfold decodeItem at h
  cases hfrom : fromUtf8 false b (done ++ r) with
  | error =>
    rw [hfrom] at h
    cases h
    exact Nat.zero_le _
  | endOfString =>
    rw [hfrom] at h
    cases h
  | ok units n =>
    rw [hfrom] at h
    cases h
    rcases Nat.lt_or_ge b.toNat 0x80 with hb | hb
    · rw [fromUtf8_ascii hb] at hfrom
      cases hfrom
      exact Nat.zero_le _
    · cases r with
      | nil => exact hr.elim
      | cons x r =>
        rw [fromUtf8_of_ge hb] at hfrom
        cases hl : leadByte b with
        | none =>
          rw [hl] at hfrom
          cases hfrom
        | some p =>
          obtain ⟨k, m, uc⟩ := p
          rw [hl] at hfrom
          obtain ⟨-, hall, hchk⟩ := continuations_ok (leadByte_length hl).1 hfrom
          have hn := (checked_ok_iff.1 hchk).1
          rw [← hn] at hall
          by_contra hlt
          change ¬ n - 1 ≤ done.length at hlt
          refine not_continuation_of_unfinished hr (all_eq_true.mp hall x ?_)
          rw [take_append, mem_append]
          right
          obtain ⟨j, hj⟩ : ∃ j, n - 1 - done.length = j + 1 := ⟨n - 1 - done.length - 1, by omega⟩
          simp [hj]

theorem pending_of_unfinished (flags : QStringConverter.Flags) (hr : Unfinished r) :
    ∀ done : List UInt8, ((decodeReader flags).read (done ++ r)).pending = r
  | [] => by
    cases r with
    | nil => exact hr.elim
    | cons b src =>
      have hnext : (decodeReader flags).next b src = none := decodeItem_eq_none_iff.2 hr
      rw [nil_append, Reader.read_unfinished hnext]
  | b :: done => by
    cases h : decodeItem flags b (done ++ r) with
    | none =>
      have hu := decodeItem_eq_none_iff.1 h
      obtain ⟨n, m, uc, -, -, hall⟩ := hu
      cases r with
      | nil => exact hr.elim
      | cons x r =>
        rw [all_append, Bool.and_eq_true, all_cons, Bool.and_eq_true] at hall
        exact absurd hall.2.1 (not_continuation_of_unfinished hr)
    | some it =>
      have hle := more_le_of_unfinished hr h
      have hnext : (decodeReader flags).next b (done ++ r) = some it := h
      have hlt : (done.drop it.more).length < (b :: done).length := by
        simp only [length_drop, length_cons]
        omega
      rw [cons_append, Reader.read_item hnext, drop_append_of_le_length hle]
      exact pending_of_unfinished flags hr (done.drop it.more)
termination_by done => done.length

theorem unfinished_suffix_iff (flags : QStringConverter.Flags) {xs : List UInt8} :
    ((∃ done, xs = done ++ r) ∧ Unfinished r) ↔
      ((decodeReader flags).read xs).pending = r ∧ r ≠ [] := by
  constructor
  · rintro ⟨⟨done, rfl⟩, hr⟩
    refine ⟨pending_of_unfinished flags hr done, ?_⟩
    rintro rfl
    exact hr
  · rintro ⟨hp, hne⟩
    rcases Reader.pending_eq_nil_or (R := decodeReader flags) xs with h | ⟨b, src, done, h, hb, hxs⟩
    · exact absurd (hp.symm.trans h) hne
    · rw [hp] at h
      rw [h]
      exact ⟨⟨done, hxs⟩, decodeItem_eq_none_iff.1 hb⟩

/-- A sequence that is unfinished where the input is cut goes on with the parts that follow. -/
def CutsGoOn (pending : List UInt8) (chunks : List (List UInt8)) : Prop :=
  ∀ before after, chunks = before ++ after →
    ∀ done r, pending ++ before.flatten = done ++ r → Unfinished r → WellBegun (r ++ after.flatten)

theorem cutsGoOn_cons (flags : QStringConverter.Flags) {pending chunk : List UInt8} {chunks : List (List UInt8)}
    (hp : Waiting pending) : CutsGoOn pending (chunk :: chunks) ↔
      (pending = [] ∨ WellBegun (pending ++ chunk ++ chunks.flatten)) ∧
      CutsGoOn ((decodeReader flags).read (pending ++ chunk)).pending chunks := by
  have hread : ∀ before : List (List UInt8),
      ((decodeReader flags).read (pending ++ (chunk :: before).flatten)).pending =
      ((decodeReader flags).read
        (((decodeReader flags).read (pending ++ chunk)).pending ++ before.flatten)).pending := by
    intro before
    rw [flatten_cons, ← append_assoc, Reader.read_append]
    rfl
  constructor
  · intro h
    constructor
    · rcases hp with hp | hp
      · exact .inl hp
      · right
        have hcut := h [] (chunk :: chunks) rfl [] pending (append_nil _) hp
        rwa [flatten_cons, ← append_assoc] at hcut
    · rintro before after rfl done r hr hu
      have hpend := (unfinished_suffix_iff flags).mp ⟨⟨done, hr⟩, hu⟩
      rw [← hread] at hpend
      obtain ⟨⟨done', hdone⟩, -⟩ := (unfinished_suffix_iff flags).mpr hpend
      exact h (chunk :: before) after rfl done' r hdone hu
  · rintro ⟨hfirst, hrest⟩ before after heq done r hr hu
    cases before with
    | nil =>
      rw [flatten_nil, append_nil] at hr
      rw [nil_append] at heq
      have hpend := pending_of_unfinished flags hu done
      rw [← hr] at hpend
      have hne : pending ≠ [] := by
        intro hnil
        rw [hnil] at hr
        rw [(append_eq_nil_iff.mp hr.symm).2] at hu
        exact hu
      have hself := readText_pending flags true pending
      rw [readText_waiting hp, hpend] at hself
      rw [← hself, ← heq, flatten_cons, ← append_assoc]
      exact hfirst.resolve_left hne
    | cons chunk' before =>
      rw [cons_append, List.cons.injEq] at heq
      obtain ⟨rfl, rfl⟩ := heq
      have hpend := (unfinished_suffix_iff flags).mp ⟨⟨done, hr⟩, hu⟩
      rw [hread] at hpend
      obtain ⟨⟨done', hdone⟩, -⟩ := (unfinished_suffix_iff flags).mpr hpend
      exact hrest before after rfl done' r hdone hu

theorem yields_of_cutsGoOn (simd : Simd AsciiByte) (chunks : List (List UInt8))
    (hs : s.flags.stateless = false) (hr : Waiting s.remaining)
    (hcuts : CutsGoOn s.remaining chunks) :
    Yields State.header s (readText s.flags s.header (s.remaining ++ chunks.flatten)).1
      (readText s.flags s.header (s.remaining ++ chunks.flatten)).2
      (feedChunks (convertToUnicodeState simd) chunks s) := by
  induction chunks generalizing s with
  | nil =>
    rw [flatten_nil, append_nil, readText_waiting hr]
    exact ⟨rfl, rfl, rfl, rfl, rfl⟩
  | cons chunk chunks ih =>
    obtain ⟨hfirst, hrest⟩ := (cutsGoOn_cons s.flags hr).mp hcuts
    have hcall : Yields State.header s (readText s.flags s.header (s.remaining ++ chunk)).1
        (readText s.flags s.header (s.remaining ++ chunk)).2
        (convertToUnicodeState simd chunk s) := by
      by_cases hne : chunk = []
      · rw [hne, append_nil]
        exact yields_nil simd hr
      · apply yields_of_wellBegun simd hs hr hne
        exact hfirst.imp_right (wellBegun_of_append (fun h => hne (append_eq_nil_iff.mp h).2))
    rw [flatten_cons, ← append_assoc, readText_append]
    show Yields State.header s _ _ ((convertToUnicodeState simd chunk s).1 ++ _, _)
    have hpend := hcall.remaining
    rw [readText_pending] at hpend
    have hrun := ih (s := (convertToUnicodeState simd chunk s).2) (by rw [hcall.flags, hs])
      (by rw [hpend]; exact waiting_pending _) (by rw [hpend]; exact hrest)
    rw [hcall.flags, hcall.header, hcall.remaining] at hrun
    exact Yields.append hcall hrun

/-! ## How many bytes the output stands for -/

/-- The bytes a unit stands for. -/
def unitBytes (u : UInt16) : ℕ :=
  if u.toNat < 0x80 then 1
  else if u.toNat < 0x800 then 2
  else if 0xd800 ≤ u.toNat ∧ u.toNat < 0xe000 then 2
  else 3

def bytesOf (units : List UInt16) : ℕ := (units.map unitBytes).sum

@[simp] theorem bytesOf_nil : bytesOf [] = 0 := rfl

@[simp] theorem bytesOf_append (xs ys : List UInt16) :
    bytesOf (xs ++ ys) = bytesOf xs + bytesOf ys := by
  unfold bytesOf
  rw [map_append, sum_append]

theorem bytesOf_utf16EncodeChar (c : Char) :
    bytesOf (utf16EncodeChar c) = (String.utf8EncodeChar c).length := by
  rcases Nat.lt_or_ge 0xffff c.val.toNat with hc | hc
  · obtain ⟨u, v, henc, hu, hv, -⟩ := utf16EncodeChar_of_lt hc
    unfold High at hu
    unfold Low at hv
    have hlen : (String.utf8EncodeChar c).length = 4 := by
      unfold String.utf8EncodeChar
      rw [if_neg (by omega), if_neg (by omega), if_neg (by omega)]
      rfl
    have hu2 : unitBytes u = 2 := by
      unfold unitBytes
      rw [if_neg (by omega), if_neg (by omega), if_pos (by omega)]
    have hv2 : unitBytes v = 2 := by
      unfold unitBytes
      rw [if_neg (by omega), if_neg (by omega), if_pos (by omega)]
    rw [henc, hlen]
    show unitBytes u + (unitBytes v + 0) = 4
    omega
  · obtain ⟨u, henc, hnat, hh, hl⟩ := utf16EncodeChar_of_le hc
    unfold High at hh
    unfold Low at hl
    rw [henc]
    show unitBytes u + 0 = _
    unfold unitBytes String.utf8EncodeChar
    rw [hnat]
    split
    · have h1 : c.val.toNat ≤ 0x7f := by omega
      rw [if_pos h1]
      rfl
    · have h1 : ¬ c.val.toNat ≤ 0x7f := by omega
      rw [if_neg h1]
      split
      · have h2 : c.val.toNat ≤ 0x7ff := by omega
        rw [if_pos h2]
        rfl
      · have h2 : ¬ c.val.toNat ≤ 0x7ff := by omega
        have hs : ¬ (0xd800 ≤ c.val.toNat ∧ c.val.toNat < 0xe000) := by omega
        rw [if_neg hs, if_neg h2]
        rfl

/-- The bytes a replacement stands for beyond the one it replaces. -/
def excess (flags : QStringConverter.Flags) : ℕ := bytesOf [replacement flags] - 1

theorem bytesOf_replacement (flags : QStringConverter.Flags) :
    bytesOf [replacement flags] = 1 + excess flags := by
  unfold excess replacement
  cases flags.convertInvalidToNull <;> rfl

theorem bytesOf_item {it : Item UInt16} (h : decodeItem flags b src = some it) :
    bytesOf it.out = 1 + it.more + it.errors * excess flags := by
  unfold decodeItem at h
  cases hfrom : fromUtf8 false b src with
  | ok units n =>
    rw [hfrom] at h
    cases h
    obtain ⟨c, rest, -, rfl, rfl⟩ := fromUtf8_ok_iff.1 hfrom
    have hpos := (fromUtf8_ok_le hfrom).1
    rw [bytesOf_utf16EncodeChar]
    show _ = 1 + ((String.utf8EncodeChar c).length - 1) + 0 * excess flags
    omega
  | error =>
    rw [hfrom] at h
    cases h
    show bytesOf [replacement flags] = 1 + 0 + 1 * excess flags
    rw [bytesOf_replacement, Nat.one_mul]
  | endOfString =>
    rw [hfrom] at h
    cases h

theorem bytesOf_read (flags : QStringConverter.Flags) : ∀ xs : List UInt8,
    bytesOf ((decodeReader flags).read xs).out + ((decodeReader flags).read xs).pending.length =
      xs.length + ((decodeReader flags).read xs).errors * excess flags
  | [] => by
    rw [Reader.read_nil, bytesOf_nil, Nat.zero_mul]
    rfl
  | b :: src => by
    cases h : decodeItem flags b src with
    | none =>
      have hnext : (decodeReader flags).next b src = none := h
      rw [Reader.read_unfinished hnext, bytesOf_nil, Nat.zero_mul, Nat.zero_add, Nat.add_zero]
    | some it =>
      have hnext : (decodeReader flags).next b src = some it := h
      have hle : it.more ≤ src.length := (decodeReader flags).more_le hnext
      have hlt : (src.drop it.more).length < (b :: src).length := by
        simp only [length_drop, length_cons]
        omega
      have ih := bytesOf_read flags (src.drop it.more)
      have hitem := bytesOf_item h
      rw [length_drop] at ih
      rw [Reader.read_item hnext]
      show bytesOf (it.out ++ _) + _ = _ + (it.errors + _) * _
      rw [bytesOf_append, Nat.add_mul, length_cons]
      show _ + _ + ((decodeReader flags).read (src.drop it.more)).pending.length = _
      omega
termination_by xs => xs.length

theorem call_cases (simd : Simd AsciiByte) (hs : s.flags.stateless = false)
    (hr : Waiting s.remaining) (chunk : List UInt8) :
    ((chunk = [] ∨ s.remaining = [] ∨ WellBegun (s.remaining ++ chunk)) ∧
      Yields State.header s (readText s.flags s.header (s.remaining ++ chunk)).1
        (readText s.flags s.header (s.remaining ++ chunk)).2
        (convertToUnicodeState simd chunk s)) ∨
    (chunk ≠ [] ∧ s.remaining ≠ [] ∧ ¬ WellBegun (s.remaining ++ chunk) ∧
      Yields State.header s (((decodeReader s.flags).read (chunk.drop 1)).after [replacement s.flags] 1) true
        (convertToUnicodeState simd chunk s)) := by
  by_cases hne : chunk = []
  · left
    rw [hne, append_nil]
    exact ⟨.inl rfl, yields_nil simd hr⟩
  · by_cases hbegun : s.remaining = [] ∨ WellBegun (s.remaining ++ chunk)
    · left
      exact ⟨.inr hbegun, yields_of_wellBegun simd hs hr hne hbegun⟩
    · right
      rw [not_or] at hbegun
      exact ⟨hne, hbegun.1, hbegun.2, yields_of_not_wellBegun simd hs hr hne hbegun.1 hbegun.2⟩

theorem readText_header_true (flags : QStringConverter.Flags) (xs : List UInt8) :
    readText flags true xs = ((decodeReader flags).read xs, true) := rfl

theorem exists_yields_le (simd : Simd AsciiByte) (chunks : List (List UInt8))
    (hs : s.flags.stateless = false) (hr : Waiting s.remaining) (hh : s.header = true) :
    ∃ d, Yields State.header s d true (feedChunks (convertToUnicodeState simd) chunks s) ∧
      bytesOf d.out + d.pending.length ≤
        s.remaining.length + chunks.flatten.length + d.errors * excess s.flags := by
  induction chunks generalizing s with
  | nil =>
    refine ⟨⟨[], 0, s.remaining⟩, ⟨rfl, rfl, rfl, rfl, hh⟩, ?_⟩
    simp only [bytesOf_nil, flatten_nil, length_nil, Nat.zero_mul, Nat.zero_add,
      Nat.add_zero, Nat.le_refl]
  | cons chunk chunks ih =>
    obtain ⟨d, hcall, hwait, hle⟩ : ∃ d, Yields State.header s d true (convertToUnicodeState simd chunk s) ∧
        Waiting d.pending ∧ bytesOf d.out + d.pending.length ≤
          s.remaining.length + chunk.length + d.errors * excess s.flags := by
      rcases call_cases simd hs hr chunk with ⟨-, hcall⟩ | ⟨hne, -, -, hcall⟩
      · rw [hh, readText_header_true] at hcall
        have hbytes := bytesOf_read s.flags (s.remaining ++ chunk)
        rw [length_append] at hbytes
        exact ⟨_, hcall, waiting_pending _, Nat.le_of_eq hbytes⟩
      · have hbytes := bytesOf_read s.flags (chunk.drop 1)
        have hpos := length_pos_iff.mpr hne
        rw [length_drop] at hbytes
        refine ⟨_, hcall, waiting_pending _, ?_⟩
        simp only [Result.after_out, Result.after_errors, Result.after_pending, bytesOf_append,
          bytesOf_replacement, Nat.add_mul, Nat.one_mul]
        omega
    have hrun := ih (s := (convertToUnicodeState simd chunk s).2) (by rw [hcall.flags, hs])
      (by rw [hcall.remaining]; exact hwait) hcall.header
    obtain ⟨d', hrun, hle'⟩ := hrun
    rw [hcall.remaining, hcall.flags] at hle'
    refine ⟨d'.after d.out d.errors, hcall.append hrun, ?_⟩
    simp only [Result.after_out, Result.after_errors, Result.after_pending, bytesOf_append,
      Nat.add_mul, flatten_cons, length_append]
    omega

/-- Where a cut does not go on, the output of the parts stands for fewer bytes than the output of
the whole. -/
theorem exists_yields_lt (simd : Simd AsciiByte) (chunks : List (List UInt8))
    (hs : s.flags.stateless = false) (hr : Waiting s.remaining)
    (hcuts : ¬ CutsGoOn s.remaining chunks) :
    ∃ d header, Yields State.header s d header (feedChunks (convertToUnicodeState simd) chunks s) ∧
      ∃ w, (readText s.flags s.header (s.remaining ++ chunks.flatten)).1 = w ∧
        bytesOf d.out + d.pending.length + w.errors * excess s.flags <
          bytesOf w.out + w.pending.length + d.errors * excess s.flags := by
  induction chunks generalizing s with
  | nil =>
    refine absurd ?_ hcuts
    intro before after heq done r _ hu
    rw [(append_eq_nil_iff.mp heq.symm).2, flatten_nil, append_nil]
    exact .inl hu
  | cons chunk chunks ih =>
    rw [cutsGoOn_cons s.flags hr] at hcuts
    rcases call_cases simd hs hr chunk with ⟨hgood, hcall⟩ | ⟨hne, hrem, hbroken, hcall⟩
    · -- the cut that fails is a later one
      have hpend := hcall.remaining
      rw [readText_pending] at hpend
      have hrest : ¬ CutsGoOn (convertToUnicodeState simd chunk s).2.remaining chunks := by
        rw [hpend]
        intro hrest
        refine hcuts ⟨?_, hrest⟩
        by_cases hnil : s.remaining = []
        · exact .inl hnil
        right
        have hbegun : WellBegun (s.remaining ++ chunk) := by
          rcases hgood with rfl | hnil' | hbegun
          · rw [append_nil]
            exact .inl (hr.resolve_left hnil)
          · exact absurd hnil' hnil
          · exact hbegun
        rcases hbegun with hu | ⟨c, rest, heq⟩
        · have hself := pending_of_unfinished s.flags hu []
          rw [nil_append] at hself
          rw [hself] at hrest
          exact hrest [] chunks rfl [] _ (append_nil _) hu
        · right
          exact ⟨c, rest ++ chunks.flatten, by rw [heq, append_assoc]⟩
      obtain ⟨d, header, hrun, w, hw, hlt⟩ := ih (by rw [hcall.flags, hs])
        (by rw [hpend]; exact waiting_pending _) hrest
      rw [hcall.flags, hcall.header, hcall.remaining] at hw
      rw [hcall.flags] at hlt
      refine ⟨_, header, hcall.append hrun, _, rfl, ?_⟩
      have happ : readText s.flags s.header (s.remaining ++ chunk ++ chunks.flatten) = _ :=
        readText_append s.header (s.remaining ++ chunk) chunks.flatten
      rw [flatten_cons, ← append_assoc, happ]
      simp only [hw, Result.after_out, Result.after_errors, Result.after_pending, bytesOf_append,
        Nat.add_mul]
      omega
    · -- the call loses what was waiting, all but one byte
      obtain ⟨d, hrun, hle⟩ := exists_yields_le simd chunks (by rw [hcall.flags, hs])
        (by rw [hcall.remaining]; exact waiting_pending _) hcall.header
      rw [hcall.remaining, hcall.flags] at hle
      refine ⟨_, true, hcall.append hrun, _, rfl, ?_⟩
      cases hb : s.remaining with
      | nil => exact absurd hb hrem
      | cons b r =>
        have hfrom : fromUtf8 false b (r ++ (chunk ++ chunks.flatten)) = .error := by
          rw [← not_wellBegun_iff]
          intro hbegun
          rw [hb] at hbroken
          have hbegun' : WellBegun (b :: r ++ chunk ++ chunks.flatten) := by
            rwa [append_assoc]
          exact hbroken (wellBegun_of_append (cons_ne_nil _ _) hbegun')
        have hbytes := bytesOf_read s.flags (chunk.drop 1)
        have hbytes' := bytesOf_read s.flags (r ++ (chunk ++ chunks.flatten))
        have hpos := length_pos_iff.mpr hne
        rw [length_drop] at hbytes
        rw [length_append, length_append] at hbytes'
        rw [flatten_cons, cons_append, readText_error _ hfrom]
        simp only [Result.after_out, Result.after_errors, Result.after_pending, bytesOf_append,
          bytesOf_replacement, Nat.add_mul, Nat.one_mul] at hle ⊢
        omega

/-- Decoding in parts yields what decoding at once does, exactly when every sequence that is
unfinished at a cut goes on with the bytes that follow. -/
theorem feedChunks_decode_iff (simd : Simd AsciiByte) (s : State UInt8)
    (hs : s.flags.stateless = false) (hr : s.remaining = []) (chunks : List (List UInt8)) :
    (let parts := feedChunks (convertToUnicodeState simd) chunks s
     let whole := convertToUnicodeState simd chunks.flatten s
     parts.1 = whole.1 ∧ parts.2.invalidChars = whole.2.invalidChars ∧
       parts.2.remaining = whole.2.remaining) ↔
    ∀ before after, chunks = before ++ after →
      ∀ done r, before.flatten = done ++ r → Unfinished r →
        Unfinished (r ++ after.flatten) ∨
        ∃ c rest, r ++ after.flatten = String.utf8EncodeChar c ++ rest := by
  have hwait : Waiting s.remaining := .inl hr
  have hwhole : Yields State.header s (readText s.flags s.header (s.remaining ++ chunks.flatten)).1
      (readText s.flags s.header (s.remaining ++ chunks.flatten)).2
      (convertToUnicodeState simd chunks.flatten s) := by
    rcases call_cases simd hs hwait chunks.flatten with ⟨-, hcall⟩ | ⟨-, hrem, -⟩
    · exact hcall
    · exact absurd hr hrem
  have hcond : (∀ before after, chunks = before ++ after →
      ∀ done r, before.flatten = done ++ r → Unfinished r → WellBegun (r ++ after.flatten)) ↔
      CutsGoOn s.remaining chunks := by
    unfold CutsGoOn
    simp [hr]
  show _ ↔ ∀ before after, chunks = before ++ after →
    ∀ done r, before.flatten = done ++ r → Unfinished r → WellBegun (r ++ after.flatten)
  rw [hcond]
  constructor
  · rintro ⟨hout, hinv, hrem⟩
    by_contra hcuts
    obtain ⟨d, header, hparts, w, hw, hlt⟩ := exists_yields_lt simd chunks hs hwait hcuts
    rw [hw] at hwhole
    rw [hparts.out, hwhole.out] at hout
    rw [hparts.invalidChars, hwhole.invalidChars, Nat.add_left_cancel_iff] at hinv
    rw [hparts.remaining, hwhole.remaining] at hrem
    rw [hout, hinv, hrem] at hlt
    exact Nat.lt_irrefl _ hlt
  · intro hcuts
    have hparts := yields_of_cutsGoOn simd chunks hs hwait hcuts
    refine ⟨?_, ?_, ?_⟩
    · rw [hparts.out, hwhole.out]
    · rw [hparts.invalidChars, hwhole.invalidChars]
    · rw [hparts.remaining, hwhole.remaining]

/-- A three-byte character in two parts. -/
theorem feedChunks_decode_iff_euro :
    (feedChunks (convertToUnicodeState simdDecodeAscii) [[0xe2, 0x82], [0xac]] {}).1 = [0x20ac] ∧
    ∀ before after, [[0xe2, 0x82], [0xac]] = before ++ after →
      ∀ done r, before.flatten = done ++ r → Unfinished r →
        Unfinished (r ++ after.flatten) ∨
        ∃ c rest, r ++ after.flatten = String.utf8EncodeChar c ++ rest := by
  constructor
  · decide +kernel
  · exact (feedChunks_decode_iff simdDecodeAscii {} rfl rfl [[0xe2, 0x82], [0xac]]).mp
      (by decide +kernel)

/-- The letter behind an unfinished sequence is lost when the input is cut between them. -/
theorem feedChunks_decode_letter_lost :
    ¬ ∀ (simd : Simd AsciiByte) (flags : QStringConverter.Flags) (chunks : List (List UInt8)),
      flags.stateless = false →
      (feedChunks (convertToUnicodeState simd) chunks { flags }).1 =
        (convertToUnicodeState simd chunks.flatten { flags }).1 := by
  intro h
  have hlost := h simdDecodeAscii {} [[0xe2, 0x82], [0x41]] rfl
  revert hlost
  decide +kernel

end QUtf8

end QtBase
