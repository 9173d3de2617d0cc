import QtBase.Text.Utf8
import QtBase.Text.Utf8Char

/-! The converters and the validity check agree on the well-formed texts. -/
namespace QtBase

open Unicode QUtf8Functions List

namespace Steps

variable {α σ : Type} {step : σ → α → List α → σ × Option (List α)} {s s' r : σ} {a : α}
  {rest rest' : List α}

theorem nil_inv (h : Steps step s [] r) : r = s := by
  cases h
  rfl

theorem next_inv (h : Steps step s (a :: rest) r) (hstep : step s a rest = (s', some rest')) :
    Steps step s' rest' r := by
  cases h with
  | stop h =>
    rw [hstep] at h
    cases h
  | next h hs =>
    rw [hstep] at h
    cases h
    exact hs

end Steps

namespace QUtf8

variable {α β : Type}

@[simp] theorem Cursor.write_nil (c : Cursor α β) : c.write [] = c := by
  unfold write
  rw [append_nil]

@[simp] theorem Cursor.write_write (c : Cursor α β) (xs ys : List β) :
    (c.write xs).write ys = c.write (xs ++ ys) := by
  unfold write
  rw [append_assoc]

theorem toUtf8_ascii {u : UInt16} (h : AsciiUnit u) (src : List UInt16) :
    toUtf8 u src = .ok [u.toUInt8] src := by
  have hlt : u < 0x80 := by
    rw [UInt16.lt_iff_toNat_lt]
    exact h
  unfold toUtf8
  exact if_pos hlt

theorem toUtf8_ok_le {u : UInt16} {src src' : List UInt16} {bytes : List UInt8}
    (h : toUtf8 u src = .ok bytes src') : src'.length ≤ src.length := by
  unfold toUtf8 at h
  split at h
  · cases h
    exact Nat.le_refl _
  split at h
  · cases h
    exact Nat.le_refl _
  split at h
  · cases h
    exact Nat.le_refl _
  split at h
  · cases h
  · split at h
    · cases h
    · split at h <;> cases h
      exact Nat.le_succ _

/-! ## Encoding -/

/-- A step that writes what `toUtf8` returns, and otherwise leaves the rest of the input as it is. -/
structure EncodesChars (step : Cursor UInt16 UInt8 → UInt16 → List UInt16 →
    Cursor UInt16 UInt8 × Option (List UInt16)) : Prop where
  ok : ∀ c {u src bytes src'}, toUtf8 u src = .ok bytes src' →
    step c u src = (c.write bytes, some src')
  error : ∀ {c u src c' src'}, (∀ bytes src'', toUtf8 u src ≠ .ok bytes src'') →
    step c u src = (c', some src') → src' = src

variable {step : Cursor UInt16 UInt8 → UInt16 → List UInt16 →
  Cursor UInt16 UInt8 × Option (List UInt16)}

theorem EncodesChars.skipsAscii (h : EncodesChars step) : SkipsAscii AsciiUnit skipUnits step where
  skip_nil c := by
    unfold skipUnits
    rw [map_nil, Cursor.write_nil]
  skip_cons c u src := by
    unfold skipUnits
    rw [Cursor.write_write]
    rfl
  step_ascii c u src hu := h.ok c (toUtf8_ascii hu src)
  step_le := by
    intro c u src c' src' hstep
    by_cases hok : ∃ bytes src'', toUtf8 u src = .ok bytes src''
    · obtain ⟨bytes, src'', hok⟩ := hok
      rw [h.ok c hok] at hstep
      cases hstep
      exact toUtf8_ok_le hok
    · have heq := h.error (fun bytes src'' heq => hok ⟨bytes, src'', heq⟩) hstep
      exact Nat.le_of_eq (congrArg List.length heq)

theorem toUtf8_encodeChar (c : Char) : ∃ u src, utf16EncodeChar c = u :: src ∧
    ∀ rest, toUtf8 u (src ++ rest) = .ok (String.utf8EncodeChar c) rest := by
  rcases Nat.lt_or_ge 0xffff c.val.toNat with hc | hc
  · obtain ⟨u, v, henc, -⟩ := utf16EncodeChar_of_lt hc
    exact ⟨u, [v], henc, fun rest => toUtf8_pair henc rest⟩
  · obtain ⟨u, henc, -⟩ := utf16EncodeChar_of_le hc
    exact ⟨u, [], henc, fun rest => toUtf8_singleton henc rest⟩

theorem EncodesChars.steps_utf16 (h : EncodesChars step) (cs : List Char)
    {c r : Cursor UInt16 UInt8} (hs : Steps step c (utf16 cs) r) : r = c.write (utf8 cs) := by
  induction cs generalizing c with
  | nil =>
    rw [utf8_nil, Cursor.write_nil]
    exact hs.nil_inv
  | cons ch cs ih =>
    obtain ⟨u, src, henc, hu⟩ := toUtf8_encodeChar ch
    rw [utf16_cons, henc, cons_append] at hs
    rw [ih (hs.next_inv (h.ok c (hu (utf16 cs)))), Cursor.write_write, utf8_cons]

theorem encodesChars_encodeStatelessStep : EncodesChars encodeStatelessStep where
  ok := by
    intro c u src bytes src' h
    unfold encodeStatelessStep
    rw [h]
  error := by
    intro c u src c' src' hne hstep
    unfold encodeStatelessStep at hstep
    split at hstep
    · exact absurd ‹_› (hne _ _)
    · cases hstep
      rfl

theorem convertFromUnicode_utf16 (simd : Simd AsciiUnit) (cs : List Char) :
    convertFromUnicode simd (utf16 cs) = utf8 cs := by
  have hsteps := steps_asciiLoop encodesChars_encodeStatelessStep.skipsAscii simd true
    ((utf16 cs).length + 1) (utf16 cs).length {} (utf16 cs) (Nat.lt_succ_self _)
  unfold convertFromUnicode
  rw [encodesChars_encodeStatelessStep.steps_utf16 cs hsteps]
  rfl

/-! ## Decoding -/

theorem fromUtf8_ok_le {b : UInt8} {src : List UInt8} {units : List UInt16} {n : ℕ}
    (h : fromUtf8 false b src = .ok units n) : 1 ≤ n ∧ n - 1 ≤ src.length := by
  obtain ⟨c, rest, heq, -, rfl⟩ := fromUtf8_ok_iff.1 h
  have hlen := congrArg List.length heq
  have hpos : String.utf8EncodeChar c ≠ [] := String.utf8EncodeChar_ne_nil
  rw [length_append, length_cons] at hlen
  have := length_pos_iff.mpr hpos
  omega

/-- A step that writes what `fromUtf8` returns, and otherwise leaves the rest of the input as it
is. -/
structure DecodesChars (step : Cursor UInt8 UInt16 → UInt8 → List UInt8 →
    Cursor UInt8 UInt16 × Option (List UInt8)) : Prop where
  ok : ∀ c {b src units n}, fromUtf8 false b src = .ok units n →
    step c b src = (c.write units, some (src.drop (n - 1)))
  error : ∀ {c b src c' src'}, (∀ units n, fromUtf8 false b src ≠ .ok units n) →
    step c b src = (c', some src') → src' = src

variable {step : Cursor UInt8 UInt16 → UInt8 → List UInt8 →
  Cursor UInt8 UInt16 × Option (List UInt8)}

theorem DecodesChars.skipsAscii (h : DecodesChars step) : SkipsAscii AsciiByte skipBytes step where
  skip_nil c := by
    unfold skipBytes
    rw [map_nil, Cursor.write_nil]
  skip_cons c u src := by
    unfold skipBytes
    rw [Cursor.write_write]
    rfl
  step_ascii c b src hb := h.ok c (fromUtf8_ascii hb src)
  step_le := by
    intro c b src c' src' hstep
    by_cases hok : ∃ units n, fromUtf8 false b src = .ok units n
    · obtain ⟨units, n, hok⟩ := hok
      rw [h.ok c hok] at hstep
      cases hstep
      simp
    · have heq := h.error (fun units n heq => hok ⟨units, n, heq⟩) hstep
      exact Nat.le_of_eq (congrArg List.length heq)

theorem DecodesChars.steps_utf8 (h : DecodesChars step) (cs : List Char)
    {c r : Cursor UInt8 UInt16} (hs : Steps step c (utf8 cs) r) : r = c.write (utf16 cs) := by
  induction cs generalizing c with
  | nil =>
    rw [utf16_nil, Cursor.write_nil]
    exact hs.nil_inv
  | cons ch cs ih =>
    rw [utf8_cons] at hs
    cases henc : String.utf8EncodeChar ch with
    | nil => exact absurd henc String.utf8EncodeChar_ne_nil
    | cons b src =>
      rw [henc, cons_append] at hs
      have hb : fromUtf8 false b (src ++ utf8 cs) = .ok (utf16EncodeChar ch) (src.length + 1) := by
        have hcons : b :: (src ++ utf8 cs) = String.utf8EncodeChar ch ++ utf8 cs := by
          simp [henc]
        rw [fromUtf8_encodeChar hcons, henc]
        rfl
      have hs := hs.next_inv (h.ok c hb)
      rw [Nat.add_sub_cancel, drop_left] at hs
      rw [ih hs, Cursor.write_write, utf16_cons]

theorem decodesChars_decodeStatelessStep : DecodesChars decodeStatelessStep where
  ok := by
    intro c b src units n h
    unfold decodeStatelessStep
    rw [h]
  error := by
    intro c b src c' src' hne hstep
    unfold decodeStatelessStep at hstep
    split at hstep
    · exact absurd ‹_› (hne _ _)
    · cases hstep
      rfl

theorem steps_convertToUnicode (simd : Simd AsciiByte) {inp : List UInt8}
    (hbom : ¬ utf8bom <+: inp) :
    ∃ r, Steps decodeStatelessStep {} inp r ∧ convertToUnicode simd inp = r.dst := by
  obtain ⟨n, hn⟩ : ∃ n, n = (simd.run inp).1 := ⟨_, rfl⟩
  have hascii : ∀ b ∈ inp.take n, AsciiByte b := by
    rw [hn]
    exact (simd.passes inp).2
  have hskip : ¬ (n = 0 ∧ (inp.drop n).take 3 = utf8bom) := by
    rintro ⟨rfl, htake⟩
    exact hbom (prefix_iff_eq_take.mpr htake.symm)
  have hskips := decodesChars_decodeStatelessStep.skipsAscii
  have hsteps := steps_asciiLoop hskips simd true ((inp.drop n).length + 1) (inp.drop n).length
    ⟨(inp.take n).map (·.toUInt16), 0, []⟩ (inp.drop n) (Nat.lt_succ_self _)
  have hall := hskips.steps_append (s := {}) hascii hsteps
  rw [take_append_drop] at hall
  refine ⟨_, hall, ?_⟩
  unfold convertToUnicode
  rw [← hn]
  simp only
  rw [if_neg hskip]

theorem convertToUnicode_utf8 (simd : Simd AsciiByte) {cs : List Char}
    (hbom : ¬ utf8bom <+: utf8 cs) : convertToUnicode simd (utf8 cs) = utf16 cs := by
  obtain ⟨r, hsteps, hr⟩ := steps_convertToUnicode simd hbom
  rw [hr, decodesChars_decodeStatelessStep.steps_utf8 cs hsteps]
  rfl

theorem head_utf16_of_bom {cs : List Char} (h : utf8bom <+: utf8 cs) :
    (utf16 cs).head? = some 0xfeff := by
  obtain ⟨rest, hrest⟩ := h
  cases cs with
  | nil => cases hrest
  | cons c cs =>
    rw [utf8_cons] at hrest
    have hcons : 0xef :: ([0xbb, 0xbf] ++ rest) = String.utf8EncodeChar c ++ utf8 cs := hrest
    have hc := fromUtf8_encodeChar hcons
    have hbom : fromUtf8 false 0xef [0xbb, 0xbf] = .ok [0xfeff] 3 := by decide +kernel
    have hne : ¬ Unfinished [0xef, 0xbb, 0xbf] := by
      rw [← fromUtf8_endOfString_iff, hbom]
      exact FromUtf8.noConfusion
    rw [fromUtf8_append hne, hbom, FromUtf8.ok.injEq] at hc
    rw [utf16_cons, ← hc.1]
    rfl

/-! ## Validity -/

theorem and_0x80_eq_zero_iff (b : UInt8) : (b &&& 0x80 == 0) = true ↔ b.toNat < 0x80 := by
  revert b
  exact uint8_all (by decide +kernel)

theorem validStep_ascii (c : ValidUtf8Result) {b : UInt8} (hb : AsciiByte b) (src : List UInt8) :
    validStep c b src = (c, some src) := by
  unfold validStep
  rw [if_pos ((and_0x80_eq_zero_iff b).mpr hb)]

theorem validStep_of_ge (c : ValidUtf8Result) {b : UInt8} (hb : 0x80 ≤ b.toNat)
    (src : List UInt8) : validStep c b src =
      match fromUtf8 false b src with
      | .ok _ n => (⟨true, false⟩, some (src.drop (n - 1)))
      | _ => (⟨false, false⟩, none) := by
  have hne : ¬ (b &&& 0x80 == 0) = true := by
    rw [and_0x80_eq_zero_iff]
    omega
  unfold validStep
  rw [if_neg hne, fromUtf8_of_ge hb, ← fromUtf8_of_ge hb false] <;> rfl

theorem skipsAscii_validStep :
    SkipsAscii AsciiByte (fun (c : ValidUtf8Result) _ => c) validStep where
  skip_nil c := rfl
  skip_cons c b src := rfl
  step_ascii c b src hb := validStep_ascii c hb src
  step_le := by
    intro c b src c' src' hstep
    rcases Nat.lt_or_ge b.toNat 0x80 with hb | hb
    · rw [validStep_ascii c hb] at hstep
      cases hstep
      exact Nat.le_refl _
    · rw [validStep_of_ge c hb] at hstep
      split at hstep <;> cases hstep
      simp

theorem exists_utf8_iff {c : Char} {rest : List UInt8} :
    (∃ cs, String.utf8EncodeChar c ++ rest = utf8 cs) ↔ ∃ cs, rest = utf8 cs := by
  constructor
  · rintro ⟨cs, hcs⟩
    cases cs with
    | nil => exact absurd (append_eq_nil_iff.mp hcs).1 String.utf8EncodeChar_ne_nil
    | cons c' cs =>
      cases henc : String.utf8EncodeChar c with
      | nil => exact absurd henc String.utf8EncodeChar_ne_nil
      | cons b src =>
        have hfirst : b :: (src ++ rest) = String.utf8EncodeChar c ++ rest := by
          simp [henc]
        have hfirst' : b :: (src ++ rest) = String.utf8EncodeChar c' ++ utf8 cs := by
          rw [← utf8_cons, ← hcs, hfirst]
        have hc' := fromUtf8_encodeChar hfirst'
        rw [fromUtf8_encodeChar hfirst, FromUtf8.ok.injEq] at hc'
        rw [utf8_cons] at hcs
        exact ⟨cs, (append_inj hcs hc'.2).2⟩
  · rintro ⟨cs, rfl⟩
    exact ⟨c :: cs, rfl⟩

theorem steps_validStep {c r : ValidUtf8Result} {src : List UInt8} (h : Steps validStep c src r)
    (hc : c.isValidUtf8 = true) :
    (r.isValidUtf8 = true ↔ ∃ cs, src = utf8 cs) ∧
    (r.isValidAscii = true ↔ c.isValidAscii = true ∧ ∀ b ∈ src, AsciiByte b) := by
  induction h with
  | done => exact ⟨by simp only [hc, true_iff]; exact ⟨[], rfl⟩, by simp⟩
  | @stop c b src r hstep =>
    have hb : 0x80 ≤ b.toNat := by
      by_contra hlt
      rw [validStep_ascii c (Nat.not_le.mp hlt)] at hstep
      cases hstep
    have hna : ¬ ∀ x ∈ b :: src, AsciiByte x := by
      intro hall
      exact absurd (hall b mem_cons_self) (Nat.not_lt.mpr hb)
    rw [validStep_of_ge c hb] at hstep
    split at hstep
    · cases hstep
    · rename_i hne
      cases hstep
      have hno : ¬ ∃ cs, b :: src = utf8 cs := by
        rintro ⟨cs, hcs⟩
        cases cs with
        | nil => cases hcs
        | cons ch cs =>
          rw [utf8_cons] at hcs
          exact hne _ _ (fromUtf8_encodeChar hcs)
      exact ⟨iff_of_false Bool.false_ne_true hno, iff_of_false Bool.false_ne_true fun h => hna h.2⟩
  | @next c b src c' src' r hstep _ ih =>
    rcases Nat.lt_or_ge b.toNat 0x80 with hb | hb
    · rw [validStep_ascii c hb] at hstep
      cases hstep
      obtain ⟨ch, hch⟩ := exists_char (v := b.toNat) (by omega) (by omega)
      have henc := utf8EncodeChar_one hb hch
      have hiff : (∃ cs, String.utf8EncodeChar ch ++ src = utf8 cs) ↔ ∃ cs, src = utf8 cs :=
        exists_utf8_iff
      rw [henc, singleton_append] at hiff
      rw [hiff, (ih hc).2, forall_mem_cons]
      exact ⟨(ih hc).1, by simp [AsciiByte, hb]⟩
    · rw [validStep_of_ge c hb] at hstep
      have hna : ¬ ∀ x ∈ b :: src, AsciiByte x := by
        intro hall
        exact absurd (hall b mem_cons_self) (Nat.not_lt.mpr hb)
      split at hstep
      · rename_i units n hok
        cases hstep
        obtain ⟨ch, rest, heq, -, rfl⟩ := fromUtf8_ok_iff.1 hok
        have hrest : src.drop ((String.utf8EncodeChar ch).length - 1) = rest := by
          have hdrop := congrArg (List.drop (String.utf8EncodeChar ch).length) heq
          rw [drop_left] at hdrop
          rw [← hdrop]
          have hlen := (fromUtf8_ok_le hok).1
          conv_rhs => rw [← Nat.sub_add_cancel hlen, drop_succ_cons]
        rw [hrest] at ih
        rw [heq, exists_utf8_iff, ← heq]
        have hfalse : ¬ r.isValidAscii = true := by
          rw [(ih rfl).2]
          exact fun h => Bool.false_ne_true h.1
        exact ⟨(ih rfl).1, iff_of_false hfalse fun h => hna h.2⟩
      · cases hstep

theorem isValidUtf8_iff (simd : Simd AsciiByte) (inp : List UInt8) :
    ((isValidUtf8 simd inp).isValidUtf8 = true ↔ ∃ cs, inp = utf8 cs) ∧
    ((isValidUtf8 simd inp).isValidAscii = true ↔ ∀ b ∈ inp, b < 0x80) := by
  have hsteps := steps_asciiLoop skipsAscii_validStep simd true (inp.length + 1) inp.length
    ⟨true, true⟩ inp (Nat.lt_succ_self _)
  obtain ⟨hvalid, hascii⟩ := steps_validStep hsteps rfl
  constructor
  · exact hvalid
  · unfold isValidUtf8
    rw [hascii]
    simp only [true_and, UInt8.lt_iff_toNat_lt]
    rfl

/-! ## Round trips -/

/-- The three converters agree: what is encoded decodes to the same text, and what the check accepts
is the UTF-8 of a text, from which encoding gives the bytes back. -/
theorem roundTrip_and_validity (simdEncode : Simd AsciiUnit)
    (simdDecode simdFind : Simd AsciiByte) :
    (∀ s : List UInt16, Paired s → s.head? ≠ some 0xfeff →
      convertToUnicode simdDecode (convertFromUnicode simdEncode s) = s) ∧
    ∀ b : List UInt8,
      ((isValidUtf8 simdFind b).isValidUtf8 = true ↔
        ∃ cs : List Char, b = cs.flatMap String.utf8EncodeChar) ∧
      ((isValidUtf8 simdFind b).isValidUtf8 = true → ¬ utf8bom <+: b →
        convertFromUnicode simdEncode (convertToUnicode simdDecode b) = b) ∧
      ((isValidUtf8 simdFind b).isValidAscii = true ↔ ∀ x ∈ b, x < 0x80) := by
  constructor
  · intro s hs hfeff
    obtain ⟨cs, rfl⟩ := hs.exists_utf16
    rw [convertFromUnicode_utf16]
    exact convertToUnicode_utf8 simdDecode fun hbom => hfeff (head_utf16_of_bom hbom)
  · intro b
    obtain ⟨hvalid, hascii⟩ := isValidUtf8_iff simdFind b
    refine ⟨hvalid, ?_, hascii⟩
    intro hb hbom
    obtain ⟨cs, rfl⟩ := hvalid.mp hb
    rw [convertToUnicode_utf8 simdDecode hbom, convertFromUnicode_utf16]

/-- A letter and a surrogate pair, and a sequence of four bytes. -/
theorem roundTrip_and_validity_pair :
    convertToUnicode simdDecodeAscii (convertFromUnicode simdEncodeAscii [0x61, 0xd83d, 0xde00]) =
      [0x61, 0xd83d, 0xde00] ∧
    convertFromUnicode simdEncodeAscii (convertToUnicode simdDecodeAscii [0xf0, 0x9f, 0x98, 0x80]) =
      [0xf0, 0x9f, 0x98, 0x80] := by
  have h := roundTrip_and_validity simdEncodeAscii simdDecodeAscii simdFindNonAscii
  have hpaired : Paired [0x61, 0xd83d, 0xde00] :=
    paired_iff.2 ⟨[Char.ofNat 0x61, Char.ofNat 0x1f600], by decide +kernel⟩
  constructor
  · exact h.1 _ hpaired (by decide)
  · exact (h.2 _).2.1 (by decide +kernel) (by decide +kernel)

end QUtf8

end QtBase
