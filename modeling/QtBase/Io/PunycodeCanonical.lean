import QtBase.Io.PunycodeDecode

/-! Which labels the decoder accepts that the encoder does not write. -/
namespace QtBase

open List UInt32 Nat

namespace Punycode

open Bootstring Bootstring.Cursor Unicode

/-! ## Deltas of any digits -/

/-- The deltas that digits are read as, and whether the last one is complete. -/
def parse (bias points : ℕ) (first : Bool) : ℕ → List ℕ → List ℕ × Bool
  | rounds + 1, d :: ds =>
    match read 36 (limit bias) 0 (d :: ds) with
    | (delta, none) => ([delta], false)
    | (delta, some rest) =>
      let (deltas, complete) := parse (adaptNat delta points first) (points + 1) false rounds rest
      (delta :: deltas, complete)
  | _, _ => ([], true)

/-- The digits of deltas. -/
def spellDigits (bias points : ℕ) (first : Bool) : List ℕ → List ℕ
  | [] => []
  | delta :: deltas => digits 36 (limit bias) 0 delta ++
    spellDigits (adaptNat delta points first) (points + 1) false deltas

theorem spellAll_eq (bias points : ℕ) (first : Bool) (deltas : List ℕ) :
    spellAll bias points first deltas = (spellDigits bias points first deltas).map digitUnit := by
  induction deltas generalizing bias points first with
  | nil => rfl
  | cons delta deltas ih =>
    rw [spellAll, spellDigits, map_append, ih]
    rfl

theorem spellDigits_lt (bias points : ℕ) (first : Bool) (deltas : List ℕ) :
    ∀ d ∈ spellDigits bias points first deltas, d < 36 := by
  induction deltas generalizing bias points first with
  | nil => exact fun d hd => absurd hd not_mem_nil
  | cons delta deltas ih =>
    intro d hd
    rcases mem_append.mp hd with hd | hd
    · exact digits_lt (limit_pos bias) 0 delta d hd
    · exact ih _ _ _ d hd

variable {deltas : List ℕ}

theorem spellDigits_parse {bias points rounds : ℕ} {first : Bool} {ds : List ℕ}
    (hds : ∀ d ∈ ds, d < 36) (hrounds : ds.length ≤ rounds)
    (h : parse bias points first rounds ds = (deltas, true)) :
    ds = spellDigits bias points first deltas := by
  induction rounds generalizing bias points first ds deltas with
  | zero =>
    have hnil := eq_nil_of_length_eq_zero (le_zero.mp hrounds)
    rw [hnil] at h ⊢
    cases h
    rfl
  | succ rounds ih =>
    cases ds with
    | nil =>
      cases h
      rfl
    | cons d ds =>
      rw [parse] at h
      generalize hread : read 36 (limit bias) 0 (d :: ds) = r at h
      obtain ⟨delta, rest⟩ := r
      cases rest with
      | none => cases h
      | some rest =>
        have hsplit := digits_read (limit_pos bias) hds hread
        have hne := digits_ne_nil (limit_pos bias) 0 delta
        have hlength := congrArg List.length hsplit
        have hpos := length_pos_of_ne_nil hne
        rw [length_append, length_cons] at hlength
        rw [length_cons] at hrounds
        simp only at h
        generalize hparse : parse (adaptNat delta points first) (points + 1) false rounds rest = r at h
        obtain ⟨deltas', complete⟩ := r
        cases h
        have hrest := ih (fun d' hd' => hds d' (by rw [hsplit]; exact mem_append_right _ hd'))
          (by omega) hparse
        rw [spellDigits, ← hrest]
        exact hsplit

theorem parse_spellDigits {bias points rounds : ℕ} {first : Bool}
    (hrounds : (spellDigits bias points first deltas).length ≤ rounds) :
    parse bias points first rounds (spellDigits bias points first deltas) = (deltas, true) := by
  induction deltas generalizing bias points first rounds with
  | nil =>
    cases rounds with
    | zero => rfl
    | succ rounds => rfl
  | cons delta deltas ih =>
    rw [spellDigits] at hrounds ⊢
    have hne := digits_ne_nil (limit_pos bias) 0 delta
    have hread := read_digits (limit_pos bias) 0 delta
      (spellDigits (adaptNat delta points first) (points + 1) false deltas)
    rw [length_append] at hrounds
    cases hdigits : digits 36 (limit bias) 0 delta with
    | nil => exact absurd hdigits hne
    | cons d ds =>
      rw [hdigits, length_cons] at hrounds
      rw [hdigits, cons_append] at hread
      cases rounds with
      | zero => omega
      | succ rounds =>
        rw [cons_append, parse, hread]
        simp only
        rw [ih (by omega)]

/-! ## What the decoder makes of any digits -/

theorem readDelta_read {bias place w i : ℕ} {ds : List ℕ} (hds : ∀ d ∈ ds, d < 36)
    (hbias : bias < 2 ^ 15) (hplace : place + ds.length < 2 ^ 15) (hw : w < 2 ^ 32)
    (hi : i < 2 ^ 32) :
    readDelta (.ofNat bias) (ds.map digitUnit) (.ofNat (36 * (place + 1))) (.ofNat w) (.ofNat i) =
        pure none ∨
      (readDelta (.ofNat bias) (ds.map digitUnit) (.ofNat (36 * (place + 1))) (.ofNat w) (.ofNat i) =
        pure (some (ofNat (i + w * (read 36 (limit bias) place ds).1),
          ((read 36 (limit bias) place ds).2.getD []).map digitUnit)) ∧
      i + w * (read 36 (limit bias) place ds).1 < 2 ^ 32) := by
  induction ds generalizing place w i with
  | nil =>
    right
    exact ⟨rfl, hi⟩
  | cons d ds ih =>
    have hd := hds d mem_cons_self
    rw [length_cons] at hplace
    rw [map_cons, readDelta_cons hd (by omega) (by omega) hw hi]
    by_cases hadd : d * w < 2 ^ 32 ∧ i + d * w < 2 ^ 32
    · rw [if_pos hadd, Bootstring.read]
      by_cases hlt : d < limit bias place
      · rw [if_pos hlt, if_pos hlt, Nat.mul_comm w]
        right
        exact ⟨rfl, hadd.2⟩
      · rw [if_neg hlt, if_neg hlt]
        by_cases hweight : w * (36 - limit bias place) < 2 ^ 32
        · rw [if_pos hweight]
          have hrest := @ih (place + 1) (w * (36 - limit bias place)) (i + d * w)
            (fun d' hd' => hds d' (mem_cons_of_mem _ hd')) (by omega) hweight hadd.2
          generalize read 36 (limit bias) (place + 1) ds = r at hrest ⊢
          obtain ⟨v, rest⟩ := r
          have hsum : i + d * w + w * (36 - limit bias place) * v =
              i + w * (d + (36 - limit bias place) * v) := by
            rw [Nat.mul_add, Nat.mul_assoc, Nat.mul_comm d w, Nat.add_assoc]
          simp only [hsum] at hrest
          exact hrest
        · rw [if_neg hweight]
          exact .inl rfl
    · rw [if_neg hadd]
      exact .inl rfl

/-- If the decoder does not fail, it has inserted the deltas that the digits are read as. -/
theorem decodeWhile_parse {rounds bias : ℕ} {s : Cursor} {ds : List ℕ} {d' : Decoder}
    (hds : ∀ d ∈ ds, d < 36) (hbias : bias < 2 ^ 15) (hn : 128 ≤ s.n) (hn' : s.n < 2 ^ 32)
    (hi : s.i < 2 ^ 32) (hlength : s.out.length + ds.length < 2 ^ 15) (hrounds : ds.length ≤ rounds)
    (hscalar : ∀ c ∈ s.out, Scalar c)
    (h : (decodeWhile rounds (ds.map digitUnit) (decoderAt s bias)).value = some d') :
    d'.output = (s.run (parse bias (s.out.length + 1) (s.i == 0) rounds ds).1).out.map ofNat ∧
      ∀ c ∈ (s.run (parse bias (s.out.length + 1) (s.i == 0) rounds ds).1).out, Scalar c := by
  induction rounds generalizing s bias ds with
  | zero =>
    have hnil := eq_nil_of_length_eq_zero (Nat.le_zero.mp hrounds)
    rw [hnil] at h ⊢
    cases h
    exact ⟨rfl, hscalar⟩
  | succ rounds ih =>
    cases hcases : ds with
    | nil =>
      rw [hcases] at h
      cases h
      exact ⟨rfl, hscalar⟩
    | cons d ds' =>
      rw [hcases, map_cons, decodeWhile] at h
      rw [hcases] at hlength hrounds hds
      rw [length_cons] at hlength hrounds
      have hread := @readDelta_read bias 0 1 s.i (d :: ds') hds hbias
        (by rw [length_cons]; omega) (by decide) hi
      change readDelta (decoderAt s bias).bias (digitUnit d :: ds'.map digitUnit) base 1
        (decoderAt s bias).i = _ ∨ (readDelta (decoderAt s bias).bias
        (digitUnit d :: ds'.map digitUnit) base 1 (decoderAt s bias).i = _ ∧ _) at hread
      rw [parse]
      generalize hr : read 36 (limit bias) 0 (d :: ds') = r at hread ⊢
      obtain ⟨delta, rest⟩ := r
      rcases hread with hread | ⟨hread, hsum⟩
      · rw [hread, Wraps.pure_bind] at h
        cases h
      · rw [Nat.one_mul] at hread hsum
        rw [hread, Wraps.pure_bind] at h
        simp only at h
        have hinsert := @insertCodePoint_ofNat s bias delta (by omega) hn hn' hsum
        rw [hinsert] at h
        by_cases hnew : Scalar (s.insert delta).n
        · have hscalar' : ∀ c ∈ (s.insert delta).out, Scalar c := by
            intro c hc
            rcases eq_or_mem_of_mem_insertIdx hc with hc | hc
            · exact hc ▸ hnew
            · exact hscalar c hc
          rw [if_pos hnew, Wraps.pure_bind] at h
          simp only at h
          cases rest with
          | none =>
            have hdone : decodeWhile rounds [] (decoderAt (s.insert delta)
                (adaptNat delta (s.out.length + 1) (s.i == 0))) = pure (some (decoderAt (s.insert delta)
                (adaptNat delta (s.out.length + 1) (s.i == 0)))) := by
              cases rounds with
              | zero => rfl
              | succ rounds => rfl
            change (decodeWhile rounds [] _).value = _ at h
            rw [hdone] at h
            cases h
            exact ⟨rfl, hscalar'⟩
          | some rest =>
            obtain ⟨d₁, ds₁, hsplit⟩ := read_rest hr
            obtain ⟨rfl, rfl⟩ := List.cons.inj hsplit
            have hbias' := @adaptNat_le delta 5 (s.out.length + 1) (s.i == 0) (by omega) (by omega)
            have hmod := insert_place_le s delta
            rw [length_append] at hlength hrounds
            have hrest := @ih (adaptNat delta (s.out.length + 1) (s.i == 0)) (s.insert delta) rest
              (fun c hc => hds c (mem_cons_of_mem _ (mem_append_right _ hc))) (by omega)
              (Nat.le_trans hn (n_le_insert s delta)) (Nat.lt_trans hnew.2 (by decide))
              (show (s.i + delta) % (s.out.length + 1) + 1 < 2 ^ 32 by omega)
              (by rw [length_insert]; omega) (by omega) hscalar' h
            rw [length_insert] at hrest
            exact hrest
        · rw [if_neg hnew, Wraps.pure_bind] at h
          cases h

/-! ## Characters that are no digits -/

/-- A character of a label that has no digit value. -/
def Bad (c : UInt16) : Prop := base ≤ (decodeDigit c.toUInt32).value

theorem digit_or_bad {c : UInt16} (hascii : c < 0x80) (hlower : ¬(0x41 ≤ c ∧ c ≤ 0x5a)) :
    (∃ d < 36, c = digitUnit d) ∨ Bad c := by
  have hall : ∀ n ∈ List.range 128, 65 ≤ n ∧ n ≤ 90 ∨
      (decodeDigit (UInt16.ofNat n).toUInt32).value.toNat < 36 ∧
        UInt16.ofNat n = digitUnit (decodeDigit (UInt16.ofNat n).toUInt32).value.toNat ∨
      base ≤ (decodeDigit (UInt16.ofNat n).toUInt32).value := by decide +kernel
  have hlt : c.toNat < 128 := UInt16.lt_iff_toNat_lt.mp hascii
  have hc := hall c.toNat (mem_range.mpr hlt)
  rw [UInt16.ofNat_toNat] at hc
  rcases hc with hc | ⟨hd, hc⟩ | hc
  · exact absurd ⟨UInt16.le_iff_toNat_le.mpr hc.1, UInt16.le_iff_toNat_le.mpr hc.2⟩ hlower
  · exact .inl ⟨_, hd, hc⟩
  · exact .inr hc

theorem exists_digits {l : List UInt16} (h : ∀ c ∈ l, c < 0x80 ∧ ¬(0x41 ≤ c ∧ c ≤ 0x5a)) :
    ∃ (ds : List ℕ) (tail : List UInt16), l = ds.map digitUnit ++ tail ∧ (∀ d ∈ ds, d < 36) ∧
      (tail = [] ∨ ∃ c l', tail = c :: l' ∧ Bad c) := by
  induction l with
  | nil => exact ⟨[], [], rfl, fun d hd => absurd hd not_mem_nil, .inl rfl⟩
  | cons c l ih =>
    have hc := h c mem_cons_self
    rcases digit_or_bad hc.1 hc.2 with ⟨d, hd, hcd⟩ | hbad
    · obtain ⟨ds, tail, hl, hds, htail⟩ := ih fun c' hc' => h c' (mem_cons_of_mem _ hc')
      refine ⟨d :: ds, tail, by rw [hl, hcd]; rfl, ?_, htail⟩
      intro d' hd'
      rcases mem_cons.mp hd' with heq | hd'
      · exact heq ▸ hd
      · exact hds d' hd'
    · exact ⟨[], c :: l, rfl, fun d hd => absurd hd not_mem_nil, .inr ⟨c, l, rfl, hbad⟩⟩

theorem readDelta_bad {c : UInt16} (hbad : Bad c) (bias : UInt32) (tail ds : List UInt16)
    (k w i : UInt32) : (readDelta bias (ds ++ c :: tail) k w i).value = none ∨
      ∃ i' ds', (readDelta bias (ds ++ c :: tail) k w i).value = some (i', ds' ++ c :: tail) ∧
        ds'.length < ds.length := by
  induction ds generalizing k w i with
  | nil =>
    left
    have hbase : (decodeDigit c.toUInt32).value ≥ base := hbad
    rw [nil_append, readDelta, Wraps.value_bind, if_pos hbase]
    rfl
  | cons u ds ih =>
    rw [cons_append, readDelta, Wraps.value_bind]
    by_cases hbase : (decodeDigit u.toUInt32).value ≥ base
    · rw [if_pos hbase]
      exact .inl rfl
    · rw [if_neg hbase]
      cases qMulOverflow (decodeDigit u.toUInt32).value w with
      | none => exact .inl rfl
      | some tmp =>
        simp only
        cases qAddOverflow i tmp with
        | none => exact .inl rfl
        | some i =>
          simp only
          rw [Wraps.value_bind]
          by_cases hlt : (decodeDigit u.toUInt32).value < (threshold k bias).value
          · rw [if_pos hlt]
            exact .inr ⟨i, ds, rfl, lt_succ_self _⟩
          · rw [if_neg hlt, Wraps.value_bind]
            cases qMulOverflow w (uSub base (threshold k bias).value).value with
            | none => exact .inl rfl
            | some w =>
              simp only
              rw [Wraps.value_bind]
              rcases ih (uAdd k base).value w i with hnone | ⟨i', ds', hsome, hle⟩
              · exact .inl hnone
              · exact .inr ⟨i', ds', hsome, lt_succ_of_lt hle⟩

theorem decodeWhile_bad {c : UInt16} (hbad : Bad c) (tail ds : List UInt16) {rounds : ℕ}
    (hrounds : ds.length < rounds) (d : Decoder) :
    (decodeWhile rounds (ds ++ c :: tail) d).value = none := by
  induction rounds generalizing ds d with
  | zero => cases hrounds
  | succ rounds ih =>
    obtain ⟨u, us, hus⟩ : ∃ u us, ds ++ c :: tail = u :: us := by
      cases ds with
      | nil => exact ⟨c, tail, rfl⟩
      | cons u ds => exact ⟨u, ds ++ c :: tail, rfl⟩
    have hread := readDelta_bad hbad d.bias tail ds base 1 d.i
    rw [hus] at hread ⊢
    rw [decodeWhile, Wraps.value_bind]
    rcases hread with hnone | ⟨i, ds', hsome, hlt⟩
    · rw [hnone]
      rfl
    · rw [hsome]
      simp only
      rw [Wraps.value_bind]
      cases (insertCodePoint d i).value with
      | none => rfl
      | some d' => exact ih ds' (by omega) d'

/-! ## Labels -/

/-- What is spelled before the last delimiter. -/
def basicOf (p : List UInt16) : List UInt16 := (p.drop 4).take (lastDelimiter p - 4)

/-- The digits behind the last delimiter. -/
def digitsOf (p : List UInt16) : List ℕ := (p.drop (lastDelimiter p + 1)).map fun c =>
  (decodeDigit c.toUInt32).value.toNat

def deltasOf (p : List UInt16) : List ℕ × Bool :=
  parse 72 ((basicOf p).length + 1) true (digitsOf p).length (digitsOf p)

/-- The label that is spelled. -/
def spelled (p : List UInt16) : List ℕ :=
  ((start 128 ((basicOf p).map UInt16.toNat)).run (deltasOf p).1).out

/-- A label has deltas, no delimiter without basic code points, a last delta that is complete, and no
byte order mark at the start of what it spells. -/
structure Canonical (p : List UInt16) : Prop where
  deltas : digitsOf p ≠ []
  delimiter : lastDelimiter p ≠ 4
  complete : (deltasOf p).2 = true
  noMark : (spelled p).head? ≠ some 0xfeff

/-- A label with the prefix, in ASCII and without capital letters. -/
structure AceLabel (p : List UInt16) : Prop where
  ace : acePrefix <+: p
  ascii : ∀ c ∈ p, c < 0x80
  lower : ∀ c ∈ p, ¬(0x41 ≤ c ∧ c ≤ 0x5a)
  length_le : p.length ≤ 63

theorem exists_last {l : List UInt16} (h : (0x2d : UInt16) ∈ l) :
    ∃ l' ext, l = l' ++ 0x2d :: ext ∧ ∀ c ∈ ext, c ≠ 0x2d := by
  induction l with
  | nil => cases h
  | cons c l ih =>
    by_cases hl : (0x2d : UInt16) ∈ l
    · obtain ⟨l', ext, hsplit, hext⟩ := ih hl
      exact ⟨c :: l', ext, by rw [hsplit]; rfl, hext⟩
    · have hc : 0x2d = c := (mem_cons.mp h).resolve_right hl
      refine ⟨[], l, by rw [hc]; rfl, ?_⟩
      intro c' hc' heq
      exact hl (heq ▸ hc')

variable {p : List UInt16}

/-- The parts of a label. -/
theorem AceLabel.split (h : AceLabel p) :
    (lastDelimiter p = 3 ∧ basicOf p = [] ∧ p = acePrefix ++ p.drop (lastDelimiter p + 1)) ∨
      (lastDelimiter p = 4 + (basicOf p).length ∧
        p = acePrefix ++ (basicOf p ++ 0x2d :: p.drop (lastDelimiter p + 1))) := by
  obtain ⟨r, hr⟩ := h.ace
  have hmem : (0x2d : UInt16) ∈ p := hr ▸ mem_append_left _ (by decide)
  obtain ⟨l, ext, hsplit, hext⟩ := exists_last hmem
  have hpos : lastDelimiter p = l.length := by
    rw [hsplit]
    exact lastDelimiter_append hext
  have hdrop : p.drop (lastDelimiter p + 1) = ext := by
    rw [hpos, hsplit]
    exact drop_length_add_append 1
  have hstart : l ++ 0x2d :: ext = 0x78 :: 0x6e :: 0x2d :: 0x2d :: r := hsplit ▸ hr.symm
  rw [hdrop]
  match l with
  | [] =>
    have hbad := (List.cons.inj hstart).1
    exact absurd hbad (by decide)
  | [_] =>
    have hbad := (List.cons.inj (List.cons.inj hstart).2).1
    exact absurd hbad (by decide)
  | [_, _] =>
    have hbad := (List.cons.inj (List.cons.inj (List.cons.inj hstart).2).2).2
    exact absurd rfl (hext 0x2d (hbad ▸ mem_cons_self))
  | [_, _, _] =>
    have hext' : ext = r :=
      (List.cons.inj (List.cons.inj (List.cons.inj (List.cons.inj hstart).2).2).2).2
    left
    refine ⟨hpos, ?_, hext' ▸ hr.symm⟩
    unfold basicOf
    rw [hpos]
    rfl
  | _ :: _ :: _ :: _ :: b =>
    have hrest : b ++ 0x2d :: ext = r :=
      (List.cons.inj (List.cons.inj (List.cons.inj (List.cons.inj hstart).2).2).2).2
    have hbasic : basicOf p = b := by
      unfold basicOf
      rw [hpos, ← hr, ← hrest]
      show (b ++ 0x2d :: ext).take (b.length + 4 - 4) = b
      simp
    right
    rw [hbasic]
    refine ⟨?_, by rw [hrest]; exact hr.symm⟩
    rw [hpos, Nat.add_comm]
    rfl

theorem AceLabel.basic_lt (h : AceLabel p) : ∀ u ∈ basicOf p, u < 0x80 :=
  fun u hu => h.ascii u (mem_of_mem_drop (mem_of_mem_take hu))

theorem AceLabel.length_eq (h : AceLabel p) :
    4 + (basicOf p).length + (digitsOf p).length ≤ p.length := by
  have hdigits : (digitsOf p).length = (p.drop (lastDelimiter p + 1)).length := length_map _
  rcases h.split with ⟨_, hbasic, hp⟩ | ⟨_, hp⟩
  · have hlength := congrArg List.length hp
    rw [length_append] at hlength
    change p.length = 4 + _ at hlength
    rw [hbasic, hdigits]
    show 4 + 0 + _ ≤ _
    omega
  · have hlength := congrArg List.length hp
    rw [length_append, length_append, length_cons] at hlength
    change p.length = 4 + _ at hlength
    omega

theorem exists_codes {l : List ℕ} (h : ∀ c ∈ l, Scalar c) : ∃ cs, codes cs = l := by
  induction l with
  | nil => exact ⟨[], rfl⟩
  | cons n l ih =>
    obtain ⟨hsurrogate, hlt⟩ := h n mem_cons_self
    obtain ⟨c, hc⟩ := exists_char hsurrogate hlt
    obtain ⟨cs, hcs⟩ := ih fun c hc => h c (mem_cons_of_mem _ hc)
    exact ⟨c :: cs, by rw [← hc, ← hcs]; rfl⟩

/-- What the decoder returns for a label it accepts. -/
theorem AceLabel.decoded (h : AceLabel p)
    (hne : (qt_punycodeDecoder p).value ≠ []) : ∃ cs, codes cs = spelled p ∧
      (qt_punycodeDecoder p).value = utf16 (withoutByteOrderMark cs) ∧
      p.drop (lastDelimiter p + 1) = (digitsOf p).map digitUnit ∧ ∀ d ∈ digitsOf p, d < 36 := by
  have hmax : ¬p.length > MaxDomainLabelLength := Nat.not_lt.mpr h.length_le
  have hstart : ¬(!acePrefix.isPrefixOf p) = true := by
    rw [Bool.not_eq_true', Bool.not_eq_false, isPrefixOf_iff_prefix]
    exact h.ace
  have hbasic : (if lastDelimiter p < 4 then []
      else toStdU32String ((p.drop 4).take (lastDelimiter p - 4))) =
      ((basicOf p).map UInt16.toNat).map ofNat := by
    rw [← map_toUInt32, ← toUcs4_ascii QChar.ReplacementCharacter.toUInt32 h.basic_lt]
    unfold basicOf
    by_cases hlt : lastDelimiter p < 4
    · rw [if_pos hlt, Nat.sub_eq_zero_of_le (Nat.le_of_lt hlt)]
      rfl
    · rw [if_neg hlt]
      rfl
  have hlength := h.length_eq
  have hmaxlen := h.length_le
  unfold qt_punycodeDecoder at hne ⊢
  rw [if_neg hmax, if_neg hstart] at hne ⊢
  simp only [hbasic] at hne ⊢
  rw [Wraps.value_bind] at hne ⊢
  obtain ⟨ds, tail, hrest, hds, htail⟩ := @exists_digits (p.drop (lastDelimiter p + 1))
    fun c hc => ⟨h.ascii c (mem_of_mem_drop hc), h.lower c (mem_of_mem_drop hc)⟩
  rcases htail with htail | ⟨c, l', htail, hbad⟩
  · rw [htail, append_nil] at hrest
    have hdigits : digitsOf p = ds := by
      unfold digitsOf
      rw [hrest, map_map]
      have hid : ∀ d ∈ ds, (decodeDigit (digitUnit d).toUInt32).value.toNat = d := by
        intro d hd
        rw [decodeDigit_digitUnit (hds d hd)]
        exact toNat_ofNat (Nat.lt_trans (hds d hd) (by decide))
      exact (map_congr_left hid).trans (map_id' ds)
    rw [hdigits] at hlength
    rw [hrest, length_map] at hne ⊢
    cases hvalue : (decodeWhile ds.length (ds.map digitUnit) ⟨initial_n, 0, initial_bias,
        ((basicOf p).map UInt16.toNat).map ofNat⟩).value with
    | none =>
      rw [hvalue] at hne
      exact absurd rfl hne
    | some d' =>
      have hbasicScalar : ∀ c ∈ (basicOf p).map UInt16.toNat, Scalar c := by
        intro c hc
        have ⟨u, hu, huc⟩ := mem_map.mp hc
        have hlt : u.toNat < 128 := UInt16.lt_iff_toNat_lt.mp (h.basic_lt u hu)
        rw [← huc]
        exact ⟨.inl (by omega), by omega⟩
      have hparse := @decodeWhile_parse ds.length 72 (start 128 ((basicOf p).map UInt16.toNat)) ds d'
        hds (by decide) (Nat.le_refl 128) (show 128 < 2 ^ 32 by decide) (show 0 < 2 ^ 32 by decide)
        (show ((basicOf p).map UInt16.toNat).length + ds.length < 2 ^ 15 by
          rw [length_map]; omega) (Nat.le_refl _) hbasicScalar hvalue
      have hspelled : ((start 128 ((basicOf p).map UInt16.toNat)).run
          (parse 72 ((start 128 ((basicOf p).map UInt16.toNat)).out.length + 1)
            ((start 128 ((basicOf p).map UInt16.toNat)).i == 0) ds.length ds).1).out = spelled p := by
        unfold spelled deltasOf
        rw [hdigits]
        show ((start 128 ((basicOf p).map UInt16.toNat)).run
          (parse 72 (((basicOf p).map UInt16.toNat).length + 1) true ds.length ds).1).out = _
        rw [length_map]
      rw [hspelled] at hparse
      obtain ⟨cs, hcs⟩ := exists_codes hparse.2
      refine ⟨cs, hcs, ?_, by rw [hdigits], by rw [hdigits]; exact hds⟩
      show fromStdU32String d'.output = _
      rw [hparse.1, ← hcs, ← map_val, fromStdU32String_val]
  · rw [htail] at hrest
    have hnone := @decodeWhile_bad c hbad l' (ds.map digitUnit)
      (p.drop (lastDelimiter p + 1)).length
      (by rw [hrest, length_append, length_cons]; omega) ⟨initial_n, 0, initial_bias,
        ((basicOf p).map UInt16.toNat).map ofNat⟩
    rw [← hrest] at hnone
    rw [hnone] at hne
    exact absurd rfl hne

/-! ## Canonical labels -/

theorem length_parse_le (bias points : ℕ) (first : Bool) (rounds : ℕ) (ds : List ℕ) :
    (parse bias points first rounds ds).1.length ≤ ds.length := by
  induction rounds generalizing bias points first ds with
  | zero => exact zero_le _
  | succ rounds ih =>
    cases ds with
    | nil => exact zero_le _
    | cons d ds =>
      rw [parse]
      generalize hr : read 36 (limit bias) 0 (d :: ds) = r
      obtain ⟨delta, rest⟩ := r
      cases rest with
      | none => exact succ_le_succ (zero_le _)
      | some rest =>
        obtain ⟨d', ds', hsplit⟩ := read_rest hr
        have hle := ih (adaptNat delta points first) (points + 1) false rest
        rw [hsplit]
        show (parse (adaptNat delta points first) (points + 1) false rounds rest).1.length + 1 ≤
          (ds' ++ rest).length + 1
        simp
        omega

theorem length_spelled (p : List UInt16) :
    (spelled p).length ≤ (basicOf p).length + (digitsOf p).length := by
  have hle := length_parse_le 72 ((basicOf p).length + 1) true (digitsOf p).length (digitsOf p)
  unfold spelled deltasOf
  rw [length_run]
  show ((basicOf p).map UInt16.toNat).length + _ ≤ _
  simp
  omega

theorem length_utf16_le (cs : List Char) : (utf16 cs).length ≤ 2 * cs.length := by
  induction cs with
  | nil => exact Nat.le_refl 0
  | cons c cs ih =>
    have hle : (utf16EncodeChar c).length ≤ 2 := by
      unfold utf16EncodeChar
      simp only
      split
      · exact Nat.le_succ 1
      · exact Nat.le_refl 2
    rw [utf16_cons, length_cons, length_append]
    omega

theorem length_utf16_of_basic {cs : List Char} (h : ∀ u ∈ utf16 cs, u < 0x80) :
    (utf16 cs).length = cs.length := by
  induction cs with
  | nil => rfl
  | cons c cs ih =>
    rw [utf16_cons] at h ⊢
    have hrest := ih fun u hu => h u (mem_append_right _ hu)
    rcases Nat.lt_or_ge 0xffff c.val.toNat with hc | hc
    · have ⟨u, v, henc, hu, _, _⟩ := utf16EncodeChar_of_lt hc
      have hlt := h u (mem_append_left _ (henc ▸ mem_cons_self))
      have hlt' : u.toNat < 128 := UInt16.lt_iff_toNat_lt.mp hlt
      unfold High at hu
      omega
    · have ⟨u, henc, _⟩ := utf16EncodeChar_of_le hc
      simp [henc, hrest]

theorem exists_not_basic {cs : List Char} :
    (∃ u ∈ utf16 cs, 0x80 ≤ u) ↔ ∃ c ∈ codes cs, 128 ≤ c := by
  have hle (u : UInt16) : 0x80 ≤ u ↔ 128 ≤ u.toNat := UInt16.le_iff_toNat_le
  induction cs with
  | nil =>
    constructor
    · intro ⟨u, hu, _⟩
      cases hu
    · intro ⟨c, hc, _⟩
      cases hc
  | cons c cs ih =>
    have hcodes : codes (c :: cs) = c.val.toNat :: codes cs := rfl
    have hfirst : (∃ u ∈ utf16EncodeChar c, 0x80 ≤ u) ↔ 128 ≤ c.val.toNat := by
      rcases Nat.lt_or_ge 0xffff c.val.toNat with hc | hc
      · have ⟨u, v, henc, hu, _, _⟩ := utf16EncodeChar_of_lt hc
        unfold High at hu
        rw [henc]
        apply iff_of_true
        · exact ⟨u, mem_cons_self, (hle u).mpr (by omega)⟩
        · omega
      · have ⟨u, henc, hu, _, _⟩ := utf16EncodeChar_of_le hc
        rw [henc, ← hu]
        constructor
        · intro ⟨v, hv, hv'⟩
          rw [mem_singleton.mp hv] at hv'
          exact (hle u).mp hv'
        · intro h
          exact ⟨u, mem_cons_self, (hle u).mpr h⟩
    rw [utf16_cons, hcodes]
    constructor
    · intro ⟨u, hu, hu'⟩
      rcases mem_append.mp hu with hu | hu
      · exact ⟨_, mem_cons_self, hfirst.mp ⟨u, hu, hu'⟩⟩
      · obtain ⟨c', hc', hle'⟩ := ih.mp ⟨u, hu, hu'⟩
        exact ⟨c', mem_cons_of_mem _ hc', hle'⟩
    · intro ⟨c', hc', hle'⟩
      rcases mem_cons.mp hc' with heq | hc'
      · obtain ⟨u, hu, hu'⟩ := hfirst.mpr (heq ▸ hle')
        exact ⟨u, mem_append_left _ hu, hu'⟩
      · obtain ⟨u, hu, hu'⟩ := ih.mpr ⟨c', hc', hle'⟩
        exact ⟨u, mem_append_right _ hu, hu'⟩

theorem spellDigits_ne_nil {bias points : ℕ} {first : Bool} :
    spellDigits bias points first deltas ≠ [] ↔ deltas ≠ [] := by
  cases deltas with
  | nil => exact iff_of_false (fun h => h rfl) (fun h => h rfl)
  | cons delta deltas =>
    apply iff_of_true
    · intro h
      exact digits_ne_nil (limit_pos bias) 0 delta (append_eq_nil_iff.mp h).1
    · exact cons_ne_nil _ _

/-- A canonical label is written again. -/
theorem Canonical.encoded (hcanonical : Canonical p) (h : AceLabel p)
    (hne : (qt_punycodeDecoder p).value ≠ []) :
    qt_punycodeEncoder (qt_punycodeDecoder p).value [] = pure (some p) := by
  obtain ⟨cs, hcs, hvalue, hrest, hdigits⟩ := h.decoded hne
  have hstart := hcanonical.noMark
  have hlength := h.length_eq
  have hmax := h.length_le
  have hspelled := length_spelled p
  rw [← hcs] at hstart hspelled
  rw [hvalue, (codes_withoutByteOrderMark cs).mpr hstart]
  have hcodes : (codes cs).length = cs.length := length_map _
  have hunits := length_utf16_le cs
  -- the digits are those of the deltas
  generalize hd : deltasOf p = r at hcs
  obtain ⟨deltas, complete⟩ := r
  have hcomplete := hcanonical.complete
  rw [hd] at hcomplete
  change complete = true at hcomplete
  rw [hcomplete] at hd
  have hspell : digitsOf p = spellDigits 72 ((basicOf p).length + 1) true deltas :=
    spellDigits_parse hdigits (Nat.le_refl _) hd
  have hdeltas : deltas ≠ [] := spellDigits_ne_nil.1 (hspell ▸ hcanonical.deltas)
  have hout : ((start 128 ((basicOf p).map UInt16.toNat)).run deltas).out = codes cs := by
    rw [hcs]
    unfold spelled
    rw [hd]
  have hskipped := exists_le_of_ne_nil 128 ((basicOf p).map UInt16.toNat) hdeltas
  rw [hout] at hskipped
  have ⟨deltas', hencode, hout'⟩ := @qt_punycodeEncoder_utf16 cs [] (by omega)
    (exists_not_basic.2 hskipped)
  have hbasicLt : ∀ c ∈ (basicOf p).map UInt16.toNat, c < 128 := by
    intro c hc
    have ⟨u, hu, huc⟩ := mem_map.mp hc
    rw [← huc]
    exact UInt16.lt_iff_toNat_lt.mp (h.basic_lt u hu)
  have ⟨hbasic, hsame⟩ := run_injective hbasicLt (fun c hc => lt_of_mem_below hc)
    (hout.trans hout'.symm)
  rw [← basicUnits_utf16] at hbasic
  have hinj : Function.Injective UInt16.toNat := fun _ _ => UInt16.toNat_inj.mp
  rw [hencode, ← map_injective_iff.mpr hinj hbasic, ← hsame, nil_append]
  congr 2
  have hrest' : spellAll 72 ((basicOf p).length + 1) true deltas = p.drop (lastDelimiter p + 1) := by
    rw [spellAll_eq, ← hspell, hrest]
  unfold spelling basicPart
  rw [hrest']
  rcases h.split with ⟨_, hnil, hp⟩ | ⟨hpos, hp⟩
  · rw [if_pos hnil, nil_append]
    exact hp.symm
  · have hnil : basicOf p ≠ [] := by
      intro hnil
      rw [hnil] at hpos
      exact hcanonical.delimiter hpos
    rw [if_neg hnil, append_assoc, singleton_append]
    exact hp.symm

theorem spelling_split (basic : List UInt16) (deltas : List ℕ) :
    lastDelimiter (spelling basic deltas) = (if basic = [] then 3 else 4 + basic.length) ∧
      basicOf (spelling basic deltas) = basic ∧
      (spelling basic deltas).drop (lastDelimiter (spelling basic deltas) + 1) =
        spellAll 72 (basic.length + 1) true deltas := by
  have hext := spellAll_ne 72 (basic.length + 1) true deltas
  unfold spelling basicPart basicOf
  generalize spellAll 72 (basic.length + 1) true deltas = ext at hext ⊢
  by_cases hnil : basic = []
  · have hpos : lastDelimiter (acePrefix ++ ext) = 3 :=
      @lastDelimiter_append [0x78, 0x6e, 0x2d] ext hext
    rw [if_pos hnil, if_pos hnil, nil_append, hpos, hnil]
    exact ⟨rfl, rfl, rfl⟩
  · have hsplit : acePrefix ++ (basic ++ [0x2d] ++ ext) = (acePrefix ++ basic) ++ 0x2d :: ext := by
      simp
    have hlength : (acePrefix ++ basic).length = 4 + basic.length := length_append
    have hpos : lastDelimiter ((acePrefix ++ basic) ++ 0x2d :: ext) = 4 + basic.length := by
      rw [lastDelimiter_append hext, hlength]
    rw [if_neg hnil, if_neg hnil, hsplit, hpos]
    refine ⟨rfl, ?_, ?_⟩
    · show (basic ++ 0x2d :: ext).take (4 + basic.length - 4) = basic
      simp
    · rw [← hlength]
      exact drop_length_add_append 1

theorem digitsOf_spelling (basic : List UInt16) (deltas : List ℕ) :
    digitsOf (spelling basic deltas) = spellDigits 72 (basic.length + 1) true deltas := by
  unfold digitsOf
  rw [(spelling_split basic deltas).2.2, spellAll_eq, map_map]
  have hid : ∀ d ∈ spellDigits 72 (basic.length + 1) true deltas,
      (decodeDigit (digitUnit d).toUInt32).value.toNat = d := by
    intro d hd
    have hlt := spellDigits_lt 72 (basic.length + 1) true deltas d hd
    rw [decodeDigit_digitUnit hlt]
    exact toNat_ofNat (Nat.lt_trans hlt (by decide))
  exact (map_congr_left hid).trans (map_id' _)

theorem deltasOf_spelling (basic : List UInt16) (deltas : List ℕ) :
    deltasOf (spelling basic deltas) = (deltas, true) := by
  unfold deltasOf
  rw [digitsOf_spelling, (spelling_split basic deltas).2.1]
  exact parse_spellDigits (Nat.le_refl _)

theorem spelled_spelling {cs : List Char}
    (hout : ((start 128 (below 128 (codes cs))).run deltas).out = codes cs) :
    spelled (spelling (basicUnits (utf16 cs)) deltas) = codes cs := by
  unfold spelled
  rw [deltasOf_spelling, (spelling_split _ deltas).2.1, basicUnits_utf16]
  exact hout

theorem qt_punycodeEncoder_basic {input : List UInt16} (hlength : input.length ≤ 126)
    (hbasic : ∀ u ∈ input, u < 0x80) : qt_punycodeEncoder input [] = pure (some input) := by
  have hcopied : input.filter (fun c => decide (c < 0x80)) = input :=
    filter_eq_self.mpr fun u hu => decide_eq_true (hbasic u hu)
  have hany : input.any (fun c => !decide (c < 0x80)) = false := by
    rw [← Bool.not_eq_true, any_eq_true]
    intro ⟨u, hu, hu'⟩
    rw [Bool.not_eq_true', decide_eq_false_iff_not] at hu'
    exact hu' (hbasic u hu)
  have hmax : ¬input.length > MaxDomainLabelLength * 2 := Nat.not_lt.mpr hlength
  unfold qt_punycodeEncoder
  simp [hmax, hany, hcopied]

theorem spelling_of_encoded (h : AceLabel p) (hne : (qt_punycodeDecoder p).value ≠ [])
    (hencode : (qt_punycodeEncoder (qt_punycodeDecoder p).value []).value = some p) :
    ∃ (ds : List Char) (deltas : List ℕ), ds.length ≤ 63 ∧
      (qt_punycodeDecoder p).value = utf16 ds ∧ (∃ u ∈ utf16 ds, 0x80 ≤ u) ∧
      p = spelling (basicUnits (utf16 ds)) deltas ∧
      ((start 128 (below 128 (codes ds))).run deltas).out = codes ds := by
  obtain ⟨cs, hcs, hvalue, -, -⟩ := h.decoded hne
  have hlength := h.length_eq
  have hmax := h.length_le
  have hspelled := length_spelled p
  rw [← hcs] at hspelled
  have hcodes : (codes cs).length = cs.length := length_map _
  have htail : (withoutByteOrderMark cs).length ≤ cs.length := by
    cases cs with
    | nil => exact Nat.le_refl 0
    | cons c cs =>
      rw [withoutByteOrderMark]
      split
      · exact Nat.le_succ _
      · exact Nat.le_refl _
  rw [hvalue] at hencode
  generalize withoutByteOrderMark cs = ds at hencode htail hvalue
  have hunits := length_utf16_le ds
  by_cases hskipped : ∃ u ∈ utf16 ds, 0x80 ≤ u
  · obtain ⟨deltas, hencode', hout⟩ := @qt_punycodeEncoder_utf16 ds [] (by omega) hskipped
    rw [hencode', nil_append] at hencode
    have hp : spelling (basicUnits (utf16 ds)) deltas = p := Option.some.inj hencode
    exact ⟨ds, deltas, by omega, hvalue, hskipped, hp.symm, hout⟩
  · -- a text in ASCII is not as long as the label
    exfalso
    have hbasic : ∀ u ∈ utf16 ds, u < 0x80 := by
      intro u hu
      by_contra hle
      exact hskipped ⟨u, hu, UInt16.not_lt.mp hle⟩
    have hlen := length_utf16_of_basic hbasic
    rw [qt_punycodeEncoder_basic (by omega) hbasic] at hencode
    have hp : utf16 ds = p := Option.some.inj hencode
    have hplen := congrArg List.length hp
    omega

theorem canonical_of_encoded (h : AceLabel p) (hne : (qt_punycodeDecoder p).value ≠ [])
    (hencode : (qt_punycodeEncoder (qt_punycodeDecoder p).value []).value = some p) :
    Canonical p := by
  obtain ⟨ds, deltas, hlength, hvalue, hskipped, hp, hout⟩ := spelling_of_encoded h hne hencode
  have hdecode := @qt_punycodeDecoder_spelling ds deltas (by omega) hout (hp ▸ h.length_le)
  rw [← hp] at hdecode
  rw [hdecode] at hvalue
  have hstart := (codes_withoutByteOrderMark ds).mp hvalue
  have hpos := (spelling_split (basicUnits (utf16 ds)) deltas).1
  rw [hp]
  constructor
  · rw [digitsOf_spelling, spellDigits_ne_nil]
    intro hnil
    rw [hnil] at hout
    change below 128 (codes ds) = codes ds at hout
    obtain ⟨c, hc, hle⟩ := exists_not_basic.1 hskipped
    rw [← hout] at hc
    have hlt := lt_of_mem_below hc
    omega
  · rw [hpos]
    split
    · decide
    · rename_i hnil
      have hpositive := length_pos_of_ne_nil hnil
      omega
  · rw [deltasOf_spelling]
  · rw [spelled_spelling hout]
    exact hstart

theorem encoded_iff (h : AceLabel p) (hne : (qt_punycodeDecoder p).value ≠ []) :
    (qt_punycodeEncoder (qt_punycodeDecoder p).value []).value = some p ↔ Canonical p := by
  constructor
  · exact canonical_of_encoded h hne
  · intro hcanonical
    rw [hcanonical.encoded h hne]
    rfl

end Punycode

end QtBase
