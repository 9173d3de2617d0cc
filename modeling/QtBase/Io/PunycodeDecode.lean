import QtBase.Io.PunycodeEncode

/-! What the decoder reads: the deltas of a label that was spelled, which lead back to it. -/
namespace QtBase

open List UInt32

namespace Punycode

open Bootstring Bootstring.Cursor Unicode

/-- No surrogate, and in the range of Unicode. -/
def Scalar (n : ℕ) : Prop := (n < 0xd800 ∨ 0xdfff < n) ∧ n < 0x110000

instance (n : ℕ) : Decidable (Scalar n) := inferInstanceAs (Decidable (_ ∧ _))

/-- The decoder that has arrived at a cursor. -/
def decoderAt (s : Cursor) (bias : ℕ) : Decoder where
  n := .ofNat s.n
  i := .ofNat s.i
  bias := .ofNat bias
  output := s.out.map UInt32.ofNat

variable {s : Cursor} {bias delta : ℕ}

theorem isSurrogate_or_gt_iff {n : ℕ} (h : n < 2 ^ 32) :
    (QChar.isSurrogate (.ofNat n) || decide (ofNat n > QChar.LastValidCodePoint)) = true ↔
      ¬Scalar n := by
  have hlast : ofNat n > QChar.LastValidCodePoint ↔ 0x10ffff < n :=
    ofNat_lt (by decide) h
  rw [Bool.or_eq_true, decide_eq_true_iff, hlast, isSurrogate_iff, toNat_ofNat h]
  unfold Scalar
  omega

theorem insertCodePoint_eq {d : Decoder} {i delta points bias n i' : UInt32}
    (hdelta : uSub i d.i = pure delta)
    (hpoints : uAdd (.ofNat d.output.length) 1 = pure points)
    (hbias : adapt delta points (d.i == 0) = pure bias)
    (hn : qAddOverflow d.n (i / points) = some n) (hn' : ¬n < initial_n)
    (hi : uAdd (i % points) 1 = pure i') :
    insertCodePoint d i =
      if QChar.isSurrogate n || n > QChar.LastValidCodePoint then pure none
      else pure (some ⟨n, i', bias, d.output.insertIdx (i % points).toNat n⟩) := by
  unfold insertCodePoint
  simp only
  rw [hdelta, Wraps.pure_bind, hpoints, Wraps.pure_bind, hbias, Wraps.pure_bind, Wraps.pure_bind, hn]
  simp only
  rw [if_neg hn', hi]
  rfl

theorem insertCodePoint_ofNat (hlength : s.out.length < 2 ^ 31) (hn : 128 ≤ s.n)
    (hn' : s.n < 2 ^ 32) (hi : s.i + delta < 2 ^ 32) :
    insertCodePoint (decoderAt s bias) (.ofNat (s.i + delta)) =
      if Scalar (s.insert delta).n then
        pure (some (decoderAt (s.insert delta) (adaptNat delta (s.out.length + 1) (s.i == 0))))
      else pure none := by
  have hdelta : uSub (ofNat (s.i + delta)) (ofNat s.i) = pure (ofNat delta) := by
    rw [uSub_ofNat hi (Nat.le_add_right _ _), Nat.add_sub_cancel_left]
  have hpoints : uAdd (ofNat (s.out.map ofNat).length) 1 =
      pure (ofNat (s.out.length + 1)) := by
    rw [length_map]
    exact @uAdd_ofNat s.out.length 1 (by omega)
  have hfirst : (ofNat s.i == 0) = (s.i == 0) := by
    rw [Bool.eq_iff_iff, beq_iff_eq, beq_iff_eq]
    exact ofNat_inj (by omega) (by decide)
  have hbias : adapt (.ofNat delta) (.ofNat (s.out.length + 1)) (ofNat s.i == 0) =
      pure (ofNat (adaptNat delta (s.out.length + 1) (s.i == 0))) := by
    rw [hfirst]
    exact adapt_ofNat _ (by omega) (by omega)
  have hdiv := Nat.div_le_self (s.i + delta) (s.out.length + 1)
  have hmod : (s.i + delta) % (s.out.length + 1) < s.out.length + 1 := Nat.mod_lt _ (Nat.succ_pos _)
  have hquot : ofNat (s.i + delta) / ofNat (s.out.length + 1) =
      ofNat ((s.i + delta) / (s.out.length + 1)) := ofNat_div hi (by omega)
  have hrem : ofNat (s.i + delta) % ofNat (s.out.length + 1) =
      ofNat ((s.i + delta) % (s.out.length + 1)) := ofNat_mod hi (by omega)
  have hadd : qAddOverflow (ofNat s.n)
      (ofNat (s.i + delta) / ofNat (s.out.length + 1)) =
      if (s.insert delta).n < 2 ^ 32 then some (ofNat (s.insert delta).n) else none := by
    rw [hquot]
    exact qAddOverflow_ofNat hn' (by omega)
  by_cases hlt : (s.insert delta).n < 2 ^ 32
  · have hinit : ¬ofNat (s.insert delta).n < initial_n := by
      show ¬ofNat _ < ofNat 128
      have hle := n_le_insert s delta
      rw [ofNat_lt hlt (by decide)]
      omega
    have hnext : uAdd (ofNat (s.i + delta) % ofNat (s.out.length + 1)) 1 =
        pure (ofNat ((s.i + delta) % (s.out.length + 1) + 1)) := by
      rw [hrem]
      exact @uAdd_ofNat ((s.i + delta) % (s.out.length + 1)) 1 (by omega)
    rw [if_pos hlt] at hadd
    have hinsert := @insertCodePoint_eq (decoderAt s bias) _ _ _ _ _ _ hdelta hpoints hbias hadd
      hinit hnext
    rw [hinsert]
    by_cases hscalar : Scalar (s.insert delta).n
    · rw [if_neg (fun h => (isSurrogate_or_gt_iff hlt).mp h hscalar), if_pos hscalar, hrem,
        toNat_ofNat (by omega)]
      unfold decoderAt
      rw [← map_insertIdx]
      rfl
    · rw [if_pos ((isSurrogate_or_gt_iff hlt).mpr hscalar), if_neg hscalar]
  · have hscalar : ¬Scalar (s.insert delta).n := by
      intro h
      exact hlt (Nat.lt_trans h.2 (by decide))
    rw [if_neg hlt] at hadd
    rw [if_neg hscalar]
    unfold insertCodePoint
    unfold decoderAt
    dsimp only
    rw [hdelta, Wraps.pure_bind, hpoints, Wraps.pure_bind, hbias, Wraps.pure_bind, Wraps.pure_bind,
      hadd]

theorem spell_ne_nil (bias delta : ℕ) : spell bias delta ≠ [] := by
  unfold spell
  intro h
  exact digits_ne_nil (limit_pos bias) 0 delta (map_eq_nil_iff.mp h)

theorem decodeWhile_eq {rounds : ℕ} {c : UInt16} {pc rest : List UInt16} {d d' : Decoder}
    {i : UInt32} (hread : readDelta d.bias (c :: pc) base 1 d.i = pure (some (i, rest)))
    (hinsert : insertCodePoint d i = pure (some d')) :
    decodeWhile (rounds + 1) (c :: pc) d = decodeWhile rounds rest d' := by
  rw [decodeWhile, hread, Wraps.pure_bind]
  simp only
  rw [hinsert, Wraps.pure_bind]

theorem decodeWhile_spellAll {rounds : ℕ} {deltas : List ℕ} (hbias : bias < 180) (hn : 128 ≤ s.n)
    (hrounds : (spellAll bias (s.out.length + 1) (s.i == 0) deltas).length ≤ rounds)
    (hlength : (s.run deltas).out.length ≤ 126) (hs : s.n < 0x110000)
    (hscalar : ∀ c ∈ (s.run deltas).out, Scalar c) : ∃ bias',
    decodeWhile rounds (spellAll bias (s.out.length + 1) (s.i == 0) deltas) (decoderAt s bias) =
      pure (some (decoderAt (s.run deltas) bias')) := by
  induction deltas generalizing rounds s bias with
  | nil =>
    refine ⟨bias, ?_⟩
    cases rounds with
    | zero => rfl
    | succ rounds => rfl
  | cons delta deltas ih =>
    rw [run_cons] at hlength hscalar ⊢
    have hlen := length_run (s.insert delta) deltas
    rw [length_insert] at hlen
    have hn' := hscalar _ (mem_run (n_mem_insert s delta) deltas)
    -- the place is in a list that is not longer than a label
    have hsum : s.i + delta ≤ 150000000 := by
      have hlt : (s.i + delta) / (s.out.length + 1) < 0x110000 :=
        Nat.lt_of_le_of_lt (Nat.le_add_left _ s.n) hn'.2
      rw [Nat.div_lt_iff_lt_mul (Nat.succ_pos _)] at hlt
      have hmul : 0x110000 * (s.out.length + 1) ≤ 0x110000 * 126 :=
        Nat.mul_le_mul_left _ (by omega)
      omega
    have hread := readDelta_spell hbias hsum
      (spellAll (adaptNat delta (s.out.length + 1) (s.i == 0)) (s.out.length + 1 + 1) false deltas)
    have hinsert := @insertCodePoint_ofNat s bias delta (by omega) hn (by omega) (by omega)
    rw [if_pos hn'] at hinsert
    have hbias' := @adaptNat_le delta 4 (s.out.length + 1) (s.i == 0) (by omega) (by omega)
    rw [spellAll] at hrounds ⊢
    have hne := spell_ne_nil bias delta
    rw [length_append] at hrounds
    cases hspell : spell bias delta with
    | nil => exact absurd hspell hne
    | cons u us =>
      rw [hspell, length_cons] at hrounds
      rw [hspell, cons_append] at hread
      cases rounds with
      | zero => omega
      | succ rounds =>
        have hi : ((s.insert delta).i == 0) = false := rfl
        obtain ⟨bias', hrest⟩ := @ih (s.insert delta)
          (adaptNat delta (s.out.length + 1) (s.i == 0)) rounds (by omega)
          (Nat.le_trans hn (n_le_insert s delta))
          (by rw [length_insert, hi]; omega) hlength hn'.2 hscalar
        rw [length_insert, hi] at hrest
        rw [cons_append, @decodeWhile_eq _ _ _ _ (decoderAt s bias) _ _ hread hinsert]
        exact ⟨bias', hrest⟩

/-! ## The whole label -/

theorem lastDelimiter_append {l ext : List UInt16} (h : ∀ c ∈ ext, c ≠ 0x2d) :
    lastDelimiter (l ++ 0x2d :: ext) = l.length := by
  have hnot : ext.reverse.findIdx (fun c => c == 0x2d) = ext.length := by
    rw [← length_reverse]
    apply findIdx_eq_length.mpr
    intro c hc
    rw [beq_eq_false_iff_ne]
    exact h c (mem_reverse.mp hc)
  have hat : (ext.reverse ++ 0x2d :: l.reverse).findIdx (fun c => c == 0x2d) = ext.length := by
    rw [findIdx_append, hnot, if_neg (by rw [length_reverse]; omega), findIdx_cons,
      length_reverse]
    exact Nat.zero_add _
  unfold lastDelimiter
  simp [hat]

theorem toUcs4_ascii (invalidAs : UInt32) {l : List UInt16} (h : ∀ u ∈ l, u < 0x80) :
    toUcs4 invalidAs l = l.map UInt16.toUInt32 := by
  have hnot (u : UInt16) (hu : u < 0x80) : ¬QChar.isSurrogate u.toUInt32 = true := by
    have hlt : u.toNat < 128 := UInt16.lt_iff_toNat_lt.mp hu
    rw [isSurrogate_iff, UInt16.toNat_toUInt32]
    omega
  induction l with
  | nil => rfl
  | cons u l ih =>
    have hu := hnot u (h u mem_cons_self)
    have hrest := ih fun v hv => h v (mem_cons_of_mem _ hv)
    cases l with
    | nil => rw [toUcs4, if_neg hu, map_cons, map_nil]
    | cons v l =>
      rw [toUcs4, if_neg hu, hrest]
      rfl

theorem map_toUInt32 (l : List UInt16) :
    l.map UInt16.toUInt32 = (l.map UInt16.toNat).map UInt32.ofNat := by
  rw [map_map]
  apply map_congr_left
  intro u _
  apply UInt32.toNat_inj.mp
  show u.toUInt32.toNat = (UInt32.ofNat u.toNat).toNat
  rw [toNat_ofNat (Nat.lt_trans u.toNat_lt (by decide)), UInt16.toNat_toUInt32]

theorem qt_punycodeDecoder_eq {basic ext : List UInt16} {s : Decoder}
    (hbasic : ∀ u ∈ basic, u < 0x80) (hext : ∀ c ∈ ext, c ≠ 0x2d)
    (hlength : (acePrefix ++ (basicPart basic ++ ext)).length ≤ 63)
    (hwhile : decodeWhile ext.length ext
      ⟨initial_n, 0, initial_bias, (basic.map UInt16.toNat).map ofNat⟩ = pure (some s)) :
    qt_punycodeDecoder (acePrefix ++ (basicPart basic ++ ext)) = pure (fromStdU32String s.output) := by
  have hmax : ¬(acePrefix ++ (basicPart basic ++ ext)).length > MaxDomainLabelLength :=
    Nat.not_lt.mpr hlength
  have hstart : ¬(!acePrefix.isPrefixOf (acePrefix ++ (basicPart basic ++ ext))) = true := by
    simp
  unfold qt_punycodeDecoder
  rw [if_neg hmax, if_neg hstart]
  unfold basicPart
  by_cases hnil : basic = []
  · have hpos : lastDelimiter (acePrefix ++ ext) = 3 :=
      lastDelimiter_append (l := [0x78, 0x6e, 0x2d]) hext
    rw [if_pos hnil, nil_append, hpos]
    rw [hnil] at hwhile
    show (decodeWhile ext.length ext ⟨initial_n, 0, initial_bias, []⟩ >>= _) = _
    rw [show (⟨initial_n, 0, initial_bias, []⟩ : Decoder) = ⟨initial_n, 0, initial_bias,
      (([] : List UInt16).map UInt16.toNat).map ofNat⟩ from rfl, hwhile]
    rfl
  · have hpos : lastDelimiter (acePrefix ++ (basic ++ [0x2d] ++ ext)) = (acePrefix ++ basic).length := by
      rw [append_assoc, singleton_append, ← append_assoc]
      exact lastDelimiter_append hext
    have hlen : (acePrefix ++ basic).length = 4 + basic.length := by
      rw [length_append]
      rfl
    have hdrop : (acePrefix ++ (basic ++ [0x2d] ++ ext)).drop (4 + basic.length + 1) = ext := by
      rw [← append_assoc, ← append_assoc]
      apply drop_left'
      rw [length_append, hlen]
      rfl
    have htake : ((acePrefix ++ (basic ++ [0x2d] ++ ext)).drop 4).take (4 + basic.length - 4) =
        basic := by
      show (basic ++ [0x2d] ++ ext).take (4 + basic.length - 4) = basic
      rw [append_assoc]
      apply take_left'
      omega
    have hge : ¬4 + basic.length < 4 := by omega
    rw [if_neg hnil, hpos, hlen]
    simp only [if_neg hge, htake, hdrop]
    unfold toStdU32String
    rw [toUcs4_ascii _ hbasic, map_toUInt32, hwhile]
    rfl

theorem digitUnit_ne {units : List UInt16} (h : ∃ ds : List ℕ, units = ds.map digitUnit ∧
    ∀ d ∈ ds, d < 36) : ∀ c ∈ units, c ≠ 0x2d := by
  obtain ⟨ds, hds, hlt⟩ := h
  intro c hc
  rw [hds] at hc
  have ⟨d, hd, hdc⟩ := mem_map.mp hc
  rw [← hdc]
  exact digitUnit_ne_delimiter (hlt d hd)

theorem spellAll_ne (bias points : ℕ) (first : Bool) (deltas : List ℕ) :
    ∀ c ∈ spellAll bias points first deltas, c ≠ 0x2d := by
  induction deltas generalizing bias points first with
  | nil => exact fun c hc => absurd hc not_mem_nil
  | cons delta deltas ih =>
    intro c hc
    rcases mem_append.mp hc with hc | hc
    · exact digitUnit_ne ⟨_, rfl, digits_lt (limit_pos bias) 0 delta⟩ c hc
    · exact ih _ _ _ c hc

theorem scalar_codes (cs : List Char) : ∀ c ∈ codes cs, Scalar c := by
  intro c hc
  have ⟨x, _, hx⟩ := mem_map.mp hc
  rw [← hx]
  exact ⟨not_surrogate x, val_lt x⟩

theorem basicUnits_lt (label : List UInt16) : ∀ u ∈ basicUnits label, u < 0x80 :=
  fun _ hu => of_decide_eq_true (mem_filter.mp hu).2

theorem qt_punycodeDecoder_spelling {cs : List Char} {deltas : List ℕ} (hcs : cs.length ≤ 126)
    (hout : ((start 128 (below 128 (codes cs))).run deltas).out = codes cs)
    (hlength : (spelling (basicUnits (utf16 cs)) deltas).length ≤ 63) :
    qt_punycodeDecoder (spelling (basicUnits (utf16 cs)) deltas) =
      pure (utf16 (withoutByteOrderMark cs)) := by
  have hbasic := basicUnits_utf16 cs
  have hcount := congrArg List.length hbasic
  rw [length_map] at hcount
  have ⟨bias', hwhile⟩ := @decodeWhile_spellAll (start 128 (below 128 (codes cs))) 72
    (spellAll 72 ((basicUnits (utf16 cs)).length + 1) true deltas).length deltas (by decide)
    (Nat.le_refl 128) (by rw [hcount]; exact Nat.le_refl _)
    (by rw [hout]; exact Nat.le_trans (Nat.le_of_eq (length_map _)) hcs)
    (show 128 < 0x110000 by decide)
    (by rw [hout]; exact scalar_codes cs)
  have hstart : decoderAt (start 128 (below 128 (codes cs))) 72 = ⟨initial_n, 0, initial_bias,
      ((basicUnits (utf16 cs)).map UInt16.toNat).map ofNat⟩ := by
    rw [hbasic]
    rfl
  rw [hstart] at hwhile
  change decodeWhile _ (spellAll 72 ((below 128 (codes cs)).length + 1) true deltas) _ = _ at hwhile
  rw [← hcount] at hwhile
  have hdecode := qt_punycodeDecoder_eq (basicUnits_lt (utf16 cs)) (spellAll_ne _ _ _ deltas)
    hlength hwhile
  unfold spelling
  rw [hdecode]
  show pure (fromStdU32String (((start 128 (below 128 (codes cs))).run deltas).out.map _)) = _
  rw [hout, ← map_val, fromStdU32String_val]

theorem codes_withoutByteOrderMark (cs : List Char) :
    utf16 (withoutByteOrderMark cs) = utf16 cs ↔ (codes cs).head? ≠ some 0xfeff := by
  cases cs with
  | nil => exact iff_of_true rfl (fun h => by cases h)
  | cons c cs =>
    have hmark : c.val = QChar.ByteOrderMark ↔ c.val.toNat = 0xfeff := UInt32.toNat_inj.symm
    have hhead : (codes (c :: cs)).head? = some c.val.toNat := rfl
    rw [withoutByteOrderMark, hhead, Ne, Option.some.injEq, ← hmark]
    by_cases hc : c.val = QChar.ByteOrderMark
    · have henc : utf16EncodeChar c = [0xfeff] := by
        rw [← fromUcs4_val, hc]
        rfl
      rw [if_pos hc, utf16_cons, henc, singleton_append]
      constructor
      · intro h
        have hlength := congrArg List.length h
        rw [length_cons] at hlength
        omega
      · intro h
        exact absurd hc h
    · rw [if_neg hc]
      exact iff_of_true rfl hc

theorem head_utf16 (cs : List Char) :
    (utf16 cs).head? = some 0xfeff ↔ (codes cs).head? = some 0xfeff := by
  cases cs with
  | nil => exact iff_of_false (fun h => by cases h) (fun h => by cases h)
  | cons c cs =>
    have hhead : (codes (c :: cs)).head? = some c.val.toNat := rfl
    rw [hhead, Option.some.injEq, utf16_cons]
    rcases Nat.lt_or_ge 0xffff c.val.toNat with hlt | hle
    · have ⟨u, v, henc, hu, _, _⟩ := utf16EncodeChar_of_lt hlt
      rw [henc]
      apply iff_of_false
      · intro h
        have hu' : u = 0xfeff := Option.some.inj h
        rw [hu'] at hu
        exact absurd hu (by decide)
      · omega
    · have ⟨u, henc, hu, _, _⟩ := utf16EncodeChar_of_le hle
      rw [henc, ← hu]
      show some u = some 0xfeff ↔ _
      rw [Option.some.injEq, ← UInt16.toNat_inj]
      rfl

/-- A label that is not ASCII only is encoded, and it comes back unless it starts with a byte order
mark. -/
theorem qt_punycode_roundTrip_iff {label : List UInt16} (hlength : label.length ≤ 126)
    (hpaired : Paired label) (hskipped : ∃ u ∈ label, 0x80 ≤ u) : ∃ ace,
    (qt_punycodeEncoder label []).value = some ace ∧
      (qt_punycodeEncoder label []).wrapped = false ∧
      (ace.length ≤ 63 → (qt_punycodeDecoder ace).wrapped = false ∧
        ((qt_punycodeDecoder ace).value = label ↔ label.head? ≠ some 0xfeff)) := by
  obtain ⟨cs, hcs⟩ := hpaired.exists_utf16
  rw [hcs] at hlength hskipped ⊢
  have ⟨deltas, hencode, hout⟩ := qt_punycodeEncoder_utf16 [] hlength hskipped
  refine ⟨_, congrArg Wraps.value hencode, congrArg Wraps.wrapped hencode, ?_⟩
  intro hace
  have hdecode := qt_punycodeDecoder_spelling (Nat.le_trans (length_le_utf16 cs) hlength) hout hace
  rw [nil_append, hdecode]
  exact ⟨rfl, (codes_withoutByteOrderMark cs).trans (head_utf16 cs).not.symm⟩

theorem paired_bmp {u v : UInt16} (hu : ¬High u) (hu' : ¬Low u) (hv : ¬High v) (hv' : ¬Low v) :
    Paired [u, v] := by
  rw [Paired, if_neg hu]
  exact ⟨hu', hv, hv'⟩

/-- A letter with an accent. -/
theorem qt_punycode_roundTrip_iff_accent : ∃ ace,
    (qt_punycodeEncoder [0x62, 0xfc] []).value = some ace ∧
      (qt_punycodeEncoder [0x62, 0xfc] []).wrapped = false ∧
      (ace.length ≤ 63 → (qt_punycodeDecoder ace).wrapped = false ∧
        ((qt_punycodeDecoder ace).value = [0x62, 0xfc] ↔
          [0x62, 0xfc].head? ≠ some (0xfeff : UInt16))) :=
  qt_punycode_roundTrip_iff (by decide)
    (paired_bmp (by decide) (by decide) (by decide) (by decide)) ⟨0xfc, by decide, by decide⟩

/-- A byte order mark in front of an accent is lost. -/
theorem qt_punycode_byteOrderMark : Paired [0xfeff, 0xfc] ∧
    (qt_punycodeEncoder [0xfeff, 0xfc] []).value =
      some [0x78, 0x6e, 0x2d, 0x2d, 0x74, 0x64, 0x61, 0x37, 0x36, 0x31, 0x31, 0x6b] ∧
    (qt_punycodeDecoder [0x78, 0x6e, 0x2d, 0x2d, 0x74, 0x64, 0x61, 0x37, 0x36, 0x31, 0x31,
      0x6b]).value = [0xfc] :=
  ⟨paired_bmp (by decide) (by decide) (by decide) (by decide), by decide +kernel, by decide +kernel⟩

end Punycode

end QtBase
