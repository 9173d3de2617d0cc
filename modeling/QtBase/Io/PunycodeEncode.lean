import QtBase.Io.PunycodeNumbers

/-! What the encoder writes: the deltas that lead to the label when they are inserted one after the
other. -/
namespace QtBase

open List UInt32

namespace Punycode

open Bootstring Bootstring.Cursor Unicode

/-! ## Deltas and biases -/

def spellAll (bias points : ℕ) (first : Bool) : List ℕ → List UInt16
  | [] => []
  | delta :: deltas =>
    spell bias delta ++ spellAll (adaptNat delta points first) (points + 1) false deltas

/-- The bias behind the deltas. -/
def biasAfter (bias points : ℕ) (first : Bool) : List ℕ → ℕ
  | [] => bias
  | delta :: deltas => biasAfter (adaptNat delta points first) (points + 1) false deltas

theorem spellAll_concat (bias points : ℕ) (first : Bool) (deltas : List ℕ) (delta : ℕ) :
    spellAll bias points first (deltas ++ [delta]) =
      spellAll bias points first deltas ++ spell (biasAfter bias points first deltas) delta := by
  induction deltas generalizing bias points first with
  | nil => exact append_nil _
  | cons d deltas ih =>
    rw [cons_append, spellAll, ih, spellAll, biasAfter, append_assoc]

theorem biasAfter_concat (bias points : ℕ) (first : Bool) (deltas : List ℕ) (delta : ℕ) :
    biasAfter bias points first (deltas ++ [delta]) =
      adaptNat delta (points + deltas.length) (first && deltas.isEmpty) := by
  induction deltas generalizing bias points first with
  | nil =>
    rw [isEmpty_nil, Bool.and_true]
    rfl
  | cons d deltas ih =>
    rw [cons_append, biasAfter, ih, isEmpty_cons, Bool.and_false, Bool.false_and,
      length_cons, Nat.add_assoc, Nat.add_comm 1]

theorem biasAfter_lt {points : ℕ} {first : Bool} {deltas : List ℕ}
    (h : ∀ d ∈ deltas, d ≤ 150000000) : biasAfter 72 points first deltas < 180 := by
  rcases eq_nil_or_concat deltas with hnil | ⟨ds, d, hds⟩
  · rw [hnil]
    show 72 < 180
    decide
  · rw [concat_eq_append] at hds
    have hd := h d (hds ▸ mem_append_right _ mem_cons_self)
    have hle := @adaptNat_le d 4 (points + ds.length) (first && ds.isEmpty) (by omega) (by omega)
    rw [hds, biasAfter_concat]
    omega

/-! ## The lowest value -/

theorem lowest_fold {n : ℕ} (hn : n < 2 ^ 32) (l : List ℕ) (hl : ∀ c ∈ l, c < 2 ^ 32) {a : ℕ}
    (ha : a < 2 ^ 32) : ∃ m, (l.map ofNat).foldl
        (fun m c => if c ≥ ofNat n ∧ c < m then c else m) (.ofNat a) = ofNat m ∧
      m ≤ a ∧ (m = a ∨ m ∈ l ∧ n ≤ m) ∧ ∀ c ∈ l, n ≤ c → m ≤ c := by
  induction l generalizing a with
  | nil => exact ⟨a, rfl, Nat.le_refl a, .inl rfl, fun c hc => absurd hc not_mem_nil⟩
  | cons c l ih =>
    have hc := hl c mem_cons_self
    have hl' : ∀ c ∈ l, c < 2 ^ 32 := fun c hc => hl c (mem_cons_of_mem _ hc)
    rw [map_cons, foldl_cons]
    simp only [ge_iff_le, ofNat_le hn hc, ofNat_lt hc ha]
    by_cases h : n ≤ c ∧ c < a
    · rw [if_pos h]
      have ⟨m, hfold, hle, hmem, hleast⟩ := ih hl' hc
      refine ⟨m, hfold, by omega, .inr ?_, ?_⟩
      · rcases hmem with hm | ⟨hm, hm'⟩
        · exact ⟨hm ▸ mem_cons_self, hm ▸ h.1⟩
        · exact ⟨mem_cons_of_mem _ hm, hm'⟩
      · intro c' hc' hn'
        rcases mem_cons.mp hc' with heq | hc'
        · exact heq ▸ hle
        · exact hleast c' hc' hn'
    · rw [if_neg h]
      have ⟨m, hfold, hle, hmem, hleast⟩ := ih hl' ha
      refine ⟨m, hfold, hle, ?_, ?_⟩
      · rcases hmem with hm | ⟨hm, hm'⟩
        · exact .inl hm
        · exact .inr ⟨mem_cons_of_mem _ hm, hm'⟩
      · intro c' hc' hn'
        rcases mem_cons.mp hc' with heq | hc'
        · omega
        · exact hleast c' hc' hn'

theorem lowest_ofNat {n : ℕ} (hn : n < 2 ^ 32) {l : List ℕ} (hl : ∀ c ∈ l, c < 0xffffffff)
    (hex : ∃ c ∈ l, n ≤ c) : ∃ m, lowest (l.map ofNat) (.ofNat n) = ofNat m ∧
      m ∈ l ∧ n ≤ m ∧ ∀ c ∈ l, n ≤ c → m ≤ c := by
  have ⟨m, hfold, _, hmem, hleast⟩ := @lowest_fold n hn l
    (fun c hc => Nat.lt_succ_of_lt (hl c hc)) 0xffffffff (by decide)
  obtain ⟨c, hc, hnc⟩ := hex
  have hle := hleast c hc hnc
  have hlt := hl c hc
  rcases hmem with hm | ⟨hm, hm'⟩
  · omega
  · exact ⟨m, hfold, hm, hm', hleast⟩

/-! ## The loops -/

/-- The encoder when it has spelled some deltas. -/
def encoderAt (basic : List ℕ) (work : List UInt16) (deltas : List ℕ) (n delta : ℕ) : Encoder where
  n := .ofNat n
  delta := .ofNat delta
  bias := .ofNat (biasAfter 72 (basic.length + 1) true deltas)
  h := .ofNat (basic.length + deltas.length)
  output := work ++ spellAll 72 (basic.length + 1) true deltas

variable {basic : List ℕ} {work : List UInt16} {deltas pre suf l : List ℕ} {m n c delta : ℕ}

/-- The numbers stay small for all labels. -/
structure Small (l deltas : List ℕ) : Prop where
  length_le : l.length ≤ 126
  code_lt : ∀ c ∈ l, c < 0x110000
  delta_le : ∀ d ∈ deltas, d ≤ 150000000

theorem delta_small (hsmall : Small (pre ++ suf) deltas) {s : Cursor} (h : Within pre suf m s delta)
    (hm : m < 0x110000) : delta ≤ 141492224 := by
  have hle := h.delta_le
  have hlength := hsmall.length_le
  have hmul : (m + 1) * ((pre ++ suf).length + 1) ≤ 0x110000 * 127 :=
    Nat.mul_le_mul (by omega) (by omega)
  omega

theorem encodeStep_of_lt {b c delta : UInt32} {s : Encoder} (hlt : c < s.n)
    (hadd : qAddOverflow s.delta 1 = some delta) :
    encodeStep b s c = pure (some { s with delta := delta }) := by
  unfold encodeStep
  rw [if_pos hlt, hadd]
  simp only [if_neg (UInt32.ne_of_lt hlt)]

theorem encodeStep_of_gt {b c : UInt32} {s : Encoder} (hgt : s.n < c) :
    encodeStep b s c = pure (some s) := by
  unfold encodeStep
  rw [if_neg (UInt32.lt_asymm hgt)]
  simp only [if_neg (UInt32.ne_of_lt hgt).symm]

theorem encodeStep_of_eq {b points bias : UInt32} {s : Encoder} {output : List UInt16}
    (houtput : appendEncode s.output s.delta s.bias = pure output)
    (hpoints : uAdd s.h 1 = pure points) (hbias : adapt s.delta points (s.h == b) = pure bias) :
    encodeStep b s s.n =
      pure (some { s with delta := 0, bias := bias, h := points, output := output }) := by
  unfold encodeStep
  rw [if_neg (UInt32.lt_irrefl s.n)]
  simp only [if_true]
  rw [houtput, Wraps.pure_bind, hpoints, Wraps.pure_bind, hbias, Wraps.pure_bind, Wraps.pure_bind]

theorem encodeStep_ofNat (hsmall : Small (pre ++ c :: suf) deltas) (hm : m < 0x110000)
    (h : Within pre (c :: suf) m ((start 128 basic).run deltas) delta) : ∃ deltas' delta',
    encodeStep (.ofNat basic.length) (encoderAt basic work deltas m delta) (.ofNat c) =
        pure (some (encoderAt basic work deltas' m delta')) ∧
      Small (pre ++ c :: suf) deltas' ∧
      Within (pre ++ [c]) suf m ((start 128 basic).run deltas') delta' := by
  have hc := hsmall.code_lt c (mem_append_right _ mem_cons_self)
  have hdelta := delta_small hsmall h hm
  rcases Nat.lt_trichotomy c m with hlt | heq | hgt
  · have hadd : qAddOverflow (ofNat delta) 1 = some (ofNat (delta + 1)) :=
      (@qAddOverflow_ofNat delta 1 (by omega) (by decide)).trans (if_pos (by omega))
    have hlt' := (@ofNat_lt c m (by omega) (by omega)).mpr hlt
    have hstep := @encodeStep_of_lt (.ofNat basic.length) _ _
      (encoderAt basic work deltas m delta) hlt' hadd
    exact ⟨deltas, delta + 1, hstep, hsmall, h.of_lt hlt⟩
  · have hlength := hsmall.length_le
    have hout : ((start 128 basic).run deltas).out.length ≤ 126 := by
      apply Nat.le_trans _ hlength
      rw [h.out, length_append, length_append]
      exact Nat.add_le_add (length_filter_le _ _) (length_filter_le _ _)
    rw [length_run] at hout
    change basic.length + deltas.length ≤ 126 at hout
    have hbias := @biasAfter_lt (basic.length + 1) true deltas hsmall.delta_le
    have hpoints : uAdd (ofNat (basic.length + deltas.length)) 1 =
        pure (ofNat (basic.length + deltas.length + 1)) :=
      @uAdd_ofNat (basic.length + deltas.length) 1 (by omega)
    have hfirst : (ofNat (basic.length + deltas.length) == ofNat basic.length) =
        (true && deltas.isEmpty) := by
      rw [Bool.eq_iff_iff, beq_iff_eq, ofNat_inj (by omega) (by omega), Bool.true_and,
        isEmpty_iff_length_eq_zero]
      omega
    have hadapt : adapt (.ofNat delta) (.ofNat (basic.length + deltas.length + 1))
        (ofNat (basic.length + deltas.length) == ofNat basic.length) =
        pure (ofNat (biasAfter 72 (basic.length + 1) true (deltas ++ [delta]))) := by
      rw [hfirst, biasAfter_concat, Nat.add_right_comm]
      exact adapt_ofNat _ (by omega) (by omega)
    have hencode : appendEncode (work ++ spellAll 72 (basic.length + 1) true deltas) (.ofNat delta)
        (.ofNat (biasAfter 72 (basic.length + 1) true deltas)) =
        pure (work ++ spellAll 72 (basic.length + 1) true (deltas ++ [delta])) := by
      rw [spellAll_concat, ← append_assoc]
      exact appendEncode_ofNat (by omega) (by omega) _
    have hstep := @encodeStep_of_eq (.ofNat basic.length) _ _
      (encoderAt basic work deltas m delta) _ hencode hpoints hadapt
    refine ⟨deltas ++ [delta], 0, ?_, ⟨hlength, hsmall.code_lt, ?_⟩, ?_⟩
    · unfold encoderAt at hstep ⊢
      rw [heq, length_append, ← Nat.add_assoc]
      exact hstep
    · intro d hd
      rcases mem_append.mp hd with hd | hd
      · exact hsmall.delta_le d hd
      · rw [mem_singleton] at hd
        omega
    · rw [run_concat]
      rw [heq] at h ⊢
      exact h.insert
  · have hgt' := (@ofNat_lt m c (by omega) (by omega)).mpr hgt
    exact ⟨deltas, delta, encodeStep_of_gt hgt', hsmall, h.of_gt hgt⟩

theorem encodeFor_ofNat (hsmall : Small (pre ++ suf) deltas) (hm : m < 0x110000)
    (h : Within pre suf m ((start 128 basic).run deltas) delta) : ∃ deltas' delta',
    encodeFor (.ofNat basic.length) (suf.map ofNat) (encoderAt basic work deltas m delta) =
        pure (some (encoderAt basic work deltas' m delta')) ∧
      Small (pre ++ suf) deltas' ∧
      Within (pre ++ suf) [] m ((start 128 basic).run deltas') delta' := by
  induction suf generalizing pre deltas delta with
  | nil =>
    rw [append_nil] at hsmall ⊢
    exact ⟨deltas, delta, rfl, hsmall, h⟩
  | cons c suf ih =>
    have ⟨deltas₁, delta₁, hstep, hsmall₁, h₁⟩ := @encodeStep_ofNat _ work _ _ _ _ _ _ hsmall hm h
    have hassoc : pre ++ c :: suf = pre ++ [c] ++ suf := by
      simp
    rw [hassoc] at hsmall₁ ⊢
    have ⟨deltas₂, delta₂, hfor, hsmall₂, h₂⟩ := ih hsmall₁ h₁
    refine ⟨deltas₂, delta₂, ?_, hsmall₂, h₂⟩
    rw [map_cons, encodeFor, hstep, Wraps.pure_bind]
    exact hfor

theorem encodeRound_eq {b m skipped points tmp d d' n' : UInt32} {input : List UInt32}
    {s s' : Encoder} (hm : lowest input s.n = m) (hskipped : uSub m s.n = pure skipped)
    (hpoints : uAdd s.h 1 = pure points) (htmp : qMulOverflow skipped points = some tmp)
    (hd : qAddOverflow s.delta tmp = some d)
    (hfor : encodeFor b input { s with n := m, delta := d } = pure (some s'))
    (hd' : uAdd s'.delta 1 = pure d') (hn' : uAdd s'.n 1 = pure n') :
    encodeRound b input s = pure (some { s' with delta := d', n := n' }) := by
  unfold encodeRound
  simp only [hm]
  rw [hskipped, Wraps.pure_bind, hpoints, Wraps.pure_bind, htmp]
  simp only [hd]
  rw [hfor, Wraps.pure_bind]
  simp only
  rw [hd', Wraps.pure_bind, hn', Wraps.pure_bind]

theorem encodeRound_ofNat (hsmall : Small l deltas) (hn : n ≤ 0x110000)
    (h : Ready l n ((start 128 basic).run deltas) delta)
    (hmore : ((start 128 basic).run deltas).out.length < l.length) : ∃ deltas' n' delta',
    encodeRound (.ofNat basic.length) (l.map ofNat) (encoderAt basic work deltas n delta) =
        pure (some (encoderAt basic work deltas' n' delta')) ∧
      Small l deltas' ∧ n' ≤ 0x110000 ∧ Ready l n' ((start 128 basic).run deltas') delta' ∧
      ((start 128 basic).run deltas).out.length < ((start 128 basic).run deltas').out.length := by
  have ⟨m, hlowest, hmem, hnm, hleast⟩ := lowest_ofNat (show n < 2 ^ 32 by omega)
    (fun c hc => Nat.lt_trans (hsmall.code_lt c hc) (by decide)) (h.exists_le hmore)
  have hm := hsmall.code_lt m hmem
  have hwithin := h.within hnm hleast
  have hdelta := @delta_small deltas [] l m _ hsmall _ hwithin hm
  have hlength := length_run (start 128 basic) deltas
  change _ = basic.length + deltas.length at hlength
  have hl := hsmall.length_le
  rw [hlength] at hwithin hdelta
  have ⟨deltas', delta', hfor, hsmall', hwithin'⟩ :=
    @encodeFor_ofNat basic work deltas [] l m _ hsmall hm hwithin
  have hdelta' := @delta_small deltas' l [] m delta' (by rwa [append_nil]) _ hwithin' hm
  have hpoints : uAdd (ofNat (basic.length + deltas.length)) 1 =
      pure (ofNat (basic.length + deltas.length + 1)) :=
    @uAdd_ofNat (basic.length + deltas.length) 1 (by omega)
  have hincrement : uAdd (ofNat delta') 1 = pure (ofNat (delta' + 1)) :=
    @uAdd_ofNat delta' 1 (by omega)
  have hnext : uAdd (ofNat m) 1 = pure (ofNat (m + 1)) := @uAdd_ofNat m 1 (by omega)
  refine ⟨deltas', m + 1, delta' + 1, ?_, hsmall', by omega, hwithin'.ready, ?_⟩
  · exact @encodeRound_eq _ _ _ _ _ _ _ _ _ (encoderAt basic work deltas n delta) _ hlowest
      (uSub_ofNat (by omega) hnm) hpoints
      ((qMulOverflow_ofNat (by omega) (by omega)).trans (if_pos (by omega)))
      ((qAddOverflow_ofNat (by omega) (by omega)).trans (if_pos (by omega))) hfor hincrement hnext
  · rw [h.out, hwithin'.ready.out]
    exact length_below_lt hmem hnm

theorem encodeWhile_ofNat {rounds : ℕ} (hsmall : Small l deltas) (hn : n ≤ 0x110000)
    (h : Ready l n ((start 128 basic).run deltas) delta)
    (hrounds : l.length ≤ ((start 128 basic).run deltas).out.length + rounds) : ∃ deltas' n' delta',
    encodeWhile (.ofNat basic.length) (l.map ofNat) (.ofNat l.length) rounds
        (encoderAt basic work deltas n delta) =
        pure (.ended (encoderAt basic work deltas' n' delta')) ∧
      Small l deltas' ∧ ((start 128 basic).run deltas').out = l := by
  have hl := hsmall.length_le
  have hlt {ds : List ℕ} {n' delta' : ℕ} (h' : Ready l n' ((start 128 basic).run ds) delta') :
      (encoderAt basic work ds n' delta').h < ofNat l.length ↔
        ((start 128 basic).run ds).out.length < l.length := by
    have hlength := length_run (start 128 basic) ds
    change _ = basic.length + ds.length at hlength
    have hle := h'.length_le
    show ofNat (basic.length + ds.length) < _ ↔ _
    rw [ofNat_lt (by omega) (by omega), hlength]
  induction rounds generalizing deltas n delta with
  | zero =>
    have hnot : ¬((start 128 basic).run deltas).out.length < l.length := by omega
    refine ⟨deltas, n, delta, ?_, hsmall, h.out_eq hrounds⟩
    unfold encodeWhile
    rw [if_neg ((hlt h).not.mpr hnot)]
  | succ rounds ih =>
    unfold encodeWhile
    by_cases hmore : ((start 128 basic).run deltas).out.length < l.length
    · have ⟨deltas₁, n₁, delta₁, hround, hsmall₁, hn₁, h₁, hgrow⟩ :=
        @encodeRound_ofNat _ work _ _ _ _ hsmall hn h hmore
      rw [if_pos ((hlt h).mpr hmore), hround, Wraps.pure_bind]
      exact ih hsmall₁ hn₁ h₁ (by omega)
    · rw [if_neg ((hlt h).not.mpr hmore)]
      exact ⟨deltas, n, delta, rfl, hsmall, h.out_eq (Nat.not_lt.mp hmore)⟩

/-! ## The whole label -/

def codes (cs : List Char) : List ℕ := cs.map fun c => c.val.toNat

theorem map_val (cs : List Char) : cs.map Char.val = (codes cs).map UInt32.ofNat := by
  unfold codes
  rw [map_map]
  exact map_congr_left fun c _ => UInt32.ofNat_toNat.symm

theorem length_le_utf16 (cs : List Char) : cs.length ≤ (utf16 cs).length := by
  induction cs with
  | nil => exact Nat.le_refl 0
  | cons c cs ih =>
    have hne : 0 < (utf16EncodeChar c).length := by
      unfold utf16EncodeChar
      simp only
      split
      · exact Nat.succ_pos 0
      · exact Nat.succ_pos 1
    rw [utf16_cons, length_cons, length_append]
    omega

/-- The basic code points of a label. -/
def basicUnits (label : List UInt16) : List UInt16 := label.filter fun c => c < 0x80

theorem basicUnits_cons_of_lt {u : UInt16} (h : u.toNat < 128) (label : List UInt16) :
    basicUnits (u :: label) = u :: basicUnits label :=
  filter_cons_of_pos (decide_eq_true (UInt16.lt_iff_toNat_lt.mpr h))

theorem basicUnits_cons_of_le {u : UInt16} (h : 128 ≤ u.toNat) (label : List UInt16) :
    basicUnits (u :: label) = basicUnits label :=
  filter_cons_of_neg fun hlt =>
    absurd (UInt16.lt_iff_toNat_lt.mp (of_decide_eq_true hlt)) (Nat.not_lt.mpr h)

theorem basicUnits_utf16 (cs : List Char) :
    (basicUnits (utf16 cs)).map UInt16.toNat = below 128 (codes cs) := by
  induction cs with
  | nil => rfl
  | cons c cs ih =>
    have hcodes : codes (c :: cs) = c.val.toNat :: codes cs := rfl
    rw [utf16_cons, hcodes]
    by_cases hc : c.val.toNat ≤ 0xffff
    · have ⟨u, henc, hu, _, _⟩ := utf16EncodeChar_of_le hc
      rw [henc, singleton_append]
      by_cases hbasic : c.val.toNat < 128
      · rw [basicUnits_cons_of_lt (hu ▸ hbasic), below_cons_of_lt hbasic, map_cons, ih, hu]
      · rw [basicUnits_cons_of_le (hu ▸ Nat.not_lt.mp hbasic),
          below_cons_of_le (Nat.not_lt.mp hbasic), ih]
    · have ⟨u, v, henc, hu, hv, _⟩ := utf16EncodeChar_of_lt (Nat.not_le.mp hc)
      unfold High at hu
      unfold Low at hv
      rw [henc, cons_append, singleton_append, basicUnits_cons_of_le (by omega),
        basicUnits_cons_of_le (by omega), below_cons_of_le (by omega), ih]

/-- What is written before the deltas. -/
def basicPart (basic : List UInt16) : List UInt16 := if basic = [] then [] else basic ++ [0x2d]

theorem work_eq {basic : List UInt16} (h : basic.length < 2 ^ 32) :
    (if ofNat basic.length > 0 then basic ++ [0x2d] else basic) = basicPart basic := by
  cases basic with
  | nil => rfl
  | cons u us =>
    have hpos : ofNat (u :: us).length > 0 :=
      (ofNat_lt (by decide) h).mpr (Nat.succ_pos us.length)
    unfold basicPart
    rw [if_pos hpos, if_neg (cons_ne_nil _ _)]

/-- A label that is spelled by its basic code points and deltas. -/
def spelling (basic : List UInt16) (deltas : List ℕ) : List UInt16 :=
  acePrefix ++ (basicPart basic ++ spellAll 72 (basic.length + 1) true deltas)

theorem qt_punycodeEncoder_eq {input : List UInt16} {s : Encoder} (output : List UInt16)
    (hlength : input.length ≤ 126) (hskipped : input.any (fun c => !decide (c < 0x80)) = true)
    (hvalid : (toUcs4 0xffffffff input).contains 0xffffffff = false)
    (hwhile : encodeWhile (.ofNat (basicUnits input).length) (toUcs4 0xffffffff input)
      (.ofNat (toUcs4 0xffffffff input).length) (toUcs4 0xffffffff input).length
      ⟨initial_n, 0, initial_bias, .ofNat (basicUnits input).length,
        basicPart (basicUnits input)⟩ = pure (.ended s)) :
    qt_punycodeEncoder input output = pure (some (output ++ acePrefix ++ s.output)) := by
  have hmax : ¬input.length > MaxDomainLabelLength * 2 := Nat.not_lt.mpr hlength
  have hcopied : (basicUnits input).length ≤ input.length := length_filter_le _ _
  rw [← work_eq (by omega)] at hwhile
  unfold qt_punycodeEncoder
  rw [if_neg hmax]
  simp only [hskipped, hvalid]
  change (encodeWhile _ _ _ _ _ >>= _) = _
  unfold basicUnits at hwhile
  rw [hwhile]
  rfl

theorem qt_punycodeEncoder_utf16 {cs : List Char} (output : List UInt16)
    (hlength : (utf16 cs).length ≤ 126) (hskipped : ∃ u ∈ utf16 cs, 0x80 ≤ u) : ∃ deltas,
    qt_punycodeEncoder (utf16 cs) output =
        pure (some (output ++ spelling (basicUnits (utf16 cs)) deltas)) ∧
      ((start 128 (below 128 (codes cs))).run deltas).out = codes cs := by
  have hbasic := congrArg List.length (basicUnits_utf16 cs)
  rw [length_map] at hbasic
  have hcs := length_le_utf16 cs
  have hl : (codes cs).length = cs.length := length_map _
  have hsmall : Small (codes cs) [] := by
    constructor
    · omega
    · intro c hc
      have ⟨x, _, hx⟩ := mem_map.mp hc
      rw [← hx]
      exact val_lt x
    · exact fun d hd => absurd hd not_mem_nil
  have ⟨deltas, n, delta, hwhile, _, hout⟩ := @encodeWhile_ofNat _
    (basicPart (basicUnits (utf16 cs))) [] (codes cs) 128 0 (codes cs).length hsmall (by decide)
    (ready_start (codes cs) 128) (Nat.le_add_left _ _)
  refine ⟨deltas, ?_, hout⟩
  have hany : (utf16 cs).any (fun c => !decide (c < 0x80)) = true := by
    obtain ⟨u, hu, hle⟩ := hskipped
    apply any_eq_true.mpr
    refine ⟨u, hu, ?_⟩
    rw [Bool.not_eq_true', decide_eq_false_iff_not]
    exact UInt16.not_lt.mpr hle
  have hvalid : ((codes cs).map ofNat).contains 0xffffffff = false := by
    rw [← Bool.not_eq_true, contains_iff_mem, ← map_val]
    intro hmem
    have ⟨x, _, hx⟩ := mem_map.mp hmem
    have hlt := val_lt x
    rw [hx] at hlt
    exact absurd hlt (by decide)
  have hstart : (⟨initial_n, 0, initial_bias, .ofNat (basicUnits (utf16 cs)).length,
      basicPart (basicUnits (utf16 cs))⟩ : Encoder) =
      encoderAt (below 128 (codes cs)) (basicPart (basicUnits (utf16 cs))) [] 128 0 := by
    unfold encoderAt spellAll
    rw [append_nil, hbasic]
    rfl
  have hcodes := toUcs4_utf16 0xffffffff cs
  rw [map_val] at hcodes
  have hencode := @qt_punycodeEncoder_eq (utf16 cs)
    (encoderAt (below 128 (codes cs)) (basicPart (basicUnits (utf16 cs))) deltas n delta) output
    hlength hany (by rw [hcodes]; exact hvalid)
    (by rw [hcodes, length_map, hstart, hbasic]; exact hwhile)
  rw [hencode]
  unfold spelling encoderAt
  rw [hbasic, append_assoc]

end Punycode

end QtBase
