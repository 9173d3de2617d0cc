import QtBase.Io.UrlPaths

/-! The paths that `removeDotsFromPath` frees of dot segments. Behind a prefix that it skips, and
behind a ".." that takes the output back to its first place, it looks neither for dots nor for the
end again. -/
namespace QtBase.Url

open UriReference List Nat

/-! ## Copies -/

namespace DotScan

/-- The states in which `moveSegment` copies a character. -/
def segmentCopies : ℕ → DotScan → List DotScan
  | 0, _ => []
  | rounds + 1, s =>
    if s.inp < s.chars.length ∧ s.charAt s.inp ≠ slash then s :: segmentCopies rounds s.move else []

/-- The states in which `afterPrefix` writes a character. -/
def roundCopies (s : DotScan) : List DotScan :=
  if s.text.take 3 = [slash, dot, slash] then []
  else if s.text = [slash, dot] then [s]
  else if s.text.take 4 = [slash, dot, dot, slash] then []
  else if s.text = [slash, dot, dot] then []
  else s :: segmentCopies s.chars.length s.move

/-- The states in which the loop writes a character. -/
def copies : ℕ → DotScan → List DotScan
  | 0, _ => []
  | rounds + 1, s =>
    if s.inp < s.chars.length then
      s.skipPrefix.roundCopies ++
        match s.skipPrefix.afterPrefix with
        | (true, s) => copies rounds s
        | (false, _) => []
    else []

/-- The character that is read stands before the end, and that which is written not behind it. -/
structure Safe (s : DotScan) : Prop where
  write : s.out ≤ s.inp
  read : s.inp < s.chars.length

variable {s : DotScan} {O I : List UInt16}

theorem segmentCopies_safe (rounds : ℕ) (h : s.out ≤ s.inp) :
    ∀ x ∈ segmentCopies rounds s, x.Safe := by
  induction rounds generalizing s with
  | zero => exact nofun
  | succ rounds ih =>
    intro x hx
    unfold segmentCopies at hx
    split at hx
    · rename_i hgo
      rcases mem_cons.1 hx with rfl | hx
      · exact ⟨h, hgo.1⟩
      · exact ih (s := s.move) (succ_le_succ h) x hx
    · cases hx

theorem roundCopies_safe (h : s.Safe) : ∀ x ∈ s.roundCopies, x.Safe := by
  intro x hx
  unfold roundCopies at hx
  split_ifs at hx
  · cases hx
  · rwa [mem_singleton.1 hx]
  · cases hx
  · cases hx
  · rcases mem_cons.1 hx with rfl | hx
    · exact h
    · exact segmentCopies_safe _ (s := s.move) (succ_le_succ h.write) x hx

theorem mem_roundCopies_end (h : s.text = []) : s ∈ s.roundCopies := by
  unfold roundCopies
  simp [h]

theorem Reads.safe {c : UInt16} (h : s.Reads O (c :: I)) : s.Safe := ⟨h.le, h.inp_lt⟩

end DotScan

/-! ## Places in a path -/

/-- Where the loop stands in a path that does not begin with a slash: at its start, with nothing
written; before a slash, with nothing written; or behind a first segment, dots or not, and a number
of others. -/
inductive Place
  | start
  | led
  | within (dots : Bool) (depth : ℕ)

/-- Where the loop stands behind its first segment. -/
def Place.behind (w : List UInt16) : Place := if w = [] then .led else .within (IsDots dot w) 0

/-- From this place on these segments leave no dot segment. -/
def clears : Place → List (List UInt16) → Bool
  | .start, [] => true
  | .start, [w] => clears (.behind w) []
  | .start, w :: w' :: segs =>
    if IsDots dot w then (w' ≠ [] ∨ segs ≠ []) && clears (.behind w') segs
    else clears (.behind w) (w' :: segs)
  | .led, [] => true
  | .led, w :: segs =>
    if w = [dot] then clears .led segs
    else if w = [dot, dot] then segs = [] || clears .start segs
    else true
  | .within dots _, [] => !dots
  | .within dots depth, w :: segs =>
    if w = [dot] then clears (.within dots depth) segs
    else if w = [dot, dot] then
      match depth with
      | 0 => segs = [] || clears .start segs
      | depth + 1 => clears (.within dots depth) segs
    else clears (.within dots (depth + 1)) segs

/-- The paths from which the dot segments are removed. -/
def Removable (path : List UInt16) : Prop :=
  path.head? = some slash ∨ IsDots dot path ∨ clears .start (path.splitOn slash) = true

namespace DotScan

variable {s s₁ : DotScan} {O O₁ I I₁ w w₀ : List UInt16} {segs ws : List (List UInt16)}
  {rounds : ℕ} {clear : Prop}

/-- From `s` the loop ends, and `clear` says when it copies as it should and leaves no dot segment
of what was written, `O`, and what is to be read, `I`. -/
def Clears (s : DotScan) (rounds : ℕ) (O I : List UInt16) (clear : Prop) : Prop :=
  ∃ s', loop rounds s = .ok s' ∧
    (clear → (∀ x ∈ copies rounds s, x.Safe) ∧ ¬ HasDots dot slash (s'.chars.take s'.out) ∧
      (s'.chars.take s'.out).Sublist (O ++ I)) ∧
    ((∀ x ∈ copies rounds s, x.Safe) → ¬ HasDots dot slash (s'.chars.take s'.out) → clear)

theorem loop_round (hlt : s.inp < s.chars.length) (hround : s.skipPrefix.afterPrefix = (true, s₁)) :
    loop (rounds + 1) s = loop rounds s₁ ∧
      copies (rounds + 1) s = s.skipPrefix.roundCopies ++ copies rounds s₁ := by
  exact ⟨by rw [loop, if_pos hlt, hround], by rw [copies, if_pos hlt, hround]⟩

theorem loop_last (hlt : s.inp < s.chars.length)
    (hround : s.skipPrefix.afterPrefix = (false, s₁)) :
    loop (rounds + 1) s = .ok s₁ ∧ copies (rounds + 1) s = s.skipPrefix.roundCopies := by
  exact ⟨by rw [loop, if_pos hlt, hround], by rw [copies, if_pos hlt, hround, append_nil]⟩

/-- A round after which there are others. -/
theorem Clears.round (hlt : s.inp < s.chars.length)
    (hround : s.skipPrefix.afterPrefix = (true, s₁)) (hsafe : s.skipPrefix.Safe)
    (hsub : (O₁ ++ I₁).Sublist (O ++ I)) (h : s₁.Clears rounds O₁ I₁ clear) :
    s.Clears (rounds + 1) O I clear := by
  obtain ⟨hloop, hcopies⟩ := @loop_round s s₁ rounds hlt hround
  obtain ⟨s', hs', hclear, hdots⟩ := h
  refine ⟨s', hloop.trans hs', fun hc => ?_, fun hsafe' hd => ?_⟩
  · obtain ⟨hsafe₁, hd, hsub₁⟩ := hclear hc
    rw [hcopies]
    refine ⟨fun x hx => ?_, hd, hsub₁.trans hsub⟩
    exact (mem_append.1 hx).elim (roundCopies_safe hsafe x) (hsafe₁ x)
  · rw [hcopies] at hsafe'
    exact hdots (fun x hx => hsafe' x (mem_append_right _ hx)) hd

/-- The last round. -/
theorem Clears.last (hlt : s.inp < s.chars.length)
    (hround : s.skipPrefix.afterPrefix = (false, s₁)) (hsafe : s.skipPrefix.Safe)
    (hdots : ¬ HasDots dot slash (s₁.chars.take s₁.out) ↔ clear)
    (hsub : (s₁.chars.take s₁.out).Sublist (O ++ I)) : s.Clears (rounds + 1) O I clear := by
  obtain ⟨hloop, hcopies⟩ := @loop_last s s₁ rounds hlt hround
  rw [Clears, hcopies]
  exact ⟨s₁, hloop, fun hc => ⟨roundCopies_safe hsafe, hdots.2 hc, hsub⟩, fun _ hd => hdots.1 hd⟩

theorem Reads.clears_nil (h : s.Reads O []) :
    s.Clears (rounds + 1) O [] (¬ HasDots dot slash O) := by
  have hnil := h.text_eq
  have hcopies : copies (rounds + 1) s = [] := if_neg (not_lt.2 (drop_eq_nil_iff.1 hnil))
  refine ⟨s, h.loop_nil rounds, fun hd => ?_, fun _ hd => ?_⟩
  · rw [hcopies, h.out_eq, append_nil]
    exact ⟨nofun, hd, List.Sublist.refl O⟩
  · rwa [h.out_eq] at hd

theorem Clears.terminator (hlt : s.inp < s.chars.length)
    (hround : s.skipPrefix.afterPrefix = (true, s₁)) (htext : s.skipPrefix.text = [])
    (hloop' : ∃ s', loop rounds s₁ = .ok s') (hclear : ¬ clear) :
    s.Clears (rounds + 1) O I clear := by
  obtain ⟨hloop, hcopies⟩ := @loop_round s s₁ rounds hlt hround
  obtain ⟨s', hs'⟩ := hloop'
  refine ⟨s', hloop.trans hs', fun hc => absurd hc hclear, fun hsafe _ => ?_⟩
  rw [hcopies] at hsafe
  have hread := (hsafe _ (mem_append_left _ (mem_roundCopies_end htext))).read
  exact absurd (drop_eq_nil_iff.1 htext) (not_le.2 hread)

/-! ## The rounds -/

theorem Reads.skip_safe (h : s.Reads O (slash :: I)) : s.skipPrefix.Safe := by
  rw [skipPrefix_rooted h.text_eq]
  exact h.safe

theorem Reads.copies_rooted (h : s.Reads O (join slash segs)) (hroot : s.Rooted)
    (hsegs : ∀ w ∈ segs, slash ∉ w) (hrounds : segs.length < rounds) :
    ∀ x ∈ copies rounds s, x.Safe := by
  induction segs generalizing s O rounds with
  | nil =>
    obtain ⟨n, rfl⟩ := exists_eq_succ_of_ne_zero hrounds.ne'
    have hnil := h.text_eq
    rw [join_nil] at hnil
    have hend : copies (n + 1) s = [] := if_neg (not_lt.2 (drop_eq_nil_iff.1 hnil))
    rw [succ_eq_add_one, hend]
    exact nofun
  | cons w segs ih =>
    obtain ⟨n, rfl⟩ := exists_eq_succ_of_ne_zero (ne_of_gt (zero_lt_of_lt hrounds))
    have hround := h.round (hsegs w mem_cons_self) hroot
    have hsafe := roundCopies_safe h.skip_safe
    cases hr : s.skipPrefix.afterPrefix with
    | mk again s' =>
      rw [hr] at hround
      cases again with
      | false => rwa [(@loop_last s s' n h.inp_lt hr).2]
      | true =>
        obtain ⟨O', hreads, hrooted, -, -⟩ := hround
        rw [(@loop_round s s' n h.inp_lt hr).2]
        intro x hx
        exact (mem_append.1 hx).elim (hsafe x) (ih hreads hrooted
          (fun w' hw' => hsegs w' (mem_cons_of_mem _ hw')) (lt_of_succ_lt_succ hrounds) x)

theorem Reads.clears_rooted (h : s.Reads O (join slash segs)) (hroot : s.Rooted)
    (hdots : ¬ HasDots dot slash O) (hsegs : ∀ w ∈ segs, slash ∉ w)
    (hrounds : segs.length < rounds) : s.Clears rounds O (join slash segs) True := by
  obtain ⟨s', hs', hout⟩ := h.loop_rooted hroot hsegs hrounds
  refine ⟨s', hs', fun _ => ⟨h.copies_rooted hroot hsegs hrounds, ?_, ?_⟩, fun _ _ => trivial⟩
  · rw [hout]
    exact not_hasDots_removeDotSegments dot_ne_slash hsegs hdots
  · rw [hout]
    exact removeDotSegments_sublist dot_ne_slash hsegs

/-! ## Paths that do not begin with a slash -/

theorem Reads.out_zero (h : s.Reads [] I) : s.out = 0 := by
  have hlen := congrArg List.length h.out_eq
  have hle := h.le.trans h.inp_le
  rw [length_take, length_nil] at hlen
  omega

theorem charAt_zero (h : ¬ s.Rooted) : s.charAt 0 ≠ slash := by
  unfold Rooted at h
  unfold DotScan.charAt
  cases hchars : s.chars with
  | nil => decide
  | cons c t =>
    rw [hchars, List.head?_cons, Option.some_inj] at h
    exact h

theorem not_rooted_of_out (hreads : s.Reads (w ++ O) I) (hw : slash ∉ w) (hne : w ≠ []) :
    ¬ s.Rooted := by
  intro hroot
  obtain ⟨c, t, rfl⟩ := exists_cons_of_ne_nil hne
  have hhead : (s.chars.take s.out).head? = some c := by rw [hreads.out_eq]; rfl
  have hpos : s.out ≠ 0 := by
    intro h0
    rw [h0, take_zero] at hhead
    cases hhead
  rw [List.head?_take, if_neg hpos, hroot, Option.some_inj] at hhead
  exact hw (hhead ▸ mem_cons_self)

theorem Reads.segment_led (h : s.Reads [] (join slash (w :: segs))) (hw : slash ∉ w) :
    ∃ s', DotScan.moveSegment s.chars.length s.move = s' ∧
      s'.Reads (slash :: w) (join slash segs) ∧ s'.Rooted := by
  have hlt := h.inp_lt
  have hroot : s.move.Rooted := by
    unfold Rooted DotScan.move
    dsimp only
    rw [h.out_zero, h.charAt]
    obtain ⟨c, t, ht⟩ := exists_cons_of_length_pos (zero_lt_of_lt hlt)
    rw [ht]
    rfl
  have hlen := congrArg List.length h.text_eq
  unfold text at hlen
  rw [length_drop, length_join_cons] at hlen
  have hrounds : w.length ≤ s.chars.length := by omega
  obtain ⟨hreads, -, hroot'⟩ := (Reads.move h).moveSegment hw hrounds
  exact ⟨_, rfl, hreads, hroot' (succ_pos _) hroot⟩

/-- The place where the loop stands, the segments before it, and what was and is to be read. -/
inductive Stands (s : DotScan) :
    Place → List (List UInt16) → List UInt16 → List UInt16 → Prop
  | start {w : List UInt16} {segs : List (List UInt16)} (hreads : s.Reads [] (w ++ join slash segs))
      (hroot : ¬ s.Rooted) : Stands s .start (w :: segs) [] (w ++ join slash segs)
  | led {segs : List (List UInt16)} (hreads : s.Reads [] (join slash segs)) (hroot : ¬ s.Rooted) :
      Stands s .led segs [] (join slash segs)
  | within {w : List UInt16} {ws segs : List (List UInt16)}
      (hreads : s.Reads (w ++ join slash ws) (join slash segs)) (hw : slash ∉ w) (hne : w ≠ [])
      (hws : ∀ w' ∈ ws, slash ∉ w' ∧ ¬ IsDots dot w') :
      Stands s (.within (IsDots dot w) ws.length) segs (w ++ join slash ws) (join slash segs)

/-- With so many rounds left `clears` tells what is cleared, wherever the loop stands. -/
def RoundsClear (rounds : ℕ) : Prop :=
  ∀ ⦃s : DotScan⦄ ⦃place : Place⦄ ⦃segs : List (List UInt16)⦄ ⦃O I : List UInt16⦄,
    Stands s place segs O I → (∀ w ∈ segs, slash ∉ w) → segs.length < rounds →
    s.Clears rounds O I (clears place segs = true)

theorem Clears.congr {clear' : Prop} (h : s.Clears rounds O I clear) (hiff : clear ↔ clear') :
    s.Clears rounds O I clear' := by
  rwa [← hiff]

theorem hasDots_join (hw : slash ∉ w) (hws : ∀ w' ∈ ws, slash ∉ w' ∧ ¬ IsDots dot w') :
    HasDots dot slash (w ++ join slash ws) ↔ IsDots dot w := by
  induction ws using List.reverseRecOn with
  | nil => rw [join_nil, append_nil, hasDots_segment hw]
  | append_singleton ws w' ih =>
    obtain ⟨hw', hd'⟩ := hws w' (by simp)
    have hjoin : w ++ join slash (ws ++ [w']) = (w ++ join slash ws) ++ slash :: w' := by
      simp [join]
    rw [hjoin, hasDots_append, ih fun x hx => hws x (by simp [hx]), hasDots_segment hw',
      or_iff_left hd']

/-- A round before a slash, with nothing written; `t` is the state behind the prefix. -/
theorem Clears.led {t : DotScan} (ih : RoundsClear rounds) (hlt : s.inp < s.chars.length)
    (hskip : s.skipPrefix = t) (h : t.Reads [] (join slash (w :: segs))) (hroot : ¬ t.Rooted)
    (hsub : (join slash (w :: segs)).Sublist I) (hw : slash ∉ w) (hsegs : ∀ w ∈ segs, slash ∉ w)
    (hrounds : segs.length < rounds) :
    s.Clears (rounds + 1) [] I (Url.clears .led (w :: segs) = true) := by
  subst hskip
  have hout := h.out_zero
  have hsafe : s.skipPrefix.Safe := h.safe
  have hchar := charAt_zero hroot
  have hback : s.skipPrefix.backOut s.skipPrefix.out = 0 := by rw [hout]; rfl
  by_cases hdot : w = [dot]
  · subst hdot
    cases segs with
    | nil =>
      have htake : (s.skipPrefix.chars.set s.skipPrefix.out slash).take (s.skipPrefix.out + 1) =
          [slash] := by
        rw [take_set_succ _ (lt_of_le_of_lt h.le h.inp_lt), h.out_eq, nil_append]
      refine .last hlt (afterPrefix_dot_end h.text_eq) hsafe ?_ ?_
      · rw [htake]
        decide
      · rw [htake]
        exact List.Sublist.trans (by simp) hsub
    | cons w' segs =>
      have hreads : Reads { s.skipPrefix with inp := s.skipPrefix.inp + 2 } []
          (join slash (w' :: segs)) := h.skip (n := 2) (by simp)
      have hnext := ih (.led hreads hroot) hsegs hrounds
      refine (Clears.round hlt (afterPrefix_dot h.text_eq) hsafe
        (List.Sublist.trans (sublist_append_right [slash, dot] _) hsub) hnext).congr ?_
      simp [Url.clears]
  by_cases hdots : w = [dot, dot]
  · subst hdots
    cases segs with
    | nil =>
      refine .last hlt (afterPrefix_dots_end h.text_eq) hsafe ?_ ?_
      · rw [hback, if_neg hchar]
        exact iff_of_true not_hasDots_nil rfl
      · simp [hback, hchar]
    | cons w' segs =>
      have hround := afterPrefix_dots h.text_eq
      rw [hback, if_pos ⟨rfl, hchar⟩] at hround
      have hreads : Reads { s.skipPrefix with out := 0, inp := s.skipPrefix.inp + 1 + 3 } []
          (w' ++ join slash segs) := by
        have := h.skip (n := 4) (by simp)
        exact ⟨rfl, this.text_eq, zero_le _, this.inp_le⟩
      have hnext := ih (.start hreads hroot) hsegs hrounds
      refine (Clears.round hlt hround hsafe
        (List.Sublist.trans (sublist_append_right [slash, dot, dot, slash] _) hsub)
        hnext).congr ?_
      simp [Url.clears]
  · have hd : ¬ IsDots dot w := fun hd => hd.elim hdot hdots
    obtain ⟨s', hs', hreads, hrooted⟩ := h.segment_led hw
    have hround := afterPrefix_segment h.text_eq hw hd
    rw [hs'] at hround
    refine (Clears.round hlt hround hsafe hsub
      (hreads.clears_rooted hrooted ?_ hsegs hrounds)).congr ?_
    · rw [hasDots_slash, hasDots_segment hw]
      exact hd
    · simp [Url.clears, hdot, hdots]

theorem charAt_backOut {out : ℕ} (h : s.backOut out ≠ 0) : s.charAt (s.backOut out) = slash := by
  induction out with
  | zero => exact absurd rfl h
  | succ out ih =>
    unfold backOut at h ⊢
    split_ifs at h ⊢ with hslash
    · exact hslash
    · exact ih h

theorem Reads.backOut_eq_zero_iff (h : s.Reads O I) :
    s.backOut s.out = 0 ↔ removeLast slash O = [] := by
  have hle := s.backOut_le s.out
  have hout := h.le.trans h.inp_le
  rw [← h.out_eq, ← s.take_backOut hout, take_eq_nil_iff]
  refine ⟨.inl, fun h => h.elim id fun hnil => ?_⟩
  rw [hnil, length_nil] at hout
  omega

theorem join_concat (ws : List (List UInt16)) (w : List UInt16) :
    join slash (ws ++ [w]) = join slash ws ++ slash :: w := by
  simp [join]

theorem hasDots_join_slash (hw : slash ∉ w) (hws : ∀ w' ∈ ws, slash ∉ w' ∧ ¬ IsDots dot w') :
    HasDots dot slash ((w ++ join slash ws) ++ [slash]) ↔ IsDots dot w := by
  rw [hasDots_append, hasDots_join hw hws, or_iff_left not_hasDots_nil]

/-- A ".." behind a first segment alone. -/
theorem Clears.within_first (ih : RoundsClear rounds)
    (h : s.Reads w₀ (join slash ([dot, dot] :: segs))) (hw₀ : slash ∉ w₀) (hne : w₀ ≠ [])
    (hsegs : ∀ w ∈ segs, slash ∉ w) (hrounds : segs.length < rounds) :
    s.Clears (rounds + 1) w₀ (join slash ([dot, dot] :: segs))
      (Url.clears (.within (IsDots dot w₀) 0) ([dot, dot] :: segs) = true) := by
  have hlt := h.inp_lt
  have hsafe := h.skip_safe
  have hskip := skipPrefix_rooted h.text_eq
  have hroot : ¬ s.Rooted := @not_rooted_of_out s [] _ w₀ (by rwa [append_nil]) hw₀ hne
  have hchar := charAt_zero hroot
  have hback : s.backOut s.out = 0 := h.backOut_eq_zero_iff.2 (removeLast_first hw₀)
  cases segs with
  | nil =>
    have hround := afterPrefix_dots_end h.text_eq
    rw [hback, if_neg hchar, ← hskip] at hround
    refine .last hlt hround hsafe ?_ (nil_sublist _)
    exact iff_of_true not_hasDots_nil rfl
  | cons w' segs =>
    have hround := afterPrefix_dots h.text_eq
    rw [hback, if_pos ⟨rfl, hchar⟩] at hround
    have hreads : Reads { s with out := 0, inp := s.inp + 1 + 3 } [] (w' ++ join slash segs) := by
      have := h.skip (n := 4) (by simp)
      exact ⟨rfl, this.text_eq, zero_le _, this.inp_le⟩
    have hnext := ih (.start hreads hroot) hsegs hrounds
    refine (Clears.round hlt (by rw [hskip]; exact hround) hsafe ?_ hnext).congr ?_
    · exact List.Sublist.trans (sublist_append_right [slash, dot, dot, slash] _)
        (sublist_append_right w₀ _)
    · simp [Url.clears]

/-- A ".." behind other segments. -/
theorem Clears.within_dots (ih : RoundsClear rounds)
    (h : s.Reads (w₀ ++ join slash (ws ++ [w])) (join slash ([dot, dot] :: segs)))
    (hw₀ : slash ∉ w₀) (hne : w₀ ≠ []) (hws : ∀ w' ∈ ws, slash ∉ w' ∧ ¬ IsDots dot w')
    (hw : slash ∉ w) (hsegs : ∀ w ∈ segs, slash ∉ w) (hrounds : segs.length < rounds) :
    s.Clears (rounds + 1) (w₀ ++ join slash (ws ++ [w])) (join slash ([dot, dot] :: segs))
      (Url.clears (.within (IsDots dot w₀) ws.length) segs = true) := by
  have hlt := h.inp_lt
  have hsafe := h.skip_safe
  have hskip := skipPrefix_rooted h.text_eq
  have hlast : removeLast slash (w₀ ++ join slash (ws ++ [w])) = w₀ ++ join slash ws := by
    rw [join_concat, ← append_assoc, removeLast_append _ hw]
  have hsub : (w₀ ++ join slash ws).Sublist (w₀ ++ join slash (ws ++ [w])) := by
    rw [join_concat, ← append_assoc]
    exact sublist_append_left _ _
  have hback : s.backOut s.out ≠ 0 := by
    rw [ne_eq, h.backOut_eq_zero_iff, hlast, append_eq_nil_iff]
    exact fun hnil => hne hnil.1
  have hchar := charAt_backOut hback
  cases segs with
  | nil =>
    have hround := afterPrefix_dots_end h.text_eq
    rw [if_pos hchar] at hround
    refine .last hlt (by rw [hskip]; exact hround) hsafe ?_ ?_
    · dsimp only
      rw [h.take_back_succ h.backOut_lt hchar, hlast, hasDots_join_slash hw₀ hws]
      simp [Url.clears]
    · dsimp only
      rw [h.take_back_succ h.backOut_lt hchar, hlast]
      exact hsub.append (by simp)
  | cons w' segs =>
    have hround := afterPrefix_dots h.text_eq
    rw [if_neg fun hout => hback hout.1] at hround
    have hreads := h.back_dots
    rw [hlast] at hreads
    have hnext := ih (.within hreads hw₀ hne hws) hsegs hrounds
    exact .round hlt (by rw [hskip]; exact hround) hsafe
      (hsub.append (sublist_append_right [slash, dot, dot] _)) hnext

/-- A round behind a first segment. -/
theorem Clears.within (ih : RoundsClear rounds)
    (h : s.Reads (w₀ ++ join slash ws) (join slash (w :: segs))) (hw₀ : slash ∉ w₀)
    (hne : w₀ ≠ []) (hws : ∀ w' ∈ ws, slash ∉ w' ∧ ¬ IsDots dot w') (hw : slash ∉ w)
    (hsegs : ∀ w ∈ segs, slash ∉ w) (hrounds : segs.length < rounds) :
    s.Clears (rounds + 1) (w₀ ++ join slash ws) (join slash (w :: segs))
      (Url.clears (.within (IsDots dot w₀) ws.length) (w :: segs) = true) := by
  have hlt := h.inp_lt
  have hsafe := h.skip_safe
  have hskip := skipPrefix_rooted h.text_eq
  by_cases hdot : w = [dot]
  · subst hdot
    cases segs with
    | nil =>
      have htake : (s.chars.set s.out slash).take (s.out + 1) =
          (w₀ ++ join slash ws) ++ [slash] := by
        rw [take_set_succ _ (lt_of_le_of_lt h.le hlt), h.out_eq]
      refine .last hlt (by rw [hskip]; exact afterPrefix_dot_end h.text_eq) hsafe ?_ ?_
      · rw [htake, hasDots_join_slash hw₀ hws]
        simp [Url.clears]
      · rw [htake]
        exact (List.Sublist.refl _).append (by simp)
    | cons w' segs =>
      have hreads : Reads { s with inp := s.inp + 2 } (w₀ ++ join slash ws)
          (join slash (w' :: segs)) := h.skip (n := 2) (by simp)
      have hnext := ih (.within hreads hw₀ hne hws) hsegs hrounds
      refine (Clears.round hlt (by rw [hskip]; exact afterPrefix_dot h.text_eq) hsafe
        ((List.Sublist.refl _).append (sublist_append_right [slash, dot] _)) hnext).congr ?_
      simp [Url.clears]
  by_cases hdots : w = [dot, dot]
  · subst hdots
    cases ws using List.reverseRecOn with
    | nil =>
      rw [join_nil, append_nil] at h ⊢
      exact Clears.within_first ih h hw₀ hne hsegs hrounds
    | append_singleton ws w' _ =>
      have hws' : ∀ x ∈ ws, slash ∉ x ∧ ¬ IsDots dot x := fun x hx => hws x (by simp [hx])
      refine (Clears.within_dots ih h hw₀ hne hws' (hws w' (by simp)).1 hsegs hrounds).congr ?_
      simp [Url.clears]
  · have hd : ¬ IsDots dot w := fun hd => hd.elim hdot hdots
    obtain ⟨s', hround, hreads, -, -⟩ := h.round_segment hw hd
    have hjoin : (w₀ ++ join slash ws) ++ slash :: w = w₀ ++ join slash (ws ++ [w]) := by
      rw [join_concat, append_assoc]
    have hws' : ∀ x ∈ ws ++ [w], slash ∉ x ∧ ¬ IsDots dot x := by
      intro x hx
      rcases mem_append.1 hx with hx | hx
      · exact hws x hx
      · rw [mem_singleton.1 hx]
        exact ⟨hw, hd⟩
    rw [hjoin] at hreads
    have hnext := ih (.within hreads hw₀ hne hws') hsegs hrounds
    refine (Clears.round hlt hround hsafe ?_ hnext).congr ?_
    · rw [← hjoin, append_assoc]
      exact List.Sublist.refl _
    · simp [Url.clears, hdot, hdots]

/-- A round behind the prefix, with nothing written; `t` is the state there. -/
theorem Clears.behind {t : DotScan} (ih : RoundsClear rounds) (hlt : s.inp < s.chars.length)
    (hskip : s.skipPrefix = t) (h : t.Reads [] (w ++ join slash segs)) (hroot : ¬ t.Rooted)
    (hsub : (w ++ join slash segs).Sublist I) (hmore : w ≠ [] ∨ segs ≠ []) (hw : slash ∉ w)
    (hsegs : ∀ w ∈ segs, slash ∉ w) (hrounds : segs.length < rounds) :
    s.Clears (rounds + 1) [] I (Url.clears (.behind w) segs = true) := by
  cases w with
  | nil =>
    obtain ⟨w', segs, rfl⟩ := exists_cons_of_ne_nil (hmore.resolve_left fun h => h rfl)
    have hrounds' : segs.length < rounds := lt_of_succ_lt hrounds
    exact .led ih hlt hskip h hroot hsub (hsegs w' mem_cons_self)
      (fun x hx => hsegs x (mem_cons_of_mem _ hx)) hrounds'
  | cons c w =>
    subst hskip
    have hc : c ≠ slash := fun heq => hw (heq ▸ mem_cons_self)
    obtain ⟨s', hs', hreads, -, -⟩ := h.segment fun hmem => hw (mem_cons_of_mem _ hmem)
    have hround := afterPrefix_first h.text_eq hc
    rw [hs'] at hround
    rw [nil_append, ← append_nil (c :: w)] at hreads
    have hnext := ih (@Stands.within s' (c :: w) [] segs hreads hw (cons_ne_nil c w) nofun)
      hsegs hrounds
    refine (Clears.round hlt hround h.safe ?_ hnext).congr Iff.rfl
    rw [join_nil, append_nil]
    exact hsub

theorem loop_behind_end (h : s.text = []) (hrounds : 0 < rounds) :
    ∃ s', s.afterPrefix = (true, s') ∧ loop rounds s' = .ok s' := by
  have hend : s.chars.length ≤ s.inp := drop_eq_nil_iff.1 h
  have hmove : ¬ s.move.inp < s.move.chars.length := by
    rw [length_move]
    exact not_lt.2 (hend.trans (le_succ _))
  have hstop : ∀ k, moveSegment k s.move = s.move := by
    intro k
    cases k with
    | zero => rfl
    | succ k => exact if_neg fun hgo => hmove hgo.1
  refine ⟨s.move, ?_, ?_⟩
  · unfold afterPrefix
    rw [h, hstop]
    rfl
  · obtain ⟨n, rfl⟩ := exists_eq_succ_of_ne_zero hrounds.ne'
    exact if_neg hmove

theorem Clears.start (ih : RoundsClear rounds) (h : s.Reads [] (w ++ join slash segs))
    (hroot : ¬ s.Rooted) (hw : slash ∉ w) (hsegs : ∀ w ∈ segs, slash ∉ w)
    (hrounds : segs.length < rounds) :
    s.Clears (rounds + 1) [] (w ++ join slash segs) (Url.clears .start (w :: segs) = true) := by
  cases segs with
  | nil =>
    by_cases hnil : w = []
    · subst hnil
      exact h.clears_nil.congr (iff_of_true not_hasDots_nil rfl)
    · have hlt : s.inp < s.chars.length := by
        obtain ⟨c, w, rfl⟩ := exists_cons_of_ne_nil hnil
        exact h.inp_lt
      have hskip : s.skipPrefix = s := by
        have hshort : ∀ pat : List UInt16, slash ∈ pat → ∀ n, s.text.take n ≠ pat := by
          intro pat hpat n heq
          have htext := h.text_eq
          rw [join_nil, append_nil] at htext
          rw [← heq, htext] at hpat
          exact hw (mem_of_mem_take hpat)
        unfold skipPrefix
        rw [if_neg (hshort _ (by simp) 2), if_neg (hshort _ (by simp) 3)]
      exact .behind ih hlt hskip h hroot (List.Sublist.refl _) (.inl hnil) hw hsegs hrounds
  | cons w' segs =>
    have hlt : s.inp < s.chars.length := by
      cases w with
      | nil => exact h.inp_lt
      | cons c w => exact h.inp_lt
    by_cases hd : IsDots dot w
    · -- the prefix is skipped, and there may be nothing behind it
      have hskip : s.skipPrefix = { s with inp := s.inp + (w.length + 1) } := by
        unfold skipPrefix
        rw [h.text_eq]
        rcases hd with rfl | rfl <;> rfl
      have hreads : Reads { s with inp := s.inp + (w.length + 1) } [] (w' ++ join slash segs) := by
        have := h.skip (n := w.length + 1) (by simp)
        rwa [← drop_drop, drop_left] at this
      have hsub : (w' ++ join slash segs).Sublist (w ++ join slash (w' :: segs)) :=
        ((List.Sublist.refl _).cons _).trans (sublist_append_right _ _)
      by_cases hmore : w' ≠ [] ∨ segs ≠ []
      · refine (Clears.behind ih hlt hskip hreads hroot hsub hmore (hsegs w' mem_cons_self)
          (fun x hx => hsegs x (mem_cons_of_mem _ hx)) (lt_of_succ_lt hrounds)).congr ?_
        simp [Url.clears, hd, hmore]
      · obtain ⟨rfl, rfl⟩ : w' = [] ∧ segs = [] := by simpa [not_or] using hmore
        have htext := hreads.text_eq
        rw [← hskip] at htext
        obtain ⟨s', hround, hs'⟩ := @loop_behind_end s.skipPrefix rounds htext (by omega)
        refine .terminator hlt hround htext ⟨s', hs'⟩ ?_
        simp [Url.clears, hd]
    · have hskip : s.skipPrefix = s := by
        obtain ⟨htake, htake', -, -⟩ := not_dots_of_take (w' :: segs) dot_ne_slash hw hd
        unfold skipPrefix
        rw [h.text_eq, if_neg htake, if_neg htake']
      refine (Clears.behind ih hlt hskip h hroot (List.Sublist.refl _) (.inr (by simp)) hw hsegs
        hrounds).congr ?_
      simp [Url.clears, hd]

theorem roundsClear (rounds : ℕ) : RoundsClear rounds := by
  induction rounds with
  | zero => exact fun _ _ _ _ _ _ _ h => absurd h (not_lt_zero _)
  | succ rounds ih =>
    intro s place segs O I h hsegs hrounds
    cases h with
    | @start w segs hreads hroot =>
      exact .start ih hreads hroot (hsegs w mem_cons_self)
        (fun x hx => hsegs x (mem_cons_of_mem _ hx)) (lt_of_succ_lt_succ hrounds)
    | led hreads hroot =>
      cases segs with
      | nil => exact hreads.clears_nil.congr (iff_of_true not_hasDots_nil rfl)
      | cons w segs =>
        exact .led ih hreads.inp_lt (skipPrefix_rooted hreads.text_eq) hreads hroot
          (List.Sublist.refl _) (hsegs w mem_cons_self)
          (fun x hx => hsegs x (mem_cons_of_mem _ hx)) (lt_of_succ_lt_succ hrounds)
    | @within w₀ ws segs hreads hw₀ hne hws =>
      cases segs with
      | nil =>
        refine (Reads.clears_nil hreads).congr ?_
        rw [hasDots_join hw₀ hws]
        simp [Url.clears]
      | cons w segs =>
        exact .within ih hreads hw₀ hne hws (hsegs w mem_cons_self)
          (fun x hx => hsegs x (mem_cons_of_mem _ hx)) (lt_of_succ_lt_succ hrounds)

end DotScan

/-! ## Whole paths -/

/-- The states in which `removeDotsFromPath` writes a character. -/
def pathCopies (path : List UInt16) : List DotScan :=
  DotScan.copies (path.length + 1)
    ⟨path, 0, if path = [dot] then 1 else if path = [dot, dot] then 2 else 0⟩

/-- What `removeDotsFromPath` promises of its result. -/
structure Cleared (path result : List UInt16) : Prop where
  safe : ∀ s ∈ pathCopies path, s.Safe
  dotless : ¬ HasDots dot slash result
  pieces : ∃ pieces : List (List UInt16), result = pieces.flatten ∧ ∀ p ∈ pieces, p <:+: path
  rooted : path.head? = some slash → result = removeDotSegments dot slash [] path ∧
    removeDotsFromPath result = .ok result

theorem pieces_of_sublist {result path : List UInt16} (h : result.Sublist path) :
    ∃ pieces : List (List UInt16), result = pieces.flatten ∧ ∀ p ∈ pieces, p <:+: path := by
  refine ⟨result.map fun c => [c], ?_, fun p hp => ?_⟩
  · rw [← flatMap_def, flatMap_singleton']
  obtain ⟨c, hc, rfl⟩ := mem_map.1 hp
  obtain ⟨t, u, htu⟩ := append_of_mem (h.subset hc)
  exact ⟨t, u, by rw [htu, append_assoc]; rfl⟩

theorem cleared_rooted (t : List UInt16) :
    Cleared (slash :: t) (removeDotSegments dot slash [] (slash :: t)) := by
  have hsegs : ∀ w ∈ t.splitOn slash, slash ∉ w := fun w => notMem_of_mem_splitOn
  have hdotless := not_hasDots_removeDotSegments dot_ne_slash hsegs
    (@not_hasDots_nil UInt16 _ dot slash)
  have hsub := @removeDotSegments_sublist UInt16 _ dot slash [] _ dot_ne_slash hsegs
  rw [join_splitOn] at hdotless hsub
  refine ⟨?_, hdotless, pieces_of_sublist hsub, fun _ => ⟨rfl, removeDotsFromPath_dotless hdotless⟩⟩
  have hlen := length_le_join slash (t.splitOn slash)
  rw [join_splitOn] at hlen
  have hreads : DotScan.Reads ⟨slash :: t, 0, 0⟩ [] (join slash (t.splitOn slash)) :=
    ⟨rfl, (join_splitOn t).symm, le_refl 0, zero_le _⟩
  have hdot : slash :: t ≠ [dot] := fun h => dot_ne_slash (List.cons.inj h).1.symm
  have hdots : slash :: t ≠ [dot, dot] := fun h => dot_ne_slash (List.cons.inj h).1.symm
  rw [pathCopies, if_neg hdot, if_neg hdots]
  exact hreads.copies_rooted rfl hsegs (lt_succ_of_le hlen)

theorem cleared_empty {path : List UInt16} (h : path = [] ∨ IsDots dot path) :
    removeDotsFromPath path = .ok [] ∧ Cleared path [] := by
  have hsub : ∃ pieces : List (List UInt16), [] = pieces.flatten ∧ ∀ p ∈ pieces, p <:+: path :=
    pieces_of_sublist (nil_sublist path)
  have hhead : path.head? ≠ some slash := by
    rcases h with rfl | rfl | rfl <;> decide
  refine ⟨?_, ⟨?_, not_hasDots_nil, hsub, fun hroot => absurd hroot hhead⟩⟩
  · rcases h with rfl | rfl | rfl <;> rfl
  · have hnone : pathCopies path = [] := by
      rcases h with rfl | rfl | rfl <;> rfl
    rw [hnone]
    exact nofun

/-- `removeDotsFromPath` always returns, and it keeps its promises on the removable paths only. -/
theorem removeDotsFromPath_iff (path : List UInt16) :
    ∃ result, removeDotsFromPath path = .ok result ∧ (Cleared path result ↔ Removable path) := by
  by_cases hroot : path.head? = some slash
  · obtain ⟨t, rfl⟩ : ∃ t, path = slash :: t := ⟨path.tail, (cons_head?_tail hroot).symm⟩
    exact ⟨_, removeDotsFromPath_rooted t, iff_of_true (cleared_rooted t) (.inl rfl)⟩
  by_cases hempty : path = [] ∨ IsDots dot path
  · obtain ⟨hresult, hcleared⟩ := cleared_empty hempty
    refine ⟨[], hresult, iff_of_true hcleared (.inr ?_)⟩
    rcases hempty with rfl | hd
    · exact .inr (by decide)
    · exact .inl hd
  obtain ⟨hnil, hd⟩ := not_or.1 hempty
  obtain ⟨hdot, hdots⟩ := not_or.1 hd
  obtain ⟨w, segs, hsplit, hpath⟩ := @exists_segments _ _ slash path
  have hsegs : ∀ x ∈ w :: segs, slash ∉ x := fun x hx => notMem_of_mem_splitOn (hsplit ▸ hx)
  have hreads : DotScan.Reads ⟨path, 0, 0⟩ [] (w ++ join slash segs) :=
    ⟨rfl, hpath, le_refl 0, zero_le _⟩
  have hne : w ≠ [] := by
    rintro rfl
    cases segs with
    | nil => exact hnil hpath
    | cons w' segs => exact hroot (by rw [hpath]; rfl)
  have hrounds : (w :: segs).length < path.length + 1 := by
    have hlen := congrArg List.length hpath
    have hle := length_le_join slash segs
    have hpos := length_pos_iff.2 hne
    rw [length_append] at hlen
    simp
    omega
  obtain ⟨s', hs', hclear, hdotless⟩ :=
    DotScan.roundsClear (path.length + 1) (.start hreads hroot) hsegs hrounds
  refine ⟨s'.chars.take s'.out, removeDotsFromPath_eq hdot hdots ⟨s', hs', rfl⟩, ?_⟩
  have hcopies : pathCopies path = DotScan.copies (path.length + 1) ⟨path, 0, 0⟩ := by
    rw [pathCopies, if_neg hdot, if_neg hdots]
  constructor
  · intro hc
    have hsafe := hc.safe
    rw [hcopies] at hsafe
    exact .inr (.inr (hsplit ▸ hdotless hsafe hc.dotless))
  · rintro (h | h | h)
    · exact absurd h hroot
    · exact absurd h hd
    · obtain ⟨hsafe, hdl, hsub⟩ := hclear (hsplit ▸ h)
      rw [nil_append, ← hpath] at hsub
      exact ⟨hcopies ▸ hsafe, hdl, pieces_of_sublist hsub, fun h => absurd h hroot⟩

/-- Of "./" the terminator is left. -/
theorem removeDotsFromPath_prefix :
    removeDotsFromPath [dot, slash] = .ok [0] ∧ ¬ Cleared [dot, slash] [0] := by
  refine ⟨rfl, fun h => ?_⟩
  obtain ⟨pieces, hflat, hpieces⟩ := h.pieces
  obtain ⟨p, hp, hmem⟩ := mem_flatten.1 (hflat ▸ mem_cons_self : (0 : UInt16) ∈ _)
  have := (hpieces p hp).subset hmem
  revert this
  decide

end QtBase.Url
