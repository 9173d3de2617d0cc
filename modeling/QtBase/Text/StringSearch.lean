import QtBase.Text.FindString

/-! When `findString` and `QStringMatcher::indexIn` are naive search. -/
namespace QtBase.StringMatcher

open PatternSearch Unicode Function Int Nat

variable {fold : ℕ → ℕ} {haystack needle : QStringView} {cs : CaseSensitivity}

/-- The search returns the first match from `start` on, or -1 when there is none. -/
def Finds (fold : ℕ → ℕ) (haystack needle : QStringView) (cs : CaseSensitivity) (start : ℤ)
    (result : Exec ℤ) : Prop :=
  ∃ r, result = .ok r ∧ FirstAt (Matches fold haystack needle cs) start r

/-- What a case insensitive search asks of the needle: no surrogate pair in the first 256 units,
and no other fold of a pair that is cut there. -/
structure Tame (fold : ℕ → ℕ) (needle : QStringView) : Prop where
  low : ∀ t : ℕ, t < 256 → t < needle.size → ¬ Low (needle.utf16 t)
  cut : 256 < needle.size → High (needle.utf16 255) → ∀ v, Low v →
    fold (QChar.surrogateToUcs4 (needle.utf16 255) v).toNat =
      fold (QChar.surrogateToUcs4 (needle.utf16 255) (needle.utf16 256)).toNat →
    v = needle.utf16 256

/-- The needles that are found wherever they stand: `int(len)` does not get negative, or the needle
is `Tame`. -/
def Searchable (fold : ℕ → ℕ) (needle : QStringView) (cs : CaseSensitivity) : Prop :=
  match cs with
  | .CaseSensitive => 0 ≤ (needle.size : ℤ).bmod (2 ^ 32)
  | .CaseInsensitive => Tame fold needle

/-! ## The skip table -/

/-- The keys that the loop of `bm_find` compares. -/
def compared (needle : QStringView) (cs : CaseSensitivity) : ℕ :=
  match cs with
  | .CaseSensitive => needle.size
  | .CaseInsensitive => min needle.size FoldBufferCapacity

theorem bm_init_skiptable_eq (h : 0 ≤ (compared needle cs : ℤ).bmod (2 ^ 32)) :
    ∃ n : ℕ, n ≤ compared needle cs ∧ bm_init_skiptable fold needle cs =
      .ok (fillSkiptable (keyOf fold cs needle.utf16 (compared needle cs - n)) n
        (compared needle cs - n) fun _ => n) ∧ n ≤ 255 := by
  obtain ⟨n, hn⟩ := eq_ofNat_of_zero_le
    (show 0 ≤ min ((compared needle cs : ℤ).bmod (2 ^ 32)) 255 by omega)
  have hle : (compared needle cs : ℤ).bmod (2 ^ 32) ≤ compared needle cs := by
    rw [bmod_def] at h ⊢
    split_ifs at h ⊢ <;> omega
  have hinit : bm_init_skiptable fold needle cs =
      let l := min ((compared needle cs : ℤ).bmod (2 ^ 32)) 255
      if l < 0 then .error .undefined
      else .ok (fillSkiptable (keyOf fold cs needle.utf16 (compared needle cs - l)) l.toNat
        (compared needle cs - l) fun _ => l.toNat) := by
    cases cs with
    | CaseSensitive => rfl
    | CaseInsensitive =>
      unfold bm_init_skiptable compared
      simp
  refine ⟨n, by omega, ?_, by omega⟩
  rw [hinit, hn]
  dsimp only
  rw [if_neg (by omega), toNat_natCast]

/-! ## Case sensitive search -/

variable {start : ℤ}

theorem indexIn_sensitive (hf : CaseFolding fold) (hwf : WellFormed needle)
    (hsize : 1 ≤ needle.size) (hcount : 0 ≤ (needle.size : ℤ).bmod (2 ^ 32)) (hstart : 0 ≤ start) :
    Finds fold haystack needle .CaseSensitive start
      (indexIn fold needle .CaseSensitive haystack start) := by
  obtain ⟨n, hn, hinit, -⟩ := @bm_init_skiptable_eq fold needle .CaseSensitive hcount
  have htable := @skips_fillSkiptable (keyOf fold .CaseSensitive needle.utf16 (needle.size - n))
    (fun t => (needle.utf16 t).toNat) needle.size n hn fun _ _ => rfl
  obtain ⟨r, hloop, hfirst⟩ := @bmLoop_spec (fun i => (haystack.utf16 i).toNat) _ _ _
    (fun _ => true) haystack.size hsize htable (Or.inl fun _ => rfl) (haystack.size + 1)
    (start + (needle.size - 1)) (by omega) (by omega)
  refine ⟨r, ?_, ?_⟩
  · unfold indexIn bm_find
    rw [hinit, if_neg (by omega)]
    dsimp only [bind, Except.bind]
    rw [if_neg (by omega)]
    exact hloop
  · rw [add_sub_cancel_right] at hfirst
    refine (FirstAt.congr fun i hi => ?_).mp hfirst
    rw [matches_iff hf hwf hsize (by omega)]
    exact and_congr_right fun _ => and_iff_left rfl

/-! ## Case insensitive search -/

section Insensitive

theorem CaseFolding.surrogate_eq (hf : CaseFolding fold) {u v : UInt16}
    (hv : 0xd800 ≤ v.toNat ∧ v.toNat < 0xe000) (h : fold u.toNat = fold v.toNat) : u = v := by
  rw [hf.surrogate _ hv.1 hv.2] at h
  by_cases hu : 0xd800 ≤ u.toNat ∧ u.toNat < 0xe000
  · rw [hf.surrogate _ hu.1 hu.2] at h
    exact UInt16.toNat_inj.mp h
  · exact absurd (h ▸ hv) (hf.other _ (toNat_lt u) hu)

/-- `foldBuffer` -/
def folded (fold : ℕ → ℕ) (needle : QStringView) (t : ℕ) : ℕ :=
  foldCase fold needle.utf16 0 t % 2 ^ 16

/-- What `bm_find` asks at a candidate whose first 256 units match. -/
def restFollows (fold : ℕ → ℕ) (haystack needle : QStringView) (candidatePos : ℤ) : Bool :=
  let foldBufferLength := min FoldBufferCapacity needle.size
  let restNeedle := needle.sliced foldBufferLength (needle.size - foldBufferLength)
  restNeedle.size = 0 || startsWith fold
    (haystack.sliced (min (haystack.size : ℤ) (candidatePos + foldBufferLength))
      (haystack.size - (candidatePos + foldBufferLength).toNat)) restNeedle .CaseInsensitive

theorem bm_find_insensitive (hsize : 1 ≤ needle.size) (table : ℕ → ℕ) (start : ℤ) :
    bm_find fold haystack start needle table .CaseInsensitive =
      bmLoop (foldCase fold haystack.utf16 0) (folded fold needle) (min 256 needle.size) table
        (restFollows fold haystack needle) haystack.size (haystack.size + 1)
        (start + ((min 256 needle.size : ℕ) - 1)) := by
  unfold bm_find
  dsimp only
  rw [if_neg (by omega)]
  rfl

theorem Tame.foldCase_eq (htame : Tame fold needle) {t : ℕ} (ht : t < 256)
    (hlt : t < needle.size) : foldCase fold needle.utf16 start t = fold (needle.utf16 t).toNat :=
  foldCase_single fun h => htame.low t ht hlt h.1

theorem Tame.folded_eq (hf : CaseFolding fold) (htame : Tame fold needle) {t : ℕ} (ht : t < 256)
    (hlt : t < needle.size) : folded fold needle t = foldCase fold needle.utf16 0 t := by
  unfold folded
  rw [htame.foldCase_eq ht hlt]
  exact mod_eq_of_lt (hf.plane _ (toNat_lt _))

theorem startsWith_iff (hsize : 1 ≤ needle.size) :
    startsWith fold haystack needle cs = true ↔ needle.size ≤ haystack.size ∧
      compareStrings fold (haystack.sliced 0 needle.size) needle cs = 0 := by
  unfold startsWith
  by_cases hempty : haystack.size = 0
  · rw [if_pos hempty, decide_eq_true_eq]
    exact ⟨fun h => by omega, fun h => by omega⟩
  · rw [if_neg hempty]
    by_cases hlong : needle.size > haystack.size
    · rw [if_pos hlong]
      exact ⟨fun h => absurd h Bool.false_ne_true, fun h => by omega⟩
    · rw [if_neg hlong, decide_eq_true_eq]
      exact ⟨fun h => ⟨by omega, h⟩, fun h => h.2⟩

theorem restFollows_iff (hlong : 256 < needle.size) {i : ℤ} (hi : 0 ≤ i)
    (hin : i + 256 ≤ haystack.size) :
    restFollows fold haystack needle i = true ↔ i + needle.size ≤ haystack.size ∧
      ∀ t : ℕ, t < needle.size - 256 →
        foldCase fold (fun j => haystack.utf16 (i + 256 + j)) 0 t =
          foldCase fold (fun j => needle.utf16 (256 + j)) 0 t := by
  have hlength : min FoldBufferCapacity needle.size = 256 := min_eq_left hlong.le
  have hplace : min (haystack.size : ℤ) (i + (256 : ℕ)) = i + 256 := by omega
  have hrest : ¬ (needle.sliced (256 : ℕ) (needle.size - 256)).size = 0 :=
    sub_ne_zero_of_lt hlong
  have hzero : (fun j => haystack.utf16 (i + 256 + (0 + j))) =
      fun j => haystack.utf16 (i + 256 + j) := by
    funext j
    rw [zero_add]
  unfold restFollows
  rw [hlength]
  dsimp only
  rw [hplace, decide_eq_false hrest, Bool.false_or, startsWith_iff (by omega),
    compareStrings_eq_zero]
  unfold QStringView.sliced keyOf
  dsimp only
  rw [hzero]
  constructor
  · rintro ⟨hfits, -, hkeys⟩
    exact ⟨by omega, hkeys⟩
  · rintro ⟨hfits, hkeys⟩
    exact ⟨by omega, rfl, hkeys⟩

theorem restFollows_short (hshort : needle.size ≤ 256) (i : ℤ) :
    restFollows fold haystack needle i = true := by
  have hlength : min FoldBufferCapacity needle.size = needle.size := min_eq_right hshort
  unfold restFollows QStringView.sliced
  rw [hlength]
  simp

/-- A pair that is cut after 256 units matches as two units where it matches as a pair. -/
theorem Tame.cut_iff (hf : CaseFolding fold) (hwf : WellFormed needle) (htame : Tame fold needle)
    (hlong : 256 < needle.size) {i : ℤ} (hi : 0 ≤ i)
    (hbefore : foldCase fold haystack.utf16 0 (i + 255) = foldCase fold needle.utf16 0 255) :
    fold (haystack.utf16 (i + 256)).toNat = fold (needle.utf16 256).toNat ↔
      foldCase fold haystack.utf16 0 (i + 256) = foldCase fold needle.utf16 0 256 := by
  by_cases hlow : Low (needle.utf16 256)
  · have hhigh : High (needle.utf16 255) := (hwf.low 256 hlong hlow).2
    have hlast : foldCase fold needle.utf16 0 255 = fold (needle.utf16 255).toNat :=
      htame.foldCase_eq (t := 255) (by omega) (by omega)
    have hfirst : haystack.utf16 (i + 255) = needle.utf16 255 := by
      refine hf.surrogate_eq (by unfold High at hhigh; omega) ?_
      exact (hf.boundary (htame.low 255 (by omega) (by omega))).mp (hbefore.trans hlast)
    have hplace : i + 256 - 1 = i + 255 := by omega
    have hneedle : foldCase fold needle.utf16 0 256 =
        fold (QChar.surrogateToUcs4 (needle.utf16 255) (needle.utf16 256)).toNat :=
      foldCase_pair ⟨hlow, by omega, hhigh⟩
    have hpair (h : Low (haystack.utf16 (i + 256))) : foldCase fold haystack.utf16 0 (i + 256) =
        fold (QChar.surrogateToUcs4 (needle.utf16 255) (haystack.utf16 (i + 256))).toNat := by
      have hprev : High (haystack.utf16 (i + 256 - 1)) := by
        rw [hplace, hfirst]
        exact hhigh
      rw [foldCase_pair ⟨h, by omega, hprev⟩, hplace, hfirst]
    constructor
    · intro h
      have heq : haystack.utf16 (i + 256) = needle.utf16 256 :=
        hf.surrogate_eq (by unfold Low at hlow; omega) h
      rw [hpair (heq ▸ hlow), heq, hneedle]
    · intro h
      by_cases hsecond : Low (haystack.utf16 (i + 256))
      · rw [hpair hsecond, hneedle] at h
        rw [htame.cut hlong hhigh _ hsecond h]
      · rw [foldCase_single fun hp => hsecond hp.1, hneedle] at h
        have hbeyond := hf.pair_beyond hhigh hlow
        have hplane := hf.plane _ (toNat_lt (haystack.utf16 (i + 256)))
        omega
  · have hneedle : foldCase fold needle.utf16 0 256 = fold (needle.utf16 256).toNat :=
      foldCase_single fun h => hlow h.1
    rw [hneedle, hf.boundary hlow]

theorem Tame.tail_iff (hf : CaseFolding fold) (hwf : WellFormed needle) (htame : Tame fold needle)
    (hlong : 256 < needle.size) {i : ℤ} (hi : 0 ≤ i)
    (hbefore : foldCase fold haystack.utf16 0 (i + 255) = foldCase fold needle.utf16 0 255)
    (t : ℕ) :
    foldCase fold (fun j => haystack.utf16 (i + 256 + j)) 0 t =
        foldCase fold (fun j => needle.utf16 (256 + j)) 0 t ↔
      foldCase fold haystack.utf16 0 (i + (256 + t : ℕ)) =
        foldCase fold needle.utf16 0 (256 + t : ℕ) := by
  have hplace : i + ((256 + t : ℕ) : ℤ) = i + 256 + t := by omega
  have hneedle : ((256 + t : ℕ) : ℤ) = 256 + t := by omega
  rw [hplace, hneedle]
  cases t with
  | zero =>
    have hsingle (units : ℤ → UInt16) (pos : ℤ) :
        foldCase fold (fun j => units (pos + j)) 0 (0 : ℕ) = fold (units pos).toNat := by
      rw [foldCase_single fun h => absurd h.2.1 (by omega), Nat.cast_zero, add_zero]
    rw [hsingle haystack.utf16, hsingle needle.utf16, Nat.cast_zero, add_zero, add_zero]
    exact htame.cut_iff hf hwf hlong hi hbefore
  | succ t =>
    rw [foldCase_window (by omega) (Nat.succ_pos t), foldCase_window (by omega) (Nat.succ_pos t)]

theorem Tame.occurs_iff (hf : CaseFolding fold) (htame : Tame fold needle) {n : ℕ} (hn : n ≤ 256)
    (hle : n ≤ needle.size) {i : ℤ} :
    Occurs (foldCase fold haystack.utf16 0) (folded fold needle) n i ↔
      Occurs (foldCase fold haystack.utf16 0) (fun t => foldCase fold needle.utf16 0 t) n i := by
  constructor
  · intro h t ht
    exact (h t ht).trans (htame.folded_eq hf (by omega) (by omega))
  · intro h t ht
    exact (h t ht).trans (htame.folded_eq hf (by omega) (by omega)).symm

/-- What `bmLoop` looks for with a tame needle are its matches. -/
theorem Tame.hit_iff (hf : CaseFolding fold) (hwf : WellFormed needle) (htame : Tame fold needle)
    (hsize : 1 ≤ needle.size) {i : ℤ} (hi : 0 ≤ i) :
    Hit (foldCase fold haystack.utf16 0) (folded fold needle) (min 256 needle.size)
      (restFollows fold haystack needle) haystack.size i ↔
      Matches fold haystack needle .CaseInsensitive i := by
  rw [matches_iff hf hwf hsize hi]
  unfold Hit
  rw [htame.occurs_iff hf (Nat.min_le_left _ _) (Nat.min_le_right _ _)]
  by_cases hlong : 256 < needle.size
  · rw [show min 256 needle.size = 256 from Nat.min_eq_left hlong.le]
    constructor
    · rintro ⟨hin, hoccurs, hrest⟩
      obtain ⟨hfits, hkeys⟩ := (restFollows_iff hlong hi (by omega)).mp hrest
      refine ⟨hfits, fun t ht => ?_⟩
      by_cases hless : t < 256
      · exact hoccurs t hless
      · obtain ⟨d, rfl⟩ : ∃ d, t = 256 + d := ⟨t - 256, by omega⟩
        exact (htame.tail_iff hf hwf hlong hi (hoccurs 255 (by omega)) d).mp (hkeys d (by omega))
    · rintro ⟨hfits, hoccurs⟩
      have hbefore := hoccurs 255 (by omega)
      refine ⟨by omega, fun t ht => hoccurs t (by omega), ?_⟩
      refine (restFollows_iff hlong hi (by omega)).mpr ⟨hfits, fun t ht => ?_⟩
      exact (htame.tail_iff hf hwf hlong hi hbefore t).mpr (hoccurs (256 + t) (by omega))
  · have hshort : needle.size ≤ 256 := Nat.le_of_not_lt hlong
    rw [show min 256 needle.size = needle.size from Nat.min_eq_right hshort]
    exact and_congr_right fun _ => and_iff_left (restFollows_short hshort i)

theorem indexIn_insensitive (hf : CaseFolding fold) (hwf : WellFormed needle)
    (hsize : 1 ≤ needle.size) (htame : Tame fold needle) (hstart : 0 ≤ start) :
    Finds fold haystack needle .CaseInsensitive start
      (indexIn fold needle .CaseInsensitive haystack start) := by
  have hlength : compared needle .CaseInsensitive = min 256 needle.size := min_comm _ _
  have hcount : 0 ≤ (compared needle .CaseInsensitive : ℤ).bmod (2 ^ 32) := by
    rw [hlength, bmod_eq_of_le] <;> omega
  obtain ⟨n, hn, hinit, hbyte⟩ := @bm_init_skiptable_eq fold needle .CaseInsensitive hcount
  rw [hlength] at hn hinit
  have htable := @skips_fillSkiptable
    (keyOf fold .CaseInsensitive needle.utf16 ((min 256 needle.size : ℕ) - n))
    (folded fold needle) (min 256 needle.size) n hn fun t ht => by
      have hkey : keyOf fold .CaseInsensitive needle.utf16 ((min 256 needle.size : ℕ) - n) t =
          fold (needle.utf16 t).toNat := htame.foldCase_eq (by omega) (by omega)
      rw [hkey, htame.folded_eq hf (by omega) (by omega), htame.foldCase_eq (by omega) (by omega)]
  have hfull : (∀ i, restFollows fold haystack needle i = true) ∨
      ∀ b, fillSkiptable (keyOf fold .CaseInsensitive needle.utf16 ((min 256 needle.size : ℕ) - n))
        n ((min 256 needle.size : ℕ) - n) (fun _ => n) b < min 256 needle.size := by
    by_cases hshort : needle.size ≤ 256
    · exact Or.inl (restFollows_short hshort)
    · refine Or.inr fun b => lt_of_le_of_lt (fillSkiptable_le _ _ _) (by omega)
  obtain ⟨r, hloop, hfirst⟩ := @bmLoop_spec (foldCase fold haystack.utf16 0) _ _ _
    (restFollows fold haystack needle) haystack.size (by omega) htable hfull (haystack.size + 1)
    (start + ((min 256 needle.size : ℕ) - 1)) (by omega) (by omega)
  refine ⟨r, ?_, ?_⟩
  · unfold indexIn
    rw [hinit, if_neg (by omega)]
    exact (bm_find_insensitive hsize _ _).trans hloop
  · rw [add_sub_cancel_right] at hfirst
    exact (FirstAt.congr fun i hi => htame.hit_iff hf hwf hsize (by omega)).mp hfirst

theorem indexIn_sound (hsize : 1 ≤ needle.size) {r : ℤ}
    (h : indexIn fold needle .CaseInsensitive haystack start = .ok r) :
    r = -1 ∨ Hit (foldCase fold haystack.utf16 0) (folded fold needle) (min 256 needle.size)
      (restFollows fold haystack needle) haystack.size r := by
  unfold indexIn at h
  obtain ⟨table, -, hfind⟩ := bind_eq_ok h
  rw [bm_find_insensitive hsize] at hfind
  exact bmLoop_sound (by omega) hfind

theorem misses_pair (hf : CaseFolding fold) (hwf : WellFormed needle) (hsize : 1 ≤ needle.size)
    {t : ℕ} (ht : t < 256) (hlt : t < needle.size) (hlow : Low (needle.utf16 t)) {i : ℤ}
    (hstart : 0 ≤ start) (hi : start ≤ i)
    (hmatch : Matches fold haystack needle .CaseInsensitive i) :
    ¬ Finds fold haystack needle .CaseInsensitive start
      (indexIn fold needle .CaseInsensitive haystack start) := by
  rintro ⟨r, hindex, hfirst⟩
  rcases hfirst with ⟨hr, hfound, -⟩ | ⟨-, hnone⟩
  · rcases indexIn_sound hsize hindex with rfl | ⟨-, hoccurs, -⟩
    · omega
    · obtain ⟨hpos, hhigh⟩ := hwf.low t hlt hlow
      have hcut : foldCase fold haystack.utf16 0 (r + t) = folded fold needle t :=
        hoccurs t (by omega)
      have hwhole : foldCase fold haystack.utf16 0 (r + t) = foldCase fold needle.utf16 0 t :=
        ((matches_iff hf hwf hsize (by omega)).mp hfound).2 t hlt
      have hbeyond := hf.pair_beyond hhigh hlow
      rw [← @foldCase_pair fold needle.utf16 t 0 ⟨hlow, by omega, hhigh⟩, ← hwhole, hcut] at hbeyond
      have hless : folded fold needle t < 2 ^ 16 := mod_lt _ (by omega)
      omega
  · exact hnone i hi hmatch

theorem foldCase_update (hhigh : High (needle.utf16 255)) (hlow : Low (needle.utf16 256))
    {v : UInt16} (hv : Low v)
    (hfold : fold (QChar.surrogateToUcs4 (needle.utf16 255) v).toNat =
      fold (QChar.surrogateToUcs4 (needle.utf16 255) (needle.utf16 256)).toNat) (t : ℕ) :
    foldCase fold (update needle.utf16 256 v) 0 t = foldCase fold needle.utf16 0 t := by
  have hother (j : ℤ) (hj : j ≠ 256) : update needle.utf16 256 v j = needle.utf16 j :=
    update_of_ne hj _ _
  have hself : update needle.utf16 256 v 256 = v := update_self _ _ _
  have hnot {u : UInt16} (h : Low u) : ¬ High u := by
    unfold Low at h
    unfold High
    omega
  by_cases hcut : t = 256
  · subst hcut
    have hupdated : foldCase fold (update needle.utf16 256 v) 0 256 =
        fold (QChar.surrogateToUcs4 (needle.utf16 255) v).toNat := by
      have hbefore : update needle.utf16 256 v (256 - 1) = needle.utf16 255 :=
        hother _ (by omega)
      rw [foldCase_pair, hself, hbefore]
      exact ⟨hself ▸ hv, by omega, hbefore ▸ hhigh⟩
    have hneedle : foldCase fold needle.utf16 0 256 =
        fold (QChar.surrogateToUcs4 (needle.utf16 255) (needle.utf16 256)).toNat :=
      foldCase_pair ⟨hlow, by omega, hhigh⟩
    exact hupdated.trans (hfold.trans hneedle.symm)
  · by_cases hafter : t = 257
    · subst hafter
      have hunit : update needle.utf16 256 v (257 : ℕ) = needle.utf16 (257 : ℕ) :=
        hother _ (by omega)
      have hbefore : update needle.utf16 256 v ((257 : ℕ) - 1) = v := hself
      rw [foldCase_single fun h => hnot hv (hbefore ▸ h.2.2), hunit,
        foldCase_single fun h => hnot hlow h.2.2]
    · unfold foldCase
      rw [hother t (by omega), hother (t - 1) (by omega)]

/-- A pair that is cut after 256 units is not found where another pair with the same fold stands. -/
theorem misses_cut (hf : CaseFolding fold) (hwf : WellFormed needle) (hlong : 256 < needle.size)
    (hhigh : High (needle.utf16 255)) {v : UInt16} (hv : Low v)
    (hfold : fold (QChar.surrogateToUcs4 (needle.utf16 255) v).toNat =
      fold (QChar.surrogateToUcs4 (needle.utf16 255) (needle.utf16 256)).toNat)
    (hne : v ≠ needle.utf16 256) {size : ℕ} (hfits : needle.size ≤ size) :
    ¬ Finds fold ⟨update needle.utf16 256 v, size⟩ needle .CaseInsensitive 0
      (indexIn fold needle .CaseInsensitive ⟨update needle.utf16 256 v, size⟩ 0) := by
  have hlow : Low (needle.utf16 256) := (hwf.high 255 (by omega) hhigh).2
  have hmatch : Matches fold ⟨update needle.utf16 256 v, size⟩ needle
      .CaseInsensitive 0 := by
    refine (matches_iff hf hwf (by omega) (le_refl 0)).mpr ⟨by dsimp only; omega, fun t _ => ?_⟩
    rw [zero_add]
    exact foldCase_update hhigh hlow hv hfold t
  rintro ⟨r, hindex, hfirst⟩
  obtain rfl := hfirst.unique (.here hmatch)
  rcases indexIn_sound (by omega) hindex with h | ⟨hin, -, hrest⟩
  · omega
  · have hkeys := ((restFollows_iff hlong (le_refl 0) (by dsimp only; omega)).mp hrest).2
    have hfirstKey := hkeys 0 (by omega)
    rw [foldCase_single fun h => absurd h.2.1 (by omega),
      foldCase_single fun h => absurd h.2.1 (by omega)] at hfirstKey
    refine hne (hf.surrogate_eq (by unfold Low at hlow; omega) ?_)
    have hself : update needle.utf16 256 v (0 + 256 + (0 : ℕ)) = v :=
      update_self _ _ _
    rw [← hself]
    exact hfirstKey

end Insensitive

/-! ## Both searches -/

theorem indexIn_finds (hf : CaseFolding fold) (hwf : WellFormed needle) (hsize : 1 ≤ needle.size)
    (h : Searchable fold needle cs) (hstart : 0 ≤ start) :
    Finds fold haystack needle cs start (indexIn fold needle cs haystack start) := by
  cases cs with
  | CaseSensitive => exact indexIn_sensitive hf hwf hsize h hstart
  | CaseInsensitive => exact indexIn_insensitive hf hwf hsize h hstart

theorem matches_self (hf : CaseFolding fold) (hwf : WellFormed needle) (hsize : 1 ≤ needle.size)
    {size : ℕ} (hfits : needle.size ≤ size) :
    Matches fold ⟨needle.utf16, size⟩ needle cs 0 := by
  refine (matches_iff hf hwf hsize (le_refl 0)).mpr ⟨by dsimp only; omega, fun t _ => ?_⟩
  rw [zero_add]

theorem exists_missed (hf : CaseFolding fold) (hwf : WellFormed needle) (hsize : 1 ≤ needle.size)
    (h : ¬ Searchable fold needle cs) :
    ∃ haystack : QStringView, 500 < haystack.size ∧ needle.size ≤ haystack.size ∧
      ¬ Finds fold haystack needle cs 0 (indexIn fold needle cs haystack 0) := by
  have hfits : needle.size ≤ needle.size + 501 := by omega
  cases cs with
  | CaseSensitive =>
    refine ⟨⟨needle.utf16, needle.size + 501⟩, by dsimp only; omega, hfits, ?_⟩
    rintro ⟨r, hindex, -⟩
    obtain ⟨table, hinit, -⟩ := bind_eq_ok hindex
    have hneg : min ((needle.size : ℤ).bmod (2 ^ 32)) 255 < 0 := by
      unfold Searchable at h
      dsimp only at h
      omega
    unfold bm_init_skiptable at hinit
    dsimp only at hinit
    rw [if_pos hneg] at hinit
    cases hinit
  | CaseInsensitive =>
    by_cases hpairs : ∀ t : ℕ, t < 256 → t < needle.size → ¬ Low (needle.utf16 t)
    · have hcut : ¬ (256 < needle.size → High (needle.utf16 255) → ∀ v, Low v →
          fold (QChar.surrogateToUcs4 (needle.utf16 255) v).toNat =
            fold (QChar.surrogateToUcs4 (needle.utf16 255) (needle.utf16 256)).toNat →
          v = needle.utf16 256) := fun hcut => h ⟨hpairs, hcut⟩
      push Not at hcut
      obtain ⟨hlong, hhigh, v, hv, hfold, hne⟩ := hcut
      exact ⟨⟨update needle.utf16 256 v, needle.size + 501⟩, by dsimp only; omega, hfits,
        misses_cut hf hwf hlong hhigh hv hfold hne hfits⟩
    · push Not at hpairs
      obtain ⟨t, ht, hlt, hlow⟩ := hpairs
      exact ⟨⟨needle.utf16, needle.size + 501⟩, by dsimp only; omega, hfits,
        misses_pair hf hwf hsize ht hlt hlow (le_refl 0) (le_refl 0)
          (matches_self hf hwf hsize hfits)⟩

theorem findString_long (hlong : haystack.size > 500 ∧ needle.size > 5)
    (hstart : 0 ≤ startOf haystack.size start)
    (hfits : needle.size + startOf haystack.size start ≤ haystack.size) :
    findString fold haystack start needle cs =
      indexIn fold needle cs haystack (startOf haystack.size start) := by
  unfold findString
  dsimp only
  rw [← startOf, if_neg (by omega), if_neg (by omega), if_neg (by omega), if_neg (by omega),
    if_pos hlong]
  rfl

theorem findString_finds (hf : CaseFolding fold) (hwf : WellFormed needle) (hsize : 1 ≤ needle.size)
    (hstart : -haystack.size ≤ start)
    (h : haystack.size ≤ 500 ∨ needle.size ≤ 5 ∨ Searchable fold needle cs) :
    Finds fold haystack needle cs (startOf haystack.size start)
      (findString fold haystack start needle cs) := by
  by_cases hlong : haystack.size > 500 ∧ needle.size > 5
  · have hsearchable : Searchable fold needle cs := by
      rcases h with h | h | h
      · omega
      · omega
      · exact h
    have hpos : 0 ≤ startOf haystack.size start := by
      unfold startOf
      split_ifs <;> omega
    by_cases hfits : needle.size + startOf haystack.size start ≤ haystack.size
    · rw [findString_long hlong hpos hfits]
      exact indexIn_finds hf hwf hsize hsearchable hpos
    · refine ⟨-1, ?_, .none fun i hi hmatch => ?_⟩
      · unfold findString
        dsimp only
        rw [← startOf, if_pos (Or.inr (by omega))]
      · have := hmatch.1
        omega
  · exact findString_short hf hwf hsize hstart hlong

/-- The case folds of ASCII. -/
def asciiFold (u : ℕ) : ℕ := if 0x41 ≤ u ∧ u ≤ 0x5a then u + 0x20 else u

theorem caseFolding_asciiFold : CaseFolding asciiFold := by
  constructor <;> intro u <;> unfold asciiFold <;> split_ifs <;> omega

def letterT : QStringView := ⟨fun _ => 0x54, 1⟩

def letters : QStringView := ⟨fun i => if i = 0 then 0x51 else 0x74, 2⟩

theorem not_low_letterT (t : ℕ) : ¬ Low (letterT.utf16 t) := by
  change ¬ Low 0x54
  decide

theorem wellFormed_letterT : WellFormed letterT := by
  constructor
  · intro t _ h
    exact absurd h (not_low_letterT t)
  · intro t _ h
    change High 0x54 at h
    exact absurd h (by decide)

/-- U+1F600 -/
def grinning : QStringView := ⟨fun i => if i = 0 then 0xd83d else 0xde00, 2⟩

end QtBase.StringMatcher
