import Mathlib.Data.List.TakeWhile
import QtBase.Io.PunycodeCanonical

/-! Domain names in Unicode: two names that are displayed alike are the same, if their labels are
canonical. -/
namespace QtBase

open List Bool

namespace Punycode

open Bootstring Bootstring.Cursor Unicode

/-- The loop of `convertToUnicode` on what follows `lastIdx`. The checker is a parameter, with its
state. -/
def convertLoop {σ : Type} (checkLabel : σ → List UInt16 → Bool × σ) (asciiDomain : List UInt16) :
    ℕ → σ → List UInt16 → List UInt16 → List UInt16
  | 0, _, _, result => result
  | rounds + 1, checker, rest, result =>
    let label := rest.takeWhile fun c => c != 0x2e
    let after := rest.dropWhile fun c => c != 0x2e
    if label = [] then
      if after = [] then result
      else convertLoop checkLabel asciiDomain rounds checker (after.drop 1) (result ++ [0x2e])
    else
      let unicodeLabel := (qt_punycodeDecoder label).value
      if unicodeLabel = [] then asciiDomain
      else
        let (ok, checker) := checkLabel checker unicodeLabel
        if !ok then asciiDomain
        else if after = [] then result ++ unicodeLabel
        else convertLoop checkLabel asciiDomain rounds checker (after.drop 1)
          (result ++ unicodeLabel ++ [0x2e])

def convertToUnicode {σ : Type} (checkLabel : σ → List UInt16 → Bool × σ) (checker : σ)
    (asciiDomain : List UInt16) : List UInt16 :=
  convertLoop checkLabel asciiDomain (asciiDomain.length + 1) checker asciiDomain []

/-- The labels, each as it is displayed. -/
def display (rest : List UInt16) : List UInt16 :=
  [0x2e].intercalate ((rest.splitOn 0x2e).map fun label => (qt_punycodeDecoder label).value)

/-- Each label is displayed as something. -/
def Displayed (rest : List UInt16) : Prop :=
  ∀ label ∈ rest.splitOn 0x2e, label ≠ [] → (qt_punycodeDecoder label).value ≠ []

theorem decoder_nil : (qt_punycodeDecoder []).value = [] := rfl

theorem takeWhile_splitOn (rest : List UInt16) :
    (rest.dropWhile (fun c => c != 0x2e) = [] ∧
      rest.splitOn 0x2e = [rest.takeWhile fun c => c != 0x2e]) ∨
    (rest.dropWhile (fun c => c != 0x2e) ≠ [] ∧
      rest.splitOn 0x2e = (rest.takeWhile fun c => c != 0x2e) ::
        ((rest.dropWhile fun c => c != 0x2e).drop 1).splitOn 0x2e ∧
      ((rest.dropWhile fun c => c != 0x2e).drop 1).length < rest.length) := by
  have hsplit := @takeWhile_append_dropWhile _ (fun c : UInt16 => c != 0x2e) rest
  have hnot : (0x2e : UInt16) ∉ rest.takeWhile fun c => c != 0x2e := by
    intro hmem
    have hne := mem_takeWhile_imp hmem
    exact absurd hne (by decide)
  cases hafter : rest.dropWhile (fun c => c != 0x2e) with
  | nil =>
    left
    rw [hafter, append_nil] at hsplit
    rw [hsplit] at hnot ⊢
    exact ⟨rfl, splitOn_eq_singleton hnot⟩
  | cons c after =>
    right
    have hc : c = 0x2e := by
      have hhead := List.head?_dropWhile_not (fun c : UInt16 => c != 0x2e) rest
      rw [hafter] at hhead
      change (c != 0x2e) = false at hhead
      exact bne_eq_false_iff_eq.mp hhead
    rw [hafter] at hsplit
    refine ⟨cons_ne_nil _ _, ?_, ?_⟩
    · have hsplitOn := splitOn_append_cons_self_of_not_mem hnot after
      rw [hc] at hsplit
      rw [hsplit] at hsplitOn
      exact hsplitOn
    · have hlength := congrArg List.length hsplit
      rw [length_append, length_cons] at hlength
      show after.length < rest.length
      omega

theorem convertLoop_eq {σ : Type} (checkLabel : σ → List UInt16 → Bool × σ)
    (asciiDomain : List UInt16) {rounds : ℕ} {rest : List UInt16} (hrounds : rest.length < rounds)
    (checker : σ) (result : List UInt16) :
    convertLoop checkLabel asciiDomain rounds checker rest result = asciiDomain ∨
      (convertLoop checkLabel asciiDomain rounds checker rest result = result ++ display rest ∧
        Displayed rest) := by
  induction rounds generalizing rest checker result with
  | zero => cases hrounds
  | succ rounds ih =>
    have hsplit := takeWhile_splitOn rest
    unfold display Displayed convertLoop
    generalize rest.takeWhile (fun c => c != 0x2e) = label at hsplit ⊢
    generalize rest.dropWhile (fun c => c != 0x2e) = after at hsplit ⊢
    simp only
    rcases hsplit with ⟨hafter, hsplit⟩ | ⟨hafter, hsplit, hlt⟩
    · rw [hsplit, map_singleton, intercalate_singleton]
      by_cases hlabel : label = []
      · rw [if_pos hlabel, if_pos hafter, hlabel, decoder_nil, append_nil]
        right
        refine ⟨rfl, ?_⟩
        intro l hl hne
        exact absurd (mem_singleton.mp hl) hne
      · rw [if_neg hlabel]
        by_cases hunicode : (qt_punycodeDecoder label).value = []
        · rw [if_pos hunicode]
          exact .inl rfl
        · rw [if_neg hunicode]
          cases (checkLabel checker (qt_punycodeDecoder label).value).1 with
          | false => exact .inl rfl
          | true =>
            right
            simp only [Bool.not_true, Bool.false_eq_true, if_false, if_pos hafter]
            refine ⟨trivial, ?_⟩
            intro l hl _
            rw [mem_singleton.mp hl]
            exact hunicode
    · have hnonempty : (after.drop 1).splitOn 0x2e ≠ [] := splitOn_ne_nil _ _
      have hmap : ((after.drop 1).splitOn 0x2e).map (fun label => (qt_punycodeDecoder label).value) ≠
          [] := fun h => hnonempty (map_eq_nil_iff.mp h)
      rw [hsplit, map_cons, intercalate_cons_of_ne_nil hmap]
      by_cases hlabel : label = []
      · rw [if_pos hlabel, if_neg hafter, hlabel, decoder_nil]
        have hrest := @ih (after.drop 1) (by omega) checker (result ++ [0x2e])
        rcases hrest with hrest | ⟨hrest, hdisplayed⟩
        · exact .inl hrest
        · right
          refine ⟨?_, ?_⟩
          · rw [hrest, append_assoc]
            rfl
          · intro l hl hne
            rcases mem_cons.mp hl with heq | hl
            · exact absurd heq hne
            · exact hdisplayed l hl hne
      · rw [if_neg hlabel]
        by_cases hunicode : (qt_punycodeDecoder label).value = []
        · rw [if_pos hunicode]
          exact .inl rfl
        · rw [if_neg hunicode]
          generalize checkLabel checker (qt_punycodeDecoder label).value = checked
          obtain ⟨ok, checker'⟩ := checked
          cases ok with
          | false => exact .inl rfl
          | true =>
            simp only [Bool.not_true, Bool.false_eq_true, if_false, if_neg hafter]
            have hrest := @ih (after.drop 1) (by omega) checker'
              (result ++ (qt_punycodeDecoder label).value ++ [0x2e])
            rcases hrest with hrest | ⟨hrest, hdisplayed⟩
            · exact .inl hrest
            · right
              refine ⟨?_, ?_⟩
              · rw [hrest, append_assoc, append_assoc]
                unfold display
                rw [append_assoc]
              · intro l hl hne
                rcases mem_cons.mp hl with heq | hl
                · simp [heq, hunicode]
                · exact hdisplayed l hl hne

/-- A label of a domain name in ASCII and without capital letters, canonical if it has the prefix. -/
structure CanonicalLabel (label : List UInt16) : Prop where
  ascii : ∀ c ∈ label, c < 0x80
  lower : ∀ c ∈ label, ¬(0x41 ≤ c ∧ c ≤ 0x5a)
  canonical : acePrefix <+: label → Canonical label

def CanonicalName (domain : List UInt16) : Prop :=
  ∀ label ∈ domain.splitOn 0x2e, CanonicalLabel label

variable {label : List UInt16}

theorem decoder_without_ace (hstart : ¬acePrefix <+: label)
    (hne : label ≠ [] → (qt_punycodeDecoder label).value ≠ []) :
    (qt_punycodeDecoder label).value = label := by
  have hnot : (!acePrefix.isPrefixOf label) = true := by
    rw [not_eq_true', ← not_eq_true, isPrefixOf_iff_prefix]
    exact hstart
  unfold qt_punycodeDecoder at hne ⊢
  by_cases hmax : label.length > MaxDomainLabelLength
  · rw [if_pos hmax] at hne
    have hnil : label ≠ [] := by
      intro hnil
      rw [hnil] at hmax
      cases hmax
    exact absurd rfl (hne hnil)
  · rw [if_neg hmax, if_pos hnot]
    rfl

/-- What a label with the prefix is displayed as. -/
theorem CanonicalLabel.ace (h : CanonicalLabel label) (hstart : acePrefix <+: label)
    (hne : label ≠ [] → (qt_punycodeDecoder label).value ≠ []) :
    AceLabel label ∧ (qt_punycodeDecoder label).value ≠ [] := by
  have hnil : label ≠ [] := by
    intro hnil
    rw [hnil] at hstart
    exact absurd (prefix_nil.mp hstart) (by decide)
  refine ⟨⟨hstart, h.ascii, h.lower, ?_⟩, hne hnil⟩
  by_contra hlong
  have hmax : label.length > MaxDomainLabelLength := Nat.not_le.mp hlong
  apply hne hnil
  unfold qt_punycodeDecoder
  rw [if_pos hmax]
  rfl

theorem CanonicalLabel.not_ascii (h : CanonicalLabel label) (hstart : acePrefix <+: label)
    (hne : label ≠ [] → (qt_punycodeDecoder label).value ≠ []) :
    ∃ u ∈ (qt_punycodeDecoder label).value, 0x80 ≤ u := by
  obtain ⟨hace, hne'⟩ := h.ace hstart hne
  obtain ⟨_, _, _, hvalue, hskipped, _⟩ :=
    spelling_of_encoded hace hne' ((encoded_iff hace hne').mpr (h.canonical hstart))
  rw [hvalue]
  exact hskipped

theorem CanonicalLabel.injective {l₁ l₂ : List UInt16} (h₁ : CanonicalLabel l₁)
    (h₂ : CanonicalLabel l₂) (hne₁ : l₁ ≠ [] → (qt_punycodeDecoder l₁).value ≠ [])
    (hne₂ : l₂ ≠ [] → (qt_punycodeDecoder l₂).value ≠ [])
    (heq : (qt_punycodeDecoder l₁).value = (qt_punycodeDecoder l₂).value) : l₁ = l₂ := by
  by_cases hp₁ : acePrefix <+: l₁
  · have hnot₁ := h₁.not_ascii hp₁ hne₁
    by_cases hp₂ : acePrefix <+: l₂
    · obtain ⟨hace₁, hne₁'⟩ := h₁.ace hp₁ hne₁
      obtain ⟨hace₂, hne₂'⟩ := h₂.ace hp₂ hne₂
      have hencode₁ := (encoded_iff hace₁ hne₁').mpr (h₁.canonical hp₁)
      have hencode₂ := (encoded_iff hace₂ hne₂').mpr (h₂.canonical hp₂)
      rw [heq, hencode₂] at hencode₁
      exact (Option.some.inj hencode₁).symm
    · rw [heq, decoder_without_ace hp₂ hne₂] at hnot₁
      obtain ⟨u, hu, hle⟩ := hnot₁
      exact absurd (h₂.ascii u hu) (UInt16.not_lt.mpr hle)
  · rw [decoder_without_ace hp₁ hne₁] at heq
    by_cases hp₂ : acePrefix <+: l₂
    · obtain ⟨u, hu, hle⟩ := h₂.not_ascii hp₂ hne₂
      rw [← heq] at hu
      exact absurd (h₁.ascii u hu) (UInt16.not_lt.mpr hle)
    · rw [decoder_without_ace hp₂ hne₂] at heq
      exact heq

theorem not_mem_of_mem_splitOn {n : ℕ} {rest : List UInt16} (hn : rest.length ≤ n)
    (h : label ∈ rest.splitOn 0x2e) : (0x2e : UInt16) ∉ label := by
  induction n generalizing rest with
  | zero =>
    rw [eq_nil_of_length_eq_zero (Nat.le_zero.mp hn)] at h
    rw [mem_singleton.mp h]
    exact not_mem_nil
  | succ n ih =>
    have hfirst : (0x2e : UInt16) ∉ rest.takeWhile fun c => c != 0x2e := by
      intro hmem
      exact absurd (mem_takeWhile_imp hmem) (by decide)
    rcases takeWhile_splitOn rest with ⟨_, hsplit⟩ | ⟨_, hsplit, hlt⟩
    · rw [hsplit] at h
      rw [mem_singleton.mp h]
      exact hfirst
    · rw [hsplit] at h
      rcases mem_cons.mp h with heq | h
      · simp [heq, hfirst]
      · exact ih (by omega) h

/-- No label is displayed with a dot. -/
theorem CanonicalLabel.no_dot (h : CanonicalLabel label)
    (hne : label ≠ [] → (qt_punycodeDecoder label).value ≠ []) (hdot : (0x2e : UInt16) ∉ label) :
    (0x2e : UInt16) ∉ (qt_punycodeDecoder label).value := by
  by_cases hstart : acePrefix <+: label
  · obtain ⟨hace, hne'⟩ := h.ace hstart hne
    obtain ⟨ds, deltas, _, hvalue, _, hspelling, _⟩ :=
      spelling_of_encoded hace hne' ((encoded_iff hace hne').mpr (h.canonical hstart))
    intro hmem
    rw [hvalue] at hmem
    have hbasic : (0x2e : UInt16) ∈ basicUnits (utf16 ds) :=
      mem_filter.mpr ⟨hmem, by decide⟩
    apply hdot
    rw [hspelling]
    unfold spelling basicPart
    rw [if_neg (ne_nil_of_mem hbasic)]
    exact mem_append_right _ (mem_append_left _ (mem_append_left _ hbasic))
  · rw [decoder_without_ace hstart hne]
    exact hdot

theorem splitOn_display {domain : List UInt16} (h : CanonicalName domain)
    (hdisplayed : Displayed domain) : (display domain).splitOn 0x2e =
      (domain.splitOn 0x2e).map fun label => (qt_punycodeDecoder label).value := by
  unfold display
  apply splitOn_intercalate
  · intro l hl
    have ⟨label, hlabel, hl'⟩ := mem_map.mp hl
    rw [← hl']
    exact (h label hlabel).no_dot (hdisplayed label hlabel)
      (not_mem_of_mem_splitOn (Nat.le_refl _) hlabel)
  · intro hnil
    exact splitOn_ne_nil _ domain (map_eq_nil_iff.mp hnil)

theorem map_decoder_injective {ls₁ ls₂ : List (List UInt16)}
    (h₁ : ∀ l ∈ ls₁, CanonicalLabel l ∧ (l ≠ [] → (qt_punycodeDecoder l).value ≠ []))
    (h₂ : ∀ l ∈ ls₂, CanonicalLabel l ∧ (l ≠ [] → (qt_punycodeDecoder l).value ≠ []))
    (heq : ls₁.map (fun l => (qt_punycodeDecoder l).value) =
      ls₂.map fun l => (qt_punycodeDecoder l).value) : ls₁ = ls₂ := by
  induction ls₁ generalizing ls₂ with
  | nil => exact (map_eq_nil_iff.mp heq.symm).symm
  | cons l₁ ls₁ ih =>
    cases ls₂ with
    | nil => cases heq
    | cons l₂ ls₂ =>
      obtain ⟨hhead, htail⟩ := List.cons.inj heq
      have hl₁ := h₁ l₁ mem_cons_self
      have hl₂ := h₂ l₂ mem_cons_self
      have hrest := ih (fun l hl => h₁ l (mem_cons_of_mem _ hl))
        (fun l hl => h₂ l (mem_cons_of_mem _ hl)) htail
      rw [hl₁.1.injective hl₂.1 hl₁.2 hl₂.2 hhead, hrest]

theorem eq_of_display {d₁ d₂ : List UInt16} (h₁ : CanonicalName d₁) (h₂ : CanonicalName d₂)
    (hdisplayed : Displayed d₂) (heq : d₁ = display d₂) : d₁ = d₂ := by
  have hsplit := splitOn_display h₂ hdisplayed
  rw [← heq] at hsplit
  have hplain : (d₂.splitOn 0x2e).map (fun l => (qt_punycodeDecoder l).value) = d₂.splitOn 0x2e := by
    have hid : ∀ l ∈ d₂.splitOn 0x2e, (qt_punycodeDecoder l).value = l := by
      intro l hl
      by_cases hstart : acePrefix <+: l
      · obtain ⟨u, hu, hle⟩ := (h₂ l hl).not_ascii hstart (hdisplayed l hl)
        have hmem : (qt_punycodeDecoder l).value ∈ d₁.splitOn 0x2e := by
          rw [hsplit]
          exact mem_map_of_mem hl
        exact absurd ((h₁ _ hmem).ascii u hu) (UInt16.not_lt.mpr hle)
      · exact decoder_without_ace hstart (hdisplayed l hl)
    exact (map_congr_left hid).trans (map_id' _)
  rw [heq]
  unfold display
  rw [hplain]
  exact intercalate_splitOn 0x2e

theorem convertToUnicode_injective {σ : Type} (checkLabel : σ → List UInt16 → Bool × σ)
    (checker : σ) {d₁ d₂ : List UInt16} (h₁ : CanonicalName d₁) (h₂ : CanonicalName d₂)
    (heq : convertToUnicode checkLabel checker d₁ = convertToUnicode checkLabel checker d₂) :
    d₁ = d₂ := by
  have hconvert (d : List UInt16) :=
    convertLoop_eq checkLabel d (Nat.lt_succ_self d.length) checker []
  rcases hconvert d₁ with h₁' | ⟨h₁', hd₁⟩
  · rcases hconvert d₂ with h₂' | ⟨h₂', hd₂⟩
    · exact h₁'.symm.trans (heq.trans h₂')
    · exact eq_of_display h₁ h₂ hd₂ (h₁'.symm.trans (heq.trans h₂'))
  · rcases hconvert d₂ with h₂' | ⟨h₂', hd₂⟩
    · exact (eq_of_display h₂ h₁ hd₁ (h₂'.symm.trans (heq.symm.trans h₁'))).symm
    · have hdisplay : display d₁ = display d₂ := h₁'.symm.trans (heq.trans h₂')
      have hsplit₁ := splitOn_display h₁ hd₁
      rw [hdisplay, splitOn_display h₂ hd₂] at hsplit₁
      have hlabels := map_decoder_injective (fun l hl => ⟨h₂ l hl, hd₂ l hl⟩)
        (fun l hl => ⟨h₁ l hl, hd₁ l hl⟩) hsplit₁
      have hback (d : List UInt16) : [0x2e].intercalate (d.splitOn 0x2e) = d :=
        intercalate_splitOn 0x2e
      rw [← hback d₁, ← hlabels, hback]

/-- A label in ASCII that the decoder accepts is written again exactly if it is canonical, and names
of canonical labels are not displayed alike. -/
theorem qt_punycode_canonical_iff (p u : List UInt16) (σ : Type)
    (checkLabel : σ → List UInt16 → Bool × σ) (checker : σ) (d₁ d₂ : List UInt16) :
    (AceLabel p → (qt_punycodeDecoder p).value = u → u ≠ [] →
      ((qt_punycodeEncoder u []).value = some p ↔ Canonical p)) ∧
    (CanonicalName d₁ → CanonicalName d₂ →
      convertToUnicode checkLabel checker d₁ = convertToUnicode checkLabel checker d₂ →
      d₁ = d₂) := by
  constructor
  · intro hp hu hne
    rw [← hu] at hne ⊢
    exact encoded_iff hp hne
  · intro h₁ h₂ heq
    exact convertToUnicode_injective checkLabel checker h₁ h₂ heq

theorem aceLabel_of_all {p : List UInt16} (hace : acePrefix <+: p)
    (hall : p.all (fun c => decide (c < 0x80) && !decide (0x41 ≤ c ∧ c ≤ 0x5a)) = true)
    (hlen : p.length ≤ 63) : AceLabel p := by
  have hletter : ∀ c ∈ p, c < 0x80 ∧ ¬(0x41 ≤ c ∧ c ≤ 0x5a) := by
    intro c hc
    have hboth := all_eq_true.mp hall c hc
    rw [and_eq_true, not_eq_true', decide_eq_true_iff, decide_eq_false_iff_not] at hboth
    exact hboth
  exact ⟨hace, fun c hc => (hletter c hc).1, fun c hc => (hletter c hc).2, hlen⟩

/-- The label of a letter with an accent. -/
theorem qt_punycode_canonical_iff_accent :
    (qt_punycodeDecoder [0x78, 0x6e, 0x2d, 0x2d, 0x74, 0x64, 0x61]).value = [0xfc] ∧
      ((qt_punycodeEncoder [0xfc] []).value = some [0x78, 0x6e, 0x2d, 0x2d, 0x74, 0x64, 0x61] ↔
        Canonical [0x78, 0x6e, 0x2d, 0x2d, 0x74, 0x64, 0x61]) := by
  have hdecode : (qt_punycodeDecoder [0x78, 0x6e, 0x2d, 0x2d, 0x74, 0x64, 0x61]).value = [0xfc] := by
    decide +kernel
  have hlabel : AceLabel [0x78, 0x6e, 0x2d, 0x2d, 0x74, 0x64, 0x61] :=
    aceLabel_of_all ⟨[0x74, 0x64, 0x61], rfl⟩ (by decide) (by decide)
  have hiff := qt_punycode_canonical_iff [0x78, 0x6e, 0x2d, 0x2d, 0x74, 0x64, 0x61] [0xfc] Unit
    (fun _ _ => (true, ())) () [] []
  exact ⟨hdecode, hiff.1 hlabel hdecode (cons_ne_nil _ _)⟩

/-- The same label without its last digit is read as the same letter, but not written again. -/
theorem qt_punycode_cut_off : AceLabel [0x78, 0x6e, 0x2d, 0x2d, 0x74, 0x64] ∧
    (qt_punycodeDecoder [0x78, 0x6e, 0x2d, 0x2d, 0x74, 0x64]).value = [0xfc] ∧
    (qt_punycodeEncoder [0xfc] []).value ≠ some [0x78, 0x6e, 0x2d, 0x2d, 0x74, 0x64] ∧
    convertToUnicode (fun (_ : Unit) _ => (true, ())) () [0x78, 0x6e, 0x2d, 0x2d, 0x74, 0x64] =
      convertToUnicode (fun (_ : Unit) _ => (true, ())) ()
        [0x78, 0x6e, 0x2d, 0x2d, 0x74, 0x64, 0x61] := by
  have hrun :
      (qt_punycodeDecoder [0x78, 0x6e, 0x2d, 0x2d, 0x74, 0x64]).value = [0xfc] ∧
      (qt_punycodeEncoder [0xfc] []).value ≠ some [0x78, 0x6e, 0x2d, 0x2d, 0x74, 0x64] ∧
      convertToUnicode (fun (_ : Unit) _ => (true, ())) () [0x78, 0x6e, 0x2d, 0x2d, 0x74, 0x64] =
        convertToUnicode (fun (_ : Unit) _ => (true, ())) ()
          [0x78, 0x6e, 0x2d, 0x2d, 0x74, 0x64, 0x61] := by
    decide +kernel
  exact ⟨aceLabel_of_all ⟨[0x74, 0x64], rfl⟩ (by decide) (by decide), hrun⟩

end Punycode

end QtBase
