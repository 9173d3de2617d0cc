import Mathlib.Data.List.Basic
import Mathlib.Data.Int.Notation
import Mathlib.Data.List.TakeDrop
import Mathlib.Algebra.Order.Ring.Int

/-! `qt_is_idn_enabled` looks a top-level domain up in a table that is written in alphabetical order,
but for one pair. -/
namespace QtBase

open List

namespace Idn

/-- The bytes of a string in the source. -/
def latin1 (s : String) : List UInt8 := s.toList.map fun c => c.val.toUInt8

def idn_whitelist : List (List UInt8) := [
  "ac", "ar", "asia", "at",
  "biz", "br",
  "cat", "ch", "cl", "cn", "com",
  "de", "dk",
  "es",
  "fi",
  "gr",
  "hu",
  "il", "info", "io", "is", "ir",
  "jp",
  "kr",
  "li", "lt", "lu", "lv",
  "museum",
  "name", "net", "no", "nu", "nz",
  "org",
  "pl", "pr",
  "se", "sh",
  "tel", "th", "tm", "tw",
  "ua",
  "vn",
  "xn--fiqs8s",
  "xn--fiqz9s",
  "xn--fzc2c9e2c",
  "xn--j6w193g",
  "xn--kprw13d",
  "xn--kpry57d",
  "xn--mgba3a4f16a",
  "xn--mgba3a4fra",
  "xn--mgbaam7a8h",
  "xn--mgbayh7gpa",
  "xn--mgberp4a5d4ar",
  "xn--ogbpf8fl",
  "xn--p1ai",
  "xn--wgbh1c",
  "xn--wgbl6a",
  "xn--xkc2al3hye2a"].map latin1

/-- `QLatin1StringView` to `QString`. -/
def fromLatin1 (s : List UInt8) : List UInt16 := s.map UInt8.toUInt16

/-- `QUrl::idnWhitelist` -/
def idnWhitelist (user_idn_whitelist : Option (List (List UInt16))) : List (List UInt16) :=
  match user_idn_whitelist with
  | some list => list
  | none => idn_whitelist.map fromLatin1

/-- `lessThan(a, l, c)`. The null at the end of `c` stops the loop. -/
def lessThan : List UInt16 → ℤ → List UInt8 → Bool
  | _, _, [] => false
  | a, l, c :: cs =>
    if l = 0 then true
    else match a with
      | [] => false
      | uc :: a => if uc = c.toUInt16 then lessThan a (l - 1) cs else decide (uc < c.toUInt16)

def equal : List UInt16 → ℤ → List UInt8 → Bool
  | u :: a, l, c :: b =>
    if l ≠ 0 ∧ u ≠ 0 then
      if u ≠ c.toUInt16 then false else equal a (l - 1) b
    else decide (l = 0)
  | _, l, _ => decide (l = 0)

/-- `while (r != l)`, with `k` rounds left. -/
def search (less : ℕ → Bool) : ℕ → ℕ → ℕ → ℕ
  | 0, l, _ => l
  | k + 1, l, r =>
    let i := (l + r + 1) / 2
    if r ≠ l then
      if less i then search less k l (i - 1) else search less k i r
    else i

/-- The search for a top-level domain, whose length is made an `int`. -/
def tldEnabled (tldString : List UInt16) : Bool :=
  let len := (tldString.length : ℤ).bmod (2 ^ 32)
  let i := search (fun i => lessThan tldString len (idn_whitelist.getD i []))
    idn_whitelist.length 0 (idn_whitelist.length - 1)
  equal tldString len (idn_whitelist.getD i [])

def dot : UInt16 := 0x2e

def lastIndexOf (c : UInt16) : List UInt16 → Option ℕ
  | [] => none
  | u :: s =>
    match lastIndexOf c s with
    | some i => some (i + 1)
    | none => if u = c then some 0 else none

def qt_is_idn_enabled (user_idn_whitelist : Option (List (List UInt16)))
    (aceDomain : List UInt16) : Bool :=
  match lastIndexOf dot aceDomain with
  | none => false
  | some idx =>
    let tldString := aceDomain.drop (idx + 1)
    match user_idn_whitelist with
    | some list => list.contains tldString
    | none => tldEnabled tldString

/-! ## The search -/

theorem search_spec {less : ℕ → Bool} {k l r : ℕ} (hlr : l ≤ r) (hk : r - l < k) :
    l ≤ search less k l r ∧ search less k l r ≤ r ∧
      (search less k l r = l ∨ less (search less k l r) = false) := by
  induction k generalizing l r with
  | zero => omega
  | succ k ih =>
    unfold search
    dsimp only
    by_cases hne : r = l
    · rw [if_neg (not_not.mpr hne)]
      refine ⟨by omega, by omega, .inl (by omega)⟩
    · rw [if_pos hne]
      cases hless : less ((l + r + 1) / 2) with
      | true =>
        rw [if_pos rfl]
        obtain ⟨hge, hle, hfound⟩ := @ih l ((l + r + 1) / 2 - 1) (by omega) (by omega)
        exact ⟨hge, by omega, hfound⟩
      | false =>
        rw [if_neg Bool.false_ne_true]
        obtain ⟨hge, hle, hfound⟩ := @ih ((l + r + 1) / 2) r (by omega) (by omega)
        refine ⟨by omega, hle, .inr ?_⟩
        rcases hfound with heq | hfound
        · simp [heq, hless]
        · exact hfound

variable {a : List UInt16}

/-- A text that equals an entry so far begins it, and is not less only if it is the entry. -/
theorem eq_of_equal {c : List UInt8} (h : equal a a.length c = true) :
    (∃ rest, fromLatin1 c = a ++ rest) ∧ (lessThan a a.length c = false → a = fromLatin1 c) := by
  induction a generalizing c with
  | nil =>
    refine ⟨⟨fromLatin1 c, rfl⟩, fun hless => ?_⟩
    cases c with
    | nil => rfl
    | cons x c =>
      unfold lessThan at hless
      rw [if_pos (show ((([] : List UInt16).length : ℕ) : ℤ) = 0 from rfl)] at hless
      cases hless
  | cons u a ih =>
    have hlen : (((u :: a).length : ℕ) : ℤ) ≠ 0 := by
      simp
      omega
    have hlen' : (((u :: a).length : ℕ) : ℤ) - 1 = (a.length : ℤ) := by
      simp
    cases c with
    | nil =>
      unfold equal at h
      exact absurd (of_decide_eq_true h) hlen
    | cons x c =>
      unfold equal at h
      by_cases hu : u = 0
      · rw [if_neg fun hno => hno.2 hu] at h
        exact absurd (of_decide_eq_true h) hlen
      · rw [if_pos ⟨hlen, hu⟩] at h
        by_cases hx : u = x.toUInt16
        · rw [if_neg (not_not.mpr hx), hlen'] at h
          obtain ⟨⟨rest, hrest⟩, heq⟩ := ih h
          refine ⟨⟨rest, ?_⟩, fun hless => ?_⟩
          · unfold fromLatin1 at hrest ⊢
            rw [map_cons, hrest, ← hx, cons_append]
          · unfold lessThan at hless
            rw [if_neg hlen] at hless
            dsimp only at hless
            rw [if_pos hx, hlen'] at hless
            unfold fromLatin1 at heq ⊢
            rw [map_cons, ← heq hless, ← hx]
        · rw [if_pos hx] at h
          cases h

theorem lessThan_take {n : ℕ} (hn : n ≤ a.length) (c : List UInt8) :
    lessThan a n c = lessThan (a.take n) n c := by
  induction c generalizing a n with
  | nil =>
    unfold lessThan
    rfl
  | cons x c ih =>
    cases n with
    | zero =>
      unfold lessThan
      rfl
    | succ n =>
      have hne : ((n + 1 : ℕ) : ℤ) ≠ 0 := by omega
      cases a with
      | nil => cases hn
      | cons u a =>
        unfold lessThan
        rw [if_neg hne, if_neg hne, take_succ_cons]
        dsimp only
        have hsub : ((n + 1 : ℕ) : ℤ) - 1 = (n : ℤ) := by omega
        rw [hsub, ih (Nat.le_of_succ_le_succ hn)]

theorem equal_take {n : ℕ} (hn : n ≤ a.length) (c : List UInt8) :
    equal a n c = equal (a.take n) n c := by
  induction a generalizing c n with
  | nil => rw [take_nil]
  | cons u a ih =>
    cases n with
    | zero =>
      cases c with
      | nil => rfl
      | cons x c =>
        unfold equal
        rfl
    | succ n =>
      have hsub : ((n + 1 : ℕ) : ℤ) - 1 = (n : ℤ) := by omega
      rw [take_succ_cons]
      cases c with
      | nil => rfl
      | cons x c =>
        unfold equal
        rw [hsub, ih (Nat.le_of_succ_le_succ hn)]

theorem equal_neg {l : ℤ} (hl : l < 0) (c : List UInt8) : equal a l c = false := by
  induction a generalizing c l with
  | nil =>
    unfold equal
    exact decide_eq_false (by omega)
  | cons u a ih =>
    cases c with
    | nil =>
      unfold equal
      exact decide_eq_false (by omega)
    | cons x c =>
      unfold equal
      split_ifs with hu hx
      · rfl
      · exact ih (by omega) c
      · exact decide_eq_false (by omega)

/-! ## What is found -/

/-- The entries that the search does not find. -/
def missed : List (List UInt16) := ["is", "ir"].map fun s => fromLatin1 (latin1 s)

/-- The texts that the search takes for the first entry. -/
def mistaken : List (List UInt16) := ["", "a"].map fun s => fromLatin1 (latin1 s)

/-- The texts that are found. -/
def Found (tld : List UInt16) : Prop :=
  (tld ∈ idnWhitelist none ∧ tld ∉ missed) ∨ tld ∈ mistaken

theorem idnWhitelist_facts :
    (∀ tld ∈ idnWhitelist none ++ mistaken, tldEnabled tld = !decide (tld ∈ missed)) ∧
    (∀ tld ∈ mistaken, tld ∉ idnWhitelist none ∧ tld ∉ missed) ∧
    (∀ tld ∈ missed, tld ∈ idnWhitelist none) ∧
    (∀ tld ∈ [[], [0x61], [0x61, 0x63]], tld ∈ idnWhitelist none ++ mistaken) ∧
    ∀ tld ∈ idnWhitelist none, tld.length < 2 ^ 31 := by
  decide +kernel

theorem tldEnabled_entries : ∀ tld ∈ idnWhitelist none ++ mistaken,
    tldEnabled tld = !decide (tld ∈ missed) :=
  idnWhitelist_facts.1

theorem mistaken_not_mem : ∀ tld ∈ mistaken, tld ∉ idnWhitelist none ∧ tld ∉ missed :=
  idnWhitelist_facts.2.1

theorem missed_mem : ∀ tld ∈ missed, tld ∈ idnWhitelist none := idnWhitelist_facts.2.2.1

theorem tldEnabled_iff {tld : List UInt16} (hlen : tld.length < 2 ^ 31) :
    tldEnabled tld = true ↔ Found tld := by
  have hint : (tld.length : ℤ).bmod (2 ^ 32) = tld.length :=
    Int.bmod_eq_of_le (by omega) (by omega)
  constructor
  · intro h
    have henabled := h
    unfold tldEnabled at h
    dsimp only at h
    rw [hint] at h
    obtain ⟨-, hle, hfound⟩ := @search_spec
      (fun i => lessThan tld tld.length (idn_whitelist.getD i [])) idn_whitelist.length 0
      (idn_whitelist.length - 1) (Nat.zero_le _) (by decide)
    generalize hi : search (fun i => lessThan tld tld.length (idn_whitelist.getD i []))
      idn_whitelist.length 0 (idn_whitelist.length - 1) = i at h hle hfound
    obtain ⟨⟨rest, hrest⟩, heq⟩ := eq_of_equal h
    have hlt : i < idn_whitelist.length := Nat.lt_of_le_of_lt hle (by decide)
    have hentry : fromLatin1 (idn_whitelist.getD i []) ∈ idnWhitelist none := by
      rw [getD_eq_getElem?_getD, List.getElem?_eq_getElem hlt]
      exact mem_map_of_mem (getElem_mem hlt)
    have hentries : tld ∈ idnWhitelist none ++ mistaken := by
      rcases hfound with rfl | hless
      · -- the first entry is not compared with by `lessThan`
        have hprefix : tld <+: [0x61, 0x63] := ⟨rest, hrest.symm⟩
        have hfirst := idnWhitelist_facts.2.2.2.1
        refine hfirst tld ?_
        rcases prefix_cons_iff.mp hprefix with rfl | ⟨t, rfl, ht⟩
        · decide
        · rcases prefix_cons_iff.mp ht with rfl | ⟨t', rfl, ht'⟩
          · decide
          · rw [prefix_nil.mp ht']
            decide
      · rw [heq hless]
        exact mem_append_left _ hentry
    have hmissed : tld ∉ missed := by
      have := tldEnabled_entries tld hentries
      rw [henabled] at this
      simpa using this.symm
    rcases mem_append.mp hentries with hin | hin
    · exact .inl ⟨hin, hmissed⟩
    · exact .inr hin
  · intro h
    have hentries : tld ∈ idnWhitelist none ++ mistaken ∧ tld ∉ missed := by
      rcases h with ⟨hin, hmissed⟩ | hin
      · exact ⟨mem_append_left _ hin, hmissed⟩
      · exact ⟨mem_append_right _ hin, (mistaken_not_mem tld hin).2⟩
    rw [tldEnabled_entries tld hentries.1, decide_eq_false hentries.2]
    rfl

theorem tldEnabled_long {tld : List UInt16} (hlen : 2 ^ 31 ≤ tld.length) :
    tldEnabled tld = true ↔ 0 ≤ (tld.length : ℤ).bmod (2 ^ 32) ∧
      Found (tld.take ((tld.length : ℤ).bmod (2 ^ 32)).toNat) := by
  generalize hl : (tld.length : ℤ).bmod (2 ^ 32) = l
  have hle : l ≤ tld.length := by
    have := @Int.bmod_lt tld.length (2 ^ 32) (by omega)
    omega
  have hlt : l < 2 ^ 31 := by
    have := @Int.bmod_lt tld.length (2 ^ 32) (by omega)
    omega
  by_cases hneg : l < 0
  · unfold tldEnabled
    dsimp only
    rw [hl, equal_neg hneg]
    exact ⟨fun h => absurd h Bool.false_ne_true, fun h => absurd h.1 (by omega)⟩
  · obtain ⟨n, rfl⟩ := Int.eq_ofNat_of_zero_le (Int.not_lt.mp hneg)
    have hn : n ≤ tld.length := by omega
    have htake : (tld.take n).length = n := length_take_of_le hn
    have hsame : tldEnabled tld = tldEnabled (tld.take n) := by
      unfold tldEnabled
      dsimp only
      have hless : (fun i => lessThan tld n (idn_whitelist.getD i [])) =
          fun i => lessThan (tld.take n) n (idn_whitelist.getD i []) :=
        funext fun i => lessThan_take hn _
      rw [hl, htake, @Int.bmod_eq_of_le n (2 ^ 32) (by omega) (by omega), hless, equal_take hn]
    rw [hsame, tldEnabled_iff (by omega), Int.toNat_natCast]
    exact ⟨fun h => ⟨by omega, h⟩, fun h => h.2⟩

/-! ## Domains -/

/-- The text after the last dot. -/
def topLevel : List UInt16 → List UInt16
  | [] => []
  | u :: s => if dot ∈ s then topLevel s else if u = dot then s else u :: s

theorem exists_topLevel {domain : List UInt16} (hdot : dot ∈ domain) :
    ∃ labels, domain = labels ++ dot :: topLevel domain ∧ dot ∉ topLevel domain := by
  induction domain with
  | nil => cases hdot
  | cons u s ih =>
    unfold topLevel
    by_cases hs : dot ∈ s
    · obtain ⟨labels, heq, hnot⟩ := ih hs
      rw [if_pos hs]
      exact ⟨u :: labels, congrArg (u :: ·) heq, hnot⟩
    · rcases mem_cons.mp hdot with rfl | hin
      · rw [if_neg hs, if_pos rfl]
        exact ⟨[], rfl, hs⟩
      · exact absurd hin hs

theorem lastIndexOf_notMem {s : List UInt16} (h : dot ∉ s) : lastIndexOf dot s = none := by
  induction s with
  | nil => rfl
  | cons u s ih =>
    rw [mem_cons, not_or] at h
    unfold lastIndexOf
    rw [ih h.2]
    exact if_neg (Ne.symm h.1)

theorem lastIndexOf_append {labels tld : List UInt16} (hnot : dot ∉ tld) :
    lastIndexOf dot (labels ++ dot :: tld) = some labels.length := by
  induction labels with
  | nil =>
    rw [nil_append]
    unfold lastIndexOf
    rw [lastIndexOf_notMem hnot]
    exact if_pos rfl
  | cons u labels ih =>
    rw [cons_append]
    unfold lastIndexOf
    rw [ih]
    rfl

theorem qt_is_idn_enabled_eq {domain : List UInt16} (hdot : dot ∈ domain) :
    qt_is_idn_enabled none domain = tldEnabled (topLevel domain) := by
  obtain ⟨labels, heq, hnot⟩ := exists_topLevel hdot
  have hdrop : domain.drop (labels.length + 1) = topLevel domain := by
    have hsplit : labels ++ dot :: topLevel domain = (labels ++ [dot]) ++ topLevel domain := by simp
    conv_lhs => rw [heq, hsplit]
    exact drop_left' (by simp)
  unfold qt_is_idn_enabled
  rw [← hdrop]
  conv_lhs => rw [heq, lastIndexOf_append hnot, ← heq]

/-- The texts for which the search tells what the list tells. -/
def JudgedRight (tld : List UInt16) : Prop :=
  if tld.length < 2 ^ 31 then tld ∉ missed ∧ tld ∉ mistaken
  else ¬ (0 ≤ (tld.length : ℤ).bmod (2 ^ 32) ∧
    Found (tld.take ((tld.length : ℤ).bmod (2 ^ 32)).toNat))

theorem length_idnWhitelist : ∀ tld ∈ idnWhitelist none, tld.length < 2 ^ 31 :=
  idnWhitelist_facts.2.2.2.2

/-- `qt_is_idn_enabled` tells whether the list has the text after the last dot, but for the texts that
the search judges wrong. -/
theorem qt_is_idn_enabled_iff {domain : List UInt16} (hdot : dot ∈ domain) :
    (qt_is_idn_enabled none domain = true ↔ topLevel domain ∈ idnWhitelist none) ↔
      JudgedRight (topLevel domain) := by
  rw [qt_is_idn_enabled_eq hdot]
  generalize topLevel domain = tld
  unfold JudgedRight
  by_cases hlen : tld.length < 2 ^ 31
  · rw [if_pos hlen, tldEnabled_iff hlen]
    unfold Found
    constructor
    · intro h
      refine ⟨fun hmissed => ?_, fun hmistaken => ?_⟩
      · rcases h.mpr (missed_mem tld hmissed) with hfound | hfound
        · exact hfound.2 hmissed
        · exact (mistaken_not_mem tld hfound).2 hmissed
      · exact (mistaken_not_mem tld hmistaken).1 (h.mp (.inr hmistaken))
    · rintro ⟨hmissed, hmistaken⟩
      rw [or_iff_left hmistaken, and_iff_left hmissed]
  · rw [if_neg hlen, tldEnabled_long (by omega)]
    have hnot : tld ∉ idnWhitelist none := fun hin => hlen (length_idnWhitelist tld hin)
    exact iff_false_right hnot

/-- `example.com` -/
theorem qt_is_idn_enabled_iff_com :
    (qt_is_idn_enabled none (fromLatin1 (latin1 "example.com")) = true ↔
      topLevel (fromLatin1 (latin1 "example.com")) ∈ idnWhitelist none) ↔
        JudgedRight (topLevel (fromLatin1 (latin1 "example.com"))) :=
  qt_is_idn_enabled_iff (by decide +kernel)

/-- `is` is in the list and is not found, and what stands before the first entry is found. -/
theorem qt_is_idn_enabled_misjudges :
    ¬ (qt_is_idn_enabled none (fromLatin1 (latin1 "example.is")) = true ↔
      topLevel (fromLatin1 (latin1 "example.is")) ∈ idnWhitelist none) ∧
    ¬ (qt_is_idn_enabled none (fromLatin1 (latin1 "example.")) = true ↔
      topLevel (fromLatin1 (latin1 "example.")) ∈ idnWhitelist none) := by
  decide +kernel

end Idn

end QtBase
