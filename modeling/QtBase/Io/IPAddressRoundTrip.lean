import QtBase.Io.IPv6RoundTrip

/-! Addresses are printed and parsed without loss, and one run of zeros at most is compressed. -/
namespace QtBase

open List

namespace QIPAddressUtils

variable {a : List UInt8}

/-- There is a "::" at a position of the text. -/
def DoubleColonAt (text : List UInt16) (p : ℕ) : Prop :=
  text[p]? = some 0x3a ∧ text[p + 1]? = some 0x3a

/-- The text has no "::". -/
def Single (text : List UInt16) : Prop := ∀ p, ¬DoubleColonAt text p

variable {text : List UInt16}

theorem single_of_not_mem (h : 0x3a ∉ text) : Single text := by
  intro p hp
  exact h (mem_of_getElem? hp.1)

/-- Behind a text without "::" that does not end with a colon, each "::" is one of what follows. -/
theorem doubleColonAt_append {g : List UInt16} {p : ℕ} (hg : Single g)
    (hlast : g.getLast? ≠ some 0x3a) :
    DoubleColonAt (g ++ text) p ↔ g.length ≤ p ∧ DoubleColonAt text (p - g.length) := by
  constructor
  · rintro ⟨h1, h2⟩
    by_cases hp : g.length ≤ p
    · rw [getElem?_append_right hp] at h1
      rw [getElem?_append_right (by omega), show p + 1 - g.length = p - g.length + 1 by omega]
        at h2
      exact ⟨hp, h1, h2⟩
    · exfalso
      rw [getElem?_append_left (by omega)] at h1
      by_cases hend : p + 1 = g.length
      · rw [getLast?_eq_getElem?, show g.length - 1 = p by omega] at hlast
        exact hlast h1
      · rw [getElem?_append_left (by omega)] at h2
        exact hg p ⟨h1, h2⟩
  · rintro ⟨hp, h1, h2⟩
    constructor
    · rw [getElem?_append_right hp]
      exact h1
    · rw [getElem?_append_right (by omega), show p + 1 - g.length = p - g.length + 1 by omega]
      exact h2

theorem group_not_mem (a : List UInt8) (i : ℕ) : (0x3a : UInt16) ∉ group a i := by
  intro h
  have hmem : (0x3a : UInt8) ∈ ascii (group a i) := mem_map.mpr ⟨0x3a, h, rfl⟩
  exact (group_hex hmem).2.2 rfl

theorem group_ends (a : List UInt8) (i : ℕ) :
    (group a i).getLast? ≠ some 0x3a ∧ ∀ text, (group a i ++ text).head? ≠ some 0x3a := by
  constructor
  · intro h
    exact group_not_mem a i (mem_of_getLast? h)
  · intro text h
    have hl := (group_length a i).1
    cases hg : group a i with
    | nil => rw [hg] at hl; simp [ascii] at hl
    | cons c cs =>
      rw [hg] at h
      have hc : c = 0x3a := by simpa using h
      apply group_not_mem a i
      simp [hg, hc]

/-- What follows a colon in a text without "::". -/
structure Follows (text : List UInt16) : Prop where
  single : Single text
  first : text.head? ≠ some 0x3a

theorem Follows.colon (h : Follows text) : Single (colon ++ text) := by
  rintro p ⟨h1, h2⟩
  cases p with
  | zero =>
    apply h.first
    rw [head?_eq_getElem?]
    exact h2
  | succ p => exact h.single p ⟨h1, h2⟩

theorem Follows.group (h : Single text) (i : ℕ) :
    Follows (group a i ++ text) where
  single := by
    intro p hp
    rw [doubleColonAt_append (single_of_not_mem (group_not_mem a i)) (group_ends a i).1] at hp
    exact h _ hp.2
  first := (group_ends a i).2 text

theorem Follows.leading (h : Follows text) (i n : ℕ) :
    Follows (leading a i n ++ text) := by
  induction n generalizing i with
  | zero => exact h
  | succ n ih =>
    rw [QIPAddressUtils.leading, append_assoc, append_assoc]
    exact Follows.group (ih (i + 2)).colon i

theorem groupsText_follows (a : List UInt8) (i n : ℕ) : Follows (groupsText a i n) := by
  cases n with
  | zero =>
    constructor
    · exact single_of_not_mem (by simp [groupsText])
    · simp [groupsText]
  | succ n =>
    have hgroup : Follows (group a (i + 2 * n) ++ []) :=
      Follows.group (single_of_not_mem not_mem_nil) _
    rw [append_nil] at hgroup
    rw [groupsText_succ]
    exact hgroup.leading i n

theorem groupsText_last (a : List UInt8) (i n : ℕ) : (groupsText a i n).getLast? ≠ some 0x3a := by
  cases n with
  | zero => simp [groupsText]
  | succ n =>
    have hne : group a (i + 2 * n) ≠ [] := by
      intro h
      have hl := (group_length a (i + 2 * n)).1
      rw [h] at hl
      simp [ascii] at hl
    rw [groupsText_succ, getLast?_append_of_ne_nil _ hne]
    exact (group_ends a _).1

theorem dottedText_follows (x : UInt32) : Follows (dottedText x) := by
  have hmem : (0x3a : UInt16) ∉ dottedText x := by
    intro h
    have hmem : (0x3a : UInt8) ∈ ascii (dottedText x) := mem_map.mpr ⟨0x3a, h, rfl⟩
    exact count_eq_zero.mp (dotted_count x).1 hmem
  constructor
  · exact single_of_not_mem hmem
  · intro h
    exact hmem (mem_of_head? h)

theorem tailText_follows (a : List UInt8) (e : ℕ) : Follows (tailText a e) := by
  rw [tailText]
  split
  · exact (dottedText_follows _).leading _ _
  · exact groupsText_follows a _ _

theorem compressed_doubleColonAt (a : List UInt8) (o l p : ℕ) :
    DoubleColonAt (compressed a o l) p ↔ p = (groupsText a 0 (o / 2)).length := by
  rw [compressed, doubleColonAt_append (groupsText_follows a _ _).single (groupsText_last a _ _)]
  have htail := tailText_follows a (o + l)
  constructor
  · rintro ⟨hp, h1, h2⟩
    cases hq : p - (groupsText a 0 (o / 2)).length with
    | zero => omega
    | succ q =>
      rw [hq] at h1 h2
      exact absurd ⟨h1, h2⟩ (htail.colon q)
  · intro hp
    rw [hp, Nat.sub_self]
    exact ⟨le_rfl, rfl, rfl⟩

/-- The text has the first longest run of at least two zero groups, if there is one, as "::", and
all the other groups are in it. -/
def CompressesFirstLongest (a : List UInt8) (text : List UInt16) : Prop :=
  ((∀ o l, ZeroRun a o l → l < 4) ∧ text = groupsText a 0 8 ∧ ∀ p, ¬DoubleColonAt text p) ∨
  ∃ o l, FirstLongest a o l ∧ 4 ≤ l ∧ text = compressed a o l ∧
    ∀ p, DoubleColonAt text p ↔ p = (groupsText a 0 (o / 2)).length

theorem toString6_text (ha : a.length = 16) (appendTo : List UInt16) : ∃ text,
    toString6 a appendTo = appendTo ++ text ∧ parseIp6 text = (a, none) ∧
    CompressesFirstLongest a text := by
  obtain ⟨ht, hshort⟩ | ⟨o, l, hfirst, hl, ht⟩ := toString6_eq a appendTo
  · exact ⟨_, ht, parseIp6_plain ha, .inl ⟨hshort, rfl, (groupsText_follows a 0 8).single⟩⟩
  · exact ⟨_, ht, parseIp6_compressed ha hfirst hl,
      .inr ⟨o, l, hfirst, hl, rfl, compressed_doubleColonAt a o l⟩⟩

/-- What is appended for an address is parsed as the address. -/
theorem toString_parse_roundTrip :
    (∀ (address : IPv6Address) (appendTo : List UInt16), ∃ text,
      toString6 address.octets appendTo = appendTo ++ text ∧
      parseIp6 text = (address.octets, none) ∧ CompressesFirstLongest address.octets text) ∧
    ∀ (address : UInt32) (appendTo : List UInt16), ∃ text,
      toString4 appendTo address = appendTo ++ text ∧ parseIp4 text = (address, true) := by
  constructor
  · intro address appendTo
    exact toString6_text address.size appendTo
  · intro address appendTo
    exact ⟨toString4 [] address, rfl, parseIp4_toString4 address⟩

end QIPAddressUtils

end QtBase
