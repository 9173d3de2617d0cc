import Mathlib.Data.List.Basic
import Mathlib.Data.Nat.Notation

/-! Unicode text in code units. A scalar value is a `Char`, its UTF-8 is `String.utf8EncodeChar`. -/
namespace Unicode

open UInt16 Nat

def High (u : UInt16) : Prop := 0xd800 ≤ u.toNat ∧ u.toNat < 0xdc00

def Low (u : UInt16) : Prop := 0xdc00 ≤ u.toNat ∧ u.toNat < 0xe000

instance (u : UInt16) : Decidable (High u) := inferInstanceAs (Decidable (_ ∧ _))

instance (u : UInt16) : Decidable (Low u) := inferInstanceAs (Decidable (_ ∧ _))

/-- The UTF-16 of a scalar value. -/
def utf16EncodeChar (c : Char) : List UInt16 :=
  let v := c.val.toNat
  if v ≤ 0xffff then [.ofNat v]
  else [.ofNat ((v - 0x10000) / 1024 + 0xd800), .ofNat ((v - 0x10000) % 1024 + 0xdc00)]

def utf8 (cs : List Char) : List UInt8 := cs.flatMap String.utf8EncodeChar

def utf16 (cs : List Char) : List UInt16 := cs.flatMap utf16EncodeChar

@[simp] theorem utf8_nil : utf8 [] = [] := rfl

@[simp] theorem utf8_cons (c : Char) (cs : List Char) :
    utf8 (c :: cs) = String.utf8EncodeChar c ++ utf8 cs := rfl

@[simp] theorem utf16_nil : utf16 [] = [] := rfl

@[simp] theorem utf16_cons (c : Char) (cs : List Char) :
    utf16 (c :: cs) = utf16EncodeChar c ++ utf16 cs := rfl

/-- No unpaired surrogates: a low surrogate follows each high one, and stands nowhere else. -/
def Paired : List UInt16 → Prop
  | [] => True
  | [u] => ¬ High u ∧ ¬ Low u
  | u :: v :: s => if High u then Low v ∧ Paired s else ¬ Low u ∧ Paired (v :: s)

theorem val_lt (c : Char) : c.val.toNat < 0x110000 := by
  rcases c.valid with h | h <;> omega

theorem not_surrogate (c : Char) : c.val.toNat < 0xd800 ∨ 0xdfff < c.val.toNat := by
  rcases c.valid with h | h <;> omega

theorem exists_char {v : ℕ} (h : v < 0xd800 ∨ 0xdfff < v) (hlt : v < 0x110000) :
    ∃ c : Char, c.val.toNat = v := by
  have hv : v.isValidChar := by
    rcases h with h | h
    · exact Or.inl h
    · exact Or.inr ⟨h, hlt⟩
  have hnat : (UInt32.ofNat v).toNat = v := by
    rw [UInt32.toNat_ofNat']
    exact mod_eq_of_lt (by omega)
  exact ⟨⟨UInt32.ofNat v, by unfold UInt32.isValidChar; rwa [hnat]⟩, hnat⟩

variable {c : Char}

theorem utf16EncodeChar_of_le (h : c.val.toNat ≤ 0xffff) :
    ∃ u : UInt16, utf16EncodeChar c = [u] ∧ u.toNat = c.val.toNat ∧ ¬ High u ∧ ¬ Low u := by
  have hs := not_surrogate c
  have hnat : (ofNat c.val.toNat).toNat = c.val.toNat := by
    rw [toNat_ofNat']
    exact mod_eq_of_lt (by omega)
  refine ⟨ofNat c.val.toNat, ?_, hnat, ?_, ?_⟩
  · unfold utf16EncodeChar
    rw [if_pos h]
  · unfold High
    omega
  · unfold Low
    omega

theorem utf16EncodeChar_of_lt (h : 0xffff < c.val.toNat) :
    ∃ u v : UInt16, utf16EncodeChar c = [u, v] ∧ High u ∧ Low v ∧
      c.val.toNat = 0x10000 + (u.toNat - 0xd800) * 1024 + (v.toNat - 0xdc00) := by
  have hlt := val_lt c
  have hu : (ofNat ((c.val.toNat - 0x10000) / 1024 + 0xd800)).toNat =
      (c.val.toNat - 0x10000) / 1024 + 0xd800 := by
    rw [toNat_ofNat']
    exact mod_eq_of_lt (by omega)
  have hv : (ofNat ((c.val.toNat - 0x10000) % 1024 + 0xdc00)).toNat =
      (c.val.toNat - 0x10000) % 1024 + 0xdc00 := by
    rw [toNat_ofNat']
    exact mod_eq_of_lt (by omega)
  refine ⟨.ofNat ((c.val.toNat - 0x10000) / 1024 + 0xd800),
    .ofNat ((c.val.toNat - 0x10000) % 1024 + 0xdc00), ?_, ?_, ?_, ?_⟩
  · unfold utf16EncodeChar
    rw [if_neg (by omega)]
  · unfold High
    omega
  · unfold Low
    omega
  · omega

theorem exists_utf16_singleton {u : UInt16} (hh : ¬ High u) (hl : ¬ Low u) :
    ∃ c : Char, utf16EncodeChar c = [u] ∧ c.val.toNat = u.toNat := by
  have hlt := u.toNat_lt
  unfold High at hh
  unfold Low at hl
  obtain ⟨c, hc⟩ := exists_char (v := u.toNat) (by omega) (by omega)
  obtain ⟨u', henc, hnat, -⟩ := utf16EncodeChar_of_le (c := c) (by omega)
  have hu : u' = u := by
    apply UInt16.toNat_inj.mp
    omega
  exact ⟨c, by rw [henc, hu], hc⟩

theorem exists_utf16_pair {u v : UInt16} (hh : High u) (hl : Low v) :
    ∃ c : Char, utf16EncodeChar c = [u, v] ∧
      c.val.toNat = 0x10000 + (u.toNat - 0xd800) * 1024 + (v.toNat - 0xdc00) := by
  unfold High at hh
  unfold Low at hl
  obtain ⟨c, hc⟩ := exists_char
    (v := 0x10000 + (u.toNat - 0xd800) * 1024 + (v.toNat - 0xdc00)) (by omega) (by omega)
  obtain ⟨u', v', henc, hh', hl', hnat⟩ := utf16EncodeChar_of_lt (c := c) (by omega)
  unfold High at hh'
  unfold Low at hl'
  have hu : u' = u := by
    apply UInt16.toNat_inj.mp
    omega
  have hv : v' = v := by
    apply UInt16.toNat_inj.mp
    omega
  exact ⟨c, by rw [henc, hu, hv], hc⟩

/-! ## UTF-8 -/

theorem utf8EncodeChar_one {b : UInt8} (hb : b.toNat < 0x80)
    (hc : c.val.toNat = b.toNat) : String.utf8EncodeChar c = [b] := by
  unfold String.utf8EncodeChar
  rw [hc, if_pos (by omega), UInt8.ofNat_toNat]

theorem utf8EncodeChar_two {b x : UInt8} (hb : 0xc2 ≤ b.toNat ∧ b.toNat < 0xe0)
    (hx : 0x80 ≤ x.toNat ∧ x.toNat < 0xc0)
    (hc : c.val.toNat = (b.toNat - 0xc0) * 64 + (x.toNat - 0x80)) :
    String.utf8EncodeChar c = [b, x] := by
  have h0 : c.val.toNat / 64 % 0x20 + 0xc0 = b.toNat := by omega
  have h1 : c.val.toNat % 0x40 + 0x80 = x.toNat := by omega
  unfold String.utf8EncodeChar
  rw [if_neg (by omega), if_pos (by omega), h0, h1, UInt8.ofNat_toNat, UInt8.ofNat_toNat]

theorem utf8EncodeChar_three {b x y : UInt8} (hb : 0xe0 ≤ b.toNat ∧ b.toNat < 0xf0)
    (hx : 0x80 ≤ x.toNat ∧ x.toNat < 0xc0) (hy : 0x80 ≤ y.toNat ∧ y.toNat < 0xc0)
    (hc : c.val.toNat = ((b.toNat - 0xe0) * 64 + (x.toNat - 0x80)) * 64 + (y.toNat - 0x80))
    (hmin : 0x800 ≤ c.val.toNat) : String.utf8EncodeChar c = [b, x, y] := by
  have h0 : c.val.toNat / 4096 % 0x10 + 0xe0 = b.toNat := by omega
  have h1 : c.val.toNat / 64 % 0x40 + 0x80 = x.toNat := by omega
  have h2 : c.val.toNat % 0x40 + 0x80 = y.toNat := by omega
  unfold String.utf8EncodeChar
  rw [if_neg (by omega), if_neg (by omega), if_pos (by omega), h0, h1, h2, UInt8.ofNat_toNat,
    UInt8.ofNat_toNat, UInt8.ofNat_toNat]

theorem utf8EncodeChar_four {b x y z : UInt8} (hb : 0xf0 ≤ b.toNat ∧ b.toNat < 0xf5)
    (hx : 0x80 ≤ x.toNat ∧ x.toNat < 0xc0) (hy : 0x80 ≤ y.toNat ∧ y.toNat < 0xc0)
    (hz : 0x80 ≤ z.toNat ∧ z.toNat < 0xc0)
    (hc : c.val.toNat = (((b.toNat - 0xf0) * 64 + (x.toNat - 0x80)) * 64 + (y.toNat - 0x80)) * 64 + (z.toNat - 0x80))
    (hmin : 0x10000 ≤ c.val.toNat) : String.utf8EncodeChar c = [b, x, y, z] := by
  have h0 : c.val.toNat / 262144 % 0x08 + 0xf0 = b.toNat := by omega
  have h1 : c.val.toNat / 4096 % 0x40 + 0x80 = x.toNat := by omega
  have h2 : c.val.toNat / 64 % 0x40 + 0x80 = y.toNat := by omega
  have h3 : c.val.toNat % 0x40 + 0x80 = z.toNat := by omega
  unfold String.utf8EncodeChar
  rw [if_neg (by omega), if_neg (by omega), if_neg (by omega), h0, h1, h2, h3,
    UInt8.ofNat_toNat, UInt8.ofNat_toNat, UInt8.ofNat_toNat, UInt8.ofNat_toNat]

theorem exists_byte {n : ℕ} (h : n < 256) : ∃ b : UInt8, b.toNat = n :=
  ⟨UInt8.ofNat n, by rw [UInt8.toNat_ofNat', mod_eq_of_lt h]⟩

theorem utf8EncodeChar_cases (c : Char) :
    (∃ b : UInt8, String.utf8EncodeChar c = [b] ∧ b.toNat < 0x80 ∧ c.val.toNat = b.toNat) ∨
    (∃ b x : UInt8, String.utf8EncodeChar c = [b, x] ∧ (0xc2 ≤ b.toNat ∧ b.toNat < 0xe0) ∧
      (0x80 ≤ x.toNat ∧ x.toNat < 0xc0) ∧
      c.val.toNat = (b.toNat - 0xc0) * 64 + (x.toNat - 0x80)) ∨
    (∃ b x y : UInt8, String.utf8EncodeChar c = [b, x, y] ∧ (0xe0 ≤ b.toNat ∧ b.toNat < 0xf0) ∧
      (0x80 ≤ x.toNat ∧ x.toNat < 0xc0) ∧ (0x80 ≤ y.toNat ∧ y.toNat < 0xc0) ∧
      c.val.toNat = ((b.toNat - 0xe0) * 64 + (x.toNat - 0x80)) * 64 + (y.toNat - 0x80) ∧
      0x800 ≤ c.val.toNat) ∨
    ∃ b x y z : UInt8, String.utf8EncodeChar c = [b, x, y, z] ∧
      (0xf0 ≤ b.toNat ∧ b.toNat < 0xf5) ∧ (0x80 ≤ x.toNat ∧ x.toNat < 0xc0) ∧
      (0x80 ≤ y.toNat ∧ y.toNat < 0xc0) ∧ (0x80 ≤ z.toNat ∧ z.toNat < 0xc0) ∧
      c.val.toNat = (((b.toNat - 0xf0) * 64 + (x.toNat - 0x80)) * 64 + (y.toNat - 0x80)) * 64
        + (z.toNat - 0x80) ∧
      0x10000 ≤ c.val.toNat := by
  have hlt := val_lt c
  rcases Nat.lt_or_ge c.val.toNat 0x80 with h1 | h1
  · obtain ⟨b, hb⟩ := exists_byte (n := c.val.toNat) (by omega)
    left
    exact ⟨b, utf8EncodeChar_one (by omega) hb.symm, by omega, hb.symm⟩
  right
  obtain ⟨z, hz⟩ := exists_byte (n := c.val.toNat % 64 + 0x80) (by omega)
  rcases Nat.lt_or_ge c.val.toNat 0x800 with h2 | h2
  · obtain ⟨b, hb⟩ := exists_byte (n := c.val.toNat / 64 + 0xc0) (by omega)
    left
    exact ⟨b, z, utf8EncodeChar_two (by omega) (by omega) (by omega), by omega, by omega, by omega⟩
  right
  obtain ⟨y, hy⟩ := exists_byte (n := c.val.toNat / 64 % 64 + 0x80) (by omega)
  rcases Nat.lt_or_ge c.val.toNat 0x10000 with h3 | h3
  · obtain ⟨b, hb⟩ := exists_byte (n := c.val.toNat / 4096 + 0xe0) (by omega)
    left
    exact ⟨b, y, z, utf8EncodeChar_three (by omega) (by omega) (by omega) (by omega) h2, by omega,
      by omega, by omega, by omega, h2⟩
  · obtain ⟨x, hx⟩ := exists_byte (n := c.val.toNat / 4096 % 64 + 0x80) (by omega)
    obtain ⟨b, hb⟩ := exists_byte (n := c.val.toNat / 262144 + 0xf0) (by omega)
    right
    exact ⟨b, x, y, z, utf8EncodeChar_four (by omega) (by omega) (by omega) (by omega) (by omega) h3,
      by omega, by omega, by omega, by omega, by omega, h3⟩

/-! ## Paired surrogates -/

theorem Low.not_high {u : UInt16} (h : Low u) : ¬ High u := by
  unfold Low at h
  unfold High
  omega

theorem paired_utf16EncodeChar_append (c : Char) {s : List UInt16} (h : Paired s) :
    Paired (utf16EncodeChar c ++ s) := by
  rcases Nat.lt_or_ge 0xffff c.val.toNat with hc | hc
  · obtain ⟨u, v, henc, hh, hl, -⟩ := utf16EncodeChar_of_lt hc
    rw [henc]
    show Paired (u :: v :: s)
    unfold Paired
    rw [if_pos hh]
    exact ⟨hl, h⟩
  · obtain ⟨u, henc, -, hh, hl⟩ := utf16EncodeChar_of_le hc
    rw [henc, List.singleton_append]
    cases s with
    | nil => exact ⟨hh, hl⟩
    | cons v s =>
      unfold Paired
      rw [if_neg hh]
      exact ⟨hl, h⟩

theorem Paired.exists_utf16 : ∀ {s : List UInt16}, Paired s → ∃ cs, s = utf16 cs
  | [], _ => ⟨[], rfl⟩
  | [u], h => by
    obtain ⟨c, hc, -⟩ := exists_utf16_singleton h.1 h.2
    exact ⟨[c], by rw [utf16_cons, hc, utf16_nil, List.append_nil]⟩
  | u :: v :: s, h => by
    unfold Paired at h
    by_cases hh : High u
    · rw [if_pos hh] at h
      obtain ⟨c, hc, -⟩ := exists_utf16_pair hh h.1
      obtain ⟨cs, hcs⟩ := exists_utf16 h.2
      exact ⟨c :: cs, by rw [utf16_cons, hc, ← hcs]; rfl⟩
    · rw [if_neg hh] at h
      obtain ⟨c, hc, -⟩ := exists_utf16_singleton hh h.1
      obtain ⟨cs, hcs⟩ := exists_utf16 h.2
      exact ⟨c :: cs, by rw [utf16_cons, hc, ← hcs]; rfl⟩

theorem paired_iff {s : List UInt16} : Paired s ↔ ∃ cs, s = utf16 cs := by
  constructor
  · exact Paired.exists_utf16
  · rintro ⟨cs, rfl⟩
    induction cs with
    | nil => trivial
    | cons c cs ih => exact paired_utf16EncodeChar_append c ih

end Unicode
