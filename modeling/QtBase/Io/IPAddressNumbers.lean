import QtBase.Io.IPAddress
import Mathlib.Data.List.TakeWhile
import Mathlib.Data.UInt

/-! The numbers in the text of an address are read back by `qstrntoull`. -/
namespace QtBase

open List UInt64

namespace QIPAddressUtils

theorem forall_octet {p : UInt8 → Prop} (h : ∀ n : Fin 256, p (UInt8.ofNat n)) (v : UInt8) : p v := by
  have hv := h ⟨v.toNat, v.toNat_lt⟩
  rwa [UInt8.ofNat_toNat] at hv

/-- The digits of an octet, as they are in the buffer. -/
def decimal (v : UInt8) : List UInt8 := (number v).map UInt16.toUInt8

theorem octet_text (v : UInt8) : (number v).all (· < 0x7f) = true ∧
    (decimal v).all isAsciiDigit = true ∧ (1 ≤ (decimal v).length ∧ (decimal v).length ≤ 3) ∧
    ofDigits 10 ((decimal v).map digitValue) = v.toNat ∧
    ((decimal v).head? ≠ some 0x30 ∨ (v = 0 ∧ decimal v = [0x30])) := by
  revert v
  apply forall_octet
  decide +kernel

theorem number_ascii (v : UInt8) : (number v).all (· < 0x7f) = true := (octet_text v).1

theorem decimal_digits (v : UInt8) : (decimal v).all isAsciiDigit = true := (octet_text v).2.1

theorem decimal_length (v : UInt8) : 1 ≤ (decimal v).length ∧ (decimal v).length ≤ 3 :=
  (octet_text v).2.2.1

theorem decimal_value (v : UInt8) : ofDigits 10 ((decimal v).map digitValue) = v.toNat :=
  (octet_text v).2.2.2.1

theorem decimal_zero (v : UInt8) : (decimal v).head? ≠ some 0x30 ∨ (v = 0 ∧ decimal v = [0x30]) :=
  (octet_text v).2.2.2.2

/-! ## Reading digits -/

variable {rest : List UInt8}

theorem digitsIn_append {base : ℕ} {ds : List UInt8} (h : ∀ c ∈ ds, digitValue c < base)
    (hr : ∀ c ∈ rest.head?, base ≤ digitValue c) :
    digitsIn base (ds ++ rest) = ds.map digitValue := by
  have h1 : (rest.map digitValue).takeWhile (fun d => decide (d < base)) = [] := by
    cases rest with
    | nil => rfl
    | cons c cs =>
      have hc : base ≤ digitValue c := hr c rfl
      simp only [map_cons, takeWhile_cons, decide_eq_true_eq, if_neg (Nat.not_lt.mpr hc)]
  rw [digitsIn, map_append, takeWhile_append_of_pos, h1, append_nil]
  intro d hd
  obtain ⟨c, hc, hcd⟩ := mem_map.mp hd
  simpa [← hcd] using h c hc

theorem from_chars_digits {base : ℕ} {ds rest : List UInt8} (h : ∀ c ∈ ds, digitValue c < base)
    (hr : ∀ c ∈ rest.head?, base ≤ digitValue c) (hds : ds ≠ [])
    (hv : ofDigits base (ds.map digitValue) < 2 ^ 64) :
    from_chars (ds ++ rest) base =
      some (ofNat (ofDigits base (ds.map digitValue)), ds.length) := by
  have hne : ds.map digitValue ≠ [] := by simpa using hds
  rw [from_chars, digitsIn_append h hr, if_neg hne, if_pos hv, length_map]

theorem qstrntoull_eq {p : List UInt8} {c : UInt8} {base b n : ℕ} {v : UInt64}
    (hc : p.head? = some c) (hs : ascii_isspace c = false) (hm : c ≠ 0x2d) (hp : c ≠ 0x2b)
    (hb : b ≠ 0) (hscan : scanPrefix p base = (p, b)) (hf : from_chars p b = some (v, n)) :
    qstrntoull p base = (v, n) := by
  obtain ⟨cs, rfl⟩ : ∃ cs, p = c :: cs := by
    cases p with
    | nil => simp at hc
    | cons x xs =>
      have hx : x = c := by simpa using hc
      exact ⟨xs, by rw [hx]⟩
  have hd : (c :: cs).dropWhile ascii_isspace = c :: cs := by
    simp [hs]
  rw [qstrntoull, hd]
  simp [hm, hp, hscan, hb, hf]

/-! ## Decimal numbers -/

theorem asciiDigit_spec (c : UInt8) (h : isAsciiDigit c = true) : digitValue c < 10 ∧
    ascii_isspace c = false ∧ c ≠ 0x2d ∧ c ≠ 0x2b ∧ c ≠ 0 ∧ c ≠ 0x2e ∧ c ≠ 0x3a := by
  revert c
  apply forall_octet
  decide +kernel

theorem digitValue_decimal {v c : UInt8} (h : c ∈ decimal v) :
    digitValue c < 10 ∧ isAsciiDigit c = true := by
  have hdigit := all_eq_true.mp (decimal_digits v) c h
  exact ⟨(asciiDigit_spec c hdigit).1, hdigit⟩

theorem digit_no_sign (c : UInt8) (h : isAsciiDigit c = true) :
    ascii_isspace c = false ∧ c ≠ 0x2d ∧ c ≠ 0x2b ∧ c ≠ 0 ∧ c ≠ 0x2e ∧ c ≠ 0x3a :=
  (asciiDigit_spec c h).2

theorem decimal_cons (v : UInt8) : ∃ c cs, decimal v = c :: cs := by
  have hl := decimal_length v
  cases hd : decimal v with
  | nil => rw [hd] at hl; simp at hl
  | cons c cs => exact ⟨c, cs, rfl⟩

theorem scanPrefix_decimal (v : UInt8) (hr : rest = [] ∨ ∃ cs, rest = 0x2e :: cs) :
    ∃ b, scanPrefix (decimal v ++ rest) 0 = (decimal v ++ rest, b) ∧ (b = 8 ∧ v = 0 ∨ b = 10) := by
  obtain ⟨c, cs, hd⟩ := decimal_cons v
  have hdigit := (@digitValue_decimal v c (by rw [hd]; exact mem_cons_self)).2
  have h0 := decimal_zero v
  by_cases hc : c = 0x30
  · have hz : v = 0 ∧ decimal v = [0x30] := by
      apply h0.resolve_left
      rw [hd, hc]
      simp
    have hcs : cs = [] := by
      have := hd.symm.trans hz.2
      simpa using (List.cons.inj this).2
    have hp : scanPrefix (decimal v ++ rest) 0 = (decimal v ++ rest, 8) := by
      rw [hd, hcs, hc]
      obtain hr | ⟨rs, hr⟩ := hr
      · rw [hr]
        simp [scanPrefix, isAsciiDigit]
      · rw [hr]
        simp [scanPrefix, isAsciiDigit]
    exact ⟨8, hp, .inl ⟨rfl, hz.1⟩⟩
  · have hp : scanPrefix (decimal v ++ rest) 0 = (decimal v ++ rest, 10) := by
      rw [hd]
      simp [scanPrefix, hdigit, hc]
    exact ⟨10, hp, .inr rfl⟩

theorem qstrntoull_decimal (v : UInt8) (hr : rest = [] ∨ ∃ cs, rest = 0x2e :: cs) :
    qstrntoull (decimal v ++ rest) 0 = (v.toUInt64, (decimal v).length) := by
  obtain ⟨b, hs, hb⟩ := scanPrefix_decimal v hr
  obtain ⟨c, cs, hd⟩ := decimal_cons v
  have hdigit := (@digitValue_decimal v c (by rw [hd]; exact mem_cons_self)).2
  obtain ⟨hsp, hm, hp, -⟩ := digit_no_sign c hdigit
  have hne : decimal v ≠ [] := by rw [hd]; simp
  have hend : ∀ k ≤ 36, ∀ x ∈ rest.head?, k ≤ digitValue x := by
    intro k hk x hx
    obtain hr | ⟨rs, hr⟩ := hr
    · rw [hr] at hx
      simp at hx
    · rw [hr] at hx
      have hx' : x = 0x2e := by simpa using hx.symm
      have h36 : digitValue 0x2e = 36 := by decide
      rw [hx', h36]
      exact hk
  have hv : ofDigits b ((decimal v).map digitValue) = v.toNat := by
    obtain ⟨hb, h0⟩ | hb := hb
    · rw [hb, h0]
      decide
    · rw [hb]
      exact decimal_value v
  have hlt : ∀ x ∈ decimal v, digitValue x < b := by
    intro x hx
    obtain ⟨hb, h0⟩ | hb := hb
    · rw [h0] at hx
      have hx' : x = 0x30 := by simpa [decimal, number] using hx
      rw [hx', hb]
      decide
    · rw [hb]
      exact (digitValue_decimal hx).1
  have hb36 : b ≤ 36 ∧ b ≠ 0 := by omega
  have hf := from_chars_digits hlt (hend b hb36.1) hne (by rw [hv]; have := v.toNat_lt; omega)
  rw [hv] at hf
  rw [qstrntoull_eq (by rw [hd]; rfl) hsp hm hp hb36.2 hs hf, ofNat_uInt8ToNat]

/-! ## Hexadecimal numbers -/

/-- The digits of a group, as they are in the buffer. -/
def hexGroup (high low : UInt8) : List UInt8 := (toHexGroup high low).map UInt16.toUInt8

/-- The character of a digit. -/
def hexDigit (d : UInt8) : UInt8 := (toHex d).toUInt8

theorem octet_hex (d : UInt8) : toHex d < 0x7f ∧ (digitValue (hexDigit d) = d.toNat % 16 ∧
    ascii_isspace (hexDigit d) = false ∧ hexDigit d ≠ 0x2d ∧ hexDigit d ≠ 0x2b ∧
    hexDigit d ≠ 0x78 ∧ hexDigit d ≠ 0x58 ∧ hexDigit d ≠ 0 ∧ hexDigit d ≠ 0x2e ∧
    hexDigit d ≠ 0x3a) ∧
    (d >>> 4).toNat % 16 * 16 + (d &&& 0xf).toNat % 16 = d.toNat ∧ (d >>> 4).toNat < 16 ∧
    (d &&& 0xf).toNat < 16 ∧ d.toNat % 16 = (d &&& 0xf).toNat := by
  revert d
  apply forall_octet
  decide +kernel

theorem toHex_ascii (d : UInt8) : toHex d < 0x7f := (octet_hex d).1

theorem hexDigit_spec (d : UInt8) : digitValue (hexDigit d) = d.toNat % 16 ∧
    ascii_isspace (hexDigit d) = false ∧ hexDigit d ≠ 0x2d ∧ hexDigit d ≠ 0x2b ∧
    hexDigit d ≠ 0x78 ∧ hexDigit d ≠ 0x58 ∧ hexDigit d ≠ 0 ∧ hexDigit d ≠ 0x2e ∧
    hexDigit d ≠ 0x3a :=
  (octet_hex d).2.1

theorem toNat_nibbles (v : UInt8) :
    (v >>> 4).toNat % 16 * 16 + (v &&& 0xf).toNat % 16 = v.toNat ∧ (v >>> 4).toNat < 16 ∧
    (v &&& 0xf).toNat < 16 ∧ v.toNat % 16 = (v &&& 0xf).toNat :=
  (octet_hex v).2.2

theorem toHexGroup_ascii (high low : UInt8) : (toHexGroup high low).all (· < 0x7f) = true := by
  rw [toHexGroup]
  split <;> split <;> (try split) <;> simp [toHex_ascii]

theorem hexGroup_digits (high low : UInt8) : ∃ ds : List UInt8,
    hexGroup high low = ds.map hexDigit ∧ 1 ≤ ds.length ∧ ds.length ≤ 4 ∧
    ofDigits 16 ((hexGroup high low).map digitValue) = high.toNat * 256 + low.toNat := by
  obtain ⟨hh, h1, h2, -⟩ := toNat_nibbles high
  obtain ⟨hl, h3, h4, -⟩ := toNat_nibbles low
  have hz : ∀ v : UInt8, v = 0 ↔ v.toNat = 0 := by
    intro v
    rw [← UInt8.toNat_inj]
    rfl
  have hval : ∀ d : UInt8, digitValue (hexDigit d) = d.toNat % 16 := fun d => (hexDigit_spec d).1
  rw [hexGroup, toHexGroup]
  by_cases ha : high = 0
  · rw [if_neg (by simpa using ha)]
    have ha' := (hz high).mp ha
    by_cases hb : low >>> 4 = 0
    · have hb' := (hz _).mp hb
      rw [if_neg (by simpa using hb)]
      exact ⟨[low &&& 0xf], rfl, by simp, by simp, by
        simp only [map_cons, map_nil, ofDigits, foldl_cons, foldl_nil]
        change 0 * 16 + digitValue (hexDigit _) = _
        rw [hval]
        omega⟩
    · rw [if_pos (by simpa using hb)]
      exact ⟨[low >>> 4, low &&& 0xf], rfl, by simp, by simp, by
        simp only [map_cons, map_nil, ofDigits, foldl_cons, foldl_nil]
        change (0 * 16 + digitValue (hexDigit _)) * 16 + digitValue (hexDigit _) = _
        rw [hval, hval]
        omega⟩
  · rw [if_pos (by simpa using ha)]
    have ha' := mt (hz high).mpr ha
    by_cases hb : high >>> 4 = 0
    · have hb' := (hz _).mp hb
      have hc : high &&& 0xf ≠ 0 := by
        intro hc
        have hc' := (hz _).mp hc
        omega
      rw [if_neg (by simpa using hb), if_pos hc]
      exact ⟨[high &&& 0xf, low >>> 4, low &&& 0xf], rfl, by simp, by simp, by
        simp only [map_cons, map_nil, ofDigits, foldl_cons, foldl_nil]
        change ((0 * 16 + digitValue (hexDigit _)) * 16 + digitValue (hexDigit _)) * 16 +
          digitValue (hexDigit _) = _
        rw [hval, hval, hval]
        omega⟩
    · rw [if_pos (by simpa using hb)]
      exact ⟨[high >>> 4, high &&& 0xf, low >>> 4, low &&& 0xf], rfl, by simp, by simp, by
        simp only [map_cons, map_nil, ofDigits, foldl_cons, foldl_nil]
        change (((0 * 16 + digitValue (hexDigit _)) * 16 + digitValue (hexDigit _)) * 16 +
          digitValue (hexDigit _)) * 16 + digitValue (hexDigit _) = _
        rw [hval, hval, hval, hval]
        omega⟩

/-- What is behind a group in the buffer. -/
def Ends (rest : List UInt8) : Prop := ∃ c cs, rest = c :: cs ∧ (c = 0 ∨ c = 0x2e ∨ c = 0x3a)

/-- The base 16 has the prefix "0x" only, and a group has none. -/
theorem scanPrefix_hex {c x : UInt8} {cs : List UInt8} (hx : x ≠ 0x78) (hx' : x ≠ 0x58) :
    scanPrefix (c :: x :: cs) 16 = (c :: x :: cs, 16) := by
  rw [scanPrefix]
  simp [hx, hx']

theorem qstrntoull_hex {ds rest : List UInt8} (hds : ds ≠ []) (hr : Ends rest)
    (hv : ofDigits 16 ((ds.map hexDigit).map digitValue) < 2 ^ 64) :
    qstrntoull (ds.map hexDigit ++ rest) 16 =
      (ofNat (ofDigits 16 ((ds.map hexDigit).map digitValue)), ds.length) := by
  obtain ⟨e, es, rfl, he⟩ := hr
  have hend : 16 ≤ digitValue e ∧ e ≠ 0x78 ∧ e ≠ 0x58 := by
    obtain he | he | he := he <;> rw [he] <;> decide
  have hlt : ∀ x ∈ ds.map hexDigit, digitValue x < 16 := by
    intro x hx
    obtain ⟨d, -, rfl⟩ := mem_map.mp hx
    rw [(hexDigit_spec d).1]
    omega
  have hf := @from_chars_digits 16 (ds.map hexDigit) (e :: es) hlt (by simpa using hend.1)
    (by simpa using hds) hv
  obtain ⟨d, ds', rfl⟩ := exists_cons_of_ne_nil hds
  obtain ⟨-, hs, hm, hp, -⟩ := hexDigit_spec d
  have hscan : scanPrefix ((d :: ds').map hexDigit ++ e :: es) 16 =
      ((d :: ds').map hexDigit ++ e :: es, 16) := by
    cases ds' with
    | nil => exact scanPrefix_hex hend.2.1 hend.2.2
    | cons d' ds'' =>
      obtain ⟨-, -, -, -, hx, hx', -⟩ := hexDigit_spec d'
      exact scanPrefix_hex hx hx'
  rw [qstrntoull_eq (by rfl) hs hm hp (by decide) hscan hf, length_map]

theorem qstrntoull_hexGroup (high low : UInt8) (hr : Ends rest) :
    qstrntoull (hexGroup high low ++ rest) 16 =
      (ofNat (high.toNat * 256 + low.toNat), (hexGroup high low).length) := by
  obtain ⟨ds, hds, h1, h4, hv⟩ := hexGroup_digits high low
  have h := high.toNat_lt
  have l := low.toNat_lt
  have hne : ds ≠ [] := by
    intro h0
    rw [h0] at h1
    simp at h1
  have hq := @qstrntoull_hex ds rest hne hr (by rw [← hds, hv]; omega)
  rw [← hds, hv] at hq
  rw [hq, hds, length_map]

end QIPAddressUtils

end QtBase
