import QtBase.Io.IPv6Text

/-! IPv6 addresses: what is printed is parsed. The parser finds the length of the "::" from the
number of colons and dots. -/
namespace QtBase

open List UInt64 Nat

namespace QIPAddressUtils

variable {a : List UInt8}

/-- The text in the buffer. -/
def ascii (text : List UInt16) : List UInt8 := text.map UInt16.toUInt8

theorem ascii_append (s t : List UInt16) : ascii (s ++ t) = ascii s ++ ascii t := map_append

theorem ascii_group (a : List UInt8) (i : ℕ) :
    ascii (group a i) = hexGroup (octet a i) (octet a (i + 1)) := rfl

theorem ascii_colon : ascii colon = [0x3a] := rfl

/-! ## Groups in the buffer -/

theorem group_hex {i : ℕ} {c : UInt8} (h : c ∈ ascii (group a i)) :
    c ≠ 0 ∧ c ≠ 0x2e ∧ c ≠ 0x3a := by
  obtain ⟨ds, hds, -⟩ := hexGroup_digits (octet a i) (octet a (i + 1))
  rw [ascii_group, hds] at h
  obtain ⟨d, -, rfl⟩ := mem_map.mp h
  obtain ⟨-, -, -, -, -, -, h0, hdot, hcolon⟩ := hexDigit_spec d
  exact ⟨h0, hdot, hcolon⟩

theorem group_length (a : List UInt8) (i : ℕ) :
    1 ≤ (ascii (group a i)).length ∧ (ascii (group a i)).length ≤ 4 := by
  obtain ⟨ds, hds, h1, h4, -⟩ := hexGroup_digits (octet a i) (octet a (i + 1))
  rw [ascii_group, hds, length_map]
  exact ⟨h1, h4⟩

theorem group_count (a : List UInt8) (i : ℕ) :
    (ascii (group a i)).count 0x3a = 0 ∧ (ascii (group a i)).count 0x2e = 0 := by
  constructor
  · exact count_eq_zero.mpr fun h => (group_hex h).2.2 rfl
  · exact count_eq_zero.mpr fun h => (group_hex h).2.1 rfl

theorem leading_count (a : List UInt8) (i n : ℕ) :
    (ascii (leading a i n)).count 0x3a = n ∧ (ascii (leading a i n)).count 0x2e = 0 := by
  induction n generalizing i with
  | zero => exact ⟨rfl, rfl⟩
  | succ n ih =>
    obtain ⟨h1, h2⟩ := group_count a i
    obtain ⟨h3, h4⟩ := ih (i + 2)
    rw [leading, ascii_append, ascii_append, ascii_colon, count_append, count_append,
      count_append, count_append, h1, h2, h3, h4]
    simp
    omega

variable {c : UInt8}

theorem leading_ne_zero {i n : ℕ} (h : c ∈ ascii (leading a i n)) : c ≠ 0 := by
  induction n generalizing i with
  | zero => simp [ascii, leading] at h
  | succ n ih =>
    rw [leading, ascii_append, ascii_append, mem_append, mem_append] at h
    obtain (h | h) | h := h
    · exact (group_hex h).1
    · rw [ascii_colon] at h
      have hc : c = 0x3a := by simpa using h
      rw [hc]
      decide
    · exact ih h

theorem leading_length (a : List UInt8) (i n : ℕ) : 2 * n ≤ (ascii (leading a i n)).length := by
  induction n generalizing i with
  | zero => omega
  | succ n ih =>
    have h := group_length a i
    have h' := ih (i + 2)
    rw [leading, ascii_append, ascii_append, ascii_colon, length_append, length_append]
    simp
    omega

theorem groupsText_count (a : List UInt8) (i n : ℕ) :
    (ascii (groupsText a i n)).count 0x3a = n - 1 ∧
    (ascii (groupsText a i n)).count 0x2e = 0 := by
  cases n with
  | zero => exact ⟨rfl, rfl⟩
  | succ n =>
    obtain ⟨h1, h2⟩ := group_count a (i + 2 * n)
    obtain ⟨h3, h4⟩ := leading_count a i n
    rw [groupsText_succ, ascii_append, count_append, count_append, h1, h2, h3, h4]
    exact ⟨rfl, rfl⟩

theorem groupsText_ne_zero {i n : ℕ} (h : c ∈ ascii (groupsText a i n)) : c ≠ 0 := by
  cases n with
  | zero => simp [groupsText, ascii] at h
  | succ n =>
    rw [groupsText_succ, ascii_append, mem_append] at h
    obtain h | h := h
    · exact leading_ne_zero h
    · exact (group_hex h).1

/-! ## The address that is written -/

/-- The octets before a position are written, and the others are zero. -/
def written (a : List UInt8) (pos : ℕ) : List UInt8 := a.take pos ++ List.replicate (16 - pos) 0

theorem written_all (ha : a.length = 16) : written a 16 = a := by
  rw [written, take_of_length_le (by omega)]
  simp

theorem written_getElem? (ha : a.length = 16) {pos : ℕ} (hp : pos ≤ 16) (i : ℕ) :
    (written a pos)[i]? = if i < pos then a[i]? else if i < 16 then some 0 else none := by
  rw [written, getElem?_append]
  by_cases hi : i < pos
  · rw [if_pos (by simp; omega), if_pos hi, getElem?_take_of_lt hi]
  · rw [if_neg (by simp; omega), if_neg hi, getElem?_replicate, length_take,
      min_eq_left (by omega)]
    by_cases h16 : i < 16
    · rw [if_pos (by omega), if_pos h16]
    · rw [if_neg (by omega), if_neg h16]

theorem octet_eq {i : ℕ} (h : i < a.length) : a[i]? = some (octet a i) := by
  rw [octet, getD_eq_getElem _ _ h, getElem?_eq_getElem h]

theorem written_group (ha : a.length = 16) {pos : ℕ} (hp : pos + 2 ≤ 16) :
    ((written a pos).set pos (octet a pos)).set (pos + 1) (octet a (pos + 1)) =
      written a (pos + 2) := by
  apply ext_getElem?
  intro i
  have hlen : (written a pos).length = 16 := by
    rw [written]
    simp
    omega
  rw [getElem?_set, getElem?_set, length_set, hlen, written_getElem? ha (by omega),
    written_getElem? ha (by omega)]
  by_cases h1 : pos + 1 = i
  · rw [if_pos h1, if_pos (by omega), if_pos (by omega), ← h1, octet_eq (by omega)]
  · rw [if_neg h1]
    by_cases h0 : pos = i
    · rw [if_pos h0, if_pos (by omega), if_pos (by omega), ← h0, octet_eq (by omega)]
    · rw [if_neg h0]
      by_cases hlt : i < pos
      · rw [if_pos hlt, if_pos (by omega)]
      · have h2 : ¬i < pos + 2 := by omega
        rw [if_neg hlt, if_neg h2]

theorem written_run (ha : a.length = 16) {o l : ℕ} (h : ZeroRun a o l) :
    written a (o + l) = written a o := by
  apply ext_getElem?
  intro i
  have hin := h.inside
  have hs := h.start
  have hw := h.whole
  rw [written_getElem? ha hin, written_getElem? ha (by omega)]
  by_cases hlt : i < o
  · rw [if_pos hlt, if_pos (by omega)]
  · rw [if_neg hlt]
    by_cases hle : i < o + l
    · have hz : octet a i = 0 := by
        by_cases hi : i % 2 = 0
        · exact (zeroGroup_iff.1 (h.zero i hi (by omega) hle)).1
        · have h1 := (zeroGroup_iff.1 (h.zero (i - 1) (by omega) (by omega) (by omega))).2
          rwa [show i - 1 + 1 = i by omega] at h1
      rw [if_pos hle, if_pos (by omega), octet_eq (by omega), hz]
    · rw [if_neg hle]

/-! ## Rounds of the parser -/

theorem halves (high low : UInt8) :
    ((ofNat (high.toNat * 256 + low.toNat)).toUInt16 >>> 8).toUInt8 = high ∧
    ((ofNat (high.toNat * 256 + low.toNat)).toUInt16 &&& 0xff).toUInt8 = low := by
  have h := high.toNat_lt
  have l := low.toNat_lt
  have hx : (ofNat (high.toNat * 256 + low.toNat)).toUInt16.toNat =
      high.toNat * 256 + low.toNat := by
    rw [toNat_toUInt16, toNat_ofNat']
    omega
  constructor
  · apply UInt8.toNat_inj.mp
    rw [UInt16.toNat_toUInt8, UInt16.toNat_shiftRight, hx]
    change (high.toNat * 256 + low.toNat) >>> 8 % 2 ^ 8 = high.toNat
    omega
  · apply UInt8.toNat_inj.mp
    rw [UInt16.toNat_toUInt8, UInt16.toNat_and, hx]
    change ((high.toNat * 256 + low.toNat) &&& 2 ^ 8 - 1) % 2 ^ 8 = low.toNat
    rw [and_two_pow_sub_one_eq_mod]
    omega

variable {rest : List UInt8}

theorem group_ptr (a : List UInt8) (i : ℕ) (h : Ends rest) :
    at' (ascii (group a i) ++ rest) 0 ≠ 0x3a ∧
    qstrntoull (ascii (group a i) ++ rest) 16 =
      (ofNat ((octet a i).toNat * 256 + (octet a (i + 1)).toNat),
        (ascii (group a i)).length) ∧
    at' (ascii (group a i) ++ rest) (ascii (group a i)).length = at' rest 0 := by
  refine ⟨?_, qstrntoull_hexGroup _ _ h, ?_⟩
  · have hl := group_length a i
    cases hg : ascii (group a i) with
    | nil => rw [hg] at hl; simp at hl
    | cons c cs =>
      have hc : c ∈ ascii (group a i) := by rw [hg]; exact mem_cons_self
      exact (group_hex hc).2.2
  · simpa using @at'_append (ascii (group a i)) rest 0

variable {colonCount rounds : ℕ}

theorem parseIp6Loop_group (ha : a.length = 16) {pos : ℕ} {z : ℤ} (hp : pos + 2 ≤ 16)
    (hc : c = 0 ∨ c = 0x3a) :
    parseIp6Loop colonCount (rounds + 1) (ascii (group a pos) ++ c :: rest) pos z (written a pos) =
      if c = 0 then (written a (pos + 2), if pos + 2 = 16 then none else some 1)
      else parseIp6Loop colonCount rounds rest (pos + 2) z (written a (pos + 2)) := by
  have hends : Ends (c :: rest) := ⟨c, rest, rfl, by obtain h | h := hc <;> simp [h]⟩
  obtain ⟨h0, hq, hn⟩ := group_ptr a pos hends
  have hl := group_length a pos
  obtain ⟨hh, hlo⟩ := halves (octet a pos) (octet a (pos + 1))
  have hdrop : (ascii (group a pos) ++ c :: rest).drop ((ascii (group a pos)).length + 1) = rest := by
    rw [← drop_drop, drop_left]
    rfl
  have hn' : at' (ascii (group a pos) ++ c :: rest) (ascii (group a pos)).length = c := hn
  have hused : ¬((ascii (group a pos)).length = 0 ∨ (ascii (group a pos)).length > 4) := by omega
  have hdot : c ≠ 0x2e := by
    obtain h | h := hc <;> rw [h] <;> decide
  rw [parseIp6Loop, if_pos (by omega), if_neg h0, hq]
  simp only [if_neg hused, hn', if_neg hdot, hh, hlo, written_group ha hp, hdrop]
  obtain h | h := hc
  · rw [if_pos h, if_pos h]
  · have hne : ¬(c = 0) := by rw [h]; decide
    rw [if_neg hne, if_neg hne, if_neg (not_not.mpr h)]

/-- The groups before a "::" or before an embedded address. -/
theorem parseIp6Loop_leading (ha : a.length = 16) {pos n : ℕ} {z : ℤ} (hp : pos + 2 * n ≤ 16) :
    parseIp6Loop colonCount (rounds + n) (ascii (leading a pos n) ++ rest) pos z (written a pos) =
      parseIp6Loop colonCount rounds rest (pos + 2 * n) z (written a (pos + 2 * n)) := by
  induction n generalizing pos with
  | zero => rfl
  | succ n ih =>
    have hne : ¬((0x3a : UInt8) = 0) := by decide
    rw [leading, ascii_append, ascii_append, ascii_colon, append_assoc, append_assoc,
      singleton_append, ← add_assoc, parseIp6Loop_group ha (by omega) (.inr rfl),
      if_neg hne, ih (by omega), show pos + 2 + 2 * n = pos + 2 * (n + 1) by omega]

theorem parseIp6Loop_end {z : ℤ} {ptr address : List UInt8}
    (h : rounds ≠ 0) : parseIp6Loop colonCount rounds ptr 16 z address = (address, none) := by
  obtain ⟨r, rfl⟩ := exists_eq_succ_of_ne_zero h
  rw [parseIp6Loop, if_neg (by omega), if_pos rfl]

theorem parseIp6Loop_groups (ha : a.length = 16) {pos n : ℕ} {z : ℤ} (hp : pos + 2 * n = 16)
    (hr : n + 1 ≤ rounds) :
    parseIp6Loop colonCount rounds (ascii (groupsText a pos n) ++ [0]) pos z (written a pos) =
      (a, none) := by
  cases n with
  | zero =>
    rw [show pos = 16 by omega, parseIp6Loop_end (by omega), written_all ha]
  | succ n =>
    obtain ⟨r, rfl⟩ : ∃ r, rounds = r + 1 + n := ⟨rounds - (n + 1), by omega⟩
    rw [groupsText_succ, ascii_append, append_assoc, parseIp6Loop_leading ha (by omega),
      parseIp6Loop_group ha (by omega) (.inl rfl), if_pos rfl, if_pos (by omega),
      show pos + 2 * n + 2 = 16 by omega, written_all ha]

/-- The round that reads the "::". -/
theorem parseIp6Loop_run {pos : ℕ} {z : ℤ} {address : List UInt8} (hp : pos < 15) (hz : 1 ≤ z)
    (hcolons : pos = 0 ∨ pos ≠ colonCount * 2) :
    parseIp6Loop colonCount (rounds + 1) ((if pos = 0 then [0x3a, 0x3a] else [0x3a]) ++ rest) pos z
      address = parseIp6Loop colonCount rounds rest (pos + z.toNat * 2) 0 address := by
  by_cases h0 : pos = 0
  · rw [parseIp6Loop, if_pos hp, h0]
    simp [at', not_lt.mpr hz]
  · have hne := hcolons.resolve_left h0
    rw [parseIp6Loop, if_pos hp]
    simp [at', not_lt.mpr hz, h0, hne]

/-! ## The embedded address -/

theorem hexDigit_asciiDigit (c : UInt8) (h : isAsciiDigit c = true) : hexDigit (c - 0x30) = c := by
  revert c
  apply forall_octet
  decide +kernel

theorem foldl_digits_lt {base : ℕ} {ds : List ℕ} (h : ∀ d ∈ ds, d < base) (n : ℕ) :
    ds.foldl (fun n d => n * base + d) n < (n + 1) * base ^ ds.length := by
  induction ds generalizing n with
  | nil => simp
  | cons d ds ih =>
    have hd := h d mem_cons_self
    have hle : n * base + d + 1 ≤ (n + 1) * base := by
      rw [add_one_mul]
      omega
    refine (ih (fun d hd => h d (mem_cons_of_mem _ hd)) _).trans_le ?_
    rw [length_cons, pow_succ', ← mul_assoc]
    exact mul_le_mul_right _ hle

theorem decimal_hex (v : UInt8) :
    decimal v = ((decimal v).map fun c => c - 0x30).map hexDigit ∧
    ofDigits 16 ((decimal v).map digitValue) < 2 ^ 64 := by
  have hdigits := all_eq_true.mp (decimal_digits v)
  constructor
  · rw [map_map]
    have hself : (decimal v).map (hexDigit ∘ fun c => c - 0x30) = (decimal v).map id :=
      map_congr_left fun c hc => hexDigit_asciiDigit c (hdigits c hc)
    rw [hself, map_id]
  · have hsmall : ∀ d ∈ (decimal v).map digitValue, d < 16 := by
      intro d hd
      obtain ⟨c, hc, rfl⟩ := mem_map.mp hd
      have hdigit := (asciiDigit_spec c (hdigits c hc)).1
      omega
    have hlt := foldl_digits_lt hsmall 0
    rw [length_map, Nat.zero_add, Nat.one_mul] at hlt
    have hle : 16 ^ (decimal v).length ≤ 16 ^ 3 :=
      Nat.pow_le_pow_right (by decide) (decimal_length v).2
    exact hlt.trans_le (hle.trans (by decide))

theorem qstrntoull_decimal_hex (v : UInt8) (rest : List UInt8) :
    ∃ ll, qstrntoull (decimal v ++ 0x2e :: rest) 16 = (ll, (decimal v).length) := by
  obtain ⟨hds, hv⟩ := decimal_hex v
  have hl := decimal_length v
  have hne : (decimal v).map (fun c => c - 0x30) ≠ [] := by
    intro h
    rw [map_eq_nil_iff] at h
    rw [h] at hl
    simp at hl
  rw [hds] at hv
  have hq := qstrntoull_hex hne ⟨0x2e, rest, rfl, .inr (.inl rfl)⟩ hv
  rw [← hds, length_map] at hq
  exact ⟨_, hq⟩

theorem embeddedAddress_eq (a : List UInt8) : embeddedAddress a =
    fromOctets (octet a 12) (octet a 13) (octet a 14) (octet a 15) := by
  have h16 : ∀ x : UInt32, x <<< 8 <<< 8 = x <<< 16 := fun x =>
    (UInt32.shiftLeft_add (by decide) (by decide) (by decide)).symm
  have h24 : ∀ x : UInt32, x <<< 16 <<< 8 = x <<< 24 := fun x =>
    (UInt32.shiftLeft_add (by decide) (by decide) (by decide)).symm
  have h0 : (0 : UInt32) <<< 8 = 0 := rfl
  rw [embeddedAddress, fromOctets, h0, UInt32.zero_or]
  simp only [UInt32.shiftLeft_or, h16, h24]

theorem octets_of_sum {a b c d : ℕ} (ha : a < 256) (hb : b < 256) (hc : c < 256) (hd : d < 256) :
    (((a * 256 + b) * 256 + c) * 256 + d) / 2 ^ 24 % 256 = a ∧
      (((a * 256 + b) * 256 + c) * 256 + d) / 2 ^ 16 % 256 = b ∧
      (((a * 256 + b) * 256 + c) * 256 + d) / 2 ^ 8 % 256 = c ∧
      (((a * 256 + b) * 256 + c) * 256 + d) % 256 = d := by
  refine ⟨?_, ?_, ?_, ?_⟩ <;> omega

theorem fromOctets_octets (a b c d : UInt8) :
    (fromOctets a b c d >>> 24).toUInt8 = a ∧ (fromOctets a b c d >>> 16).toUInt8 = b ∧
    (fromOctets a b c d >>> 8).toUInt8 = c ∧ (fromOctets a b c d).toUInt8 = d := by
  have hx := toNat_octets a b c d
  have h24 := toNat_shift_octet (fromOctets a b c d) 24 (by decide)
  have h16 := toNat_shift_octet (fromOctets a b c d) 16 (by decide)
  have h8 := toNat_shift_octet (fromOctets a b c d) 8 (by decide)
  have h0 : (fromOctets a b c d).toUInt8.toNat = (fromOctets a b c d).toNat % 256 :=
    UInt32.toNat_toUInt8 _
  rw [hx] at h24 h16 h8 h0
  obtain ⟨e24, e16, e8, e0⟩ := octets_of_sum a.toNat_lt b.toNat_lt c.toNat_lt d.toNat_lt
  exact ⟨UInt8.toNat_inj.mp (h24.trans e24), UInt8.toNat_inj.mp (h16.trans e16),
    UInt8.toNat_inj.mp (h8.trans e8), UInt8.toNat_inj.mp (h0.trans e0)⟩

theorem written_embedded (ha : a.length = 16) :
    ((((written a 12).set 12 (octet a 12)).set 13 (octet a 13)).set 14 (octet a 14)).set 15
      (octet a 15) = a := by
  have h1 := @written_group a ha 12 (by omega)
  have h2 := @written_group a ha 14 (by omega)
  change ((((written a 12).set 12 (octet a 12)).set (12 + 1) (octet a (12 + 1))).set 14
    (octet a 14)).set (14 + 1) (octet a (14 + 1)) = a
  rw [h1, h2, written_all ha]

theorem ascii_dottedText (x : UInt32) : ascii (dottedText x) =
    dotted (x >>> 24).toUInt8 (x >>> 16).toUInt8 (x >>> 8).toUInt8 x.toUInt8 := dottedText_buffer x

theorem parseIp6Loop_embedded (ha : a.length = 16) {z : ℤ} :
    parseIp6Loop colonCount (rounds + 1) (ascii (dottedText (embeddedAddress a)) ++ [0]) 12 z
      (written a 12) = (a, none) := by
  obtain ⟨h24, h16, h8, h0⟩ :=
    fromOctets_octets (octet a 12) (octet a 13) (octet a 14) (octet a 15)
  have hptr : ascii (dottedText (embeddedAddress a)) =
      dotted (octet a 12) (octet a 13) (octet a 14) (octet a 15) := by
    rw [ascii_dottedText, embeddedAddress_eq, h24, h16, h8, h0]
  have hparse := parseIp4Internal_dotted false (octet a 12) (octet a 13) (octet a 14) (octet a 15)
  obtain ⟨rest, hrest⟩ : ∃ rest, dotted (octet a 12) (octet a 13) (octet a 14) (octet a 15) ++ [0] =
      decimal (octet a 12) ++ 0x2e :: rest := by
    simp only [dotted, append_assoc, cons_append]
    exact ⟨_, rfl⟩
  obtain ⟨ll, hq⟩ := qstrntoull_decimal_hex (octet a 12) rest
  obtain ⟨c, cs, hd⟩ := decimal_cons (octet a 12)
  have hc := digit_no_sign c (digitValue_decimal (by rw [hd]; exact mem_cons_self)).2
  have hfirst : at' (decimal (octet a 12) ++ 0x2e :: rest) 0 ≠ 0x3a := by
    rw [hd]
    exact hc.2.2.2.2.2
  have hnext : at' (decimal (octet a 12) ++ 0x2e :: rest) (decimal (octet a 12)).length = 0x2e :=
    @at'_append (decimal (octet a 12)) (0x2e :: rest) 0
  have hl := decimal_length (octet a 12)
  have hused : ¬((decimal (octet a 12)).length = 0 ∨ (decimal (octet a 12)).length > 4) := by omega
  rw [hrest] at hparse
  rw [hptr, hrest, parseIp6Loop, if_pos (by omega), if_neg hfirst, hq]
  simp only [if_neg hused, hnext, if_true, ne_eq, not_true_eq_false, if_false, hparse, Bool.not_true,
    Bool.false_eq_true, h24, h16, h8, h0, written_embedded ha]

/-! ## The counts and the ends of a text -/

theorem dotted_count (x : UInt32) : (ascii (dottedText x)).count 0x3a = 0 ∧
    (ascii (dottedText x)).count 0x2e = 3 ∧ ∀ c ∈ ascii (dottedText x), c ≠ 0 := by
  have hdec : ∀ v, (decimal v).count 0x3a = 0 ∧ (decimal v).count 0x2e = 0 := by
    intro v
    constructor
    · exact count_eq_zero.mpr fun h =>
        (digit_no_sign _ (digitValue_decimal h).2).2.2.2.2.2 rfl
    · exact count_eq_zero.mpr fun h =>
        (digit_no_sign _ (digitValue_decimal h).2).2.2.2.2.1 rfl
  rw [ascii_dottedText, dotted]
  refine ⟨?_, ?_, ?_⟩
  · simp [count_append, hdec]
  · simp [count_append, hdec]
  · intro c hc
    simp only [mem_append, mem_cons] at hc
    obtain hc | rfl | hc | rfl | hc | rfl | hc := hc
    · exact decimal_ne_zero hc
    · decide
    · exact decimal_ne_zero hc
    · decide
    · exact decimal_ne_zero hc
    · decide
    · exact decimal_ne_zero hc

theorem groupsText_length (a : List UInt8) (i n : ℕ) : n ≤ (ascii (groupsText a i n)).length := by
  cases n with
  | zero => omega
  | succ n =>
    have h1 := leading_length a i n
    have h2 := group_length a (i + 2 * n)
    rw [groupsText_succ, ascii_append, length_append]
    omega

/-- The octets of an embedded address. -/
def embedded (a : List UInt8) (e : ℕ) : Prop := embedsIp4 a = true ∧ e ≤ 12

instance (e : ℕ) : Decidable (embedded a e) :=
  inferInstanceAs (Decidable (embedsIp4 a = true ∧ e ≤ 12))

theorem tailText_count (a : List UInt8) (e : ℕ) :
    (ascii (tailText a e)).count 0x3a =
      (if embedded a e then (12 - e) / 2 else (16 - e) / 2 - 1) ∧
    (ascii (tailText a e)).count 0x2e = (if embedded a e then 3 else 0) := by
  rw [tailText]
  by_cases h : embedded a e
  · obtain ⟨h1, h2⟩ := leading_count a e ((12 - e) / 2)
    obtain ⟨h3, h4, -⟩ := dotted_count (embeddedAddress a)
    rw [if_pos h, if_pos h, if_pos (show embedsIp4 a = true ∧ e ≤ 12 from h), ascii_append,
      count_append, count_append, h1, h2, h3, h4]
    exact ⟨rfl, rfl⟩
  · rw [if_neg h, if_neg h, if_neg (show ¬(embedsIp4 a = true ∧ e ≤ 12) from h)]
    exact groupsText_count a e _

theorem tailText_ne_zero {e : ℕ} (h : c ∈ ascii (tailText a e)) : c ≠ 0 := by
  rw [tailText] at h
  split at h
  · rw [ascii_append, mem_append] at h
    obtain h | h := h
    · exact leading_ne_zero h
    · exact (dotted_count _).2.2 c h
  · exact groupsText_ne_zero h

theorem tailText_length (a : List UInt8) {e : ℕ} :
    (if embedded a e then (12 - e) / 2 + 3 else (16 - e) / 2) ≤ (ascii (tailText a e)).length := by
  rw [tailText]
  by_cases h : embedded a e
  · have h1 := leading_length a e ((12 - e) / 2)
    have h2 := @count_le_length UInt8 _ 0x2e (ascii (dottedText (embeddedAddress a)))
    rw [(dotted_count _).2.1] at h2
    rw [if_pos h, if_pos (show embedsIp4 a = true ∧ e ≤ 12 from h), ascii_append, length_append]
    omega
  · rw [if_neg h, if_neg (show ¬(embedsIp4 a = true ∧ e ≤ 12) from h)]
    exact groupsText_length a e _

/-- The rounds behind the "::". -/
theorem parseIp6Loop_tail (ha : a.length = 16) {e : ℕ} {z : ℤ} (he : e ≤ 16) (heven : e % 2 = 0)
    (hr : (16 - e) / 2 + 1 ≤ rounds) :
    parseIp6Loop colonCount rounds (ascii (tailText a e) ++ [0]) e z (written a e) =
      (a, none) := by
  rw [tailText]
  by_cases h : embedsIp4 a = true ∧ e ≤ 12
  · obtain ⟨r, rfl⟩ : ∃ r, rounds = r + 1 + (12 - e) / 2 := ⟨rounds - 1 - (12 - e) / 2, by omega⟩
    rw [if_pos h, ascii_append, append_assoc, parseIp6Loop_leading ha (by omega),
      show e + 2 * ((12 - e) / 2) = 12 by omega, parseIp6Loop_embedded ha]
  · rw [if_neg h]
    exact parseIp6Loop_groups ha (by omega) hr

/-! ## The text before the loop -/

/-- What the parser looks at to find a "::" at an end of the text. -/
def colonsAtEnd (text : List UInt16) : Prop :=
  (at' (ascii text ++ [0]) 0 = 0x3a ∧ at' (ascii text ++ [0]) 1 = 0x3a) ∨
    (at' (ascii text ++ [0]) (text.length - 2) = 0x3a ∧
      at' (ascii text ++ [0]) (text.length - 1) = 0x3a)

instance (text : List UInt16) : Decidable (colonsAtEnd text) := inferInstanceAs (Decidable (_ ∨ _))

theorem parseIp6_eq {text : List UInt16} {dotCount : ℕ} (hascii : text.all (· < 0x7f) = true)
    (h0 : ∀ c ∈ ascii text, c ≠ 0) (hcolons : (ascii text).count 0x3a = colonCount)
    (hdots : (ascii text).count 0x2e = dotCount) (hdot : dotCount = 0 ∨ dotCount = 3)
    (hne : ¬(colonCount = 2 ∧ text.length = 2))
    (hin : colonsAtEnd text ∨ (2 ≤ colonCount ∧ colonCount ≤ 7)) :
    parseIp6 text = parseIp6Loop colonCount (text.length + 1) (ascii text ++ [0]) 0
      ((if colonsAtEnd text then 9 else 8) - (colonCount : ℕ) - (if dotCount = 3 then 1 else 0))
      (List.replicate 16 0) := by
  have htake : (ascii text ++ [0]).takeWhile (· ≠ 0) = ascii text := takeWhile_terminator h0
  have hlen : (ascii text ++ [0]).length = text.length + 1 := by simp [ascii]
  have hin' : ¬(¬colonsAtEnd text ∧ (colonCount < 2 ∨ colonCount > 7)) := by
    rintro ⟨h1, h2⟩
    obtain h | h := hin
    · exact h1 h
    · omega
  have hd : ¬(dotCount ≠ 0 ∧ dotCount ≠ 3) := by omega
  rw [parseIp6, checkedToAscii_eq hascii]
  change (let chars := (ascii text ++ [0]).takeWhile (· ≠ 0)
    let colonCount : ℕ := chars.count 0x3a
    let dotCount : ℕ := chars.count 0x2e
    let address := List.replicate 16 0
    if dotCount ≠ 0 ∧ dotCount ≠ 3 then (address, some 1)
    else if colonCount = 2 ∧ text.length = 2 then (address, none)
    else
      if ¬colonsAtEnd text ∧ (colonCount < 2 ∨ colonCount > 7) then (address, some 1)
      else
        let zeroWordsToFill : ℤ := (if colonsAtEnd text then 9 else 8) - colonCount
        let zeroWordsToFill := if dotCount ≠ 0 then zeroWordsToFill - 1 else zeroWordsToFill
        parseIp6Loop colonCount (ascii text ++ [0]).length (ascii text ++ [0]) 0 zeroWordsToFill
          address) = _
  simp only [htake, hcolons, hdots, if_neg hd, if_neg hne, if_neg hin', hlen]
  obtain h | h := hdot
  · simp [h]
  · simp [h]

theorem group_ascii (a : List UInt8) (i : ℕ) : (group a i).all (· < 0x7f) = true :=
  toHexGroup_ascii _ _

theorem colon_ascii : colon.all (· < 0x7f) = true := by decide

theorem leading_ascii (a : List UInt8) (i n : ℕ) : (leading a i n).all (· < 0x7f) = true := by
  induction n generalizing i with
  | zero => rfl
  | succ n ih => rw [leading, all_append, all_append, group_ascii, colon_ascii, ih]; rfl

theorem groupsText_ascii (a : List UInt8) (i n : ℕ) :
    (groupsText a i n).all (· < 0x7f) = true := by
  cases n with
  | zero => rfl
  | succ n => rw [groupsText_succ, all_append, leading_ascii, group_ascii]; rfl

theorem tailText_ascii (a : List UInt8) (e : ℕ) : (tailText a e).all (· < 0x7f) = true := by
  rw [tailText]
  split
  · rw [all_append, leading_ascii, dottedText_ascii]; rfl
  · exact groupsText_ascii a e _

/-! ## The text without a "::" -/

theorem parseIp6_plain (ha : a.length = 16) : parseIp6 (groupsText a 0 8) = (a, none) := by
  obtain ⟨hc, hd⟩ := groupsText_count a 0 8
  have hlen := groupsText_length a 0 8
  have hlen' : (ascii (groupsText a 0 8)).length = (groupsText a 0 8).length := by simp [ascii]
  have hzero : List.replicate 16 0 = written a 0 := by simp [written]
  rw [parseIp6_eq (groupsText_ascii a 0 8) (fun c => groupsText_ne_zero) hc hd (.inl rfl)
    (by omega) (.inr (by omega)), hzero]
  exact parseIp6Loop_groups ha rfl (by omega)

/-! ## The text with a "::" -/

theorem ascii_compressed (a : List UInt8) (o l : ℕ) (ho : o % 2 = 0) :
    ascii (compressed a o l) = ascii (leading a 0 (o / 2)) ++
      ((if o = 0 then [0x3a, 0x3a] else [0x3a]) ++ ascii (tailText a (o + l))) := by
  rw [compressed, ascii_append, ascii_append, ascii_append, ascii_colon]
  by_cases h : o = 0
  · rw [if_pos h, h]
    rfl
  · obtain ⟨n, hn⟩ : ∃ n, o / 2 = n + 1 := ⟨o / 2 - 1, by omega⟩
    rw [if_neg h, hn, leading_succ, ascii_append, ascii_colon]
    simp only [append_assoc]

theorem compressed_ne_zero {o l : ℕ} (h : c ∈ ascii (compressed a o l)) : c ≠ 0 := by
  have hcolon : ∀ c ∈ ascii colon, c ≠ 0 := by
    intro c hc
    rw [ascii_colon] at hc
    rw [mem_singleton.mp hc]
    decide
  rw [compressed, ascii_append, ascii_append, ascii_append] at h
  simp only [mem_append] at h
  obtain h | (h | h) | h := h
  · exact groupsText_ne_zero h
  · exact hcolon c h
  · exact hcolon c h
  · exact tailText_ne_zero h

theorem compressed_ascii (a : List UInt8) (o l : ℕ) :
    (compressed a o l).all (· < 0x7f) = true := by
  rw [compressed, all_append, all_append, all_append, groupsText_ascii, colon_ascii,
    tailText_ascii]
  rfl

theorem at'_getElem? {ptr : List UInt8} {i : ℕ} (h : ptr[i]? = some c) :
    at' ptr i = c := by
  rw [at', getD_eq_getElem?_getD, h]
  rfl

/-- A "::" is at an end of the text if the run is. -/
theorem compressed_colonsAtEnd {o l : ℕ} (h : ZeroRun a o l) (hl : 4 ≤ l)
    (he : embedded a (o + l) → o = 0) :
    colonsAtEnd (compressed a o l) ↔ o = 0 ∨ o + l = 16 := by
  have hin := h.inside
  have hs := h.start
  have hw := h.whole
  have hlen : (compressed a o l).length = (ascii (compressed a o l)).length := by simp [ascii]
  rw [colonsAtEnd, hlen, ascii_compressed a o l hs]
  by_cases h0 : o = 0
  · simp [h0, leading, ascii, at']
  · obtain ⟨n, hn⟩ : ∃ n, o / 2 = n + 1 := ⟨o / 2 - 1, by omega⟩
    rw [if_neg h0]
    by_cases h16 : o + l = 16
    · have htail : ascii (tailText a 16) = [] := by
        rw [tailText, if_neg (by omega)]
        rfl
      have hlead : ascii (leading a 0 (o / 2)) ++ ([0x3a] ++ ascii (tailText a 16)) =
          ascii (groupsText a 0 (o / 2)) ++ [0x3a, 0x3a] := by
        rw [htail, hn, leading_succ, ascii_append, ascii_colon]
        simp
      rw [h16, hlead]
      simp [at']
    · -- neither of the ends is a colon
      obtain ⟨m, hm⟩ : ∃ m, (16 - (o + l)) / 2 = m + 1 := ⟨(16 - (o + l)) / 2 - 1, by omega⟩
      have htail : tailText a (o + l) = leading a (o + l) m ++ group a (o + l + 2 * m) := by
        have hne : ¬(embedsIp4 a = true ∧ o + l ≤ 12) := fun h => h0 (he h)
        rw [tailText, if_neg hne, hm, groupsText_succ]
      have hfirst : at' (ascii (leading a 0 (o / 2)) ++ ([0x3a] ++ ascii (tailText a (o + l))) ++
          [0]) 0 ≠ 0x3a := by
        have hg := group_length a 0
        obtain ⟨c, cs, hc⟩ : ∃ c cs, ascii (group a 0) = c :: cs := by
          cases hcs : ascii (group a 0) with
          | nil => rw [hcs] at hg; simp at hg
          | cons c cs => exact ⟨c, cs, rfl⟩
        have hc' := (@group_hex a 0 c (by rw [hc]; exact mem_cons_self)).2.2
        rw [hn, leading, ascii_append, ascii_append, hc]
        exact hc'
      have hlast : ∀ xs : List UInt8, at' (xs ++ ascii (group a (o + l + 2 * m)) ++ [0])
          ((xs ++ ascii (group a (o + l + 2 * m))).length - 1) ≠ 0x3a := by
        intro xs
        have hg := group_length a (o + l + 2 * m)
        have hlt : (ascii (group a (o + l + 2 * m))).length - 1 <
            (ascii (group a (o + l + 2 * m))).length := by omega
        have hmem := getElem_mem hlt
        rw [at'_getElem?]
        · exact (group_hex hmem).2.2
        · rw [append_assoc, length_append, getElem?_append_right (by omega),
            getElem?_append_left (by omega), ← getElem?_eq_getElem hlt]
          congr 1
          omega
      have hsplit : ascii (leading a 0 (o / 2)) ++ ([0x3a] ++ ascii (tailText a (o + l))) =
          (ascii (leading a 0 (o / 2)) ++ ([0x3a] ++ ascii (leading a (o + l) m))) ++
            ascii (group a (o + l + 2 * m)) := by
        rw [htail, ascii_append]
        simp only [append_assoc]
      constructor
      · rintro (⟨h1, -⟩ | ⟨-, h2⟩)
        · exact absurd h1 hfirst
        · rw [hsplit] at h2
          exact absurd h2 (hlast _)
      · rintro (h1 | h1)
        · exact absurd h1 h0
        · exact absurd h1 h16

theorem compressed_count {o l : ℕ} (h : ZeroRun a o l) :
    (ascii (compressed a o l)).count 0x3a = o / 2 + (if o = 0 then 2 else 1) +
      (if embedded a (o + l) then (12 - (o + l)) / 2 else (16 - (o + l)) / 2 - 1) ∧
    (ascii (compressed a o l)).count 0x2e = if embedded a (o + l) then 3 else 0 := by
  obtain ⟨h1, h2⟩ := leading_count a 0 (o / 2)
  obtain ⟨h3, h4⟩ := tailText_count a (o + l)
  rw [ascii_compressed a o l h.start]
  simp only [count_append, h1, h2, h3, h4]
  by_cases h0 : o = 0
  · rw [if_pos h0, if_pos h0]
    exact ⟨by simp [add_assoc], by simp⟩
  · rw [if_neg h0, if_neg h0]
    exact ⟨by simp [add_assoc], by simp⟩

theorem parseIp6_compressed (ha : a.length = 16) {o l : ℕ} (h : FirstLongest a o l) (hl : 4 ≤ l) :
    parseIp6 (compressed a o l) = (a, none) := by
  have hin := h.run.inside
  have hs := h.run.start
  have hw := h.run.whole
  have hemb : embedded a (o + l) → o = 0 := fun he => (h.at_start (embedsIp4_zeroes he.1)).1
  obtain ⟨hc, hd⟩ := compressed_count h.run
  have hends := compressed_colonsAtEnd h.run hl hemb
  have hzero : List.replicate 16 0 = written a 0 := by simp [written]
  have hlen : (compressed a o l).length = (ascii (leading a 0 (o / 2))).length +
      ((if o = 0 then 2 else 1) + (ascii (tailText a (o + l))).length) := by
    have hl' : (compressed a o l).length = (ascii (compressed a o l)).length := by simp [ascii]
    rw [hl', ascii_compressed a o l hs]
    by_cases h0 : o = 0
    · simp [h0]
      omega
    · simp [h0]
      omega
  have hlead := leading_length a 0 (o / 2)
  have htail := @tailText_length a (o + l)
  by_cases h16 : o = 0 ∧ l = 16
  · -- "::" has a return of its own
    have hwr := written_run ha h.run
    rw [h16.1, h16.2, written_all ha] at hwr
    have htext : compressed a o l = [0x3a, 0x3a] := by
      rw [compressed, tailText, h16.1, h16.2, if_neg (by omega)]
      rfl
    have hnil : parseIp6 [0x3a, 0x3a] = (List.replicate 16 0, none) := by decide
    rw [htext, hnil, hzero, ← hwr]
  · have hz : ((if colonsAtEnd (compressed a o l) then 9 else 8 : ℤ) -
        ((o / 2 + (if o = 0 then 2 else 1) +
          (if embedded a (o + l) then (12 - (o + l)) / 2 else (16 - (o + l)) / 2 - 1) : ℕ) : ℤ) -
        (if (if embedded a (o + l) then 3 else 0) = 3 then 1 else 0)) = ((l / 2 : ℕ) : ℤ) := by
      clear hlen htail
      by_cases he : embedded a (o + l)
      · have h0 := hemb he
        have h12 := he.2
        rw [if_pos (hends.mpr (.inl h0)), if_pos h0, if_pos he, if_pos he, if_pos rfl]
        omega
      · rw [if_neg he, if_neg he, if_neg (show ¬(0 = 3) by omega)]
        by_cases h0 : o = 0
        · rw [if_pos (hends.mpr (.inl h0)), if_pos h0]
          omega
        · by_cases hend : o + l = 16
          · rw [if_pos (hends.mpr (.inr hend)), if_neg h0]
            omega
          · rw [if_neg fun hcol => (hends.mp hcol).elim h0 hend, if_neg h0]
            omega
    have htext : ¬(o / 2 + (if o = 0 then 2 else 1) + (if embedded a (o + l) then
        (12 - (o + l)) / 2 else (16 - (o + l)) / 2 - 1) = 2 ∧ (compressed a o l).length = 2) := by
      rintro ⟨-, h2⟩
      clear hz
      by_cases he : embedded a (o + l)
      · rw [if_pos he] at htail
        have h0 := hemb he
        rw [if_pos h0] at hlen
        omega
      · rw [if_neg he] at htail
        by_cases h0 : o = 0
        · rw [if_pos h0] at hlen
          omega
        · rw [if_neg h0] at hlen
          omega
    have hcount : colonsAtEnd (compressed a o l) ∨ (2 ≤ o / 2 + (if o = 0 then 2 else 1) +
        (if embedded a (o + l) then (12 - (o + l)) / 2 else (16 - (o + l)) / 2 - 1) ∧
        o / 2 + (if o = 0 then 2 else 1) + (if embedded a (o + l) then (12 - (o + l)) / 2
          else (16 - (o + l)) / 2 - 1) ≤ 7) := by
      clear hz htext
      by_cases h0 : o = 0
      · exact .inl (hends.mpr (.inl h0))
      · right
        rw [if_neg h0, if_neg fun he => h0 (hemb he)]
        omega
    rw [parseIp6_eq (compressed_ascii a o l) (fun c => compressed_ne_zero) hc hd
      (by split <;> simp) htext hcount, hz, hzero, ascii_compressed a o l hs, append_assoc,
      append_assoc]
    clear hz htext hcount
    have htaill : (16 - (o + l)) / 2 ≤ (ascii (tailText a (o + l))).length := by
      by_cases he : embedded a (o + l)
      · rw [if_pos he] at htail
        omega
      · rwa [if_neg he] at htail
    obtain ⟨r, hr⟩ : ∃ r, (compressed a o l).length + 1 = r + 1 + o / 2 :=
      ⟨(compressed a o l).length - o / 2, by omega⟩
    have hrounds : (16 - (o + l)) / 2 + 1 ≤ r := by
      by_cases h0 : o = 0
      · rw [if_pos h0] at hlen
        omega
      · rw [if_neg h0] at hlen
        omega
    have hpos : 0 + 2 * (o / 2) = o := by omega
    rw [hr, parseIp6Loop_leading ha (by omega), hpos]
    rw [parseIp6Loop_run (by omega) (by omega), ← written_run ha h.run]
    · have hend : o + ((l / 2 : ℕ) : ℤ).toNat * 2 = o + l := by omega
      rw [hend]
      exact parseIp6Loop_tail ha hin (by omega) hrounds
    · by_cases h0 : o = 0
      · exact .inl h0
      · right
        rw [if_neg h0]
        omega

end QIPAddressUtils

end QtBase
