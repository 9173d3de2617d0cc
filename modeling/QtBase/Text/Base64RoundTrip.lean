import QtBase.Text.Base64
import Mathlib.Data.List.Basic
import Mathlib.Data.Nat.Bitwise
import Mathlib.Algebra.Order.Group.Nat

/-! What is encoded is decoded again, in either way, and what the strict mode accepts. -/
namespace QtBase.Base64

open List Option UInt8 Nat

variable {options : Base64Options}

/-! ## Digits of 6 bits -/

/-- The digits of the bytes, the last one filled up with zero bits. -/
def sextets : List UInt8 → List ℕ
  | [] => []
  | [x] => [x.toNat / 4, x.toNat % 4 * 16]
  | [x, y] => [x.toNat / 4, x.toNat % 4 * 16 + y.toNat / 16, y.toNat % 16 * 4]
  | x :: y :: z :: rest => x.toNat / 4 :: (x.toNat % 4 * 16 + y.toNat / 16) ::
      (y.toNat % 16 * 4 + z.toNat / 64) :: z.toNat % 64 :: sextets rest

/-- The bytes that digits make, behind `nbits` bits that `buf` has already. -/
def drain (buf nbits : ℕ) : List ℕ → List UInt8
  | [] => []
  | d :: rest =>
    if nbits + 6 ≥ 8 then
      UInt8.ofNat ((buf * 64 + d) / 2 ^ (nbits + 6 - 8)) ::
        drain ((buf * 64 + d) % 2 ^ (nbits + 6 - 8)) (nbits + 6 - 8) rest
    else drain (buf * 64 + d) (nbits + 6) rest

theorem ofNat_eq {x : UInt8} {n : ℕ} (h : n = x.toNat) : UInt8.ofNat n = x := by
  rw [h, UInt8.ofNat_toNat]

theorem drain_four (a b c d : ℕ) (rest : List ℕ) :
    drain 0 0 (a :: b :: c :: d :: rest) =
      ofNat ((a * 64 + b) / 16) :: ofNat (((a * 64 + b) % 16 * 64 + c) / 4) ::
        ofNat (((a * 64 + b) % 16 * 64 + c) % 4 * 64 + d) :: drain 0 0 rest := by
  simp [drain, mod_one]

theorem drain_three (a b c : ℕ) :
    drain 0 0 [a, b, c] =
      [ofNat ((a * 64 + b) / 16), ofNat (((a * 64 + b) % 16 * 64 + c) / 4)] := by
  simp [drain]

theorem drain_two (a b : ℕ) : drain 0 0 [a, b] = [ofNat ((a * 64 + b) / 16)] := by
  simp [drain]

theorem drain_sextets (data : List UInt8) : drain 0 0 (sextets data) = data := by
  induction data using sextets.induct with
  | case1 => rfl
  | case2 x =>
    have hx := x.toNat_lt
    rw [sextets, drain_two, ofNat_eq (x := x) (by omega)]
  | case3 x y =>
    have hx := x.toNat_lt
    have hy := y.toNat_lt
    rw [sextets, drain_three, ofNat_eq (x := x) (by omega), ofNat_eq (x := y) (by omega)]
  | case4 x y z rest ih =>
    have hx := x.toNat_lt
    have hy := y.toNat_lt
    have hz := z.toNat_lt
    rw [sextets, drain_four, ih, ofNat_eq (x := x) (by omega), ofNat_eq (x := y) (by omega),
      ofNat_eq (x := z) (by omega)]

theorem sextets_lt (data : List UInt8) : ∀ d ∈ sextets data, d < 64 := by
  induction data using sextets.induct with
  | case1 => simp [sextets]
  | case2 x =>
    have hx := x.toNat_lt
    simp only [sextets, mem_cons, not_mem_nil, or_false, forall_eq_or_imp, forall_eq]
    omega
  | case3 x y =>
    have hx := x.toNat_lt
    have hy := y.toNat_lt
    simp only [sextets, mem_cons, not_mem_nil, or_false, forall_eq_or_imp, forall_eq]
    omega
  | case4 x y z rest ih =>
    have hx := x.toNat_lt
    have hy := y.toNat_lt
    have hz := z.toNat_lt
    simp only [sextets, mem_cons, forall_eq_or_imp]
    refine ⟨by omega, by omega, by omega, by omega, ih⟩

/-! ## The encoder -/

def Base64Options.letter (options : Base64Options) (i : ℕ) : UInt8 := options.alphabet.getD i 0

/-- How many digits the last round lacks. -/
def padding (data : List UInt8) : ℕ := (3 - data.length % 3) % 3

/-- What `toBase64` returns. -/
def encoded (options : Base64Options) (data : List UInt8) : List UInt8 :=
  (sextets data).map options.letter ++
    if options.omitTrailingEquals then [] else List.replicate (padding data) padchar

/-- The number of the character for a digit. -/
def place (url : Bool) (i : ℕ) : ℕ :=
  if i < 26 then i + 65
  else if i < 52 then i + 71
  else if i < 62 then i - 4
  else if i = 62 then if url then 45 else 43
  else if url then 95 else 47

theorem map_alphabet : ∀ url : Bool, (⟨url, false, false⟩ : Base64Options).alphabet.map
    toNat = (List.range 64).map (place url) := by decide +kernel

theorem length_alphabet (options : Base64Options) : options.alphabet.length = 64 := by
  have hmap := congrArg List.length (map_alphabet options.base64UrlEncoding)
  rw [length_map, length_map, length_range] at hmap
  exact hmap

variable {out : List UInt8}

theorem put_eq {size : ℕ} {ch : UInt8} (h : out.length < size) :
    put size ch out = .ok (out ++ [ch]) := by
  unfold put
  rw [qAssert_pos h]
  rfl

theorem putDigit_eq {size i : ℕ} (hi : i < 64) (h : out.length < size) :
    putDigit options size i out = .ok (out ++ [options.letter i]) := by
  have hi' : i < options.alphabet.length := by
    rw [length_alphabet]
    exact hi
  unfold putDigit Base64Options.letter
  rw [getElem?_eq_getElem hi', getD_eq_getElem _ _ hi']
  exact put_eq h

theorem chunk_pieces (chunk : ℕ) :
    (chunk &&& 0x00fc0000) >>> 18 = chunk / 2 ^ 18 % 64 ∧
    (chunk &&& 0x0003f000) >>> 12 = chunk / 2 ^ 12 % 64 ∧
    (chunk &&& 0x00000fc0) >>> 6 = chunk / 2 ^ 6 % 64 ∧ chunk &&& 0x0000003f = chunk % 64 := by
  have h : ∀ n : ℕ, n &&& 63 = n % 64 := fun n => and_two_pow_sub_one_eq_mod n 6
  refine ⟨?_, ?_, ?_, h chunk⟩ <;>
  · rw [shiftRight_and_distrib, shiftRight_eq_div_pow]
    exact h _

theorem chunk_two (x y : UInt8) :
    x.toNat <<< 16 ||| y.toNat <<< 8 = x.toNat * 65536 + y.toNat * 256 := by
  have hy := y.toNat_lt
  rw [shiftLeft_eq y.toNat, ← shiftLeft_add_eq_or_of_lt (by omega), shiftLeft_eq]

theorem chunk_three (x y z : UInt8) : x.toNat <<< 16 ||| y.toNat <<< 8 ||| z.toNat =
    x.toNat * 65536 + y.toNat * 256 + z.toNat := by
  have hz := z.toNat_lt
  have h : x.toNat * 65536 + y.toNat * 256 = (x.toNat * 256 + y.toNat) <<< 8 := by
    rw [Nat.shiftLeft_eq, Nat.add_mul, Nat.mul_assoc]
  rw [chunk_two, h, Nat.shiftLeft_add_eq_or_of_lt (by omega)]

theorem putChunk_eq {size chunk padlen : ℕ} (hpad : padlen ≤ 2) (hsize : out.length + 4 ≤ size) :
    putChunk options size chunk padlen out = .ok (out ++
      (([chunk / 2 ^ 18 % 64, chunk / 2 ^ 12 % 64, chunk / 2 ^ 6 % 64, chunk % 64].take
        (4 - padlen)).map options.letter ++
      if options.omitTrailingEquals then [] else List.replicate padlen padchar)) := by
  obtain ⟨hj, hk, hl, hm⟩ := chunk_pieces chunk
  have hlt : ∀ n : ℕ, n % 64 < 64 := fun n => mod_lt n (by decide)
  have h₁ : out.length < size := by omega
  have h₂ : ∀ a, (out ++ [a]).length < size := fun a => by
    simp
    omega
  have h₃ : ∀ a b, (out ++ [a] ++ [b]).length < size := fun a b => by
    simp
    omega
  have h₄ : ∀ a b c, (out ++ [a] ++ [b] ++ [c]).length < size := fun a b c => by
    simp
    omega
  unfold putChunk
  dsimp only
  rw [hj, hk, hl, hm, putDigit_eq (hlt _) h₁, ok_bind, putDigit_eq (hlt _) (h₂ _), ok_bind]
  obtain rfl | rfl | rfl : padlen = 0 ∨ padlen = 1 ∨ padlen = 2 := by omega
  · rw [if_neg (by decide), putDigit_eq (hlt _) (h₃ _ _), ok_bind, if_neg (by decide),
      putDigit_eq (hlt _) (h₄ _ _ _)]
    simp
  · rw [if_neg (by decide), putDigit_eq (hlt _) (h₃ _ _), ok_bind, if_pos (by decide)]
    cases options.omitTrailingEquals with
    | true => simp
    | false =>
      rw [if_neg (by decide), put_eq (h₄ _ _ _)]
      simp
  · rw [if_pos (by decide)]
    cases options.omitTrailingEquals with
    | true => simp
    | false =>
      rw [if_neg (by decide), put_eq (h₃ _ _), ok_bind, if_pos (by decide), if_neg (by decide),
        put_eq (h₄ _ _ _)]
      simp

theorem padding_add_three (x y z : UInt8) (rest : List UInt8) :
    padding (x :: y :: z :: rest) = padding rest := by
  have hlen : (x :: y :: z :: rest).length = rest.length + 3 := rfl
  unfold padding
  rw [hlen, add_mod_right]

theorem toBase64From_eq {size : ℕ} {data : List UInt8}
    (hsize : out.length + (data.length + 2) / 3 * 4 ≤ size) :
    toBase64From options size data out = .ok (out ++ encoded options data) := by
  induction data using sextets.induct generalizing out with
  | case1 => simp [toBase64From, encoded, sextets, padding]
  | case2 x =>
    have hx := x.toNat_lt
    rw [toBase64From, putChunk_eq le_rfl (by simpa using hsize), shiftLeft_eq]
    have h₁ : x.toNat * 2 ^ 16 / 2 ^ 18 % 64 = x.toNat / 4 := by omega
    have h₂ : x.toNat * 2 ^ 16 / 2 ^ 12 % 64 = x.toNat % 4 * 16 := by omega
    rw [h₁, h₂]
    rfl
  | case3 x y =>
    have hx := x.toNat_lt
    have hy := y.toNat_lt
    rw [toBase64From, putChunk_eq (by decide) (by simpa using hsize), chunk_two]
    have h₁ : (x.toNat * 65536 + y.toNat * 256) / 2 ^ 18 % 64 = x.toNat / 4 := by omega
    have h₂ : (x.toNat * 65536 + y.toNat * 256) / 2 ^ 12 % 64 =
        x.toNat % 4 * 16 + y.toNat / 16 := by omega
    have h₃ : (x.toNat * 65536 + y.toNat * 256) / 2 ^ 6 % 64 = y.toNat % 16 * 4 := by omega
    rw [h₁, h₂, h₃]
    rfl
  | case4 x y z rest ih =>
    have hx := x.toNat_lt
    have hy := y.toNat_lt
    have hz := z.toNat_lt
    have hlen : (x :: y :: z :: rest).length = rest.length + 3 := rfl
    rw [toBase64From, putChunk_eq (by decide) (by omega), ok_bind, chunk_three]
    have h₁ : (x.toNat * 65536 + y.toNat * 256 + z.toNat) / 2 ^ 18 % 64 = x.toNat / 4 := by omega
    have h₂ : (x.toNat * 65536 + y.toNat * 256 + z.toNat) / 2 ^ 12 % 64 =
        x.toNat % 4 * 16 + y.toNat / 16 := by omega
    have h₃ : (x.toNat * 65536 + y.toNat * 256 + z.toNat) / 2 ^ 6 % 64 =
        y.toNat % 16 * 4 + z.toNat / 64 := by omega
    have h₄ : (x.toNat * 65536 + y.toNat * 256 + z.toNat) % 64 = z.toNat % 64 := by omega
    rw [h₁, h₂, h₃, h₄, ih]
    · simp [encoded, sextets, padding_add_three]
    · rw [hlen] at hsize
      simp only [replicate_zero, ite_self, append_nil, sub_zero, length_append,
        length_map, length_take, length_cons, length_nil]
      omega

theorem length_sextets (data : List UInt8) :
    (sextets data).length + padding data = (data.length + 2) / 3 * 4 := by
  induction data using sextets.induct with
  | case1 => rfl
  | case2 x => simp [sextets, padding]
  | case3 x y => simp [sextets, padding]
  | case4 x y z rest ih =>
    rw [padding_add_three, sextets]
    simp
    omega

theorem toBase64_eq (options : Base64Options) (data : List UInt8) :
    toBase64 options data = .ok (encoded options data) := by
  have hlen : options.omitTrailingEquals = true ∨
      (encoded options data).length = (data.length + 2) / 3 * 4 := by
    unfold encoded
    cases options.omitTrailingEquals with
    | true => exact .inl rfl
    | false =>
      refine .inr ?_
      rw [if_neg (by decide), length_append, length_map, length_replicate,
        length_sextets]
  unfold toBase64
  dsimp only
  rw [toBase64From_eq (by simp), nil_append, ok_bind, qAssert_pos hlen]
  rfl

/-! ## The decoder -/

/-- The status for the characters that are left. -/
def outcome (options : Base64Options) (inputSize : ℕ) : List UInt8 → Base64DecodingStatus
  | [] => .ok
  | ch :: rest =>
    if (digit options ch).isSome then outcome options inputSize rest
    else if options.abortOnBase64DecodingErrors then
      if ch = padchar then
        if inputSize % 4 ≠ 0 then .illegalInputLength
        else if rest = [] ∨ rest = [padchar] then .ok
        else .illegalPadding
      else .illegalCharacter
    else outcome options inputSize rest

/-- What the characters decode to. -/
def decoded (options : Base64Options) (base64 : List UInt8) : List UInt8 :=
  drain 0 0 (base64.filterMap (digit options))

theorem letter_toNat {i : ℕ} (hi : i < 64) :
    (options.letter i).toNat = place options.base64UrlEncoding i := by
  have hmap := congrArg (fun l => l.getD i 0) (map_alphabet options.base64UrlEncoding)
  rw [getD_eq_getElem?_getD, getD_eq_getElem?_getD, getElem?_map, getElem?_map,
    getElem?_range hi, map_some, getD_some] at hmap
  unfold Base64Options.letter
  rw [getD_eq_getElem?_getD, ← hmap]
  show ((⟨options.base64UrlEncoding, false, false⟩ : Base64Options).alphabet[i]?.getD 0).toNat = _
  cases (⟨options.base64UrlEncoding, false, false⟩ : Base64Options).alphabet[i]? with
  | none => rfl
  | some x => rfl

theorem toInt_toInt8 (c : UInt8) :
    c.toInt8.toInt = if c.toNat < 128 then (c.toNat : ℤ) else c.toNat - 256 := by
  show c.toBitVec.toInt = _
  rw [BitVec.toInt_eq_toNat_cond]
  show (if 2 * c.toNat < 2 ^ 8 then (c.toNat : ℤ) else c.toNat - (2 ^ 8 : ℕ)) = _
  split_ifs <;> omega

theorem digit_eq_some_iff {c : UInt8} {i : ℕ} :
    digit options c = some i ↔ i < 64 ∧ c.toNat = place options.base64UrlEncoding i := by
  have hc := c.toNat_lt
  have hA : 'A'.toNat = 65 := rfl
  have hZ : 'Z'.toNat = 90 := rfl
  have ha : 'a'.toNat = 97 := rfl
  have hz : 'z'.toNat = 122 := rfl
  have h0 : '0'.toNat = 48 := rfl
  have h9 : '9'.toNat = 57 := rfl
  have hplus : '+'.toNat = 43 := rfl
  have hminus : '-'.toNat = 45 := rfl
  have hslash : '/'.toNat = 47 := rfl
  have hline : '_'.toNat = 95 := rfl
  unfold digit place
  rw [hA, hZ, ha, hz, h0, h9, hplus, hminus, hslash, hline]
  clear hA hZ ha hz h0 h9 hplus hminus hslash hline
  have hsigned : c.toInt8.toInt = c.toNat ∨ c.toInt8.toInt < 0 ∧ 128 ≤ c.toNat := by
    rw [toInt_toInt8]
    split <;> omega
  generalize c.toInt8.toInt = v at *
  generalize c.toNat = n at *
  cases options.base64UrlEncoding with
  | true =>
    simp only [Bool.not_true, Bool.false_eq_true, and_false, if_false, and_true, if_true]
    split_ifs <;> simp only [some.injEq, false_iff] <;> omega
  | false =>
    simp only [Bool.not_false, Bool.false_eq_true, and_false, if_false, and_true]
    split_ifs <;> simp only [some.injEq, false_iff] <;> omega

theorem digit_letter {i : ℕ} (h : i < 64) : digit options (options.letter i) = some i :=
  digit_eq_some_iff.2 ⟨h, letter_toNat h⟩

theorem digit_eq (c : UInt8) : digit options c =
    if c ∈ options.alphabet then some (options.alphabet.idxOf c) else none := by
  split_ifs with hmem
  · have hlt := idxOf_lt_length_of_mem hmem
    have hletter : options.letter (options.alphabet.idxOf c) = c := by
      unfold Base64Options.letter
      rw [getD_eq_getElem _ _ hlt]
      exact getElem_idxOf hlt
    rw [length_alphabet] at hlt
    have hdigit := @digit_letter options _ hlt
    rw [hletter] at hdigit
    exact hdigit
  · cases hdigit : digit options c with
    | none => rfl
    | some i =>
      obtain ⟨hi, hplace⟩ := digit_eq_some_iff.1 hdigit
      have hletter : options.letter i = c :=
        UInt8.toNat_inj.mp ((letter_toNat hi).trans hplace.symm)
      have hlt : i < options.alphabet.length := by
        rw [length_alphabet]
        exact hi
      refine absurd ?_ hmem
      rw [← hletter]
      unfold Base64Options.letter
      rw [getD_eq_getElem _ _ hlt]
      exact getElem_mem hlt

theorem digit_isSome {c : UInt8} : (digit options c).isSome ↔ c ∈ options.alphabet := by
  rw [digit_eq]
  split <;> simp [*]

theorem digit_lt {c : UInt8} {d : ℕ} (h : digit options c = some d) : d < 64 :=
  (digit_eq_some_iff.1 h).1

theorem digit_padchar : digit options padchar = none := by
  have htable : ∀ url : Bool, digit ⟨url, false, false⟩ padchar = none := by decide
  exact htable options.base64UrlEncoding

namespace State

variable {s : State} {d : ℕ}

theorem push_short (h : s.nbits < 2) (hd : d < 64) :
    s.push d = .ok { s with buf := s.buf * 64 + d, nbits := s.nbits + 6 } := by
  unfold push
  dsimp only
  rw [if_neg (by omega), ← shiftLeft_add_eq_or_of_lt hd, shiftLeft_eq]
  rfl

theorem push_long (h : 2 ≤ s.nbits) (hd : d < 64) (hoffset : s.offset < s.i)
    (hsize : s.offset < s.output.length) :
    s.push d = .ok { s with
      buf := (s.buf * 64 + d) % 2 ^ (s.nbits + 6 - 8)
      nbits := s.nbits + 6 - 8
      offset := s.offset + 1
      output := s.output.set s.offset
        (ofNat ((s.buf * 64 + d) / 2 ^ (s.nbits + 6 - 8))) } := by
  unfold push write
  dsimp only
  rw [if_pos (by omega), qAssert_pos hoffset, ok_bind, qAssert_pos hsize, ok_bind, pure_eq_ok,
    ok_bind, ← shiftLeft_add_eq_or_of_lt hd, shiftLeft_eq, one_shiftLeft,
    and_two_pow_sub_one_eq_mod, shiftRight_eq_div_pow]
  rfl

end State

/-- Between two rounds: `rest` is still to be read. -/
structure Reading (input : Option (List UInt8)) (inputSize : ℕ) (s : State) (rest : List UInt8) :
    Prop where
  unread : (input.getD s.output).drop s.i = rest
  left : s.i + rest.length = inputSize
  nbits : s.nbits < 8
  /-- What is written and what waits came from the digits that are read. -/
  written : 8 * s.offset + s.nbits ≤ 6 * s.i
  size : inputSize * 3 / 4 ≤ s.output.length

/-- How the loop ends when it goes on from `s`. -/
structure Finish (options : Base64Options) (inputSize : ℕ) (s : State) (rest : List UInt8)
    (r : fromBase64_helper_result × List UInt8) : Prop where
  status : r.1.status = outcome options inputSize rest
  frame : r.2.drop (inputSize * 3 / 4) = s.output.drop (inputSize * 3 / 4)
  bytes : r.1.status = .ok → r.2.take r.1.decodedLength =
    s.output.take s.offset ++ drain s.buf s.nbits (rest.filterMap (digit options))
  failed : r.1.status ≠ .ok → r.1.decodedLength = 0

namespace Reading

variable {input : Option (List UInt8)} {inputSize : ℕ} {s : State} {ch : UInt8} {rest : List UInt8}

theorem read_eq (h : Reading input inputSize s (ch :: rest)) :
    s.read input s.i = .ok ch := by
  have hget : (input.getD s.output)[s.i]? = some ch := by
    rw [← head?_drop, h.unread]
    rfl
  unfold State.read
  rw [hget]

theorem lt (h : Reading input inputSize s (ch :: rest)) : s.i < inputSize := by
  have := h.left
  rw [length_cons] at this
  omega

/-- A character without a meaning is skipped. -/
theorem skip (h : Reading input inputSize s (ch :: rest)) :
    Reading input inputSize { s with i := s.i + 1 } rest where
  unread := by
    rw [← drop_drop, h.unread]
    rfl
  left := by
    have := h.left
    rw [length_cons] at this
    dsimp only
    omega
  nbits := h.nbits
  written := h.written.trans (by dsimp only; omega)
  size := h.size

/-- A digit that does not complete a byte. -/
theorem keep (h : Reading input inputSize s (ch :: rest)) (hbits : s.nbits < 2) (buf : ℕ) :
    Reading input inputSize { s with buf, nbits := s.nbits + 6, i := s.i + 1 } rest where
  unread := h.skip.unread
  left := h.skip.left
  nbits := by
    dsimp only
    omega
  written := by
    have := h.written
    dsimp only
    omega
  size := h.size

/-- A digit that completes a byte: it is written to a place that was read before. -/
theorem write (h : Reading input inputSize s (ch :: rest)) (hbits : 2 ≤ s.nbits) (buf : ℕ)
    (byte : UInt8) : Reading input inputSize { s with
      buf
      nbits := s.nbits + 6 - 8
      offset := s.offset + 1
      output := s.output.set s.offset byte
      i := s.i + 1 } rest where
  unread := by
    have hwritten := h.written
    have hskip := h.skip.unread
    dsimp only at hskip ⊢
    cases input with
    | none =>
      rw [getD_none] at hskip ⊢
      rw [drop_set_of_lt (by omega), hskip]
    | some input => exact hskip
  left := h.skip.left
  nbits := by
    have := h.nbits
    dsimp only
    omega
  written := by
    have := h.written
    dsimp only
    omega
  size := by
    rw [length_set]
    exact h.size

end Reading

theorem take_succ_set {l : List UInt8} {i : ℕ} {x : UInt8} (h : i < l.length) :
    (l.set i x).take (i + 1) = l.take i ++ [x] := by
  rw [take_add_one, take_set_of_le le_rfl, getElem?_set_self h, toList_some]

theorem loop_end {input : Option (List UInt8)} {inputSize : ℕ} {s : State} {rounds : ℕ}
    (h : inputSize ≤ s.i) :
    fromBase64_loop options input inputSize (rounds + 1) s = .ok (⟨s.offset, .ok⟩, s.output) := by
  rw [fromBase64_loop, if_neg (by omega)]

theorem finish_fail {inputSize : ℕ} {s : State} {rest : List UInt8}
    {status : Base64DecodingStatus} (hne : status ≠ .ok)
    (h : outcome options inputSize rest = status) :
    Finish options inputSize s rest (⟨0, status⟩, s.output) where
  status := h.symm
  frame := rfl
  bytes hok := absurd hok hne
  failed _ := rfl

theorem loop_spec {input : Option (List UInt8)} {inputSize : ℕ} {s : State} {rest : List UInt8}
    (h : Reading input inputSize s rest) {rounds : ℕ} (hrounds : rest.length < rounds) :
    ∃ r, fromBase64_loop options input inputSize rounds s = .ok r ∧
      Finish options inputSize s rest r := by
  induction rest generalizing s rounds with
  | nil =>
    obtain ⟨rounds, rfl⟩ := exists_eq_succ_of_ne_zero (ne_of_gt hrounds)
    have hleft := h.left
    rw [length_nil, add_zero] at hleft
    refine ⟨_, loop_end hleft.ge, rfl, rfl, fun _ => ?_, fun hne => absurd rfl hne⟩
    rw [filterMap_nil, drain, append_nil]
  | cons ch rest ih =>
    obtain ⟨rounds, rfl⟩ := exists_eq_succ_of_ne_zero (ne_of_gt (zero_lt_of_lt hrounds))
    rw [length_cons, succ_lt_succ_iff] at hrounds
    rw [fromBase64_loop, if_pos h.lt, h.read_eq, ok_bind]
    cases hdigit : digit options ch with
    | some d =>
      have houtcome : outcome options inputSize (ch :: rest) = outcome options inputSize rest := by
        rw [outcome, hdigit]
        rfl
      have hlt := digit_lt hdigit
      dsimp only
      by_cases hbits : s.nbits < 2
      · rw [State.push_short hbits hlt, ok_bind]
        dsimp only
        obtain ⟨r, hrun, hr⟩ := ih (h.keep hbits (s.buf * 64 + d)) hrounds
        refine ⟨r, hrun, hr.status.trans houtcome.symm, hr.frame, fun hok => ?_, hr.failed⟩
        rw [hr.bytes hok, filterMap_cons_some hdigit, drain, if_neg (by omega)]
      · have hwritten := h.written
        have hsize := h.size
        have hi := h.lt
        rw [State.push_long (by omega) hlt (by omega) (by omega), ok_bind]
        obtain ⟨r, hrun, hr⟩ := ih (h.write (by omega) _ _) hrounds
        refine ⟨r, hrun, hr.status.trans houtcome.symm, hr.frame.trans ?_, fun hok => ?_,
          hr.failed⟩
        · exact drop_set_of_lt (by omega)
        · rw [hr.bytes hok, filterMap_cons_some hdigit, drain, if_pos (by omega)]
          dsimp only
          rw [take_succ_set (by omega), append_assoc, singleton_append]
    | none =>
      have houtcome : outcome options inputSize (ch :: rest) =
          if options.abortOnBase64DecodingErrors then
            if ch = padchar then
              if inputSize % 4 ≠ 0 then .illegalInputLength
              else if rest = [] ∨ rest = [padchar] then .ok
              else .illegalPadding
            else .illegalCharacter
          else outcome options inputSize rest := by
        rw [outcome, hdigit]
        rfl
      have hlt := h.lt
      have hleft := h.left
      rw [length_cons] at hleft
      dsimp only
      cases habort : options.abortOnBase64DecodingErrors with
      | false =>
        rw [habort, if_neg (by decide)] at houtcome
        rw [if_neg (by decide)]
        obtain ⟨r, hrun, hr⟩ := ih h.skip hrounds
        refine ⟨r, hrun, hr.status.trans houtcome.symm, hr.frame, fun hok => ?_, hr.failed⟩
        rw [hr.bytes hok, filterMap_cons_none hdigit]
      | true =>
        rw [habort, if_pos rfl] at houtcome
        rw [if_pos rfl]
        by_cases hequals : ch = padchar
        · rw [if_pos hequals] at houtcome
          rw [if_pos hequals]
          by_cases hlength : inputSize % 4 ≠ 0
          · rw [if_pos hlength] at houtcome ⊢
            exact ⟨_, rfl, finish_fail nofun houtcome⟩
          rw [if_neg hlength] at houtcome ⊢
          rcases rest with _ | ⟨next, _ | ⟨third, rest⟩⟩
          · rw [length_nil] at hleft
            rw [if_pos (.inl rfl)] at houtcome
            obtain ⟨rounds, rfl⟩ := exists_eq_succ_of_ne_zero (ne_of_gt hrounds)
            rw [if_pos (by omega), loop_end (by dsimp only; omega)]
            exact ⟨_, rfl, houtcome.symm, rfl, fun _ => by
              rw [filterMap_cons_none hdigit, filterMap_nil, drain, append_nil],
              fun hne => absurd rfl hne⟩
          · rw [length_cons, length_nil] at hleft
            rw [if_neg (by omega), if_pos (by omega), h.skip.read_eq, ok_bind]
            obtain ⟨rounds, rfl⟩ := exists_eq_succ_of_ne_zero
              (ne_of_gt (zero_lt_of_lt hrounds))
            by_cases hnext : next = padchar
            · rw [if_pos (.inr (by rw [hnext]))] at houtcome
              have hnone : digit options next = none := hnext ▸ digit_padchar
              rw [if_pos hnext, loop_end (by dsimp only; omega)]
              exact ⟨_, rfl, houtcome.symm, rfl, fun _ => by
                rw [filterMap_cons_none hdigit, filterMap_cons_none hnone,
                  filterMap_nil, drain, append_nil], fun hne => absurd rfl hne⟩
            · rw [if_neg (by simp [hnext])] at houtcome
              rw [if_neg hnext]
              exact ⟨_, rfl, finish_fail nofun houtcome⟩
          · rw [length_cons, length_cons] at hleft
            rw [if_neg (by simp)] at houtcome
            rw [if_neg (by omega), if_neg (by omega)]
            exact ⟨_, rfl, finish_fail nofun houtcome⟩
        · rw [if_neg hequals] at houtcome
          rw [if_neg hequals]
          exact ⟨_, rfl, finish_fail nofun houtcome⟩

/-! ## Both overloads -/

/-- What both overloads return. After an error there are no bytes. -/
def result (options : Base64Options) (base64 : List UInt8) :
    List UInt8 × Base64DecodingStatus :=
  (if outcome options base64.length base64 = .ok then decoded options base64 else [],
    outcome options base64.length base64)

theorem take_of_finish {base64 output : List UInt8} {r : fromBase64_helper_result × List UInt8}
    (hr : Finish options base64.length { output } base64 r) :
    (r.2.take r.1.decodedLength, r.1.status) = result options base64 := by
  unfold result
  rw [← hr.status, Prod.mk.injEq]
  refine ⟨?_, rfl⟩
  split
  · next hok =>
    rw [hr.bytes hok, take_zero, nil_append]
    rfl
  · next hne => rw [hr.failed hne, take_zero]

theorem helper_spec (options : Base64Options) (input : Option (List UInt8))
    (base64 output : List UInt8) (hinput : input.getD output = base64)
    (hsize : base64.length * 3 / 4 ≤ output.length) :
    ∃ r, fromBase64_helper options input base64.length output = .ok r ∧
      Finish options base64.length { output } base64 r := by
  have hstart : Reading input base64.length { output } base64 :=
    ⟨hinput, zero_add _, by dsimp only; omega, le_refl 0, hsize⟩
  exact loop_spec hstart (lt_succ_self _)

theorem fromBase64Encoding_eq (fresh : ℕ → UInt8) (options : Base64Options)
    (base64 : List UInt8) :
    fromBase64Encoding fresh options base64 = .ok (result options base64) := by
  obtain ⟨r, hrun, hr⟩ := helper_spec options (some base64) base64
    ((List.range (base64.length * 3 / 4)).map fresh) rfl
    (by rw [length_map, length_range])
  unfold fromBase64Encoding
  dsimp only
  rw [hrun, ok_bind, ← take_of_finish hr]
  rfl

theorem length_result (options : Base64Options) (base64 : List UInt8) :
    (result options base64).1.length ≤ base64.length * 3 / 4 := by
  have hlen : (List.replicate (base64.length * 3 / 4) (0 : UInt8)).length =
      base64.length * 3 / 4 := length_replicate
  obtain ⟨r, -, hr⟩ := helper_spec options (some base64) base64
    (List.replicate (base64.length * 3 / 4) 0) rfl hlen.ge
  have hframe := congrArg List.length hr.frame
  rw [length_drop, length_drop, hlen] at hframe
  rw [← take_of_finish hr, length_take]
  omega

theorem helper_inPlace (options : Base64Options) (base64 : List UInt8) :
    ∃ r, fromBase64_helper options none base64.length base64 = .ok r ∧
      (r.2.take r.1.decodedLength, r.1.status) = result options base64 ∧
      r.2.drop (base64.length * 3 / 4) = base64.drop (base64.length * 3 / 4) := by
  obtain ⟨r, hrun, hr⟩ := helper_spec options none base64 base64 rfl (by omega)
  exact ⟨r, hrun, take_of_finish hr, hr.frame⟩

theorem fromBase64EncodingMove_eq (fresh : ℕ → UInt8) (isDetached : Bool)
    (options : Base64Options) (base64 : List UInt8) :
    fromBase64EncodingMove fresh isDetached options base64 = .ok (result options base64) := by
  unfold fromBase64EncodingMove
  cases isDetached with
  | true =>
    obtain ⟨r, hrun, hr, -⟩ := helper_inPlace options base64
    rw [if_pos rfl, hrun, ok_bind, ← hr]
    rfl
  | false =>
    rw [if_neg (by decide)]
    exact fromBase64Encoding_eq fresh options base64

/-! ## The round trip -/

theorem outcome_digits {inputSize : ℕ} {chars : List UInt8}
    (h : ∀ c ∈ chars, c ∈ options.alphabet) (rest : List UInt8) :
    outcome options inputSize (chars ++ rest) = outcome options inputSize rest := by
  induction chars with
  | nil => rfl
  | cons c chars ih =>
    rw [cons_append, outcome, if_pos (digit_isSome.2 (h c (mem_cons_self ..)))]
    exact ih fun c' hc' => h c' (mem_cons_of_mem c hc')

theorem outcome_ignore (h : options.abortOnBase64DecodingErrors = false) (inputSize : ℕ)
    (rest : List UInt8) : outcome options inputSize rest = .ok := by
  induction rest with
  | nil => rfl
  | cons c rest ih =>
    rw [outcome, h, ih]
    simp

/-- Padding that fills up the last group of four. -/
def IsPadding (inputSize : ℕ) (pad : List UInt8) : Prop :=
  pad = [] ∨ ((pad = [padchar] ∨ pad = [padchar, padchar]) ∧ inputSize % 4 = 0)

theorem outcome_padding {inputSize : ℕ} {pad : List UInt8} (h : IsPadding inputSize pad) :
    outcome options inputSize pad = .ok := by
  cases habort : options.abortOnBase64DecodingErrors with
  | false => exact outcome_ignore habort inputSize pad
  | true =>
    rcases h with rfl | ⟨rfl | rfl, hmod⟩
    · rfl
    · simp [outcome, digit_padchar, habort, hmod]
    · simp [outcome, digit_padchar, habort, hmod]

theorem outcome_eq_ok_iff (h : options.abortOnBase64DecodingErrors = true) (inputSize : ℕ)
    (rest : List UInt8) : outcome options inputSize rest = .ok ↔
      ∃ chars pad, rest = chars ++ pad ∧ (∀ c ∈ chars, c ∈ options.alphabet) ∧
        IsPadding inputSize pad := by
  constructor
  · intro hok
    induction rest with
    | nil => exact ⟨[], [], rfl, by simp, .inl rfl⟩
    | cons c rest ih =>
      rw [outcome] at hok
      by_cases hdigit : (digit options c).isSome
      · rw [if_pos hdigit] at hok
        obtain ⟨chars, pad, rfl, hchars, hpad⟩ := ih hok
        exact ⟨c :: chars, pad, rfl, by simp [digit_isSome.1 hdigit]; exact hchars, hpad⟩
      rw [if_neg hdigit, if_pos h] at hok
      by_cases hequals : c = padchar
      · rw [if_pos hequals] at hok
        by_cases hmod : inputSize % 4 ≠ 0
        · rw [if_pos hmod] at hok
          cases hok
        rw [if_neg hmod] at hok
        by_cases hrest : rest = [] ∨ rest = [padchar]
        · refine ⟨[], c :: rest, rfl, by simp, .inr ⟨?_, not_not.mp hmod⟩⟩
          rw [hequals]
          rcases hrest with rfl | rfl
          · exact .inl rfl
          · exact .inr rfl
        · rw [if_neg hrest] at hok
          cases hok
      · rw [if_neg hequals] at hok
        cases hok
  · rintro ⟨chars, pad, rfl, hchars, hpad⟩
    rw [outcome_digits hchars, outcome_padding hpad]

theorem result_encoded {decoding : Base64Options}
    (h : decoding.base64UrlEncoding = options.base64UrlEncoding) (data : List UInt8) :
    result decoding (encoded options data) = (data, .ok) := by
  have hletter : options.letter = decoding.letter := by
    funext i
    unfold Base64Options.letter Base64Options.alphabet
    rw [h]
  have hmem : ∀ c ∈ (sextets data).map decoding.letter, c ∈ decoding.alphabet := by
    intro c hc
    obtain ⟨d, hd, rfl⟩ := mem_map.mp hc
    exact digit_isSome.1 (by rw [digit_letter (sextets_lt data d hd)]; rfl)
  obtain ⟨pad, hpad⟩ : ∃ pad, pad = if options.omitTrailingEquals then []
      else List.replicate (padding data) padchar := ⟨_, rfl⟩
  have hencoded : encoded options data = (sextets data).map decoding.letter ++ pad := by
    rw [encoded, hletter, hpad]
  have hispad : IsPadding (encoded options data).length pad := by
    rw [hencoded, length_append, length_map, hpad]
    cases options.omitTrailingEquals with
    | true => exact .inl rfl
    | false =>
      have hlen := length_sextets data
      have hle : padding data < 3 := mod_lt _ (by decide)
      rw [if_neg (by decide), length_replicate, hlen]
      obtain hzero | hone | htwo : padding data = 0 ∨ padding data = 1 ∨ padding data = 2 := by
        omega
      · exact .inl (by rw [hzero]; rfl)
      · exact .inr ⟨.inl (by rw [hone]; rfl), mul_mod_left _ 4⟩
      · exact .inr ⟨.inr (by rw [htwo]; rfl), mul_mod_left _ 4⟩
  have hdigits : ((sextets data).map decoding.letter).filterMap (digit decoding) =
      sextets data := by
    rw [filterMap_map]
    exact (filterMap_congr fun d hd => digit_letter (sextets_lt data d hd)).trans
      filterMap_some
  have hnone : pad.filterMap (digit decoding) = [] := by
    rw [hpad]
    split
    · rfl
    · rw [filterMap_eq_nil_iff]
      intro c hc
      rw [eq_of_mem_replicate hc, digit_padchar]
  have hok : outcome decoding (encoded options data).length (encoded options data) = .ok := by
    rw [hencoded, outcome_digits hmem, ← hencoded]
    exact outcome_padding hispad
  unfold result decoded
  rw [hok, if_pos rfl, hencoded, filterMap_append, hdigits, hnone, append_nil,
    drain_sextets]

/-- The round trip in both modes; one result for both overloads, with no byte changed behind the
first three quarters; and what the strict mode accepts. -/
theorem base64_spec (data : List UInt8) (options : Base64Options) (fresh : ℕ → UInt8)
    (isDetached : Bool) :
    (∃ base64, toBase64 options data = .ok base64 ∧ ∀ trailing abort : Bool,
      fromBase64Encoding fresh ⟨options.base64UrlEncoding, trailing, abort⟩ base64 =
        .ok (data, .ok)) ∧
    (∃ bytes status, fromBase64Encoding fresh options data = .ok (bytes, status) ∧
      fromBase64EncodingMove fresh isDetached options data = .ok (bytes, status) ∧
      bytes.length ≤ data.length * 3 / 4) ∧
    (∃ r output, fromBase64_helper options none data.length data = .ok (r, output) ∧
      output.drop (data.length * 3 / 4) = data.drop (data.length * 3 / 4)) ∧
    ∃ bytes status, fromBase64Encoding fresh
      { options with abortOnBase64DecodingErrors := true } data = .ok (bytes, status) ∧
      (status = .ok ↔ ∃ chars pad, data = chars ++ pad ∧ (∀ c ∈ chars, c ∈ options.alphabet) ∧
        (pad = [] ∨ ((pad = [padchar] ∨ pad = [padchar, padchar]) ∧ data.length % 4 = 0))) := by
  refine ⟨⟨_, toBase64_eq options data, fun _ _ => ?_⟩, ⟨_, _, fromBase64Encoding_eq ..,
    fromBase64EncodingMove_eq .., ?_⟩, ?_, ⟨_, _, fromBase64Encoding_eq .., ?_⟩⟩
  · rw [fromBase64Encoding_eq, result_encoded]
    rfl
  · exact length_result options data
  · obtain ⟨r, hrun, -, hframe⟩ := helper_inPlace options data
    exact ⟨r.1, r.2, hrun, hframe⟩
  · exact outcome_eq_ok_iff rfl data.length data

end QtBase.Base64
