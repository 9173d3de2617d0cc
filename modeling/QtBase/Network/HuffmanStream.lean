import QtBase.Network.HuffmanDecoder

/-! `decodeStream` takes back what `huffman_encode_string` wrote, and nothing else. -/
namespace QtBase

open List UInt8 Nat

namespace HPack

open Lib

def padding_is_valid (chunk nBits : ℕ) : Bool :=
  if nBits > 7 then false else chunk >>> (32 - nBits) == 1 <<< nBits - 1

namespace HuffmanDecoder

variable (d : HuffmanDecoder)

/-- `decodeStream`: the result, the stream and the output buffer, unless the chunks do not
suffice. -/
def decodeStream : ℕ → BitIStream → List UInt8 → Option (Bool × BitIStream × List UInt8)
  | 0, _, _ => none
  | n + 1, inputStream, outputBuffer =>
    let (readBits, chunk) := inputStream.peekBits 32 inputStream.offset 32
    if readBits = 0 then some (!inputStream.hasMoreBits, inputStream, outputBuffer)
    else if readBits < d.minCodeLength then
      some (padding_is_valid chunk readBits, inputStream.skipBits readBits, outputBuffer)
    else
      let table := d.table 0
      let entry := d.tableEntry table (table.index chunk)
      (d.walk chunk d.prefixTables.length 0 entry).bind fun entry =>
        if entry.bitLength > readBits then
          some (padding_is_valid chunk readBits, inputStream.skipBits readBits, outputBuffer)
        else if entry.bitLength = 0 ∨ entry.byteValue = 256 then
          some (false, inputStream.skipBits readBits, outputBuffer)
        else
          decodeStream n (inputStream.skipBits entry.bitLength)
            (outputBuffer ++ [UInt8.ofNat entry.byteValue])

/-! ## One step -/

/-- Padding consists of at most seven set bits. -/
def IsPadding (l : List Bool) : Prop := l.length ≤ 7 ∧ l = List.replicate l.length true

theorem padding_is_valid_iff {l : List Bool} (hl : l.length ≤ 32) :
    padding_is_valid (Bits.toNat l * 2 ^ (32 - l.length)) l.length = true ↔ IsPadding l := by
  unfold padding_is_valid IsPadding
  split_ifs with hlong
  · exact iff_of_false (fun h => by cases h) fun h => by omega
  · have hpos := Nat.two_pow_pos l.length
    rw [Nat.shiftRight_eq_div_pow, Nat.mul_div_cancel _ (Nat.two_pow_pos _), Nat.one_shiftLeft,
      beq_iff_eq, and_iff_right (Nat.le_of_not_lt hlong), Bits.eq_replicate_true_iff]
    omega

theorem ofNat_peeked (s : BitIStream) :
    Bits.ofNat 32 (Bits.toNat (s.rest.take 32) * 2 ^ (32 - (s.rest.take 32).length)) =
      s.rest.take 32 ++ List.replicate (32 - (s.rest.take 32).length) false := by
  have hle : (s.rest.take 32).length ≤ 32 := by
    simp
  have hlength : (s.rest.take 32 ++
      List.replicate (32 - (s.rest.take 32).length) false).length = 32 := by
    simp
  have hlt := Bits.toNat_lt (s.rest.take 32 ++
    List.replicate (32 - (s.rest.take 32).length) false)
  rw [hlength] at hlt
  refine Bits.ofNat_eq_of_toNat hlength ?_
  rw [Bits.toNat_append, length_replicate, Bits.toNat_replicate_false, add_zero] at hlt ⊢
  exact (mod_eq_of_lt hlt).symm

/-- What `peekBits` gives back, when 32 bits are asked for. -/
structure Peeked (s : BitIStream) (p : List Bool) (chunk : ℕ) : Prop where
  eq : s.peekBits 32 s.offset 32 = (p.length, chunk)
  lt : chunk < 2 ^ 32
  bits : Bits.ofNat 32 chunk = p ++ List.replicate (32 - p.length) false
  padding : padding_is_valid chunk p.length = true ↔ IsPadding p
  all : p.length < 32 → p = s.rest
  isPrefix : p <+: s.rest

theorem exists_peeked (s : BitIStream) : ∃ p chunk, Peeked s p chunk := by
  have hle : (s.rest.take 32).length ≤ 32 := by
    simp
  refine ⟨s.rest.take 32, _, s.peekBits_eq (by omega) (Nat.le_refl 32), ?_, ofNat_peeked s,
    padding_is_valid_iff hle, fun hlt => ?_, take_prefix 32 s.rest⟩
  · have hpow : (2 : ℕ) ^ 32 =
        2 ^ (s.rest.take 32).length * 2 ^ (32 - (s.rest.take 32).length) := by
      rw [← Nat.pow_add]
      congr 1
      omega
    rw [hpow]
    exact Nat.mul_lt_mul_of_pos_right (Bits.toNat_lt _) (Nat.two_pow_pos _)
  · refine take_of_length_le ?_
    rw [length_take] at hlt
    omega

theorem not_isPadding {v : Fin 257} {l : List Bool} (h : huffmanBits v <+: l) : ¬IsPadding l := by
  intro ⟨hle, hones⟩
  have hfits := codeEntry_fits v.isLt
  have hlength := h.length_le
  have hcode : huffmanBits v = List.replicate (huffmanBits v).length true := by
    rw [hones] at h
    refine eq_replicate_of_mem fun b hb => ?_
    exact eq_of_mem_replicate (h.subset hb)
  have hlt := hfits.notPadding (by
    unfold huffmanBits at hlength
    rw [CodeEntry.length_bits] at hlength
    omega)
  rw [Bits.eq_replicate_true_iff] at hcode
  unfold huffmanBits at hcode
  rw [CodeEntry.length_bits] at hcode
  omega

theorem decodeStream_few {d : HuffmanDecoder} {s : BitIStream} {readBits chunk : ℕ}
    (h : s.peekBits 32 s.offset 32 = (readBits, chunk)) (hfew : readBits < d.minCodeLength) (n : ℕ)
    (out : List UInt8) :
    d.decodeStream (n + 1) s out =
      if readBits = 0 then some (!s.hasMoreBits, s, out)
      else some (padding_is_valid chunk readBits, s.skipBits readBits, out) := by
  conv_lhs => unfold decodeStream
  simp [h, hfew]

theorem decodeStream_entry {d : HuffmanDecoder} {s : BitIStream} {readBits chunk : ℕ}
    {entry : PrefixTableEntry} (h : s.peekBits 32 s.offset 32 = (readBits, chunk))
    (hmany : ¬readBits < d.minCodeLength) (hmin : 0 < d.minCodeLength)
    (hwalk : d.walk chunk d.prefixTables.length 0
      (d.tableEntry (d.table 0) ((d.table 0).index chunk)) = some entry) (n : ℕ)
    (out : List UInt8) :
    d.decodeStream (n + 1) s out =
      if entry.bitLength > readBits then
        some (padding_is_valid chunk readBits, s.skipBits readBits, out)
      else if entry.bitLength = 0 ∨ entry.byteValue = 256 then
        some (false, s.skipBits readBits, out)
      else
        d.decodeStream n (s.skipBits entry.bitLength) (out ++ [ofNat entry.byteValue]) := by
  conv_lhs => unfold decodeStream
  rw [h]
  dsimp only
  rw [if_neg (by omega), if_neg hmany, hwalk, Option.bind_some]

theorem decodeStream_cases {d : HuffmanDecoder} (hd : d.Complete) (s : BitIStream)
    (out : List UInt8) :
    ((∀ v, ¬huffmanBits v <+: s.rest) ∧
      ∃ r s', (r = true ↔ IsPadding s.rest) ∧
        ∀ n, d.decodeStream (n + 1) s out = some (r, s', out)) ∨
    (huffmanBits (Fin.last 256) <+: s.rest ∧
      ∃ s', ∀ n, d.decodeStream (n + 1) s out = some (false, s', out)) ∨
    ∃ b s', huffmanBits (symbol b) <+: s.rest ∧
      s'.rest = s.rest.drop (huffmanBits (symbol b)).length ∧
        ∀ n, d.decodeStream (n + 1) s out = d.decodeStream n s' (out ++ [b]) := by
  obtain ⟨p, chunk, hp⟩ := exists_peeked s
  have hmin := hd.minCodeLength
  have hshort : ∀ v, 5 ≤ (huffmanBits v).length ∧ (huffmanBits v).length ≤ 30 := by
    intro v
    have hfits := codeEntry_fits v.isLt
    unfold huffmanBits
    rw [CodeEntry.length_bits]
    exact ⟨hfits.short, hfits.long⟩
  by_cases hfew : p.length < d.minCodeLength
  · -- not even the shortest code fits
    have hround := decodeStream_few hp.eq hfew
    have hall := hp.all (by omega)
    have hpadding := hp.padding
    rw [hall] at hfew hpadding hround
    refine .inl ⟨fun v hv => ?_, ?_⟩
    · have hlength := hv.length_le
      have := hshort v
      omega
    · by_cases hnil : s.rest.length = 0
      · refine ⟨!s.hasMoreBits, s, ?_, fun n => ?_⟩
        · have hmore : s.hasMoreBits = false := by
            have hrest := s.length_rest
            unfold BitIStream.hasMoreBits
            exact decide_eq_false (by omega)
          rw [hmore, eq_nil_of_length_eq_zero hnil]
          exact iff_of_true rfl ⟨zero_le 7, rfl⟩
        · rw [hround, if_pos hnil]
      · refine ⟨_, s.skipBits s.rest.length, hpadding, fun n => ?_⟩
        rw [hround, if_neg hnil]
  · obtain ⟨v, entry, hwalk, hvalue, hlength, hleading⟩ := hd.walk chunk hp.lt
    rw [hp.bits] at hleading
    have hv := hshort v
    have hround := decodeStream_entry hp.eq hfew (by omega) hwalk
    by_cases hmore : entry.bitLength > p.length
    · -- the code goes on behind the end of the input
      have hall := hp.all (by omega)
      have hpadding := hp.padding
      rw [hall] at hpadding hleading hround hmore
      refine .inl ⟨fun u hu => ?_, _, s.skipBits s.rest.length, hpadding, fun n => ?_⟩
      · have heq := huffmanBits_prefixFree.eq_of_prefix
          (hu.trans (prefix_append s.rest _)) hleading
        have hlength' := hu.length_le
        rw [heq] at hlength'
        omega
      · rw [hround, if_pos hmore]
    · have hin : huffmanBits v <+: s.rest :=
        (prefix_of_prefix_length_le hleading (prefix_append p _) (by omega)).trans
          hp.isPrefix
      by_cases heos : v = Fin.last 256
      · refine .inr (.inl ⟨heos ▸ hin, s.skipBits p.length, fun n => ?_⟩)
        rw [hround, if_neg hmore, if_pos (.inr (by rw [hvalue, heos]; rfl))]
      · have hlt : v.val < 256 := by
          have hne : v.val ≠ 256 := fun heq => heos (Fin.ext heq)
          have := v.isLt
          omega
        have hsymbol : symbol (ofNat v) = v := by
          refine Fin.ext ?_
          show (ofNat v).toNat = v
          rw [toNat_ofNat']
          exact mod_eq_of_lt hlt
        refine .inr (.inr ⟨ofNat v, s.skipBits entry.bitLength, ?_, ?_, fun n => ?_⟩)
        · rwa [hsymbol]
        · rw [hsymbol, ← hlength]
          exact s.skipBits_rest (by rw [hlength]; exact hin.length_le)
        · rw [hround, if_neg hmore, if_neg (by omega), hvalue]

/-! ## Runs -/

theorem symbol_injective {b b' : UInt8} (h : symbol b = symbol b') : b = b' :=
  UInt8.toNat_inj.mp (congrArg (fun v : Fin 257 => v.val) h)

theorem stringBits_cons (b : UInt8) (l : List UInt8) :
    stringBits (b :: l) = huffmanBits (symbol b) ++ stringBits l := by
  unfold stringBits
  rw [map_cons, PrefixCode.encode_cons]

/-- The loop ends, since every code consists of some bits; what it accepts is a string and
padding. -/
theorem decodeStream_ends {d : HuffmanDecoder} (hd : d.Complete) (s : BitIStream)
    (out : List UInt8) :
    ∃ r s' out', (∀ n, s.rest.length < n → d.decodeStream n s out = some (r, s', out')) ∧
      (r = true → ∃ l pad, out' = out ++ l ∧ s.rest = stringBits l ++ pad ∧ IsPadding pad) := by
  induction hlength : s.rest.length using Nat.strong_induction_on generalizing s out with
  | h length ih =>
    rcases decodeStream_cases hd s out with ⟨-, r, s', hr, hround⟩ | ⟨-, s', hround⟩ |
      ⟨b, s', hleading, hrest, hround⟩
    · refine ⟨r, s', out, fun n hn => ?_, fun htrue => ?_⟩
      · rw [← Nat.sub_add_cancel (Nat.lt_of_le_of_lt (Nat.zero_le length) hn), hround]
      · exact ⟨[], s.rest, (append_nil out).symm, rfl, hr.mp htrue⟩
    · refine ⟨false, s', out, fun n hn => ?_, fun htrue => by cases htrue⟩
      rw [← Nat.sub_add_cancel (Nat.lt_of_le_of_lt (Nat.zero_le length) hn), hround]
    · have hshort := (codeEntry_fits (symbol b).isLt).short
      have hcode : (huffmanBits (symbol b)).length = (codeEntry (symbol b)).bitLength :=
        CodeEntry.length_bits _
      have hle := hleading.length_le
      have hrest' := congrArg List.length hrest
      rw [length_drop] at hrest'
      obtain ⟨r, s'', out', hends, htrue⟩ := ih s'.rest.length (by omega) s' (out ++ [b]) rfl
      refine ⟨r, s'', out', fun n hn => ?_, fun hr => ?_⟩
      · rw [← Nat.sub_add_cancel (Nat.lt_of_le_of_lt (Nat.zero_le length) hn), hround]
        exact hends (n - 1) (by omega)
      · obtain ⟨l, pad, hout, hbits, hpad⟩ := htrue hr
        refine ⟨b :: l, pad, ?_, ?_, hpad⟩
        · rw [hout, append_assoc, singleton_append]
        · obtain ⟨t, ht⟩ := hleading
          rw [← ht, drop_left] at hrest
          rw [← ht, stringBits_cons, append_assoc, ← hbits, hrest]

theorem decodeStream_string {d : HuffmanDecoder} (hd : d.Complete) {s : BitIStream}
    {l : List UInt8} {pad : List Bool} (hpad : IsPadding pad)
    (hrest : s.rest = stringBits l ++ pad) (out : List UInt8) :
    ∃ s', ∀ n, s.rest.length < n → d.decodeStream n s out = some (true, s', out ++ l) := by
  induction l generalizing s out with
  | nil =>
    have hrest : s.rest = pad := hrest
    rcases decodeStream_cases hd s out with ⟨-, r, s', hr, hround⟩ | ⟨hleading, -⟩ |
      ⟨b, s', hleading, -⟩
    · rw [hrest] at hr
      rw [hr.mpr hpad] at hround
      refine ⟨s', fun n hn => ?_⟩
      rw [← Nat.sub_add_cancel (Nat.lt_of_le_of_lt (Nat.zero_le _) hn), hround, append_nil]
    · exact absurd hpad (not_isPadding (hrest ▸ hleading))
    · exact absurd hpad (not_isPadding (hrest ▸ hleading))
  | cons b l ih =>
    have hcode : huffmanBits (symbol b) <+: s.rest := by
      rw [hrest, stringBits_cons, append_assoc]
      exact prefix_append _ _
    have hshort := (codeEntry_fits (symbol b).isLt).short
    have hlength : (huffmanBits (symbol b)).length = (codeEntry (symbol b)).bitLength :=
      CodeEntry.length_bits _
    rcases decodeStream_cases hd s out with ⟨hnone, -⟩ | ⟨hleading, -⟩ |
      ⟨b', s', hleading, hrest', hround⟩
    · exact absurd hcode (hnone _)
    · have heq := congrArg Fin.val (huffmanBits_prefixFree.eq_of_prefix hcode hleading)
      have hlt : b.toNat < 256 := b.toNat_lt
      exact absurd heq (Nat.ne_of_lt hlt)
    · obtain rfl := symbol_injective (huffmanBits_prefixFree.eq_of_prefix hcode hleading)
      have hle := hleading.length_le
      have hless := congrArg List.length hrest'
      rw [length_drop] at hless
      rw [hrest, stringBits_cons, append_assoc, drop_left] at hrest'
      obtain ⟨s'', hends⟩ := ih hrest' (out ++ [b])
      refine ⟨s'', fun n hn => ?_⟩
      rw [← Nat.sub_add_cancel (Nat.lt_of_le_of_lt (Nat.zero_le _) hn), hround,
        hends (n - 1) (by omega), append_assoc, singleton_append]

theorem isPadding_replicate {k : ℕ} (hk : k ≤ 7) : IsPadding (List.replicate k true) := by
  unfold IsPadding
  rw [length_replicate]
  exact ⟨hk, rfl⟩

theorem decodeStream_encoded {d : HuffmanDecoder} (hd : d.Complete) (s : List UInt8) :
    ∃ m stream, ∀ n, m ≤ n →
      d.decodeStream n
          (BitIStream.make (huffman_encode_string s (BitOStream.make [])).buffer) [] =
        some (true, stream, s.take (intSize s).toNat) := by
  have hholds := huffman_encode_string_holds (BitOStream.holds_make []) s
  rw [Bits.ofBytes_nil, nil_append] at hholds
  obtain ⟨hbits, -⟩ := hholds.buffer_eq (by
    rw [length_append, length_replicate]
    exact add_paddingLength _)
  have hrest := BitIStream.rest_make (huffman_encode_string s (BitOStream.make [])).buffer
  rw [hbits] at hrest
  obtain ⟨stream, hends⟩ := decodeStream_string hd
    (isPadding_replicate (le_of_lt_succ (paddingLength_lt _))) hrest []
  rw [nil_append] at hends
  exact ⟨_ + 1, stream, hends⟩

/-- A string is taken back from its Huffman code exactly if its length is an `int`; the decoder
always ends, and what it accepts is a string in Huffman code with at most seven set bits behind. -/
theorem huffman_holds_iff (s : List UInt8) (input : BitIStream) (out : List UInt8) :
    ∃ d, make = some d ∧
      ((∃ m stream, ∀ n, m ≤ n →
        d.decodeStream n
            (BitIStream.make (huffman_encode_string s (BitOStream.make [])).buffer) [] =
          some (true, stream, s)) ↔ s.length < 2 ^ 31) ∧
      ∃ m r s' out', (∀ n, m ≤ n → d.decodeStream n input out = some (r, s', out')) ∧
        (r = true → ∃ l k, k ≤ 7 ∧ out' = out ++ l ∧
          input.rest = stringBits l ++ List.replicate k true) := by
  obtain ⟨d, hmake, hd⟩ := exists_complete
  refine ⟨d, hmake, ⟨fun ⟨m, stream, hends⟩ => ?_, fun hlt => ?_⟩, ?_⟩
  · by_contra hnot
    obtain ⟨m', stream', hends'⟩ := decodeStream_encoded hd s
    have heq := (hends _ (Nat.le_max_left m m')).symm.trans (hends' _ (Nat.le_max_right m m'))
    have hless := take_intSize_length (Nat.le_of_not_lt hnot)
    obtain ⟨-, hpair⟩ := Prod.mk.inj (Option.some.inj heq)
    rw [← (Prod.mk.inj hpair).2] at hless
    exact Nat.lt_irrefl _ hless
  · have hencoded := decodeStream_encoded hd s
    rwa [take_intSize hlt] at hencoded
  · obtain ⟨r, s', out', hends, htrue⟩ := decodeStream_ends hd input out
    refine ⟨input.rest.length + 1, r, s', out', hends, fun hr => ?_⟩
    obtain ⟨l, pad, hout, hbits, hpad, hones⟩ := htrue hr
    exact ⟨l, pad.length, hpad, hout, hones ▸ hbits⟩

/-- Nothing is left of a string of `2 ^ 31` bytes. -/
theorem huffman_loses_long :
    ∃ d, make = some d ∧ ∃ m stream, ∀ n, m ≤ n →
      d.decodeStream n (BitIStream.make
          (huffman_encode_string (List.replicate (2 ^ 31) 0) (BitOStream.make [])).buffer) [] =
        some (true, stream, []) := by
  obtain ⟨d, hmake, hd⟩ := exists_complete
  have hencoded := decodeStream_encoded hd (List.replicate (2 ^ 31) 0)
  have hsize : (intSize (List.replicate (2 ^ 31) 0)).toNat = 0 := by
    unfold intSize
    rw [length_replicate]
    rfl
  rw [hsize, take_zero] at hencoded
  exact ⟨d, hmake, hencoded⟩

end HuffmanDecoder

end HPack

end QtBase
