import QtBase.Core.Exec
import QtBase.Network.HPackInteger
import QtBase.Network.HuffmanStream

/-! Strings in HPACK (RFC 7541, 5.2): a length, and the octets themselves or their Huffman code. -/
namespace QtBase

open List UInt32 Nat

namespace HPack

open Lib HuffmanDecoder

/-- `int(c)`: `char` is signed. -/
def charToInt (c : UInt8) : ℤ := if c.toNat < 128 then c.toNat else c.toNat - 256

/-- `staticHuffmanCodeTable[i]` -/
def tableAt (i : ℤ) : Exec CodeEntry :=
  if 0 ≤ i ∧ i < staticHuffmanCodeTable.length then .ok (codeEntry i.toNat) else .error .undefined

def huffman_encoded_bit_length (inputData : List UInt8) : Exec ℕ :=
  (inputData.take (intSize inputData).toNat).foldlM (fun bitLength c => do
    let code ← tableAt (charToInt c)
    pure (bitLength + code.bitLength)) 0

/-- `write(QByteArrayView src, bool compressed)` -/
def BitOStream.writeString (s : BitOStream) (src : List UInt8) (compressed : Bool) :
    Exec BitOStream := do
  let byteLen := src.length % 2 ^ 32
  let r ← if compressed = true ∧ byteLen ≠ 0 then do
      let bitLen ← huffman_encoded_bit_length src
      qAssert (bitLen ≠ 0 ∧ (bitLen + 7) / 8 < 2 ^ 32)
      pure (s.writeBits 1 1, (bitLen + 7) / 8)
    else pure (s.writeBits 0 1, byteLen)
  let s := r.1.write (UInt32.ofNat r.2)
  pure (if compressed then huffman_encode_string src s
    else ⟨s.buffer ++ src, s.bitsSet + src.length * 8⟩)

/-- With chunks enough for all bits. -/
def huffman_decode_string (d : HuffmanDecoder) (inputStream : BitIStream) (dst : List UInt8) :
    Option (Bool × BitIStream × List UInt8) :=
  d.decodeStream (inputStream.rest.length + 1) inputStream dst

namespace BitIStream

/-- The length, and the string of as many octets. -/
def readOctetString (d : HuffmanDecoder) (oldOffset compressed : ℕ) (s : BitIStream)
    (dst : List UInt8) : Exec (BitIStream × Bool × List UInt8) :=
  match s.read with
  | (s, none) => .ok ({ s with offset := oldOffset }, false, dst)
  | (s, some len) =>
    if len.toNat ≤ (s.bitLength - s.offset) / 8 then
      let src := (s.bytes.drop (s.offset / 8)).take len.toNat
      if compressed = 0 then .ok ({ s with offset := s.offset + len.toNat * 8 }, true, src)
      else
        match huffman_decode_string d (make src) dst with
        | none => .error .diverge
        | some (true, _, dst) => .ok ({ s with offset := s.offset + len.toNat * 8 }, true, dst)
        | some (false, _, dst) =>
          .ok ({ s with streamError := .CompressionError, offset := oldOffset }, false, dst)
    else .ok ({ s with streamError := .NotEnoughData, offset := oldOffset }, false, dst)

/-- `read(QByteArray *dstPtr)`: the stream, whether the read was successful, and the string. -/
def readString (d : HuffmanDecoder) (s : BitIStream) (dst : List UInt8) :
    Exec (BitIStream × Bool × List UInt8) :=
  let (readBits, compressed) := s.peekBits 8 s.offset 1
  if readBits ≠ 1 ∨ s.canSkip 1 = false then
    .ok ({ s with streamError := .NotEnoughData }, false, dst)
  else
    readOctetString d s.offset compressed { s.skipBits 1 with streamError := .NoError } dst

end BitIStream

/-! ## The announced length -/

theorem tableAt_eq_ok_iff {c : UInt8} {code : CodeEntry} :
    tableAt (charToInt c) = .ok code ↔ c.toNat < 128 ∧ code = codeEntry c.toNat := by
  have hlt := c.toNat_lt
  unfold tableAt charToInt
  rw [table_length]
  by_cases hc : c.toNat < 128
  · rw [if_pos hc, if_pos (by omega), Int.toNat_natCast, Except.ok.injEq, and_iff_right hc, eq_comm]
  · rw [if_neg hc, if_neg (by omega)]
    exact iff_of_false (fun h => by cases h) fun h => hc h.1

theorem foldlM_bitLength_iff {data : List UInt8} {start n : ℕ} :
    data.foldlM (fun bitLength c => do
        let code ← tableAt (charToInt c)
        pure (bitLength + code.bitLength)) start = (.ok n : Exec ℕ) ↔
      (∀ b ∈ data, b.toNat < 128) ∧ n = start + (stringBits data).length := by
  induction data generalizing start with
  | nil =>
    rw [foldlM_nil]
    refine ⟨fun h => ⟨fun b hb => absurd hb not_mem_nil, (Except.ok.inj h).symm⟩,
      fun ⟨_, h⟩ => ?_⟩
    rw [h]
    rfl
  | cons b data ih =>
    rw [foldlM_cons, stringBits_cons, length_append, forall_mem_cons]
    have hcode : (huffmanBits (symbol b)).length = (codeEntry b.toNat).bitLength :=
      CodeEntry.length_bits _
    constructor
    · intro h
      obtain ⟨m, hm, hrest⟩ := bind_eq_ok h
      obtain ⟨code, hat, hsum⟩ := bind_eq_ok hm
      obtain ⟨hb, rfl⟩ := tableAt_eq_ok_iff.1 hat
      obtain rfl : start + (codeEntry b.toNat).bitLength = m := Except.ok.inj hsum
      obtain ⟨hall, hn⟩ := ih.mp hrest
      exact ⟨⟨hb, hall⟩, by omega⟩
    · intro ⟨⟨hb, hall⟩, hn⟩
      rw [tableAt_eq_ok_iff.2 ⟨hb, rfl⟩]
      exact ih.mpr ⟨hall, by omega⟩

theorem huffman_encoded_bit_length_iff {data : List UInt8} {n : ℕ} :
    huffman_encoded_bit_length data = .ok n ↔
      (∀ b ∈ data.take (intSize data).toNat, b.toNat < 128) ∧
        n = (stringBits (data.take (intSize data).toNat)).length := by
  unfold huffman_encoded_bit_length
  rw [foldlM_bitLength_iff, zero_add]

/-! ## Reading back -/

namespace BitIStream

theorem readString_eq (d : HuffmanDecoder) {s : BitIStream} {bit : Bool} {tail : List Bool}
    (h : s.rest = bit :: tail) (dst : List UInt8) :
    s.readString d dst =
      readOctetString d s.offset (bit.toNat * 2 ^ 7) ⟨s.bytes, s.offset + 1, .NoError⟩ dst := by
  have hlength := s.length_rest
  rw [h, length_cons] at hlength
  have hskip : s.canSkip 1 = true := decide_eq_true (by omega)
  have hpeek := s.peekBits_eq (w := 8) (n := 1) (le_refl 8) (by omega)
  have hbit : s.rest.take 1 = [bit] := by rw [h, take_succ_cons, take_zero]
  have hvalue : Bits.toNat [bit] = bit.toNat := zero_add _
  rw [hbit, hvalue] at hpeek
  unfold readString skipBits
  rw [hpeek, if_pos hskip]
  exact if_neg (fun hor => by simp [hskip] at hor)

end BitIStream

/-- The position behind an integer fits into 32 bits, or is not needed. -/
def PositionFits (s : BitOStream) (v : UInt32) : Prop :=
  v.toNat < 2 ^ prefixLength s.bitsSet - 1 ∨ (s.write v).bitsSet < 2 ^ 32

theorem encoded_length (bits : ℕ) : bits + paddingLength bits = 8 * ((bits + 7) / 8) := by
  unfold paddingLength
  omega

variable {l : List Bool}

theorem exists_encoded {s : BitOStream} (h : s.Holds l) (hl : l.length % 8 = 0)
    (data : List UInt8) :
    ∃ code, (huffman_encode_string data s).buffer = s.buffer ++ code ∧
      code.length = ((stringBits (data.take (intSize data).toNat)).length + 7) / 8 ∧
        (huffman_encode_string data s).bitsSet = s.bitsSet + 8 * code.length ∧
          ∃ pad, IsPadding pad ∧
            Bits.ofBytes code = stringBits (data.take (intSize data).toNat) ++ pad := by
  have hholds := huffman_encode_string_holds h data
  generalize stringBits (data.take (intSize data).toNat) = bits at hholds ⊢
  have hpadding : paddingLength (l ++ bits).length = paddingLength bits.length := by
    rw [length_append]
    unfold paddingLength
    omega
  rw [hpadding, append_assoc] at hholds
  have hlength : (bits ++ List.replicate (paddingLength bits.length) true).length =
      8 * ((bits.length + 7) / 8) := by
    rw [length_append, length_replicate, encoded_length]
  obtain ⟨hbits, hset⟩ := hholds.buffer_eq (by rw [length_append]; omega)
  obtain ⟨a, code, hbuffer, ha, hcode⟩ := Bits.exists_append_of_ofBytes hl hbits
  obtain ⟨hsbits, hsset⟩ := h.buffer_eq hl
  obtain rfl := Bits.ofBytes_inj (ha.trans hsbits.symm)
  have hcount := congrArg List.length hcode
  rw [Bits.length_ofBytes, hlength] at hcount
  refine ⟨code, hbuffer, by omega, ?_, _,
    isPadding_replicate (le_of_lt_succ (paddingLength_lt bits.length)), hcode⟩
  rw [hset, length_append, hlength, hsset, ← hcount]

theorem readOctetString_encoded {d : HuffmanDecoder} (hd : d.Complete)
    {bytes code tail s : List UInt8} {offset offset' oldOffset : ℕ} {e : StreamError}
    {len : UInt32} {pad : List Bool}
    (hread : BitIStream.read ⟨bytes ++ (code ++ tail), offset, e⟩ =
      (⟨bytes ++ (code ++ tail), offset', .NoError⟩, some len))
    (hoffset : offset' = 8 * bytes.length) (hlen : len.toNat = code.length) (hpad : IsPadding pad)
    (hcode : Bits.ofBytes code = stringBits s ++ pad) :
    BitIStream.readOctetString d oldOffset 128 ⟨bytes ++ (code ++ tail), offset, e⟩ [] =
      .ok (⟨bytes ++ (code ++ tail), offset' + 8 * code.length, .NoError⟩, true, s) := by
  have hsrc : ((bytes ++ (code ++ tail)).drop (offset' / 8)).take len.toNat = code := by
    rw [hoffset, Nat.mul_div_cancel_left _ (Nat.succ_pos 7), drop_left, hlen, take_left]
  have hroom : len.toNat ≤ ((bytes ++ (code ++ tail)).length * 8 - offset') / 8 := by
    simp
    omega
  have hrest := BitIStream.rest_make code
  rw [hcode] at hrest
  obtain ⟨s', hdecode⟩ := decodeStream_string hd hpad hrest []
  unfold BitIStream.readOctetString
  rw [hread]
  unfold huffman_decode_string BitIStream.bitLength
  dsimp only
  rw [if_pos hroom, if_neg (by omega), hsrc, hdecode _ (Nat.lt_succ_self _), hlen, Nat.mul_comm]
  rfl

variable {s : List UInt8}

theorem readString_written {d : HuffmanDecoder} (hd : d.Complete) {out : BitOStream}
    (h : out.Holds l) {n : ℕ} (hn : huffman_encoded_bit_length s = .ok n)
    (hsize : s.length % 2 ^ 32 ≠ 0) (hbytes : n ≠ 0 ∧ (n + 7) / 8 < 2 ^ 32)
    (hpos : PositionFits (out.writeBits 1 1) (ofNat ((n + 7) / 8))) (tail : List UInt8)
    (e : StreamError) :
    ∃ w, out.writeString s true = .ok w ∧
      BitIStream.readString d ⟨w.buffer ++ tail, out.bitsSet, e⟩ [] =
        .ok (⟨w.buffer ++ tail, w.bitsSet, .NoError⟩, true, s.take (intSize s).toNat) := by
  obtain ⟨-, hcount⟩ := huffman_encoded_bit_length_iff.1 hn
  have hlen : (ofNat ((n + 7) / 8)).toNat = (n + 7) / 8 := by
    rw [toNat_ofNat', mod_eq_of_lt hbytes.2]
  have hbit : (out.writeBits 1 1).Holds (l ++ [true]) :=
    BitOStream.writeBits_holds h 1 (n := 1) (by omega)
  have hinteger := BitOStream.write_holds hbit (ofNat ((n + 7) / 8))
  have hwhole : ((l ++ [true]) ++ BitOStream.integerBits (prefixLength (l ++ [true]).length)
      (ofNat ((n + 7) / 8)).toNat).length % 8 = 0 := by
    rw [length_append]
    exact BitOStream.length_integerBits_mod _ _
  obtain ⟨code, hbuffer, hlength, hset, pad, hpad, hcode⟩ := exists_encoded hinteger hwhole s
  obtain ⟨hbits, hbitsSet⟩ := hinteger.buffer_eq hwhole
  obtain ⟨hread, -⟩ := (written_read_iff hbit (ofNat ((n + 7) / 8)) (code ++ tail)
    .NoError).mpr hpos
  have hinside := congrArg List.length hbits
  rw [Bits.length_ofBytes] at hinside
  refine ⟨huffman_encode_string s ((out.writeBits 1 1).write (ofNat ((n + 7) / 8))), ?_, ?_⟩
  · unfold BitOStream.writeString
    dsimp only
    rw [if_pos ⟨rfl, hsize⟩, hn]
    simp only [ok_bind, qAssert_pos hbytes, pure_eq_ok, if_true]
  · rw [hbuffer, append_assoc]
    have hfirst : BitIStream.rest
        ⟨((out.writeBits 1 1).write (ofNat ((n + 7) / 8))).buffer ++ (code ++ tail),
          out.bitsSet, e⟩ = true ::
          (BitOStream.integerBits (prefixLength (l ++ [true]).length)
            (ofNat ((n + 7) / 8)).toNat ++ Bits.ofBytes (code ++ tail)) := by
      unfold BitIStream.rest
      dsimp only
      rw [Bits.ofBytes_append, hbits, h.bitsSet_eq, append_assoc, append_assoc,
        drop_left]
      rfl
    have hnext : (out.writeBits 1 1).bitsSet = out.bitsSet + 1 := rfl
    rw [hnext] at hread
    rw [BitIStream.readString_eq d hfirst]
    have hstring := @readOctetString_encoded d hd _ _ _ _ _ _ out.bitsSet _ _ _ hread (by omega)
      (by rw [hlen, hlength, hcount]) hpad hcode
    rw [hset]
    exact hstring

theorem readString_unwritten (d : HuffmanDecoder) {out : BitOStream} (h : out.Holds l)
    (hsize : s.length % 2 ^ 32 = 0) (tail : List UInt8) (e : StreamError) :
    ∃ w, out.writeString s true = .ok w ∧
      BitIStream.readString d ⟨w.buffer ++ tail, out.bitsSet, e⟩ [] =
        .ok (⟨w.buffer ++ tail, w.bitsSet, .NoError⟩, true, []) := by
  have hnone : (intSize s).toNat = 0 := by
    unfold intSize
    rw [Int.bmod_def]
    omega
  have hbit : (out.writeBits 0 1).Holds (l ++ [false]) :=
    BitOStream.writeBits_holds h 0 (n := 1) (by omega)
  have hinteger := BitOStream.write_holds hbit 0
  have hwhole : ((l ++ [false]) ++ BitOStream.integerBits (prefixLength (l ++ [false]).length)
      (0 : UInt32).toNat).length % 8 = 0 := by
    rw [length_append]
    exact BitOStream.length_integerBits_mod _ _
  obtain ⟨code, hbuffer, hlength, hset, -⟩ := exists_encoded hinteger hwhole s
  obtain rfl : code = [] := by
    refine eq_nil_of_length_eq_zero ?_
    rw [hlength, hnone, take_zero]
    rfl
  obtain ⟨hbits, -⟩ := hinteger.buffer_eq hwhole
  have hleading : 0 < 2 ^ prefixLength (out.writeBits 0 1).bitsSet - 1 := by
    have hpow : 2 ^ 1 ≤ 2 ^ prefixLength (out.writeBits 0 1).bitsSet :=
      Nat.pow_le_pow_right (Nat.succ_pos 1) (by unfold prefixLength; omega)
    omega
  obtain ⟨hread, -⟩ := (written_read_iff hbit 0 tail .NoError).mpr (.inl hleading)
  refine ⟨huffman_encode_string s ((out.writeBits 0 1).write 0), ?_, ?_⟩
  · unfold BitOStream.writeString
    dsimp only
    have hzero : ofNat 0 = 0 := rfl
    rw [if_neg (fun hand => hand.2 hsize), hsize]
    simp only [ok_bind, pure_eq_ok, if_true, hzero]
  · rw [hbuffer, hset, append_nil]
    have hfirst : BitIStream.rest ⟨((out.writeBits 0 1).write 0).buffer ++ tail,
        out.bitsSet, e⟩ = false ::
          (BitOStream.integerBits (prefixLength (l ++ [false]).length) (0 : UInt32).toNat ++
            Bits.ofBytes tail) := by
      unfold BitIStream.rest
      dsimp only
      rw [Bits.ofBytes_append, hbits, h.bitsSet_eq, append_assoc, append_assoc,
        drop_left]
      rfl
    have hnext : (out.writeBits 0 1).bitsSet = out.bitsSet + 1 := rfl
    rw [hnext] at hread
    rw [BitIStream.readString_eq d hfirst]
    unfold BitIStream.readOctetString
    rw [hread]
    rfl

/-- The announced length is right: only entries of the table are looked up, the length is the number
of bits of the codes, and the string is read back up to the last byte that was written. -/
def ReadsBack (d : HuffmanDecoder) (out : BitOStream) (s tail : List UInt8) (e : StreamError) :
    Prop :=
  ∃ n w, huffman_encoded_bit_length s = .ok n ∧ (writeCodes s out).bitsSet = out.bitsSet + n ∧
    out.writeString s true = .ok w ∧
      BitIStream.readString d ⟨w.buffer ++ tail, out.bitsSet, e⟩ [] =
        .ok (⟨w.buffer ++ tail, w.bitsSet, .NoError⟩, true, s)

/-- How many bytes the Huffman code of a string takes. -/
def encodedLength (s : List UInt8) : ℕ := ((stringBits s).length + 7) / 8

/-- All bytes are those of ASCII, the number of bytes is an `int`, and the length of the code fits
into 32 bits. -/
structure Encodable (s : List UInt8) : Prop where
  ascii : ∀ b ∈ s, b.toNat < 128
  short : s.length < 2 ^ 31
  encodedLength_lt : encodedLength s < 2 ^ 32

theorem stringBits_length_pos (h : s ≠ []) : (stringBits s).length ≠ 0 := by
  cases s with
  | nil => exact absurd rfl h
  | cons b s =>
    have hshort := (codeEntry_fits (symbol b).isLt).short
    have hcode : (huffmanBits (symbol b)).length = (codeEntry (symbol b)).bitLength :=
      CodeEntry.length_bits _
    rw [stringBits_cons, length_append]
    omega

theorem readsBack_of_encodable {d : HuffmanDecoder} (hd : d.Complete) {out : BitOStream}
    (h : out.Holds l) (hs : Encodable s)
    (hpos : PositionFits (out.writeBits 1 1) (ofNat (encodedLength s))) (tail : List UInt8)
    (e : StreamError) : ReadsBack d out s tail e := by
  have htake := take_intSize hs.short
  have hn : huffman_encoded_bit_length s = .ok (stringBits s).length := by
    rw [huffman_encoded_bit_length_iff, htake]
    exact ⟨hs.ascii, rfl⟩
  have hcodes : (writeCodes s out).bitsSet = out.bitsSet + (stringBits s).length := by
    rw [(writeCodes_holds h s).bitsSet_eq, htake, length_append, h.bitsSet_eq]
  have hshort := hs.short
  by_cases hsize : s.length % 2 ^ 32 = 0
  · obtain rfl : s = [] := eq_nil_of_length_eq_zero (by omega)
    obtain ⟨w, hwrite, hread⟩ := readString_unwritten d h hsize tail e
    exact ⟨_, w, hn, hcodes, hwrite, hread⟩
  · have hne : s ≠ [] := fun heq => hsize (by rw [heq]; rfl)
    obtain ⟨w, hwrite, hread⟩ := readString_written hd h hn hsize
      ⟨stringBits_length_pos hne, hs.encodedLength_lt⟩ hpos tail e
    rw [htake] at hread
    exact ⟨_, w, hn, hcodes, hwrite, hread⟩

theorem positionFits_fresh (v : UInt32) : PositionFits ((BitOStream.make []).writeBits 1 1) v := by
  have hbit : ((BitOStream.make []).writeBits 1 1).Holds [true] :=
    BitOStream.writeBits_holds (BitOStream.holds_make []) 1 (n := 1) (by omega)
  have hset := (BitOStream.write_holds hbit v).bitsSet_eq
  have hlength := BitOStream.length_integerBits_le (prefixLength [true].length) v.toNat
  have hleading : prefixLength [true].length ≤ 8 := sub_le 8 _
  rw [length_append, length_singleton] at hset
  rw [length_singleton] at hlength hleading
  refine .inr ?_
  omega

theorem encodable_of_readsBack {d : HuffmanDecoder} (hd : d.Complete)
    (h : ReadsBack d (BitOStream.make []) s [] .NoError) : Encodable s := by
  obtain ⟨n, w, hn, -, hwrite, hread⟩ := h
  obtain ⟨hascii, hcount⟩ := huffman_encoded_bit_length_iff.1 hn
  by_cases hsize : s.length % 2 ^ 32 = 0
  · obtain ⟨w', hwrite', hread'⟩ := readString_unwritten d (BitOStream.holds_make []) hsize []
      .NoError
    obtain rfl : w = w' := Except.ok.inj (hwrite.symm.trans hwrite')
    have heq := Except.ok.inj (hread.symm.trans hread')
    obtain ⟨-, hpair⟩ := Prod.mk.inj heq
    obtain rfl : s = [] := (Prod.mk.inj hpair).2
    exact ⟨fun b hb => absurd hb not_mem_nil, Nat.two_pow_pos 31, Nat.two_pow_pos 32⟩
  · have hbytes : n ≠ 0 ∧ (n + 7) / 8 < 2 ^ 32 := by
      by_contra hnot
      unfold BitOStream.writeString at hwrite
      dsimp only at hwrite
      rw [if_pos ⟨rfl, hsize⟩, hn] at hwrite
      simp only [ok_bind, qAssert_neg hnot, error_bind] at hwrite
      cases hwrite
    obtain ⟨w', hwrite', hread'⟩ := readString_written hd (BitOStream.holds_make []) hn hsize
      hbytes (positionFits_fresh _) [] .NoError
    obtain rfl : w = w' := Except.ok.inj (hwrite.symm.trans hwrite')
    have heq := Except.ok.inj (hread.symm.trans hread')
    obtain ⟨-, hpair⟩ := Prod.mk.inj heq
    have hsame := (Prod.mk.inj hpair).2
    rw [← hsame] at hascii hcount
    refine ⟨hascii, ?_, ?_⟩
    · by_contra hlong
      have hless := take_intSize_length (Nat.le_of_not_lt hlong)
      rw [← hsame] at hless
      exact Nat.lt_irrefl _ hless
    · unfold encodedLength
      rw [← hcount]
      exact hbytes.2

/-- On a fresh stream exactly the encodable strings are read back; they are at any other place where
the position of their length fits into 32 bits. -/
theorem strings_hold_iff (s : List UInt8) :
    ∃ d, HuffmanDecoder.make = some d ∧
      (ReadsBack d (BitOStream.make []) s [] .NoError ↔ Encodable s) ∧
      ∀ (out : BitOStream) (l : List Bool) (tail : List UInt8) (e : StreamError), out.Holds l →
        Encodable s → PositionFits (out.writeBits 1 1) (UInt32.ofNat (encodedLength s)) →
          ReadsBack d out s tail e := by
  obtain ⟨d, hmake, hd⟩ := exists_complete
  refine ⟨d, hmake, ⟨encodable_of_readsBack hd, fun hs => ?_⟩, ?_⟩
  · exact readsBack_of_encodable hd (BitOStream.holds_make []) hs (positionFits_fresh _) [] _
  · intro out l tail e h hs hpos
    exact readsBack_of_encodable hd h hs hpos tail e

/-- `staticHuffmanCodeTable[-61]` is looked up for a letter in UTF-8. -/
theorem utf8_bit_length :
    huffman_encoded_bit_length [0xc3, 0xa9] = .error .undefined ∧
      (BitOStream.make []).writeString [0xc3, 0xa9] true = .error .undefined := by
  have hlookup : huffman_encoded_bit_length [0xc3, 0xa9] = .error .undefined := by decide
  refine ⟨hlookup, ?_⟩
  unfold BitOStream.writeString
  rw [hlookup]
  rfl

end HPack

end QtBase
