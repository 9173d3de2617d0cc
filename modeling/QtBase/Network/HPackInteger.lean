import QtBase.Network.BitStreams

/-! Integers in HPACK (RFC 7541, 5.1): what `BitOStream` writes and what `BitIStream` reads. -/
namespace QtBase

open List Option UInt32 Nat

namespace HPack

open Lib

/-! ## The representation -/

/-- The value of the octets that follow a full prefix, and how many they are. -/
def continuation : List UInt8 → Option (ℕ × ℕ)
  | [] => none
  | octet :: rest =>
    if octet.toNat < 128 then some (octet.toNat, 1)
    else (continuation rest).map fun r => (octet.toNat % 128 + 128 * r.1, r.2 + 1)

/-- How many bits of the octet at an offset are left. -/
def prefixLength (offset : ℕ) : ℕ := 8 - offset % 8

/-- The value of an integer at an offset, and where it ends. -/
def integerAt (bytes : List UInt8) (offset : ℕ) : Option (ℕ × ℕ) :=
  match bytes.drop (offset / 8) with
  | [] => none
  | octet :: rest =>
    let n := prefixLength offset
    if octet.toNat % 2 ^ n < 2 ^ n - 1 then some (octet.toNat % 2 ^ n, offset + n)
    else (continuation rest).map fun r => (2 ^ n - 1 + r.1, offset + n + 8 * r.2)

theorem continuation_length {l : List UInt8} {v k : ℕ} (h : continuation l = some (v, k)) :
    1 ≤ k ∧ k ≤ l.length := by
  induction l generalizing v k with
  | nil => cases h
  | cons octet rest ih =>
    unfold continuation at h
    split_ifs at h
    · obtain ⟨-, rfl⟩ := Prod.mk.inj (some.inj h)
      exact ⟨le_refl _, succ_pos _⟩
    · obtain ⟨⟨v', k'⟩, hrest, heq⟩ := map_eq_some_iff.mp h
      obtain ⟨-, rfl⟩ := Prod.mk.inj heq
      have := ih hrest
      simp
      omega

theorem continuation_of_take {l l' : List UInt8} {v k : ℕ} (h : continuation l = some (v, k))
    (htake : l'.take k = l.take k) : continuation l' = some (v, k) := by
  induction l generalizing l' v k with
  | nil => cases h
  | cons octet rest ih =>
    obtain ⟨hpos, -⟩ := continuation_length h
    obtain ⟨j, rfl⟩ := exists_eq_succ_of_ne_zero (ne_of_gt hpos)
    cases l' with
    | nil => cases htake
    | cons octet' rest' =>
      rw [take_succ_cons, take_succ_cons] at htake
      obtain ⟨rfl, hbehind⟩ := List.cons.inj htake
      unfold continuation at h ⊢
      split_ifs at h ⊢ with hlast
      · exact h
      · obtain ⟨⟨v', k'⟩, hrest, heq⟩ := map_eq_some_iff.mp h
        obtain ⟨rfl, hk⟩ := Prod.mk.inj heq
        obtain rfl : k' = j := succ_injective hk
        rw [ih hrest hbehind, map_some]

/-! ## Writing -/

variable {l : List Bool}

namespace BitOStream

/-- What `pushOctets` appends. -/
def octets : ℕ → ℕ → List UInt8
  | 0, _ => []
  | k + 1, src =>
    if src ≥ 128 then UInt8.ofNat (src % 128 + 128) :: octets k (src / 128) else [UInt8.ofNat src]

theorem octets_length (k src : ℕ) : (octets k src).length ≤ k := by
  induction k generalizing src with
  | zero => exact le_refl 0
  | succ k ih =>
    unfold octets
    split_ifs
    · exact succ_le_succ (ih _)
    · exact succ_le_succ (zero_le k)

/-- The bits of an integer behind a prefix of `n` bits. -/
def integerBits (n v : ℕ) : List Bool :=
  if v < 2 ^ n - 1 then Bits.ofNat n v
  else Bits.ofNat n (2 ^ n - 1) ++ Bits.ofBytes (octets 5 (v - (2 ^ n - 1)))

theorem continuation_octets {k src : ℕ} (h : src < 128 ^ (k + 1)) (rest : List UInt8) :
    continuation (octets (k + 1) src ++ rest) = some (src, (octets (k + 1) src).length) := by
  induction k generalizing src with
  | zero =>
    have hoctet : (UInt8.ofNat src).toNat = src := by
      rw [UInt8.toNat_ofNat']
      omega
    unfold octets
    rw [if_neg (by omega), cons_append]
    unfold continuation
    rw [hoctet, if_pos (by omega)]
    rfl
  | succ k ih =>
    unfold octets
    by_cases hmore : src ≥ 128
    · have hoctet : (UInt8.ofNat (src % 128 + 128)).toNat = src % 128 + 128 := by
        rw [UInt8.toNat_ofNat']
        omega
      rw [if_pos hmore, cons_append]
      unfold continuation
      rw [hoctet, if_neg (by omega), ih (by rw [pow_succ] at h; omega), map_some,
        length_cons]
      congr 2
      omega
    · have hoctet : (UInt8.ofNat src).toNat = src := by
        rw [UInt8.toNat_ofNat']
        omega
      rw [if_neg hmore, cons_append]
      unfold continuation
      rw [hoctet, if_pos (by omega)]
      rfl

theorem pushByte_holds {s : BitOStream} (h : s.Holds l) (hl : l.length % 8 = 0)
    (b : UInt8) : (s.pushByte b).Holds (l ++ Bits.ofNat 8 b.toNat) := by
  obtain ⟨front, t, ht, rfl, hbuffer, hset⟩ := h
  rw [length_append, Bits.length_ofBytes] at hl hset
  obtain rfl : t = [] := eq_nil_of_length_eq_zero (by omega)
  refine ⟨front ++ [b], [], ht, ?_, ?_, ?_⟩
  · rw [Bits.ofBytes_append, append_nil, append_nil, Bits.ofBytes_cons, Bits.ofBytes_nil,
      append_nil]
  · unfold pushByte
    rw [hbuffer]
    unfold partByte
    rw [if_pos rfl, append_nil, append_nil]
  · unfold pushByte
    rw [length_append, length_append, Bits.length_ofBytes, Bits.length_ofNat, hset]

theorem pushOctets_holds {k src : ℕ} {s : BitOStream} (h : s.Holds l)
    (hl : l.length % 8 = 0) : (pushOctets k src s).Holds (l ++ Bits.ofBytes (octets k src)) := by
  induction k generalizing src s l with
  | zero => rwa [octets, Bits.ofBytes_nil, append_nil]
  | succ k ih =>
    unfold pushOctets octets
    split_ifs
    · rw [Bits.ofBytes_cons, ← append_assoc]
      refine ih (pushByte_holds h hl _) ?_
      rw [length_append, Bits.length_ofNat]
      omega
    · rw [Bits.ofBytes_cons, Bits.ofBytes_nil, append_nil]
      exact pushByte_holds h hl _

theorem write_holds {s : BitOStream} (h : s.Holds l) (src : UInt32) :
    (s.write src).Holds (l ++ integerBits (prefixLength l.length) src.toNat) := by
  have hset := h.bitsSet_eq
  unfold write integerBits
  dsimp only
  rw [hset, Nat.one_shiftLeft, show 8 - l.length % 8 = prefixLength l.length from rfl]
  have hn : prefixLength l.length ≤ 8 := Nat.sub_le _ _
  have hpow : 2 ^ prefixLength l.length ≤ 256 := Nat.pow_le_pow_right (Nat.succ_pos 1) hn
  by_cases hsmall : src.toNat < 2 ^ prefixLength l.length - 1
  · rw [if_pos hsmall, if_pos hsmall]
    have hholds := writeBits_holds h (UInt8.ofNat src.toNat) hn
    rwa [UInt8.toNat_ofNat', Nat.mod_eq_of_lt (by omega)] at hholds
  · rw [if_neg hsmall, if_neg hsmall, ← append_assoc]
    have hholds := writeBits_holds h (UInt8.ofNat (2 ^ prefixLength l.length - 1)) hn
    rw [UInt8.toNat_ofNat', Nat.mod_eq_of_lt (by omega)] at hholds
    refine pushOctets_holds hholds ?_
    rw [length_append, Bits.length_ofNat]
    unfold prefixLength
    omega

theorem length_integerBits_le (n v : ℕ) : (integerBits n v).length ≤ n + 40 := by
  have := octets_length 5 (v - (2 ^ n - 1))
  unfold integerBits
  split_ifs
  · rw [Bits.length_ofNat]
    omega
  · rw [length_append, Bits.length_ofNat, Bits.length_ofBytes]
    omega

theorem length_integerBits_mod (offset v : ℕ) :
    (offset + (integerBits (prefixLength offset) v).length) % 8 = 0 := by
  unfold integerBits prefixLength
  split_ifs
  · rw [Bits.length_ofNat]
    omega
  · rw [length_append, Bits.length_ofNat, Bits.length_ofBytes]
    omega

end BitOStream

theorem eq_cons_of_ofBytes {bytes tail : List UInt8} {x : List Bool} (hx : x.length = 8)
    (h : Bits.ofBytes bytes = x ++ Bits.ofBytes tail) :
    ∃ b, bytes = b :: tail ∧ b.toNat = Bits.toNat x := by
  cases bytes with
  | nil =>
    have hlength := congrArg List.length h
    rw [length_append, hx, Bits.ofBytes_nil, length_nil] at hlength
    omega
  | cons b rest =>
    rw [Bits.ofBytes_cons] at h
    obtain ⟨hb, hrest⟩ := append_inj h (by rw [Bits.length_ofNat, hx])
    refine ⟨b, by rw [Bits.ofBytes_inj hrest], ?_⟩
    rw [← hb, Bits.toNat_byte]

theorem integerAt_written {bytes rest : List UInt8} {v : ℕ} (hv : v < 2 ^ 32)
    (h : Bits.ofBytes bytes = l ++ BitOStream.integerBits (prefixLength l.length) v ++ Bits.ofBytes rest) :
    integerAt bytes l.length =
      some (v, l.length + (BitOStream.integerBits (prefixLength l.length) v).length) := by
  have hn : prefixLength l.length = 8 - l.length % 8 := rfl
  have hdrop := congrArg (List.drop (8 * (l.length / 8))) h
  rw [← Bits.ofBytes_drop, append_assoc, drop_append_of_le_length (by omega)] at hdrop
  have hpart : (l.drop (8 * (l.length / 8))).length = l.length % 8 := by
    simp
    omega
  unfold BitOStream.integerBits at hdrop ⊢
  unfold integerAt
  dsimp only
  by_cases hsmall : v < 2 ^ prefixLength l.length - 1
  · rw [if_pos hsmall] at hdrop ⊢
    rw [← append_assoc] at hdrop
    obtain ⟨b, hbytes, hb⟩ := eq_cons_of_ofBytes (by
      rw [length_append, hpart, Bits.length_ofNat, hn]
      omega) hdrop
    have hmod : b.toNat % 2 ^ prefixLength l.length = v := by
      rw [hb, Bits.toNat_append, Bits.length_ofNat, Bits.toNat_ofNat, Nat.mul_add_mod_self_right,
        Nat.mod_mod]
      exact Nat.mod_eq_of_lt (by omega)
    rw [hbytes]
    dsimp only
    rw [hmod, if_pos hsmall, Bits.length_ofNat]
  · rw [if_neg hsmall] at hdrop ⊢
    rw [← append_assoc, ← append_assoc, append_assoc _ (Bits.ofBytes _),
      ← Bits.ofBytes_append] at hdrop
    obtain ⟨b, hbytes, hb⟩ := eq_cons_of_ofBytes (by
      rw [length_append, hpart, Bits.length_ofNat, hn]
      omega) hdrop
    have hmod : b.toNat % 2 ^ prefixLength l.length = 2 ^ prefixLength l.length - 1 := by
      have hpos := Nat.two_pow_pos (prefixLength l.length)
      rw [hb, Bits.toNat_append, Bits.length_ofNat, Bits.toNat_ofNat, Nat.mul_add_mod_self_right,
        Nat.mod_mod]
      exact Nat.mod_eq_of_lt (by omega)
    have hoctets :
        continuation (BitOStream.octets 5 (v - (2 ^ prefixLength l.length - 1)) ++ rest) =
          some (v - (2 ^ prefixLength l.length - 1),
            (BitOStream.octets 5 (v - (2 ^ prefixLength l.length - 1))).length) :=
      BitOStream.continuation_octets (k := 4) (by omega) rest
    rw [hbytes]
    dsimp only
    rw [hmod, if_neg (Nat.lt_irrefl _), hoctets, map_some, length_append,
      Bits.length_ofNat, Bits.length_ofBytes]
    congr 2
    · omega
    · omega

/-! ## Reading -/

namespace BitIStream

variable (s : BitIStream)

/-- The octets that the loop looks at: their positions are kept in 32 bits. -/
def seen : ℕ → ℕ → List UInt8
  | 0, _ => []
  | k + 1, newOffset =>
    if newOffset ≥ s.bitLength then []
    else s.bytes.getD (newOffset / 8) 0 :: seen k ((newOffset + 8) % 2 ^ 32)

theorem readOctets_ok_iff {k p val : ℕ} (hk : k ≤ 4) {r : ℕ × ℕ} :
    s.readOctets (k + 1) p val (7 * (4 - k)) = .ok r ↔
      ∃ v j, continuation (s.seen (k + 1) p) = some (v, j) ∧ v < 16 * 128 ^ k ∧
        r = (val + v * 2 ^ (7 * (4 - k)), (p + 8 * j) % 2 ^ 32) := by
  induction k generalizing p val with
  | zero =>
    unfold readOctets seen
    by_cases hend : p ≥ s.bitLength
    · rw [if_pos hend, if_pos hend]
      constructor
      · intro h
        cases h
      · intro ⟨v, j, h, _⟩
        cases h
    · rw [if_neg hend, if_neg hend]
      dsimp only
      generalize s.bytes.getD (p / 8) 0 = octet
      unfold seen continuation
      by_cases hbig : octet > 15
      · have hbig' : 16 ≤ octet.toNat := hbig
        rw [if_pos ⟨rfl, hbig⟩]
        constructor
        · intro h
          cases h
        · intro ⟨v, j, h, hv, _⟩
          split_ifs at h
          · obtain ⟨rfl, -⟩ := Prod.mk.inj (some.inj h)
            omega
          · cases h
      · have hsmall : octet.toNat < 16 := Nat.lt_of_not_le hbig
        rw [if_neg (fun h => hbig h.2), if_pos (by omega), if_pos (by omega),
          Nat.mod_eq_of_lt (a := octet.toNat) (by omega), Nat.shiftLeft_eq]
        constructor
        · intro h
          exact ⟨octet.toNat, 1, rfl, by omega, (Except.ok.inj h).symm⟩
        · intro ⟨v, j, h, _, hr⟩
          obtain ⟨rfl, rfl⟩ := Prod.mk.inj (some.inj h)
          rw [hr]
  | succ k ih =>
    unfold readOctets seen
    by_cases hend : p ≥ s.bitLength
    · rw [if_pos hend, if_pos hend]
      constructor
      · intro h
        cases h
      · intro ⟨v, j, h, _⟩
        cases h
    · rw [if_neg hend, if_neg hend]
      dsimp only
      generalize s.bytes.getD (p / 8) 0 = octet
      have hpower : 7 * (4 - (k + 1)) + 7 = 7 * (4 - k) := by omega
      have hscale : 2 ^ (7 * (4 - k)) = 128 * 2 ^ (7 * (4 - (k + 1))) := by
        rw [← hpower, Nat.pow_add, Nat.mul_comm]
      have hpos : 0 < 128 ^ k := Nat.pow_pos (Nat.succ_pos 127)
      rw [if_neg (fun h => by omega), Nat.shiftLeft_eq, hpower]
      unfold continuation
      by_cases hlast : octet.toNat < 128
      · rw [if_pos hlast, if_pos hlast, Nat.mod_eq_of_lt hlast]
        constructor
        · intro h
          refine ⟨octet.toNat, 1, rfl, ?_, (Except.ok.inj h).symm⟩
          omega
        · intro ⟨v, j, h, _, hr⟩
          obtain ⟨rfl, rfl⟩ := Prod.mk.inj (some.inj h)
          rw [hr]
      · have hoff : ∀ j, ((p + 8) % 2 ^ 32 + 8 * j) % 2 ^ 32 = (p + 8 * (j + 1)) % 2 ^ 32 := by
          intro j
          omega
        rw [if_neg hlast, if_neg hlast, ih (by omega)]
        constructor
        · intro ⟨v, j, h, hv, hr⟩
          refine ⟨octet.toNat % 128 + 128 * v, j + 1, ?_, ?_, ?_⟩
          · rw [h, map_some]
          · omega
          · rw [hr, hoff, hscale]
            congr 1
            ring
        · intro ⟨v, j, h, hv, hr⟩
          obtain ⟨⟨v', j'⟩, hrest, heq⟩ := map_eq_some_iff.mp h
          obtain ⟨rfl, rfl⟩ := Prod.mk.inj heq
          refine ⟨v', j', hrest, ?_, ?_⟩
          · rw [Nat.pow_succ] at hv
            omega
          · rw [hr, hoff, hscale]
            congr 1
            ring

theorem seen_error (e : StreamError) (k p : ℕ) :
    seen { s with streamError := e } k p = s.seen k p := by
  induction k generalizing p with
  | zero => rfl
  | succ k ih =>
    unfold seen
    rw [ih]
    rfl

theorem seen_length (k p : ℕ) : (s.seen k p).length ≤ k := by
  induction k generalizing p with
  | zero => exact le_refl 0
  | succ k ih =>
    unfold seen
    split_ifs
    · exact zero_le _
    · exact succ_le_succ (ih _)

theorem seen_take {k j p : ℕ} (hjk : j ≤ k) (hp : p % 8 = 0) (h : p + 8 * j < 2 ^ 32) :
    (s.seen k p).take j = (s.bytes.drop (p / 8)).take j := by
  induction k generalizing j p with
  | zero =>
    obtain rfl := le_zero.mp hjk
    rfl
  | succ k ih =>
    cases j with
    | zero => rfl
    | succ j =>
      unfold seen
      unfold bitLength
      by_cases hend : p ≥ s.bytes.length * 8
      · rw [if_pos hend, drop_eq_nil_of_le (by omega)]
      · have hlt : p / 8 < s.bytes.length := by omega
        have hnext : (p + 8) / 8 = p / 8 + 1 := by omega
        rw [if_neg hend, drop_eq_getElem_cons hlt, take_succ_cons, take_succ_cons,
          mod_eq_of_lt (a := p + 8) (by omega), ih (by omega) (by omega) (by omega), hnext,
          getD_eq_getElem _ _ hlt]

/-- The bits of the octet at the offset that belong to the integer. -/
def prefixBits : ℕ := (s.bytes.getD (s.offset / 8) 0).toNat % 2 ^ prefixLength s.offset

/-- The value of the octets behind a full prefix. -/
def loopSum : Option (ℕ × ℕ) :=
  if s.offset < s.bitLength ∧ s.prefixBits = 2 ^ prefixLength s.offset - 1 then
    continuation (s.seen 5 ((s.offset + prefixLength s.offset) % 2 ^ 32))
  else none

theorem prefixBits_le : s.prefixBits ≤ 2 ^ prefixLength s.offset - 1 :=
  Nat.le_sub_one_of_lt (Nat.mod_lt _ (Nat.two_pow_pos _))

theorem prefix_le (offset : ℕ) : 2 ^ prefixLength offset ≤ 256 :=
  Nat.pow_le_pow_right (Nat.succ_pos 1) (Nat.sub_le 8 _)

theorem read_of_short (h : s.offset < s.bitLength)
    (hsmall : s.prefixBits < 2 ^ prefixLength s.offset - 1) :
    s.read = ({ s with offset := s.offset + prefixLength s.offset, streamError := .NoError },
      some (ofNat s.prefixBits)) := by
  unfold read
  rw [if_neg (Nat.not_le_of_lt h)]
  dsimp only
  rw [Nat.one_shiftLeft]
  exact if_pos hsmall

theorem read_of_full (h : s.offset < s.bitLength)
    (hfull : s.prefixBits = 2 ^ prefixLength s.offset - 1) :
    s.read =
      match readOctets { s with streamError := .NoError } 5
        ((s.offset + prefixLength s.offset) % 2 ^ 32) (2 ^ prefixLength s.offset - 1) 0 with
      | .error e => ({ s with streamError := e }, none)
      | .ok (val, newOffset) =>
        ({ s with offset := newOffset, streamError := .NoError }, some (ofNat val)) := by
  unfold read
  rw [if_neg (Nat.not_le_of_lt h)]
  dsimp only
  rw [Nat.one_shiftLeft, show 8 - s.offset % 8 = prefixLength s.offset from rfl]
  have hbits : (s.bytes.getD (s.offset / 8) 0).toNat % 2 ^ prefixLength s.offset =
      2 ^ prefixLength s.offset - 1 := hfull
  rw [hbits]
  exact if_neg (Nat.lt_irrefl _)

theorem loopSum_of_full (h : s.offset < s.bitLength)
    (hfull : s.prefixBits = 2 ^ prefixLength s.offset - 1) :
    s.loopSum = continuation (s.seen 5 ((s.offset + prefixLength s.offset) % 2 ^ 32)) :=
  if_pos ⟨h, hfull⟩

theorem read_of_loop {v j : ℕ} (h : s.loopSum = some (v, j)) (hv : v < 2 ^ 32) :
    s.read =
      ({ s with
          offset := (s.offset + prefixLength s.offset + 8 * j) % 2 ^ 32, streamError := .NoError },
        some (ofNat (2 ^ prefixLength s.offset - 1 + v))) := by
  have hfull : s.offset < s.bitLength ∧ s.prefixBits = 2 ^ prefixLength s.offset - 1 := by
    by_contra hnot
    unfold loopSum at h
    rw [if_neg hnot] at h
    cases h
  rw [loopSum_of_full s hfull.1 hfull.2, ← seen_error s .NoError] at h
  rw [read_of_full s hfull.1 hfull.2, (readOctets_ok_iff _ (le_refl 4)).mpr ⟨v, j, h, hv, rfl⟩]
  simp

theorem read_of_error
    (hsmall : s.offset < s.bitLength → s.prefixBits = 2 ^ prefixLength s.offset - 1)
    (hloop : ∀ v j, s.loopSum = some (v, j) → ¬v < 2 ^ 32) :
    ∃ e, s.read = ({ s with streamError := e }, none) := by
  by_cases h : s.offset < s.bitLength
  · rw [read_of_full s h (hsmall h)]
    rw [loopSum_of_full s h (hsmall h), ← seen_error s .NoError] at hloop
    cases hread : readOctets { s with streamError := .NoError } 5
        ((s.offset + prefixLength s.offset) % 2 ^ 32) (2 ^ prefixLength s.offset - 1) 0 with
    | error e => exact ⟨e, rfl⟩
    | ok r =>
      obtain ⟨v, j, hsum, hv, -⟩ := (readOctets_ok_iff _ (Nat.le_refl 4)).mp hread
      exact absurd hv (hloop v j hsum)
  · refine ⟨.NotEnoughData, ?_⟩
    unfold read
    rw [if_pos (Nat.le_of_not_lt h)]

/-- The octets pass the guard, but with the prefix they do not fit into 32 bits, or the position
behind them does not. -/
def Slips : Prop :=
  ∃ v j, s.loopSum = some (v, j) ∧ v < 2 ^ 32 ∧
    (2 ^ 32 ≤ 2 ^ prefixLength s.offset - 1 + v ∨
      2 ^ 32 ≤ s.offset + prefixLength s.offset + 8 * j)

/-- An integer that is read is the one at the offset; otherwise the offset stays. -/
def ReadsRight : Prop :=
  match s.read with
  | (s', some v) => integerAt s.bytes s.offset = some (v.toNat, s'.offset)
  | (s', none) => s'.offset = s.offset

theorem slips_iff_of_sum {v j : ℕ} (h : s.loopSum = some (v, j)) (hv : v < 2 ^ 32) :
    s.Slips ↔ 2 ^ 32 ≤ 2 ^ prefixLength s.offset - 1 + v ∨
      2 ^ 32 ≤ s.offset + prefixLength s.offset + 8 * j := by
  constructor
  · intro ⟨v', j', h', _, hor⟩
    obtain ⟨rfl, rfl⟩ := Prod.mk.inj (some.inj (h.symm.trans h'))
    exact hor
  · intro hor
    exact ⟨v, j, h, hv, hor⟩

theorem integerAt_of_short (h : s.offset < s.bitLength)
    (hsmall : s.prefixBits < 2 ^ prefixLength s.offset - 1) :
    integerAt s.bytes s.offset = some (s.prefixBits, s.offset + prefixLength s.offset) := by
  unfold bitLength at h
  have hlt : s.offset / 8 < s.bytes.length := by omega
  unfold prefixBits at hsmall ⊢
  rw [getD_eq_getElem _ _ hlt] at hsmall ⊢
  unfold integerAt
  rw [drop_eq_getElem_cons hlt]
  simp [hsmall]

theorem integerAt_of_full (h : s.offset < s.bitLength)
    (hfull : s.prefixBits = 2 ^ prefixLength s.offset - 1) :
    integerAt s.bytes s.offset =
      (continuation (s.bytes.drop ((s.offset + prefixLength s.offset) / 8))).map fun r =>
        (2 ^ prefixLength s.offset - 1 + r.1, s.offset + prefixLength s.offset + 8 * r.2) := by
  unfold bitLength at h
  have hlt : s.offset / 8 < s.bytes.length := by omega
  have hnext : (s.offset + prefixLength s.offset) / 8 = s.offset / 8 + 1 := by
    unfold prefixLength
    omega
  unfold prefixBits at hfull
  rw [getD_eq_getElem _ _ hlt] at hfull
  unfold integerAt
  rw [drop_eq_getElem_cons hlt, hnext]
  dsimp only
  rw [hfull, if_neg (lt_irrefl _)]

theorem loop_right_iff {v j : ℕ} (h : s.loopSum = some (v, j)) (hv : v < 2 ^ 32) :
    integerAt s.bytes s.offset =
        some ((2 ^ prefixLength s.offset - 1 + v) % 2 ^ 32,
          (s.offset + prefixLength s.offset + 8 * j) % 2 ^ 32) ↔ ¬s.Slips := by
  rw [slips_iff_of_sum s h hv]
  unfold loopSum at h
  split_ifs at h with hfull
  obtain ⟨hpos, hle⟩ := continuation_length h
  have hj : j ≤ 5 := le_trans hle (seen_length s 5 _)
  have hn : prefixLength s.offset = 8 - s.offset % 8 := rfl
  rw [integerAt_of_full s hfull.1 hfull.2]
  constructor
  · intro heq hor
    obtain ⟨⟨v', j'⟩, hrest, heq⟩ := map_eq_some_iff.mp heq
    obtain ⟨hvalue, hoff⟩ := Prod.mk.inj heq
    obtain ⟨hpos', -⟩ := continuation_length hrest
    dsimp only at hvalue hoff
    have hnear : s.offset + prefixLength s.offset + 8 * j < 2 ^ 32 := by omega
    rw [mod_eq_of_lt (by omega)] at h
    have hsame : v' = v := by
      have hdrop := continuation_of_take h (seen_take s hj (by omega) hnear).symm
      exact (Prod.mk.inj (some.inj (hrest.symm.trans hdrop))).1
    omega
  · intro hor
    push Not at hor
    rw [mod_eq_of_lt (by omega)] at h
    rw [continuation_of_take h (seen_take s hj (by omega) hor.2).symm, map_some,
      mod_eq_of_lt hor.1, mod_eq_of_lt hor.2]

theorem readsRight_iff : s.ReadsRight ↔ ¬s.Slips := by
  unfold ReadsRight
  by_cases hsmall : s.offset < s.bitLength ∧ s.prefixBits < 2 ^ prefixLength s.offset - 1
  · have hle := prefix_le s.offset
    rw [read_of_short s hsmall.1 hsmall.2]
    dsimp only
    refine iff_of_true ?_ fun ⟨v, j, h, _⟩ => ?_
    · rw [integerAt_of_short s hsmall.1 hsmall.2, toNat_ofNat', mod_eq_of_lt (by omega)]
    · unfold loopSum at h
      rw [if_neg (fun hfull => by omega)] at h
      cases h
  · by_cases hloop : ∃ v j, s.loopSum = some (v, j) ∧ v < 2 ^ 32
    · obtain ⟨v, j, h, hv⟩ := hloop
      rw [read_of_loop s h hv, ← loop_right_iff s h hv]
      dsimp only
      rw [toNat_ofNat']
    · push Not at hsmall hloop
      obtain ⟨e, hread⟩ := read_of_error s
        (fun h => le_antisymm s.prefixBits_le (hsmall h)) fun v j h => by
          have := hloop v j h
          omega
      rw [hread]
      refine iff_of_true rfl fun ⟨v, j, h, hv, _⟩ => ?_
      have := hloop v j h
      omega

theorem read_of_integerAt {v k : ℕ} (h : integerAt s.bytes s.offset = some (v, k))
    (hv : v < 2 ^ 32) (hk : k ≤ s.offset + prefixLength s.offset + 40) :
    s.read = ({ s with offset := k, streamError := .NoError }, some (ofNat v)) ↔
      v < 2 ^ prefixLength s.offset - 1 ∨ k < 2 ^ 32 := by
  have hn : prefixLength s.offset = 8 - s.offset % 8 := rfl
  have hend : s.offset < s.bitLength := by
    by_contra hnot
    unfold bitLength at hnot
    unfold integerAt at h
    rw [drop_eq_nil_of_le (by omega)] at h
    cases h
  by_cases hsmall : s.prefixBits < 2 ^ prefixLength s.offset - 1
  · rw [integerAt_of_short s hend hsmall] at h
    obtain ⟨rfl, rfl⟩ := Prod.mk.inj (some.inj h)
    exact iff_of_true (read_of_short s hend hsmall) (.inl hsmall)
  · have hfull := Nat.le_antisymm s.prefixBits_le (Nat.le_of_not_lt hsmall)
    rw [integerAt_of_full s hend hfull] at h
    obtain ⟨⟨v', j⟩, hrest, heq⟩ := map_eq_some_iff.mp h
    obtain ⟨rfl, rfl⟩ := Prod.mk.inj heq
    dsimp only at hv hk ⊢
    constructor
    · intro hread
      refine .inr ?_
      by_cases hloop : ∃ v j, s.loopSum = some (v, j) ∧ v < 2 ^ 32
      · obtain ⟨v, i, h, hv⟩ := hloop
        rw [read_of_loop s h hv] at hread
        have hoff := congrArg (fun r => r.1.offset) hread
        dsimp only at hoff
        omega
      · push Not at hloop
        obtain ⟨e, herror⟩ := read_of_error s (fun _ => hfull) fun v j h => by
          have := hloop v j h
          omega
        rw [herror] at hread
        have hvalue := congrArg Prod.snd hread
        cases hvalue
    · intro hor
      have hnear := hor.resolve_left (by omega)
      have hsum : s.loopSum = some (v', j) := by
        rw [loopSum_of_full s hend hfull, Nat.mod_eq_of_lt (by omega)]
        exact continuation_of_take hrest (seen_take s (by omega) (by omega) hnear)
      rw [read_of_loop s hsum (by omega), Nat.mod_eq_of_lt hnear]

end BitIStream

/-- An integer that was written behind any bits and before any octets is read back, and ends on a
byte boundary, exactly where the position fits into 32 bits or is not needed. -/
theorem written_read_iff {s : BitOStream} (h : s.Holds l) (v : UInt32) (rest : List UInt8)
    (e : StreamError) :
    (BitIStream.read ⟨(s.write v).buffer ++ rest, s.bitsSet, e⟩ =
          (⟨(s.write v).buffer ++ rest, (s.write v).bitsSet, .NoError⟩, some v) ∧
        (s.write v).bitsSet % 8 = 0) ↔
      v.toNat < 2 ^ prefixLength s.bitsSet - 1 ∨ (s.write v).bitsSet < 2 ^ 32 := by
  have hset := h.bitsSet_eq
  have hwhole : (l ++ BitOStream.integerBits (prefixLength l.length) v.toNat).length % 8 = 0 := by
    rw [length_append]
    exact BitOStream.length_integerBits_mod _ _
  obtain ⟨hbits, hset'⟩ := (BitOStream.write_holds h v).buffer_eq hwhole
  rw [← hset'] at hwhole
  rw [and_iff_left hwhole, hset, hset']
  have hwritten : Bits.ofBytes ((s.write v).buffer ++ rest) =
      l ++ BitOStream.integerBits (prefixLength l.length) v.toNat ++ Bits.ofBytes rest := by
    rw [Bits.ofBytes_append, hbits]
  have hat := integerAt_written v.toNat_lt hwritten
  have hlength := BitOStream.length_integerBits_le (prefixLength l.length) v.toNat
  have hread := BitIStream.read_of_integerAt ⟨(s.write v).buffer ++ rest, l.length, e⟩ hat
    v.toNat_lt (by dsimp only; omega)
  rw [UInt32.ofNat_toNat] at hread
  simp [hread]

/-- Integers are read back as they were written, except behind a position that does not fit into 32
bits; what is read is the integer at the offset unless its sum with the prefix slips. -/
theorem integers_hold_iff (s : BitOStream) {l : List Bool} (h : s.Holds l) (v : UInt32)
    (rest : List UInt8) (e : StreamError) (input : BitIStream) :
    ((BitIStream.read ⟨(s.write v).buffer ++ rest, s.bitsSet, e⟩ =
          (⟨(s.write v).buffer ++ rest, (s.write v).bitsSet, .NoError⟩, some v) ∧
        (s.write v).bitsSet % 8 = 0) ↔
      v.toNat < 2 ^ prefixLength s.bitsSet - 1 ∨ (s.write v).bitsSet < 2 ^ 32) ∧
      (input.ReadsRight ↔ ¬input.Slips) :=
  ⟨written_read_iff h v rest e, input.readsRight_iff⟩

theorem integers_hold_iff_example :
    ((BitOStream.make []).write 1337).bitsSet < 2 ^ 32 ∧
      BitIStream.read ⟨((BitOStream.make []).write 1337).buffer ++ [], 0, .NoError⟩ =
        (⟨((BitOStream.make []).write 1337).buffer ++ [], 24, .NoError⟩, some 1337) := by
  have hlt : ((BitOStream.make []).write 1337).bitsSet < 2 ^ 32 := by decide
  exact ⟨hlt, ((integers_hold_iff (BitOStream.make []) (BitOStream.holds_make []) 1337 [] .NoError
    (BitIStream.make [])).1.mpr (.inr hlt)).1⟩

/-- `2 ^ 32 + 254` is read as `254`. -/
theorem big_integer_read :
    integerAt [0xff, 0xff, 0xff, 0xff, 0xff, 0x0f] 0 = some (2 ^ 32 + 254, 48) ∧
      (BitIStream.make [0xff, 0xff, 0xff, 0xff, 0xff, 0x0f]).read =
        (⟨[0xff, 0xff, 0xff, 0xff, 0xff, 0x0f], 48, .NoError⟩, some 254) ∧
      ¬(BitIStream.make [0xff, 0xff, 0xff, 0xff, 0xff, 0x0f]).ReadsRight := by
  have hat : integerAt [0xff, 0xff, 0xff, 0xff, 0xff, 0x0f] 0 = some (2 ^ 32 + 254, 48) := rfl
  have hread : (BitIStream.make [0xff, 0xff, 0xff, 0xff, 0xff, 0x0f]).read =
      (⟨[0xff, 0xff, 0xff, 0xff, 0xff, 0x0f], 48, .NoError⟩, some 254) := rfl
  refine ⟨hat, hread, fun hright => ?_⟩
  unfold BitIStream.ReadsRight at hright
  rw [hread] at hright
  have hvalue := congrArg Prod.fst (some.inj (hat.symm.trans hright))
  revert hvalue
  decide

end HPack

end QtBase
