import QtBase.Lib.Buckets
import QtBase.Lib.PrefixCode
import QtBase.Network.BitStreams
import Mathlib.Data.Int.Notation
import Mathlib.Data.List.Pairwise
import Mathlib.Data.List.Sort

/-! The static Huffman code of HPACK and `huffman_encode_string`. -/
namespace QtBase

open List UInt8 Nat

namespace HPack

open Lib

/-- All codes are left-aligned in 32 bits. -/
structure CodeEntry where
  byteValue : ℕ
  huffmanCode : ℕ
  bitLength : ℕ

def staticHuffmanCodeTable : List CodeEntry :=
  [
    ⟨0, 0xffc00000, 13⟩, ⟨1, 0xffffb000, 23⟩, ⟨2, 0xfffffe20, 28⟩, ⟨3, 0xfffffe30, 28⟩,
    ⟨4, 0xfffffe40, 28⟩, ⟨5, 0xfffffe50, 28⟩, ⟨6, 0xfffffe60, 28⟩, ⟨7, 0xfffffe70, 28⟩,
    ⟨8, 0xfffffe80, 28⟩, ⟨9, 0xffffea00, 24⟩, ⟨10, 0xfffffff0, 30⟩, ⟨11, 0xfffffe90, 28⟩,
    ⟨12, 0xfffffea0, 28⟩, ⟨13, 0xfffffff4, 30⟩, ⟨14, 0xfffffeb0, 28⟩, ⟨15, 0xfffffec0, 28⟩,
    ⟨16, 0xfffffed0, 28⟩, ⟨17, 0xfffffee0, 28⟩, ⟨18, 0xfffffef0, 28⟩, ⟨19, 0xffffff00, 28⟩,
    ⟨20, 0xffffff10, 28⟩, ⟨21, 0xffffff20, 28⟩, ⟨22, 0xfffffff8, 30⟩, ⟨23, 0xffffff30, 28⟩,
    ⟨24, 0xffffff40, 28⟩, ⟨25, 0xffffff50, 28⟩, ⟨26, 0xffffff60, 28⟩, ⟨27, 0xffffff70, 28⟩,
    ⟨28, 0xffffff80, 28⟩, ⟨29, 0xffffff90, 28⟩, ⟨30, 0xffffffa0, 28⟩, ⟨31, 0xffffffb0, 28⟩,
    ⟨32, 0x50000000, 6⟩, ⟨33, 0xfe000000, 10⟩, ⟨34, 0xfe400000, 10⟩, ⟨35, 0xffa00000, 12⟩,
    ⟨36, 0xffc80000, 13⟩, ⟨37, 0x54000000, 6⟩, ⟨38, 0xf8000000, 8⟩, ⟨39, 0xff400000, 11⟩,
    ⟨40, 0xfe800000, 10⟩, ⟨41, 0xfec00000, 10⟩, ⟨42, 0xf9000000, 8⟩, ⟨43, 0xff600000, 11⟩,
    ⟨44, 0xfa000000, 8⟩, ⟨45, 0x58000000, 6⟩, ⟨46, 0x5c000000, 6⟩, ⟨47, 0x60000000, 6⟩,
    ⟨48, 0x00000000, 5⟩, ⟨49, 0x08000000, 5⟩, ⟨50, 0x10000000, 5⟩, ⟨51, 0x64000000, 6⟩,
    ⟨52, 0x68000000, 6⟩, ⟨53, 0x6c000000, 6⟩, ⟨54, 0x70000000, 6⟩, ⟨55, 0x74000000, 6⟩,
    ⟨56, 0x78000000, 6⟩, ⟨57, 0x7c000000, 6⟩, ⟨58, 0xb8000000, 7⟩, ⟨59, 0xfb000000, 8⟩,
    ⟨60, 0xfff80000, 15⟩, ⟨61, 0x80000000, 6⟩, ⟨62, 0xffb00000, 12⟩, ⟨63, 0xff000000, 10⟩,
    ⟨64, 0xffd00000, 13⟩, ⟨65, 0x84000000, 6⟩, ⟨66, 0xba000000, 7⟩, ⟨67, 0xbc000000, 7⟩,
    ⟨68, 0xbe000000, 7⟩, ⟨69, 0xc0000000, 7⟩, ⟨70, 0xc2000000, 7⟩, ⟨71, 0xc4000000, 7⟩,
    ⟨72, 0xc6000000, 7⟩, ⟨73, 0xc8000000, 7⟩, ⟨74, 0xca000000, 7⟩, ⟨75, 0xcc000000, 7⟩,
    ⟨76, 0xce000000, 7⟩, ⟨77, 0xd0000000, 7⟩, ⟨78, 0xd2000000, 7⟩, ⟨79, 0xd4000000, 7⟩,
    ⟨80, 0xd6000000, 7⟩, ⟨81, 0xd8000000, 7⟩, ⟨82, 0xda000000, 7⟩, ⟨83, 0xdc000000, 7⟩,
    ⟨84, 0xde000000, 7⟩, ⟨85, 0xe0000000, 7⟩, ⟨86, 0xe2000000, 7⟩, ⟨87, 0xe4000000, 7⟩,
    ⟨88, 0xfc000000, 8⟩, ⟨89, 0xe6000000, 7⟩, ⟨90, 0xfd000000, 8⟩, ⟨91, 0xffd80000, 13⟩,
    ⟨92, 0xfffe0000, 19⟩, ⟨93, 0xffe00000, 13⟩, ⟨94, 0xfff00000, 14⟩, ⟨95, 0x88000000, 6⟩,
    ⟨96, 0xfffa0000, 15⟩, ⟨97, 0x18000000, 5⟩, ⟨98, 0x8c000000, 6⟩, ⟨99, 0x20000000, 5⟩,
    ⟨100, 0x90000000, 6⟩, ⟨101, 0x28000000, 5⟩, ⟨102, 0x94000000, 6⟩, ⟨103, 0x98000000, 6⟩,
    ⟨104, 0x9c000000, 6⟩, ⟨105, 0x30000000, 5⟩, ⟨106, 0xe8000000, 7⟩, ⟨107, 0xea000000, 7⟩,
    ⟨108, 0xa0000000, 6⟩, ⟨109, 0xa4000000, 6⟩, ⟨110, 0xa8000000, 6⟩, ⟨111, 0x38000000, 5⟩,
    ⟨112, 0xac000000, 6⟩, ⟨113, 0xec000000, 7⟩, ⟨114, 0xb0000000, 6⟩, ⟨115, 0x40000000, 5⟩,
    ⟨116, 0x48000000, 5⟩, ⟨117, 0xb4000000, 6⟩, ⟨118, 0xee000000, 7⟩, ⟨119, 0xf0000000, 7⟩,
    ⟨120, 0xf2000000, 7⟩, ⟨121, 0xf4000000, 7⟩, ⟨122, 0xf6000000, 7⟩, ⟨123, 0xfffc0000, 15⟩,
    ⟨124, 0xff800000, 11⟩, ⟨125, 0xfff40000, 14⟩, ⟨126, 0xffe80000, 13⟩, ⟨127, 0xffffffc0, 28⟩,
    ⟨128, 0xfffe6000, 20⟩, ⟨129, 0xffff4800, 22⟩, ⟨130, 0xfffe7000, 20⟩, ⟨131, 0xfffe8000, 20⟩,
    ⟨132, 0xffff4c00, 22⟩, ⟨133, 0xffff5000, 22⟩, ⟨134, 0xffff5400, 22⟩, ⟨135, 0xffffb200, 23⟩,
    ⟨136, 0xffff5800, 22⟩, ⟨137, 0xffffb400, 23⟩, ⟨138, 0xffffb600, 23⟩, ⟨139, 0xffffb800, 23⟩,
    ⟨140, 0xffffba00, 23⟩, ⟨141, 0xffffbc00, 23⟩, ⟨142, 0xffffeb00, 24⟩, ⟨143, 0xffffbe00, 23⟩,
    ⟨144, 0xffffec00, 24⟩, ⟨145, 0xffffed00, 24⟩, ⟨146, 0xffff5c00, 22⟩, ⟨147, 0xffffc000, 23⟩,
    ⟨148, 0xffffee00, 24⟩, ⟨149, 0xffffc200, 23⟩, ⟨150, 0xffffc400, 23⟩, ⟨151, 0xffffc600, 23⟩,
    ⟨152, 0xffffc800, 23⟩, ⟨153, 0xfffee000, 21⟩, ⟨154, 0xffff6000, 22⟩, ⟨155, 0xffffca00, 23⟩,
    ⟨156, 0xffff6400, 22⟩, ⟨157, 0xffffcc00, 23⟩, ⟨158, 0xffffce00, 23⟩, ⟨159, 0xffffef00, 24⟩,
    ⟨160, 0xffff6800, 22⟩, ⟨161, 0xfffee800, 21⟩, ⟨162, 0xfffe9000, 20⟩, ⟨163, 0xffff6c00, 22⟩,
    ⟨164, 0xffff7000, 22⟩, ⟨165, 0xffffd000, 23⟩, ⟨166, 0xffffd200, 23⟩, ⟨167, 0xfffef000, 21⟩,
    ⟨168, 0xffffd400, 23⟩, ⟨169, 0xffff7400, 22⟩, ⟨170, 0xffff7800, 22⟩, ⟨171, 0xfffff000, 24⟩,
    ⟨172, 0xfffef800, 21⟩, ⟨173, 0xffff7c00, 22⟩, ⟨174, 0xffffd600, 23⟩, ⟨175, 0xffffd800, 23⟩,
    ⟨176, 0xffff0000, 21⟩, ⟨177, 0xffff0800, 21⟩, ⟨178, 0xffff8000, 22⟩, ⟨179, 0xffff1000, 21⟩,
    ⟨180, 0xffffda00, 23⟩, ⟨181, 0xffff8400, 22⟩, ⟨182, 0xffffdc00, 23⟩, ⟨183, 0xffffde00, 23⟩,
    ⟨184, 0xfffea000, 20⟩, ⟨185, 0xffff8800, 22⟩, ⟨186, 0xffff8c00, 22⟩, ⟨187, 0xffff9000, 22⟩,
    ⟨188, 0xffffe000, 23⟩, ⟨189, 0xffff9400, 22⟩, ⟨190, 0xffff9800, 22⟩, ⟨191, 0xffffe200, 23⟩,
    ⟨192, 0xfffff800, 26⟩, ⟨193, 0xfffff840, 26⟩, ⟨194, 0xfffeb000, 20⟩, ⟨195, 0xfffe2000, 19⟩,
    ⟨196, 0xffff9c00, 22⟩, ⟨197, 0xffffe400, 23⟩, ⟨198, 0xffffa000, 22⟩, ⟨199, 0xfffff600, 25⟩,
    ⟨200, 0xfffff880, 26⟩, ⟨201, 0xfffff8c0, 26⟩, ⟨202, 0xfffff900, 26⟩, ⟨203, 0xfffffbc0, 27⟩,
    ⟨204, 0xfffffbe0, 27⟩, ⟨205, 0xfffff940, 26⟩, ⟨206, 0xfffff100, 24⟩, ⟨207, 0xfffff680, 25⟩,
    ⟨208, 0xfffe4000, 19⟩, ⟨209, 0xffff1800, 21⟩, ⟨210, 0xfffff980, 26⟩, ⟨211, 0xfffffc00, 27⟩,
    ⟨212, 0xfffffc20, 27⟩, ⟨213, 0xfffff9c0, 26⟩, ⟨214, 0xfffffc40, 27⟩, ⟨215, 0xfffff200, 24⟩,
    ⟨216, 0xffff2000, 21⟩, ⟨217, 0xffff2800, 21⟩, ⟨218, 0xfffffa00, 26⟩, ⟨219, 0xfffffa40, 26⟩,
    ⟨220, 0xffffffd0, 28⟩, ⟨221, 0xfffffc60, 27⟩, ⟨222, 0xfffffc80, 27⟩, ⟨223, 0xfffffca0, 27⟩,
    ⟨224, 0xfffec000, 20⟩, ⟨225, 0xfffff300, 24⟩, ⟨226, 0xfffed000, 20⟩, ⟨227, 0xffff3000, 21⟩,
    ⟨228, 0xffffa400, 22⟩, ⟨229, 0xffff3800, 21⟩, ⟨230, 0xffff4000, 21⟩, ⟨231, 0xffffe600, 23⟩,
    ⟨232, 0xffffa800, 22⟩, ⟨233, 0xffffac00, 22⟩, ⟨234, 0xfffff700, 25⟩, ⟨235, 0xfffff780, 25⟩,
    ⟨236, 0xfffff400, 24⟩, ⟨237, 0xfffff500, 24⟩, ⟨238, 0xfffffa80, 26⟩, ⟨239, 0xffffe800, 23⟩,
    ⟨240, 0xfffffac0, 26⟩, ⟨241, 0xfffffcc0, 27⟩, ⟨242, 0xfffffb00, 26⟩, ⟨243, 0xfffffb40, 26⟩,
    ⟨244, 0xfffffce0, 27⟩, ⟨245, 0xfffffd00, 27⟩, ⟨246, 0xfffffd20, 27⟩, ⟨247, 0xfffffd40, 27⟩,
    ⟨248, 0xfffffd60, 27⟩, ⟨249, 0xffffffe0, 28⟩, ⟨250, 0xfffffd80, 27⟩, ⟨251, 0xfffffda0, 27⟩,
    ⟨252, 0xfffffdc0, 27⟩, ⟨253, 0xfffffde0, 27⟩, ⟨254, 0xfffffe00, 27⟩, ⟨255, 0xfffffb80, 26⟩,
    ⟨256, 0xfffffffc, 30⟩]

def codeEntry (value : ℕ) : CodeEntry := staticHuffmanCodeTable.getD value ⟨0, 0, 0⟩

/-- One octet of `hc`, if there are more than `n` bits left. -/
def writeOctet (hc n : ℕ) (r : BitOStream × ℕ) : BitOStream × ℕ :=
  if r.2 > n then (r.1.writeBits (UInt8.ofNat (hc >>> n)) (r.2 - n), n) else r

/-- Append octet by octet. -/
def write_huffman_code (s : BitOStream) (code : CodeEntry) : BitOStream :=
  let hc := code.huffmanCode >>> (32 - code.bitLength)
  let r := writeOctet hc 8 (writeOctet hc 16 (writeOctet hc 24 (s, code.bitLength)))
  r.1.writeBits (UInt8.ofNat hc) r.2

/-- `int e = inputData.size()` -/
def intSize (inputData : List UInt8) : ℤ := (inputData.length : ℤ).bmod (2 ^ 32)

/-- The loop of `huffman_encode_string`. -/
def writeCodes (inputData : List UInt8) (outputStream : BitOStream) : BitOStream :=
  (inputData.take (intSize inputData).toNat).foldl
    (fun s c => write_huffman_code s (codeEntry c.toNat)) outputStream

def huffman_encode_string (inputData : List UInt8) (outputStream : BitOStream) : BitOStream :=
  let outputStream := writeCodes inputData outputStream
  if outputStream.bitsSet % 8 ≠ 0 then
    outputStream.writeBits 0xff (8 - outputStream.bitsSet % 8)
  else outputStream

/-! ## The code -/

namespace CodeEntry

/-- The bits of the code. -/
def bits (c : CodeEntry) : List Bool :=
  Bits.ofNat c.bitLength (c.huffmanCode >>> (32 - c.bitLength))

@[simp] theorem length_bits (c : CodeEntry) : c.bits.length = c.bitLength := Bits.length_ofNat _ _

/-- An entry of the table: its value is its position, its code fits into a chunk, and the bits
behind the code are clear. No code consists of less than eight set bits. -/
def fits (c : CodeEntry) (i : ℕ) : Bool :=
  c.byteValue == i && Nat.ble 5 c.bitLength && Nat.ble c.bitLength 30 &&
    Nat.blt c.huffmanCode (2 ^ 32) && c.huffmanCode % 2 ^ (32 - c.bitLength) == 0 &&
    (Nat.blt 7 c.bitLength || Nat.blt (c.huffmanCode >>> (32 - c.bitLength) + 1) (2 ^ c.bitLength))

/-- The order of the symbols in the constructor of the decoder: by bit length first, and by the
symbol value. -/
def before (code1 code2 : CodeEntry) : Bool :=
  bif Nat.beq code1.bitLength code2.bitLength then Nat.blt code2.byteValue code1.byteValue
  else Nat.blt code2.bitLength code1.bitLength

/-- All chunks that begin with the second code are below those that begin with the first one. -/
def Above (a b : CodeEntry) : Prop := b.huffmanCode + 2 ^ (32 - b.bitLength) ≤ a.huffmanCode

instance (a b : CodeEntry) : Decidable (a.Above b) := inferInstanceAs (Decidable (_ ≤ _))

instance : Trans Above Above Above where
  trans h h' := Nat.le_trans h' (Nat.le_trans (Nat.le_add_right _ _) h)

end CodeEntry

/-- `std::sort(symbols)`; the order is total. -/
def symbols : List CodeEntry := staticHuffmanCodeTable.insertionSort fun a b => a.before b

theorem table_facts : staticHuffmanCodeTable.map CodeEntry.byteValue = List.range 257 ∧
    (∀ p ∈ staticHuffmanCodeTable.zipIdx, p.1.fits p.2 = true) ∧
    (∀ c ∈ staticHuffmanCodeTable, c.bitLength < 31) ∧
    (buckets CodeEntry.bitLength 31 staticHuffmanCodeTable).IsChain fun a b =>
      a.before b = true ∧ a.Above b := by
  decide +kernel

theorem table_values : staticHuffmanCodeTable.map CodeEntry.byteValue = List.range 257 :=
  table_facts.1

theorem table_length : staticHuffmanCodeTable.length = 257 := by
  have hlength := congrArg List.length table_values
  rwa [length_map, length_range] at hlength

theorem table_fits : ∀ p ∈ staticHuffmanCodeTable.zipIdx, p.1.fits p.2 = true := table_facts.2.1

theorem CodeEntry.before_iff (a b : CodeEntry) : a.before b = true ↔
    b.bitLength < a.bitLength ∨ a.bitLength = b.bitLength ∧ b.byteValue < a.byteValue := by
  unfold before
  by_cases heq : a.bitLength = b.bitLength
  · rw [heq, beq_refl, cond_true, blt_eq]
    omega
  · rw [Bool.eq_false_iff.mpr fun h => heq (eq_of_beq_eq_true h), cond_false, blt_eq]
    omega

theorem buckets_pairwise : (buckets CodeEntry.bitLength 31 staticHuffmanCodeTable).Pairwise
    fun a b => a.before b = true ∧ a.Above b := by
  have htrans : Trans (fun a b : CodeEntry => a.before b = true ∧ a.Above b)
      (fun a b => a.before b = true ∧ a.Above b) fun a b => a.before b = true ∧ a.Above b := by
    refine ⟨fun {a b c} hab hbc => ⟨?_, Trans.trans hab.2 hbc.2⟩⟩
    have h := (CodeEntry.before_iff a b).mp hab.1
    have h' := (CodeEntry.before_iff b c).mp hbc.1
    exact (CodeEntry.before_iff a c).mpr (by omega)
  exact isChain_iff_pairwise.mp table_facts.2.2.2

theorem symbols_eq : symbols = buckets CodeEntry.bitLength 31 staticHuffmanCodeTable := by
  have hnodup : staticHuffmanCodeTable.Nodup :=
    List.Nodup.of_map _ (table_values ▸ nodup_range)
  refine insertionSort_eq_buckets (fun a b hab hba => ?_) hnodup table_facts.2.2.1
    (buckets_pairwise.imp And.left)
  rw [CodeEntry.before_iff] at hab hba
  omega

theorem symbols_isChain : symbols.IsChain CodeEntry.Above := by
  rw [symbols_eq]
  exact (buckets_pairwise.imp And.right).isChain

/-- What `fits` says. -/
structure CodeEntry.Fits (c : CodeEntry) (i : ℕ) : Prop where
  value : c.byteValue = i
  short : 5 ≤ c.bitLength
  long : c.bitLength ≤ 30
  small : c.huffmanCode < 2 ^ 32
  clear : c.huffmanCode % 2 ^ (32 - c.bitLength) = 0
  notPadding : c.bitLength ≤ 7 → Bits.toNat c.bits + 1 < 2 ^ c.bitLength

theorem CodeEntry.fits_iff {c : CodeEntry} {i : ℕ} (h : c.fits i = true) : c.Fits i := by
  unfold CodeEntry.fits at h
  simp only [Bool.and_eq_true, Bool.or_eq_true, beq_iff_eq, ble_eq, blt_eq] at h
  obtain ⟨⟨⟨⟨⟨hvalue, hshort⟩, hlong⟩, hsmall⟩, hclear⟩, hpadding⟩ := h
  refine ⟨hvalue, hshort, hlong, hsmall, hclear, fun hle => ?_⟩
  have hlt := hpadding.resolve_left (by omega)
  have hmod := mod_le (c.huffmanCode >>> (32 - c.bitLength)) (2 ^ c.bitLength)
  unfold CodeEntry.bits
  rw [Bits.toNat_ofNat]
  omega

theorem codeEntry_mem {i : ℕ} (h : i < 257) : codeEntry i ∈ staticHuffmanCodeTable := by
  unfold codeEntry
  rw [getD_eq_getElem _ _ (by rw [table_length]; exact h)]
  exact getElem_mem _

theorem codeEntry_fits {i : ℕ} (h : i < 257) : (codeEntry i).Fits i := by
  have hlt : i < staticHuffmanCodeTable.length := by rwa [table_length]
  refine CodeEntry.fits_iff (table_fits (codeEntry i, i) ?_)
  unfold codeEntry
  rw [mem_zipIdx_iff_getElem?, getD_eq_getElem _ _ hlt, List.getElem?_eq_getElem hlt]

/-- The code is the number of its bits, at the top of a chunk. -/
theorem CodeEntry.Fits.code_eq {c : CodeEntry} {i : ℕ} (h : c.Fits i) :
    c.huffmanCode = Bits.toNat c.bits * 2 ^ (32 - c.bitLength) := by
  have hlong := h.long
  have hpow : (2 : ℕ) ^ 32 = 2 ^ c.bitLength * 2 ^ (32 - c.bitLength) := by
    rw [← Nat.pow_add]
    congr 1
    omega
  have hsmall := h.small
  rw [hpow] at hsmall
  have hlt : c.huffmanCode >>> (32 - c.bitLength) < 2 ^ c.bitLength := by
    rw [Nat.shiftRight_eq_div_pow]
    exact Nat.div_lt_of_lt_mul (by rwa [Nat.mul_comm] at hsmall)
  unfold CodeEntry.bits
  rw [Bits.toNat_ofNat, Nat.mod_eq_of_lt hlt, Nat.shiftRight_eq_div_pow]
  exact (Nat.div_mul_cancel (Nat.dvd_of_mod_eq_zero h.clear)).symm

theorem codes_disjoint {i j : ℕ} (hi : i < 257) (hj : j < 257) (hne : i ≠ j) :
    (codeEntry i).Above (codeEntry j) ∨ (codeEntry j).Above (codeEntry i) := by
  have hpairwise := isChain_iff_pairwise.mp symbols_isChain
  have hmem : ∀ {i}, i < 257 → codeEntry i ∈ symbols := fun h =>
    (perm_insertionSort _ _).symm.subset (codeEntry_mem h)
  have hsymm : Std.Symm fun a b : CodeEntry => a.Above b ∨ b.Above a := ⟨fun _ _ h => h.symm⟩
  have heither := hpairwise.imp (S := fun a b : CodeEntry => a.Above b ∨ b.Above a) .inl
  refine heither.forall (hmem hi) (hmem hj) fun heq => hne ?_
  rw [← (codeEntry_fits hi).value, ← (codeEntry_fits hj).value, heq]

/-- The bits that stand for a value. -/
def huffmanBits (value : Fin 257) : List Bool := (codeEntry value).bits

theorem huffmanBits_prefixFree : PrefixCode.PrefixFree huffmanBits := by
  intro a b ⟨t, ht⟩
  by_contra hne
  have ha := codeEntry_fits a.isLt
  have hb := codeEntry_fits b.isLt
  have hcode := hb.code_eq
  have hcode' := ha.code_eq
  have hlength := congrArg List.length ht
  unfold huffmanBits at ht hlength
  rw [length_append, CodeEntry.length_bits, CodeEntry.length_bits] at hlength
  have hlong := hb.long
  have hpow : (2 : ℕ) ^ (32 - (codeEntry a).bitLength) =
      2 ^ t.length * 2 ^ (32 - (codeEntry b).bitLength) := by
    rw [← Nat.pow_add]
    congr 1
    omega
  have ht' := Bits.toNat_lt t
  rw [← ht, Bits.toNat_append, Nat.add_mul, Nat.mul_assoc, ← hpow, ← hcode'] at hcode
  have htail := Nat.mul_lt_mul_of_pos_right ht' (Nat.two_pow_pos (32 - (codeEntry b).bitLength))
  rw [← hpow] at htail
  have hpos := Nat.two_pow_pos (32 - (codeEntry b).bitLength)
  have hdisjoint := codes_disjoint a.isLt b.isLt fun heq => hne (Fin.ext heq)
  unfold CodeEntry.Above at hdisjoint
  omega

/-! ## What is written -/

/-- The upper bits of a code, all but the last `n`. -/
def upperBits (length hc n : ℕ) : List Bool := Bits.ofNat (length - n) (hc >>> n)

variable {l : List Bool} {s : BitOStream}

theorem writeBits_upper {length hc m n : ℕ} (h : s.Holds (l ++ upperBits length hc m))
    (hm : m ≤ length) (hn : n ≤ m) (hmn : m ≤ n + 8) :
    (s.writeBits (ofNat (hc >>> n)) (m - n)).Holds (l ++ upperBits length hc n) := by
  have hholds := BitOStream.writeBits_holds h (ofNat (hc >>> n)) (n := m - n) (by omega)
  have hlow : Bits.ofNat (m - n) (ofNat (hc >>> n)).toNat =
      Bits.ofNat (m - n) (hc >>> n) := by
    refine Bits.ofNat_eq_of_toNat (Bits.length_ofNat _ _) ?_
    rw [Bits.toNat_ofNat, toNat_ofNat']
    exact (mod_mod_of_dvd _ (pow_dvd_pow 2 (by omega))).symm
  have hupper : upperBits length hc m ++ Bits.ofNat (m - n) (hc >>> n) = upperBits length hc n := by
    have hshift : hc >>> m = hc >>> n / 2 ^ (m - n) := by
      rw [← shiftRight_eq_div_pow, ← shiftRight_add]
      congr 1
      omega
    unfold upperBits
    rw [hshift, Bits.ofNat_append]
    congr 1
    omega
  rwa [hlow, append_assoc, hupper] at hholds

theorem writeOctet_holds {r : BitOStream × ℕ} {length hc n : ℕ}
    (h : r.1.Holds (l ++ upperBits length hc r.2)) (hr : r.2 ≤ length) (hrn : r.2 ≤ n + 8) :
    (writeOctet hc n r).1.Holds (l ++ upperBits length hc (writeOctet hc n r).2) ∧
      (writeOctet hc n r).2 ≤ length ∧ (writeOctet hc n r).2 ≤ n := by
  unfold writeOctet
  split_ifs with hmore
  · exact ⟨writeBits_upper h hr (Nat.le_of_lt hmore) hrn, by omega, Nat.le_refl n⟩
  · exact ⟨h, hr, Nat.le_of_not_lt hmore⟩

theorem write_huffman_code_holds (h : s.Holds l) {c : CodeEntry}
    (hc : c.bitLength ≤ 32) : (write_huffman_code s c).Holds (l ++ c.bits) := by
  have hnone : s.Holds (l ++ upperBits c.bitLength
      (c.huffmanCode >>> (32 - c.bitLength)) c.bitLength) := by
    unfold upperBits
    rwa [Nat.sub_self, Bits.ofNat, append_nil]
  obtain ⟨h₁, hle₁, hn₁⟩ := writeOctet_holds (n := 24) (r := (s, c.bitLength)) hnone
    (Nat.le_refl _) hc
  obtain ⟨h₂, hle₂, hn₂⟩ := writeOctet_holds (n := 16) h₁ hle₁ hn₁
  obtain ⟨h₃, hle₃, hn₃⟩ := writeOctet_holds (n := 8) h₂ hle₂ hn₂
  exact writeBits_upper (n := 0) h₃ hle₃ (Nat.zero_le _) hn₃

/-- A byte as one of the symbols. -/
def symbol (b : UInt8) : Fin 257 := ⟨b.toNat, Nat.lt_succ_of_lt b.toNat_lt⟩

/-- The bits of a string, before padding. -/
def stringBits (s : List UInt8) : List Bool := PrefixCode.encode huffmanBits (s.map symbol)

/-- How many bits are left in the last byte. -/
def paddingLength (length : ℕ) : ℕ := (8 - length % 8) % 8

theorem foldl_write_holds (h : s.Holds l) (data : List UInt8) :
    (data.foldl (fun s c => write_huffman_code s (codeEntry c.toNat)) s).Holds
      (l ++ stringBits data) := by
  induction data generalizing s l with
  | nil => exact (append_nil l).symm ▸ h
  | cons b data ih =>
    have hb := (codeEntry_fits (lt_succ_of_lt b.toNat_lt)).long
    have hholds := ih (write_huffman_code_holds h (c := codeEntry b.toNat) (by omega))
    unfold stringBits at hholds ⊢
    rw [map_cons, PrefixCode.encode_cons, ← append_assoc]
    exact hholds

theorem writeCodes_holds (h : s.Holds l) (data : List UInt8) :
    (writeCodes data s).Holds (l ++ stringBits (data.take (intSize data).toNat)) :=
  foldl_write_holds h _

theorem huffman_encode_string_holds (h : s.Holds l) (data : List UInt8) :
    (huffman_encode_string data s).Holds
      (l ++ stringBits (data.take (intSize data).toNat) ++
        List.replicate
          (paddingLength (l ++ stringBits (data.take (intSize data).toNat)).length) true) := by
  have hholds := writeCodes_holds h data
  unfold huffman_encode_string
  dsimp only
  generalize writeCodes data s = out at hholds ⊢
  generalize l ++ stringBits (data.take (intSize data).toNat) = written at hholds ⊢
  rw [hholds.bitsSet_eq]
  unfold paddingLength
  split_ifs with hpart
  · have hpad := BitOStream.writeBits_holds hholds 0xff (n := 8 - written.length % 8) (by omega)
    have hones : ∀ n ≤ 8, Bits.ofNat n (0xff : UInt8).toNat = List.replicate n true := by
      decide
    rw [hones _ (by omega)] at hpad
    rwa [mod_eq_of_lt (a := 8 - written.length % 8) (by omega)]
  · have hzero : written.length % 8 = 0 := by omega
    rw [hzero]
    exact (append_nil written).symm ▸ hholds

theorem take_intSize {data : List UInt8} (h : data.length < 2 ^ 31) :
    data.take (intSize data).toNat = data := by
  unfold intSize
  rw [Int.bmod_eq_of_le (by omega) (by omega), Int.toNat_natCast, take_length]

theorem take_intSize_length {data : List UInt8} (h : 2 ^ 31 ≤ data.length) :
    (data.take (intSize data).toNat).length < data.length := by
  have hlt := @Int.bmod_lt data.length (2 ^ 32) (by omega)
  unfold intSize
  rw [length_take]
  omega

theorem paddingLength_lt (length : ℕ) : paddingLength length < 8 := mod_lt _ (succ_pos 7)

theorem add_paddingLength (length : ℕ) : (length + paddingLength length) % 8 = 0 := by
  unfold paddingLength
  omega

end HPack

end QtBase
