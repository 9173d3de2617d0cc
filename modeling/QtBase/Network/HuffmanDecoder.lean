import QtBase.Network.Huffman
import QtBase.Lib.IndexTree

/-! `HuffmanDecoder`: the prefix tables, which lead to every code. -/
namespace QtBase

open Bool Option Nat

namespace HPack

open Lib

structure PrefixTable where
  prefixLength : ℕ
  indexLength : ℕ
  offset : ℕ

namespace PrefixTable

variable (t : PrefixTable)

/-- Number of entries the table contains. -/
def size : ℕ := 1 <<< t.indexLength

/-- How many bits were coded by previous tables and this table. -/
def codedLength : ℕ := t.prefixLength + t.indexLength

/-- The prefixed bits are skipped, and indexed bits are used only. -/
def index (chunk : ℕ) : ℕ := (chunk <<< t.prefixLength % 2 ^ 32) >>> (32 - t.indexLength)

end PrefixTable

structure PrefixTableEntry where
  bitLength : ℕ
  nextTable : ℕ
  byteValue : ℕ

/-- `tableData` is a vector of `tableSize` entries. -/
structure HuffmanDecoder where
  prefixTables : List PrefixTable
  tableData : ℕ → PrefixTableEntry
  tableSize : ℕ
  minCodeLength : ℕ

namespace HuffmanDecoder

variable (d : HuffmanDecoder)

def table (tableIndex : ℕ) : PrefixTable := d.prefixTables.getD tableIndex ⟨0, 0, 0⟩

/-- The entries of the new table are default-constructed. -/
def addTable (prefixLength indexLength : ℕ) : HuffmanDecoder :=
  { d with
    prefixTables := d.prefixTables ++ [⟨prefixLength, indexLength, d.tableSize⟩]
    tableSize := d.tableSize + 1 <<< indexLength }

def tableEntry (table : PrefixTable) (index : ℕ) : PrefixTableEntry :=
  d.tableData (table.offset + index)

def setTableEntry (table : PrefixTable) (index : ℕ) (entry : PrefixTableEntry) : HuffmanDecoder :=
  { d with
    tableData := fun i => bif Nat.beq i (table.offset + index) then entry else d.tableData i }

/-- `BitConstants` -/
def rootPrefix : ℕ := 9

def childPrefix : ℕ := 6

/-- The tables for one symbol, from a table on. Every table codes a bit at least. -/
def enter (s : CodeEntry) : ℕ → ℕ → HuffmanDecoder → Option HuffmanDecoder
  | 0, _, _ => none
  | k + 1, tableIndex, d =>
    let table := d.table tableIndex
    let entryIndex := table.index s.huffmanCode
    let entry := d.tableEntry table entryIndex
    if table.codedLength < s.bitLength then
      if entry.bitLength = 0 then
        -- we have to add a new prefix table
        let nextTable := d.prefixTables.length
        let d := d.addTable table.codedLength (min childPrefix (s.bitLength - table.codedLength))
        enter s k nextTable (d.setTableEntry table entryIndex ⟨s.bitLength, nextTable, s.byteValue⟩)
      else enter s k entry.nextTable d
    else some (d.setTableEntry table entryIndex ⟨s.bitLength, tableIndex, s.byteValue⟩)

def enterSymbols : List CodeEntry → HuffmanDecoder → Option HuffmanDecoder
  | [], d => some d
  | s :: symbols, d => (enter s 32 0 d).bind (enterSymbols symbols)

/-- `for (k = 1; k < range; ++k)` -/
def fillRange (table : PrefixTable) (j : ℕ) (entry : PrefixTableEntry) :
    ℕ → HuffmanDecoder → HuffmanDecoder
  | 0, d => d
  | k + 1, d => (fillRange table j entry k d).setTableEntry table (j + (k + 1)) entry

/-- The holes behind terminal entries; there are at most as many as entries. -/
def fillHoles (table : PrefixTable) : ℕ → ℕ → HuffmanDecoder → HuffmanDecoder
  | 0, _, d => d
  | n + 1, j, d =>
    if j < table.size then
      let entry := d.tableEntry table j
      if entry.bitLength ≠ 0 ∧ entry.bitLength < table.codedLength then
        let range := 1 <<< (table.codedLength - entry.bitLength)
        fillHoles table n (j + range) (fillRange table j entry (range - 1) d)
      else fillHoles table n (j + 1) d
    else d

/-- The constructor. -/
def make : Option HuffmanDecoder :=
  let minCodeLength := (symbols.getLastD ⟨0, 0, 0⟩).bitLength
  let d := addTable ⟨[], fun _ => ⟨0, 0, 0⟩, 0, minCodeLength⟩ 0 rootPrefix
  (enterSymbols symbols d).map fun d =>
    d.prefixTables.foldl (fun d table => fillHoles table table.size 0 d) d

/-- From table to table up to a terminal entry. A table that is entered twice is entered forever. -/
def walk (chunk : ℕ) : ℕ → ℕ → PrefixTableEntry → Option PrefixTableEntry
  | 0, _, _ => none
  | k + 1, tableIndex, entry =>
    if entry.nextTable = tableIndex then some entry
    else
      let table := d.table entry.nextTable
      walk chunk k entry.nextTable (d.tableEntry table (table.index chunk))

/-! ## The tables -/

/-- A terminal entry holds a symbol whose code begins the path. -/
def terminal (entry : PrefixTableEntry) (codedLength path : ℕ) : Bool :=
  match staticHuffmanCodeTable[entry.byteValue]? with
  | none => false
  | some c =>
    Nat.beq c.bitLength entry.bitLength && Nat.ble c.bitLength codedLength &&
      Nat.beq (c.huffmanCode >>> (32 - c.bitLength)) (path >>> (codedLength - c.bitLength))

/-- All paths that go on from a table end at the symbol whose code begins them. -/
def leads : ℕ → ℕ → ℕ → Bool
  | 0, _, _ => false
  | k + 1, tableIndex, path =>
    let table := d.table tableIndex
    Nat.ble table.codedLength 32 && (List.range table.size).all fun i =>
      let entry := d.tableEntry table i
      let path := path <<< table.indexLength + i
      bif Nat.beq entry.nextTable tableIndex then terminal entry table.codedLength path
      else
        Nat.beq (d.table entry.nextTable).prefixLength table.codedLength &&
          leads k entry.nextTable path

/-- The tables lead from the root to every code. -/
def complete : Bool :=
  Nat.beq d.minCodeLength 5 && Nat.ble 6 d.prefixTables.length &&
    Nat.beq (d.table 0).prefixLength 0 && d.leads 6 0 0

/-! ## The tables with their entries in a tree -/

/-- A decoder whose entries are found quickly. -/
structure WithTree where
  prefixTables : List PrefixTable
  tableData : IndexTree PrefixTableEntry
  tableSize : ℕ
  minCodeLength : ℕ

namespace WithTree

variable (t : WithTree)

def toDecoder : HuffmanDecoder :=
  ⟨t.prefixTables, t.tableData.get ⟨0, 0, 0⟩, t.tableSize, t.minCodeLength⟩

def addTable (prefixLength indexLength : ℕ) : WithTree :=
  { t with
    prefixTables := t.prefixTables ++ [⟨prefixLength, indexLength, t.tableSize⟩]
    tableSize := t.tableSize + 1 <<< indexLength }

def setTableEntry (table : PrefixTable) (index : ℕ) (entry : PrefixTableEntry) : WithTree :=
  let i := table.offset + index
  { t with tableData := t.tableData.set ⟨0, 0, 0⟩ (i + 1) i entry }

def enter (s : CodeEntry) : ℕ → ℕ → WithTree → Option WithTree
  | 0, _, _ => none
  | k + 1, tableIndex, t =>
    let table := t.toDecoder.table tableIndex
    let entryIndex := table.index s.huffmanCode
    let entry := t.toDecoder.tableEntry table entryIndex
    if table.codedLength < s.bitLength then
      if entry.bitLength = 0 then
        let nextTable := t.prefixTables.length
        let t := t.addTable table.codedLength (min childPrefix (s.bitLength - table.codedLength))
        enter s k nextTable (t.setTableEntry table entryIndex ⟨s.bitLength, nextTable, s.byteValue⟩)
      else enter s k entry.nextTable t
    else some (t.setTableEntry table entryIndex ⟨s.bitLength, tableIndex, s.byteValue⟩)

def enterSymbols : List CodeEntry → WithTree → Option WithTree
  | [], t => some t
  | s :: symbols, t => (enter s 32 0 t).bind (enterSymbols symbols)

def fillRange (table : PrefixTable) (j : ℕ) (entry : PrefixTableEntry) : ℕ → WithTree → WithTree
  | 0, t => t
  | k + 1, t => (fillRange table j entry k t).setTableEntry table (j + (k + 1)) entry

def fillHoles (table : PrefixTable) : ℕ → ℕ → WithTree → WithTree
  | 0, _, t => t
  | n + 1, j, t =>
    if j < table.size then
      let entry := t.toDecoder.tableEntry table j
      if entry.bitLength ≠ 0 ∧ entry.bitLength < table.codedLength then
        let range := 1 <<< (table.codedLength - entry.bitLength)
        fillHoles table n (j + range) (fillRange table j entry (range - 1) t)
      else fillHoles table n (j + 1) t
    else t

def make : Option WithTree :=
  let minCodeLength := (symbols.getLastD ⟨0, 0, 0⟩).bitLength
  let t := addTable ⟨[], .leaf, 0, minCodeLength⟩ 0 rootPrefix
  (enterSymbols symbols t).map fun t =>
    t.prefixTables.foldl (fun t table => fillHoles table table.size 0 t) t

theorem toDecoder_setTableEntry (table : PrefixTable) (index : ℕ) (entry : PrefixTableEntry) :
    (t.setTableEntry table index entry).toDecoder =
      t.toDecoder.setTableEntry table index entry := by
  unfold toDecoder setTableEntry HuffmanDecoder.setTableEntry
  congr 1
  funext i
  rw [IndexTree.get_set (lt_succ_self _)]
  split_ifs with heq
  · rw [heq, beq_refl, cond_true]
  · rw [eq_false_iff.mpr fun h => heq (eq_of_beq_eq_true h), cond_false]

theorem toDecoder_enter (s : CodeEntry) (k tableIndex : ℕ) :
    (enter s k tableIndex t).map toDecoder = HuffmanDecoder.enter s k tableIndex t.toDecoder := by
  induction k generalizing tableIndex t with
  | zero => rfl
  | succ k ih =>
    unfold enter HuffmanDecoder.enter
    dsimp only
    split_ifs with hlong hnew
    · rw [ih, toDecoder_setTableEntry]
      rfl
    · exact ih _ _
    · rw [map_some, toDecoder_setTableEntry]

theorem toDecoder_enterSymbols (symbols : List CodeEntry) :
    (enterSymbols symbols t).map toDecoder =
      HuffmanDecoder.enterSymbols symbols t.toDecoder := by
  induction symbols generalizing t with
  | nil => rfl
  | cons s symbols ih =>
    unfold enterSymbols HuffmanDecoder.enterSymbols
    rw [← toDecoder_enter, map_bind, bind_map]
    congr 1
    funext t
    exact ih t

theorem toDecoder_fillRange (table : PrefixTable) (j : ℕ) (entry : PrefixTableEntry) (k : ℕ) :
    (fillRange table j entry k t).toDecoder =
      HuffmanDecoder.fillRange table j entry k t.toDecoder := by
  induction k with
  | zero => rfl
  | succ k ih =>
    unfold fillRange HuffmanDecoder.fillRange
    rw [toDecoder_setTableEntry, ih]

theorem toDecoder_fillHoles (table : PrefixTable) (n j : ℕ) :
    (fillHoles table n j t).toDecoder = HuffmanDecoder.fillHoles table n j t.toDecoder := by
  induction n generalizing j t with
  | zero => rfl
  | succ n ih =>
    unfold fillHoles HuffmanDecoder.fillHoles
    dsimp only
    split_ifs with hj hrange
    · rw [ih, toDecoder_fillRange]
    · exact ih _ _
    · rfl

theorem toDecoder_fill (tables : List PrefixTable) :
    (tables.foldl (fun t table => fillHoles table table.size 0 t) t).toDecoder =
      tables.foldl (fun d table => HuffmanDecoder.fillHoles table table.size 0 d) t.toDecoder := by
  induction tables generalizing t with
  | nil => rfl
  | cons table tables ih => rw [List.foldl_cons, List.foldl_cons, ih, toDecoder_fillHoles]

theorem make_map : make.map toDecoder = HuffmanDecoder.make := by
  unfold make HuffmanDecoder.make
  dsimp only
  have hroot (n : ℕ) : HuffmanDecoder.addTable ⟨[], fun _ => ⟨0, 0, 0⟩, 0, n⟩ 0 rootPrefix =
      (addTable ⟨[], .leaf, 0, n⟩ 0 rootPrefix).toDecoder := rfl
  rw [hroot, ← toDecoder_enterSymbols, map_map, map_map]
  congr 1
  funext t
  exact toDecoder_fill t _

/-- `terminal`, with the codes in a tree. -/
def terminalIn (codes : IndexTree (Option CodeEntry)) (entry : PrefixTableEntry)
    (codedLength path : ℕ) : Bool :=
  match codes.get none entry.byteValue with
  | none => false
  | some c =>
    Nat.beq c.bitLength entry.bitLength && Nat.ble c.bitLength codedLength &&
      Nat.beq (c.huffmanCode >>> (32 - c.bitLength)) (path >>> (codedLength - c.bitLength))

def leadsIn (codes : IndexTree (Option CodeEntry)) : ℕ → ℕ → ℕ → Bool
  | 0, _, _ => false
  | k + 1, tableIndex, path =>
    let table := t.toDecoder.table tableIndex
    Nat.ble table.codedLength 32 && (List.range table.size).all fun i =>
      let entry := t.toDecoder.tableEntry table i
      let path := path <<< table.indexLength + i
      bif Nat.beq entry.nextTable tableIndex then terminalIn codes entry table.codedLength path
      else
        Nat.beq (t.toDecoder.table entry.nextTable).prefixLength table.codedLength &&
          leadsIn codes k entry.nextTable path

def complete : Bool :=
  Nat.beq t.minCodeLength 5 && Nat.ble 6 t.prefixTables.length &&
    Nat.beq (t.toDecoder.table 0).prefixLength 0 &&
      t.leadsIn (IndexTree.ofList staticHuffmanCodeTable) 6 0 0

theorem terminalIn_ofList (entry : PrefixTableEntry) (codedLength path : ℕ) :
    terminalIn (IndexTree.ofList staticHuffmanCodeTable) entry codedLength path =
      terminal entry codedLength path := by
  unfold terminalIn terminal
  rw [IndexTree.get_ofList]

theorem leadsIn_ofList (k tableIndex path : ℕ) :
    t.leadsIn (IndexTree.ofList staticHuffmanCodeTable) k tableIndex path =
      t.toDecoder.leads k tableIndex path := by
  induction k generalizing tableIndex path with
  | zero => rfl
  | succ k ih =>
    unfold leadsIn leads
    simp only [terminalIn_ofList, ih]

theorem make_complete : make.any complete = true := by
  unfold make
  rw [symbols_eq]
  decide +kernel

end WithTree

theorem make_complete : make.any complete = true := by
  have heq : (fun t : WithTree => t.toDecoder.complete) = WithTree.complete := by
    funext t
    unfold WithTree.complete
    rw [WithTree.leadsIn_ofList]
    rfl
  rw [← WithTree.make_map, any_map, heq]
  exact WithTree.make_complete

theorem shiftRight_codedLength {table : PrefixTable} (hlength : table.codedLength ≤ 32)
    (chunk : ℕ) :
    chunk >>> (32 - table.codedLength) =
      (chunk >>> (32 - table.prefixLength)) <<< table.indexLength + table.index chunk := by
  unfold PrefixTable.codedLength at hlength ⊢
  unfold PrefixTable.index
  have hpow : (2 : ℕ) ^ 32 = 2 ^ (32 - table.prefixLength) * 2 ^ table.prefixLength := by
    rw [← Nat.pow_add]
    congr 1
    omega
  have hpow' : (2 : ℕ) ^ (32 - table.indexLength) =
      2 ^ (32 - (table.prefixLength + table.indexLength)) * 2 ^ table.prefixLength := by
    rw [← Nat.pow_add]
    congr 1
    omega
  have hpow'' : (2 : ℕ) ^ (32 - table.prefixLength) =
      2 ^ (32 - (table.prefixLength + table.indexLength)) * 2 ^ table.indexLength := by
    rw [← Nat.pow_add]
    congr 1
    omega
  rw [Nat.shiftRight_eq_div_pow, Nat.shiftRight_eq_div_pow, Nat.shiftRight_eq_div_pow,
    Nat.shiftLeft_eq, Nat.shiftLeft_eq, hpow, Nat.mul_mod_mul_right, hpow',
    Nat.mul_div_mul_right _ _ (Nat.two_pow_pos _), hpow'', Nat.mod_mul_right_div_self,
    ← Nat.div_div_eq_div_mul, Nat.mul_comm, Nat.div_add_mod]

theorem index_lt {table : PrefixTable} (hlength : table.codedLength ≤ 32) (chunk : ℕ) :
    table.index chunk < table.size := by
  unfold PrefixTable.codedLength at hlength
  unfold PrefixTable.index PrefixTable.size
  have hpow : (2 : ℕ) ^ 32 = 2 ^ (32 - table.indexLength) * 2 ^ table.indexLength := by
    rw [← Nat.pow_add]
    congr 1
    omega
  rw [Nat.shiftRight_eq_div_pow, Nat.one_shiftLeft]
  refine Nat.div_lt_of_lt_mul ?_
  rw [← hpow]
  exact Nat.mod_lt _ (Nat.two_pow_pos 32)

/-- The code of a symbol begins a chunk. -/
def Begins (value : ℕ) (chunk : ℕ) : Prop :=
  value < 257 ∧ (codeEntry value).huffmanCode >>> (32 - (codeEntry value).bitLength) =
    chunk >>> (32 - (codeEntry value).bitLength)

theorem begins_of_terminal {entry : PrefixTableEntry} {codedLength chunk : ℕ}
    (h : terminal entry codedLength (chunk >>> (32 - codedLength)) = true)
    (hlength : codedLength ≤ 32) :
    Begins entry.byteValue chunk ∧ entry.bitLength = (codeEntry entry.byteValue).bitLength := by
  unfold terminal at h
  cases hget : staticHuffmanCodeTable[entry.byteValue]? with
  | none =>
    rw [hget] at h
    cases h
  | some c =>
    obtain ⟨hlt, -⟩ := List.getElem?_eq_some_iff.mp hget
    have hentry : codeEntry entry.byteValue = c := by
      unfold codeEntry
      simp [hget]
    rw [hget] at h
    simp only [and_eq_true, beq_eq, ble_eq] at h
    obtain ⟨⟨hbits, hle⟩, hcode⟩ := h
    rw [← shiftRight_add] at hcode
    refine ⟨⟨by rwa [table_length] at hlt, ?_⟩, ?_⟩
    · rw [hentry, hcode]
      congr 1
      omega
    · rw [hentry, hbits]

theorem walk_of_leads {k tableIndex chunk n : ℕ}
    (h : d.leads k tableIndex (chunk >>> (32 - (d.table tableIndex).prefixLength)) = true)
    (hn : k ≤ n) :
    ∃ entry, d.walk chunk n tableIndex
          (d.tableEntry (d.table tableIndex) ((d.table tableIndex).index chunk)) = some entry ∧
        Begins entry.byteValue chunk ∧
          entry.bitLength = (codeEntry entry.byteValue).bitLength := by
  induction k generalizing tableIndex n with
  | zero => cases h
  | succ k ih =>
    obtain ⟨n, rfl⟩ : ∃ m, n = m + 1 := ⟨n - 1, by omega⟩
    unfold leads at h
    dsimp only at h
    rw [and_eq_true, ble_eq, List.all_eq_true] at h
    obtain ⟨hlength, hall⟩ := h
    have hhere := hall _ (List.mem_range.mpr (index_lt hlength chunk))
    rw [← shiftRight_codedLength hlength] at hhere
    unfold walk
    split_ifs with hself
    · rw [hself, beq_refl, cond_true] at hhere
      exact ⟨_, rfl, begins_of_terminal hhere hlength⟩
    · have hother := eq_false_iff.mpr fun heq => hself (eq_of_beq_eq_true heq)
      rw [hother, cond_false, and_eq_true, beq_eq] at hhere
      obtain ⟨hleading, hleads⟩ := hhere
      rw [← hleading] at hleads
      exact ih hleads (le_of_succ_le_succ hn)

/-- What is known about the tables: the first code that a chunk begins with is found. -/
structure Complete : Prop where
  minCodeLength : d.minCodeLength = 5
  walk : ∀ chunk < 2 ^ 32, ∃ (v : Fin 257) (entry : PrefixTableEntry),
    d.walk chunk d.prefixTables.length 0
        (d.tableEntry (d.table 0) ((d.table 0).index chunk)) = some entry ∧
      entry.byteValue = v ∧ entry.bitLength = (huffmanBits v).length ∧
        huffmanBits v <+: Bits.ofNat 32 chunk

theorem bits_of_begins {value chunk : ℕ} (h : Begins value chunk) :
    (codeEntry value).bits <+: Bits.ofNat 32 chunk := by
  have hlong := (codeEntry_fits h.1).long
  unfold CodeEntry.bits
  rw [h.2, shiftRight_eq_div_pow]
  refine ⟨Bits.ofNat (32 - (codeEntry value).bitLength) chunk, ?_⟩
  rw [Bits.ofNat_append]
  congr 1
  omega

theorem exists_complete : ∃ d, make = some d ∧ d.Complete := by
  have hmake := make_complete
  cases hd : make with
  | none =>
    rw [hd] at hmake
    cases hmake
  | some d =>
    rw [hd, any_some] at hmake
    unfold complete at hmake
    simp only [and_eq_true, beq_eq, ble_eq] at hmake
    obtain ⟨⟨⟨hmin, hsize⟩, hroot⟩, hleads⟩ := hmake
    refine ⟨d, rfl, hmin, fun chunk hchunk => ?_⟩
    have hpath : d.leads 6 0 (chunk >>> (32 - (d.table 0).prefixLength)) = true := by
      rw [hroot, shiftRight_eq_div_pow, div_eq_of_lt hchunk]
      exact hleads
    obtain ⟨entry, hwalk, hbegins, hlength⟩ := walk_of_leads d hpath hsize
    refine ⟨⟨entry.byteValue, hbegins.1⟩, entry, hwalk, rfl, ?_, bits_of_begins hbegins⟩
    rw [hlength]
    exact (CodeEntry.length_bits _).symm

end HuffmanDecoder

end HPack

end QtBase
