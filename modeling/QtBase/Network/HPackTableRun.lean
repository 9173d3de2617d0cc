import QtBase.Network.HPackTable
import QtBase.Lib.SizedQueue

/-! The dynamic part of the table is a queue of fields with their sizes, as long as its size is not
set to zero and fields are added after that. -/
namespace QtBase

open List Nat

namespace HPack

open SizedQueue

/-- The size of an entry. -/
def HeaderField.size (f : HeaderField) : ℕ := f.name.length + f.value.length + 32

theorem entry_size_of_le {f : HeaderField} (h : f.size ≤ 0xffffffff) : ∃ n,
    entry_size f.name f.value = some n ∧ n.toNat = f.size := by
  unfold HeaderField.size at *
  unfold entry_size
  rw [if_neg (by omega)]
  refine ⟨_, rfl, ?_⟩
  rw [UInt32.toNat_ofNat']
  exact mod_eq_of_lt (by omega)

theorem entry_size_of_lt {f : HeaderField} (h : 0xffffffff < f.size) :
    entry_size f.name f.value = none := by
  unfold HeaderField.size at h
  unfold entry_size
  rw [if_pos (by omega)]

namespace FieldLookupTable

/-! ## Entries -/

/-- The table has these entries, the newest one first. -/
structure Rep (t : FieldLookupTable) (es : List HeaderField) : Prop where
  fields : ∀ c ∈ t.chunks, c.fields.length = ChunkSize
  chunks : t.chunks.length = (t.endPos + (ChunkSize - 1)) / ChunkSize
  count : t.nDynamic = es.length
  span : t.endPos = t.beginPos + es.length
  begin_le : t.beginPos ≤ ChunkSize
  begin_eq : t.beginPos = ChunkSize → es = []
  entries : ∀ i e, es[i]? = some e → t.fieldAt (t.beginPos + i) = e
  size : t.dataSize.toNat = total HeaderField.size es

variable {t : FieldLookupTable} {es : List HeaderField} {e : HeaderField}

theorem rep_make (maxSize : UInt32) (use : Bool) : Rep (make maxSize use) [] where
  fields _ hc := absurd hc not_mem_nil
  chunks := show 0 = (0 + (ChunkSize - 1)) / ChunkSize by decide
  count := rfl
  span := rfl
  begin_le := zero_le _
  begin_eq _ := rfl
  entries _ _ h := by cases h
  size := rfl

theorem rep_clear (t : FieldLookupTable) : Rep t.clearDynamicTable [] where
  fields _ hc := absurd hc not_mem_nil
  chunks := show 0 = (0 + (ChunkSize - 1)) / ChunkSize by decide
  count := rfl
  span := rfl
  begin_le := zero_le _
  begin_eq _ := rfl
  entries _ _ h := by cases h
  size := rfl

theorem Rep.size_lt (h : Rep t es) : total HeaderField.size es < 2 ^ 32 := by
  rw [← h.size]
  exact t.dataSize.toNat_lt

theorem Rep.back (h : Rep t (es ++ [e])) : t.back = e := by
  have hspan := h.span
  rw [length_append, length_singleton] at hspan
  have hentry := h.entries es.length e (by rw [getElem?_append_right (Nat.le_refl _), Nat.sub_self]; rfl)
  unfold FieldLookupTable.back
  rw [hspan, ← Nat.add_assoc, Nat.add_sub_cancel, hentry]

/-- What no eviction changes. -/
structure SameLimits (t t' : FieldLookupTable) : Prop where
  maxTableSize : t'.maxTableSize = t.maxTableSize
  tableCapacity : t'.tableCapacity = t.tableCapacity
  useIndex : t'.useIndex = t.useIndex

theorem SameLimits.refl (t : FieldLookupTable) : SameLimits t t := ⟨rfl, rfl, rfl⟩

theorem SameLimits.trans {t t' t'' : FieldLookupTable} (h : SameLimits t t')
    (h' : SameLimits t' t'') : SameLimits t t'' where
  maxTableSize := h'.maxTableSize.trans h.maxTableSize
  tableCapacity := h'.tableCapacity.trans h.tableCapacity
  useIndex := h'.useIndex.trans h.useIndex

theorem Rep.withIndex (h : Rep t es) (index : List SearchEntry) :
    Rep { t with searchIndex := index } es where
  fields := h.fields
  chunks := h.chunks
  count := h.count
  span := h.span
  begin_le := h.begin_le
  begin_eq := h.begin_eq
  entries := h.entries
  size := h.size

/-- `evictEntry` behind the search index. -/
def dropEntry (t : FieldLookupTable) (entrySize : UInt32) : FieldLookupTable :=
  let t := { t with
    dataSize := t.dataSize - entrySize
    nDynamic := t.nDynamic - 1
    endPos := t.endPos - 1 }
  if t.endPos = t.beginPos then { t with endPos := ChunkSize, beginPos := ChunkSize }
  else if t.endPos % ChunkSize = 0 then { t with chunks := t.chunks.dropLast }
  else t

theorem dropEntry_rep (h : Rep t (es ++ [e])) {n : UInt32} (hn : n.toNat = e.size) :
    Rep (t.dropEntry n) es ∧ SameLimits t (t.dropEntry n) := by
  have hspan := h.span
  have hcount := h.count
  have hchunks := h.chunks
  have hbegin := h.begin_le
  have hbegin' : t.beginPos ≠ ChunkSize := by
    intro heq
    have hnil := h.begin_eq heq
    exact absurd hnil (by simp)
  have hsize : (t.dataSize - n).toNat = total HeaderField.size es := by
    have htotal := h.size
    rw [total_append, total_cons, total_nil, Nat.add_zero] at htotal
    rw [UInt32.toNat_sub_of_le _ _ (UInt32.le_iff_toNat_le.mpr (by omega)), htotal, hn,
      Nat.add_sub_cancel]
  rw [length_append, length_singleton] at hspan hcount
  unfold ChunkSize at *
  unfold dropEntry ChunkSize
  simp only
  by_cases hlast : t.endPos - 1 = t.beginPos
  · have hes : es = [] := eq_nil_of_length_eq_zero (by omega)
    rw [if_pos hlast]
    refine ⟨⟨h.fields, ?_, ?_, ?_, Nat.le_refl _, fun _ => hes, ?_, hsize⟩, rfl, rfl, rfl⟩
    · show t.chunks.length = (16 + (16 - 1)) / 16
      omega
    · show t.nDynamic - 1 = _
      omega
    · rw [hes]
      rfl
    · intro i e he
      rw [hes] at he
      cases he
  · rw [if_neg hlast]
    have hentries : ∀ i e, es[i]? = some e → t.fieldAt (t.beginPos + i) = e := by
      intro i e he
      apply h.entries i e
      rw [List.getElem?_append_left (List.getElem?_eq_some_iff.mp he).1]
      exact he
    have hspan' : t.endPos - 1 = t.beginPos + es.length := by omega
    have hcount' : t.nDynamic - 1 = es.length := by omega
    by_cases hchunk : (t.endPos - 1) % 16 = 0
    · rw [if_pos hchunk]
      refine ⟨⟨?_, ?_, hcount', hspan', hbegin, fun heq => absurd heq hbegin', ?_, hsize⟩, rfl, rfl,
        rfl⟩
      · intro c hc
        exact h.fields c (dropLast_subset _ hc)
      · show t.chunks.dropLast.length = _
        rw [length_dropLast]
        show _ = (t.endPos - 1 + (16 - 1)) / 16
        omega
      · intro i e he
        rw [← hentries i e he]
        have hi := (List.getElem?_eq_some_iff.mp he).1
        -- the place is not in the last chunk
        have hkept : t.chunks.dropLast[(t.beginPos + i) / 16]? =
            t.chunks[(t.beginPos + i) / 16]? := by
          rw [List.getElem?_dropLast, if_pos (by omega)]
        unfold fieldAt ChunkSize
        rw [hkept]
    · rw [if_neg hchunk]
      refine ⟨⟨h.fields, ?_, hcount', hspan', hbegin, fun heq => absurd heq hbegin', hentries, hsize⟩,
        rfl, rfl, rfl⟩
      show t.chunks.length = (t.endPos - 1 + (16 - 1)) / 16
      omega

theorem evictEntry_rep (h : Rep t (es ++ [e])) :
    Rep t.evictEntry es ∧ SameLimits t t.evictEntry := by
  have hsize := h.size_lt
  rw [total_append, total_cons, total_nil, Nat.add_zero] at hsize
  have ⟨n, hn, hn'⟩ := entry_size_of_le (show e.size ≤ 0xffffffff by omega)
  have hcount := h.count
  rw [length_append, length_singleton] at hcount
  unfold evictEntry
  rw [if_neg (by omega)]
  by_cases huse : t.useIndex = true
  · simp only [if_pos huse]
    have h' := h.withIndex (t.eraseKey t.backKey)
    have hback := h'.back
    rw [hback, hn]
    have ⟨hrep, hlimits⟩ := dropEntry_rep h' hn'
    exact ⟨hrep, hlimits.maxTableSize, hlimits.tableCapacity, hlimits.useIndex⟩
  · simp only [if_neg huse]
    rw [h.back, hn]
    exact dropEntry_rep h hn'

theorem evictWhile_rep {more : FieldLookupTable → Bool} {bound : ℕ}
    (hmore : ∀ t' es', SameLimits t t' → Rep t' es' → es' <+: es →
      (more t' = true ↔ bound < total HeaderField.size es')) (h : Rep t es) :
    Rep (evictWhile more t.nDynamic t) (evict HeaderField.size bound es) ∧
      SameLimits t (evictWhile more t.nDynamic t) := by
  have hloop : ∀ (n : ℕ) (t' : FieldLookupTable) (es' : List HeaderField), SameLimits t t' →
      Rep t' es' → es' <+: es → es'.length = n →
      Rep (evictWhile more n t') (evict HeaderField.size bound es') ∧
        SameLimits t (evictWhile more n t') := by
    intro n
    induction n with
    | zero =>
      intro t' es' hlimits hrep _ hlen
      rw [eq_nil_of_length_eq_zero hlen] at hrep ⊢
      rw [evict_of_le (Nat.zero_le _)]
      exact ⟨hrep, hlimits⟩
    | succ n ih =>
      intro t' es' hlimits hrep hstart hlen
      have hcount := hrep.count
      have hiff := hmore t' es' hlimits hrep hstart
      unfold evictWhile
      by_cases hm : more t' = true
      · have hcond : (decide (t'.nDynamic ≠ 0) && more t') = true := by
          rw [hm, Bool.and_true, hcount, hlen]
          exact decide_eq_true (Nat.succ_ne_zero n)
        rw [if_pos hcond]
        have htotal := hiff.mp hm
        rcases eq_nil_or_concat es' with hnil | ⟨es'', e, hes⟩
        · rw [hnil] at hlen
          cases hlen
        · rw [concat_eq_append] at hes
          rw [hes] at hrep htotal hlen hstart ⊢
          rw [evict_concat htotal]
          have ⟨hrep', hlimits'⟩ := evictEntry_rep hrep
          have hstart' := (prefix_append es'' [e]).trans hstart
          apply ih _ _ (hlimits.trans hlimits') hrep' hstart'
          rw [length_append, length_singleton] at hlen
          omega
      · have hcond : ¬(decide (t'.nDynamic ≠ 0) && more t') = true := by
          intro hand
          rw [Bool.and_eq_true] at hand
          exact hm hand.2
        rw [if_neg hcond, evict_of_le (Nat.not_lt.mp (hiff.not.mp hm))]
        exact ⟨hrep, hlimits⟩
  have hcount := h.count
  exact hloop _ t es (SameLimits.refl t) h prefix_rfl hcount.symm

/-! ## A new entry -/

theorem fieldAt_pushChunk (h : t.beginPos = 0) (i : ℕ) :
    t.pushChunk.fieldAt (i + ChunkSize) = t.fieldAt i := by
  have hdiv : (i + ChunkSize) / ChunkSize = i / ChunkSize + 1 :=
    add_div_right i (by decide)
  unfold pushChunk
  rw [if_pos h]
  unfold fieldAt
  rw [hdiv, add_mod_right, getElem?_cons_succ]

theorem fieldAt_setFront_of_ne (f : HeaderField) {i : ℕ} (h : i ≠ t.beginPos) :
    (t.setFront f).fieldAt i = t.fieldAt i := by
  unfold setFront fieldAt
  cases hchunks : t.chunks with
  | nil => rfl
  | cons c cs =>
    rw [modifyHead_cons]
    cases hi : i / ChunkSize with
    | zero =>
      have hlt : i < ChunkSize := by
        rw [Nat.div_eq_zero_iff] at hi
        rcases hi with hi | hi
        · exact absurd hi (by decide)
        · exact hi
      rw [getElem?_cons_zero, getElem?_cons_zero, Nat.mod_eq_of_lt hlt]
      show (c.fields.set t.beginPos f).getD i ⟨[], []⟩ = c.fields.getD i ⟨[], []⟩
      rw [getD_eq_getElem?_getD, getD_eq_getElem?_getD, getElem?_set_ne h.symm]
    | succ k => rfl

theorem fieldAt_setFront (f : HeaderField) (hfields : ∀ c ∈ t.chunks, c.fields.length = ChunkSize)
    (hchunks : t.chunks ≠ []) (hbegin : t.beginPos < ChunkSize) :
    (t.setFront f).fieldAt t.beginPos = f := by
  unfold setFront fieldAt
  cases hcs : t.chunks with
  | nil => exact absurd hcs hchunks
  | cons c cs =>
    have hc := hfields c (hcs ▸ mem_cons_self)
    rw [modifyHead_cons, div_eq_of_lt hbegin, getElem?_cons_zero, mod_eq_of_lt hbegin]
    show (c.fields.set t.beginPos f).getD t.beginPos ⟨[], []⟩ = f
    rw [getD_eq_getElem?_getD, getElem?_set_self (hc.symm ▸ hbegin)]
    rfl

/-- The table has these entries, and space before the first one. -/
structure Room (t : FieldLookupTable) (es : List HeaderField) : Prop where
  fields : ∀ c ∈ t.chunks, c.fields.length = ChunkSize
  chunks : t.chunks.length = (t.endPos + (ChunkSize - 1)) / ChunkSize
  count : t.nDynamic = es.length
  span : t.endPos = t.beginPos + es.length
  begin_pos : 0 < t.beginPos
  begin_le : t.beginPos ≤ ChunkSize
  entries : ∀ i e, es[i]? = some e → t.fieldAt (t.beginPos + i) = e
  size : t.dataSize.toNat = total HeaderField.size es

theorem SameLimits.pushChunk (t : FieldLookupTable) : SameLimits t t.pushChunk := by
  unfold FieldLookupTable.pushChunk
  split
  · exact ⟨rfl, rfl, rfl⟩
  · exact SameLimits.refl t

theorem Rep.room (h : Rep t es) : Room t.pushChunk es := by
  by_cases hbegin : t.beginPos = 0
  · have hentries : ∀ i e, es[i]? = some e → t.pushChunk.fieldAt (ChunkSize + i) = e := by
      intro i e he
      rw [Nat.add_comm, fieldAt_pushChunk hbegin, ← h.entries i e he, hbegin, Nat.zero_add]
    have hspan := h.span
    have hchunks := h.chunks
    unfold pushChunk at hentries ⊢
    rw [if_pos hbegin] at hentries ⊢
    constructor
    · intro c hc
      rcases mem_cons.mp hc with hc | hc
      · simp [hc]
      · exact h.fields c hc
    · show t.chunks.length + 1 = (t.endPos + ChunkSize + (ChunkSize - 1)) / ChunkSize
      unfold ChunkSize at *
      omega
    · exact h.count
    · show t.endPos + ChunkSize = ChunkSize + es.length
      omega
    · exact Nat.succ_pos _
    · exact Nat.le_refl _
    · exact hentries
    · exact h.size
  · unfold pushChunk
    rw [if_neg hbegin]
    exact ⟨h.fields, h.chunks, h.count, h.span, Nat.pos_of_ne_zero hbegin, h.begin_le, h.entries,
      h.size⟩

/-- `prependField` behind the evictions and the new chunk. -/
def addFront (t : FieldLookupTable) (entrySize : UInt32) (f : HeaderField) : FieldLookupTable :=
  let t := { t with
    beginPos := t.beginPos - 1
    dataSize := t.dataSize + entrySize
    nDynamic := t.nDynamic + 1 }
  t.setFront f

theorem Room.addFront (h : Room t es) {n : UInt32} {f : HeaderField} (hn : n.toNat = f.size)
    (hsum : t.dataSize.toNat + n.toNat < 2 ^ 32) :
    Rep (t.addFront n f) (f :: es) ∧ SameLimits t (t.addFront n f) := by
  have hspan := h.span
  have hpos := h.begin_pos
  have hle := h.begin_le
  have hchunks := h.chunks
  have hlt : t.beginPos - 1 < ChunkSize := by omega
  unfold FieldLookupTable.addFront
  simp only
  generalize ht' : ({ t with
    beginPos := t.beginPos - 1
    dataSize := t.dataSize + n
    nDynamic := t.nDynamic + 1 } : FieldLookupTable) = t'
  have hbegin : t'.beginPos = t.beginPos - 1 := by rw [← ht']
  have hcs : t'.chunks = t.chunks := by rw [← ht']
  have hfieldAt (i : ℕ) : t'.fieldAt i = t.fieldAt i := by rw [← ht']; rfl
  have hne : t'.chunks ≠ [] := by
    intro hnil
    rw [hcs] at hnil
    rw [hnil] at hchunks
    unfold ChunkSize at hchunks
    change 0 = _ at hchunks
    omega
  constructor
  · constructor
    · intro c hc
      unfold setFront at hc
      change c ∈ t'.chunks.modifyHead _ at hc
      rw [hcs] at hc
      cases htc : t.chunks with
      | nil =>
        rw [htc] at hc
        cases hc
      | cons c' cs =>
        rw [htc, modifyHead_cons] at hc
        rcases mem_cons.mp hc with hc | hc
        · rw [hc]
          show (c'.fields.set _ _).length = _
          rw [length_set]
          exact h.fields c' (htc ▸ mem_cons_self)
        · exact h.fields c (htc ▸ mem_cons_of_mem _ hc)
    · show (t'.chunks.modifyHead _).length = (t'.endPos + _) / _
      rw [length_modifyHead, hcs, hchunks, ← ht']
    · show t'.nDynamic = _
      rw [← ht', length_cons]
      exact congrArg (· + 1) h.count
    · show t'.endPos = t'.beginPos + _
      rw [← ht', length_cons]
      show t.endPos = t.beginPos - 1 + _
      omega
    · show t'.beginPos ≤ ChunkSize
      omega
    · intro heq
      change t'.beginPos = ChunkSize at heq
      omega
    · intro i e he
      show (t'.setFront f).fieldAt (t'.beginPos + i) = e
      cases i with
      | zero =>
        have hfields : ∀ c ∈ t'.chunks, c.fields.length = ChunkSize := hcs ▸ h.fields
        rw [Nat.add_zero, fieldAt_setFront f hfields hne (by omega)]
        exact Option.some.inj he
      | succ i =>
        have hplace : t'.beginPos + (i + 1) = t.beginPos + i := by omega
        rw [fieldAt_setFront_of_ne f (by omega), hfieldAt, hplace]
        exact h.entries i e he
    · show t'.dataSize.toNat = _
      rw [← ht', total_cons, ← h.size, ← hn]
      show (t.dataSize + n).toNat = _
      rw [UInt32.toNat_add, Nat.mod_eq_of_lt hsum, Nat.add_comm]
  · rw [← ht']
    exact ⟨rfl, rfl, rfl⟩

theorem prependField_none {f : HeaderField} (h : 0xffffffff < f.size) :
    t.prependField f.name f.value = (t, false) := by
  unfold prependField
  rw [entry_size_of_lt h]

/-- The last step of `prependField`. -/
def indexFront (t : FieldLookupTable) : FieldLookupTable :=
  if t.useIndex then { t with searchIndex := t.insertKey t.frontKey } else t

theorem Rep.indexFront (h : Rep t es) : Rep t.indexFront es ∧ SameLimits t t.indexFront := by
  unfold FieldLookupTable.indexFront
  by_cases huse : t.useIndex = true
  · rw [if_pos huse]
    exact ⟨h.withIndex _, rfl, rfl, rfl⟩
  · rw [if_neg huse]
    exact ⟨h, SameLimits.refl t⟩

theorem prependField_of_le {name value : List UInt8} {n : UInt32}
    (hn : entry_size name value = some n) (hle : ¬n > t.tableCapacity) :
    t.prependField name value =
      (((evictWhile (fun t => t.tableCapacity - t.dataSize < n) t.nDynamic t).pushChunk.addFront n
        ⟨name, value⟩).indexFront, true) := by
  unfold prependField
  rw [hn]
  simp only [if_neg hle]
  rfl

theorem prependField_of_lt {name value : List UInt8} {n : UInt32}
    (hn : entry_size name value = some n) (hlt : n > t.tableCapacity) :
    t.prependField name value = (t.clearDynamicTable, true) := by
  unfold prependField
  simp [hn, hlt]

theorem evictWhile_prepend_rep (h : Rep t es) {n : UInt32}
    (hle : total HeaderField.size es ≤ t.tableCapacity.toNat) (hn : n ≤ t.tableCapacity) :
    Rep (evictWhile (fun t => t.tableCapacity - t.dataSize < n) t.nDynamic t)
        (evict HeaderField.size (t.tableCapacity.toNat - n.toNat) es) ∧
      SameLimits t (evictWhile (fun t => t.tableCapacity - t.dataSize < n) t.nDynamic t) := by
  have hnle := UInt32.le_iff_toNat_le.mp hn
  have hmore : ∀ t' es', SameLimits t t' → Rep t' es' → es' <+: es →
      (decide (t'.tableCapacity - t'.dataSize < n) = true ↔
        t.tableCapacity.toNat - n.toNat < total HeaderField.size es') := by
    intro t' es' hlimits hrep hstart
    have hsize := hrep.size
    have htotal := total_prefix_le HeaderField.size hstart
    have hcapacity := congrArg UInt32.toNat hlimits.tableCapacity
    have hsub := UInt32.toNat_sub_of_le t'.tableCapacity t'.dataSize
      (UInt32.le_iff_toNat_le.mpr (by omega))
    rw [decide_eq_true_iff, UInt32.lt_iff_toNat_lt, hsub]
    omega
  exact evictWhile_rep hmore h

/-- A field that does not fit empties the table, any other one evicts as many old entries as
needed. -/
theorem prependField_rep (h : Rep t es) {f : HeaderField}
    (hle : total HeaderField.size es ≤ t.tableCapacity.toNat) (hf : f.size ≤ 0xffffffff) :
    Rep (t.prependField f.name f.value).1
        (evict HeaderField.size t.tableCapacity.toNat (f :: es)) ∧
      SameLimits t (t.prependField f.name f.value).1 := by
  have ⟨n, hn, hn'⟩ := entry_size_of_le hf
  have hcap := t.tableCapacity.toNat_lt
  by_cases hgt : n > t.tableCapacity
  · have hlt := UInt32.lt_iff_toNat_lt.mp hgt
    rw [prependField_of_lt hn hgt, evict_cons_of_lt (by omega)]
    exact ⟨rep_clear t, rfl, rfl, rfl⟩
  · have hnle := UInt32.le_iff_toNat_le.mp (UInt32.not_lt.mp hgt)
    have ⟨hrep, hlimits⟩ := evictWhile_prepend_rep h hle (UInt32.not_lt.mp hgt)
    rw [hn'] at hrep hnle
    rw [prependField_of_le hn hgt, evict_cons hnle]
    have hroom := hrep.room
    have hsize := hroom.size
    have hkept := @total_evict_le _ HeaderField.size (t.tableCapacity.toNat - f.size) es
    have ⟨hrep', hlimits'⟩ := @Room.addFront _ _ hroom n f hn' (by omega)
    have ⟨hrep'', hlimits''⟩ := hrep'.indexFront
    exact ⟨hrep'', ((hlimits.trans (SameLimits.pushChunk _)).trans hlimits').trans hlimits''⟩

theorem updateDynamicTableSize_rep (h : Rep t es) {size : UInt32} (hsize : size ≠ 0)
    (hmax : size ≤ t.maxTableSize) :
    Rep (t.updateDynamicTableSize size).1 (evict HeaderField.size size.toNat es) ∧
      SameLimits { t with tableCapacity := size } (t.updateDynamicTableSize size).1 := by
  unfold updateDynamicTableSize
  rw [if_neg hsize, if_neg (UInt32.not_lt.mpr hmax)]
  have h' : Rep { t with tableCapacity := size } es :=
    ⟨h.fields, h.chunks, h.count, h.span, h.begin_le, h.begin_eq, h.entries, h.size⟩
  have hmore : ∀ t' es', SameLimits { t with tableCapacity := size } t' → Rep t' es' → es' <+: es →
      (decide (t'.dataSize > t'.tableCapacity) = true ↔
        size.toNat < total HeaderField.size es') := by
    intro t' es' hlimits hrep _
    rw [decide_eq_true_iff, hlimits.tableCapacity, ← hrep.size]
    exact UInt32.lt_iff_toNat_lt
  exact evictWhile_rep hmore h'

theorem updateDynamicTableSize_of_lt {size : UInt32} (h : t.maxTableSize < size) :
    t.updateDynamicTableSize size = (t, false) := by
  have hne : size ≠ 0 := by
    intro heq
    rw [heq] at h
    exact absurd h (UInt32.not_lt.mpr (UInt32.zero_le))
  unfold updateDynamicTableSize
  rw [if_neg hne, if_pos h]

theorem updateDynamicTableSize_zero : t.updateDynamicTableSize 0 = (t.clearDynamicTable, true) := by
  unfold updateDynamicTableSize
  rw [if_pos rfl]

/-! ## Reading -/

theorem staticPart_length : staticPart.length = 61 := rfl

theorem Rep.field (h : Rep t es) (i : ℕ) : t.field (62 + i) = es[i]? := by
  have hcount := h.count
  unfold FieldLookupTable.field indexIsValid
  rw [staticPart_length]
  by_cases hi : i < es.length
  · have hvalid : (decide (62 + i ≠ 0) && decide (62 + i ≤ 61 + t.nDynamic)) = true := by
      rw [Bool.and_eq_true, decide_eq_true_iff, decide_eq_true_iff]
      omega
    have hentry := h.entries i es[i] (getElem?_eq_getElem hi)
    rw [if_pos hvalid, if_neg (by omega), getElem?_eq_getElem hi, ← hentry]
    congr 2
    omega
  · have hvalid : ¬(decide (62 + i ≠ 0) && decide (62 + i ≤ 61 + t.nDynamic)) = true := by
      rw [Bool.and_eq_true, decide_eq_true_iff, decide_eq_true_iff]
      omega
    rw [if_neg hvalid, getElem?_eq_none (Nat.not_lt.mp hi)]

end FieldLookupTable

/-! ## Any sequence of operations -/

inductive TableOp where
  | prependField (name value : List UInt8)
  | updateDynamicTableSize (size : UInt32)
  | setMaxDynamicTableSize (size : UInt32)

def FieldLookupTable.apply (t : FieldLookupTable) : TableOp → FieldLookupTable
  | .prependField name value => (t.prependField name value).1
  | .updateDynamicTableSize size => (t.updateDynamicTableSize size).1
  | .setMaxDynamicTableSize size => t.setMaxDynamicTableSize size

/-- What the dynamic part is meant to be. -/
structure DynamicTable where
  entries : List HeaderField
  capacity : ℕ
  maxSize : ℕ

namespace DynamicTable

def make (maxSize : UInt32) : DynamicTable := ⟨[], maxSize.toNat, maxSize.toNat⟩

def resize (d : DynamicTable) (capacity : ℕ) : DynamicTable :=
  { d with entries := evict HeaderField.size capacity d.entries, capacity := capacity }

def prepend (d : DynamicTable) (f : HeaderField) : DynamicTable :=
  { d with entries := evict HeaderField.size d.capacity (f :: d.entries) }

def apply (d : DynamicTable) : TableOp → DynamicTable
  | .prependField name value => d.prepend ⟨name, value⟩
  | .updateDynamicTableSize size => if size.toNat ≤ d.maxSize then d.resize size.toNat else d
  | .setMaxDynamicTableSize size => { d.resize size.toNat with maxSize := size.toNat }

end DynamicTable

/-- The table reads as it is meant to. -/
structure Agrees (t : FieldLookupTable) (d : DynamicTable) : Prop where
  entries : ∀ i, t.field (62 + i) = d.entries[i]?
  dataSize : t.dynamicDataSize.toNat = total HeaderField.size d.entries
  bounded : t.dynamicDataSize.toNat ≤ d.capacity

/-- The table reads as it is meant to from a state on, whatever the operations are. -/
def Follows (t : FieldLookupTable) (d : DynamicTable) : List TableOp → Prop
  | [] => Agrees t d
  | op :: ops => Agrees t d ∧ Follows (t.apply op) (d.apply op) ops

/-- A field may be added if its size fits into 32 bits or there is nothing to evict, and if it does
not fit into the capacity that the table still has after its size was set to zero. -/
def Permits (t : FieldLookupTable) (d : DynamicTable) : TableOp → Prop
  | .prependField name value =>
    let f : HeaderField := ⟨name, value⟩
    (f.size ≤ 0xffffffff ∨ d.entries = []) ∧ (d.capacity = 0 → t.tableCapacity.toNat < f.size)
  | _ => True

def PermitsAll (t : FieldLookupTable) (d : DynamicTable) : List TableOp → Prop
  | [] => True
  | op :: ops => Permits t d op ∧ PermitsAll (t.apply op) (d.apply op) ops

structure Reflects (t : FieldLookupTable) (d : DynamicTable) : Prop where
  rep : t.Rep d.entries
  maxSize : t.maxTableSize.toNat = d.maxSize
  bounded : total HeaderField.size d.entries ≤ d.capacity
  capacity : d.capacity = t.tableCapacity.toNat ∨ d.capacity = 0

namespace Reflects

open FieldLookupTable

variable {t : FieldLookupTable} {d : DynamicTable}

theorem make (maxSize : UInt32) (use : Bool) :
    Reflects (FieldLookupTable.make maxSize use) (DynamicTable.make maxSize) where
  rep := rep_make maxSize use
  maxSize := rfl
  bounded := zero_le _
  capacity := .inl rfl

theorem agrees (h : Reflects t d) : Agrees t d where
  entries := h.rep.field
  dataSize := h.rep.size
  bounded := le_of_eq_of_le h.rep.size h.bounded

theorem size_pos (f : HeaderField) : 0 < f.size := succ_pos _

theorem nil_of_total_zero {es : List HeaderField} (h : total HeaderField.size es ≤ 0) : es = [] := by
  cases es with
  | nil => rfl
  | cons e es =>
    have hpos := size_pos e
    rw [total_cons] at h
    omega

theorem resize (h : Reflects t d) {size : UInt32} (hmax : size ≤ t.maxTableSize) :
    Reflects (t.updateDynamicTableSize size).1 (d.resize size.toNat) := by
  by_cases hzero : size = 0
  · have hnil : evict HeaderField.size (0 : UInt32).toNat d.entries = [] :=
      nil_of_total_zero (total_evict_le _ _)
    rw [hzero, updateDynamicTableSize_zero]
    constructor
    · show t.clearDynamicTable.Rep (evict HeaderField.size (0 : UInt32).toNat d.entries)
      rw [hnil]
      exact rep_clear t
    · exact h.maxSize
    · exact total_evict_le _ _
    · exact .inr rfl
  · have ⟨hrep, hlimits⟩ := updateDynamicTableSize_rep h.rep hzero hmax
    constructor
    · exact hrep
    · rw [hlimits.maxTableSize]
      exact h.maxSize
    · exact total_evict_le _ _
    · rw [hlimits.tableCapacity]
      exact .inl rfl

theorem capacity_le (h : Reflects t d) : d.capacity ≤ t.tableCapacity.toNat := by
  rcases h.capacity with hc | hc <;> omega

theorem prepend (h : Reflects t d) {f : HeaderField} (hfits : f.size ≤ 0xffffffff ∨ d.entries = [])
    (hcap : d.capacity = 0 → t.tableCapacity.toNat < f.size) :
    Reflects (t.prependField f.name f.value).1 (d.prepend f) := by
  have hlt := t.tableCapacity.toNat_lt
  have hdcap := h.capacity_le
  by_cases hsize : f.size ≤ 0xffffffff
  · have ⟨hrep, hlimits⟩ := prependField_rep h.rep (Nat.le_trans h.bounded hdcap) hsize
    have hevict : evict HeaderField.size t.tableCapacity.toNat (f :: d.entries) =
        evict HeaderField.size d.capacity (f :: d.entries) := by
      rcases h.capacity with hc | hc
      · rw [hc]
      · have hpos := size_pos f
        rw [evict_cons_of_lt (hcap hc), evict_cons_of_lt (by omega)]
    constructor
    · show (t.prependField f.name f.value).1.Rep (evict HeaderField.size d.capacity (f :: d.entries))
      rw [← hevict]
      exact hrep
    · rw [hlimits.maxTableSize]
      exact h.maxSize
    · exact total_evict_le _ _
    · rw [hlimits.tableCapacity]
      exact h.capacity
  · have hnil := hfits.resolve_left hsize
    rw [prependField_none (Nat.not_le.mp hsize)]
    have hevict : evict HeaderField.size d.capacity (f :: d.entries) = [] :=
      evict_cons_of_lt (by omega) _
    constructor
    · show t.Rep (evict HeaderField.size d.capacity (f :: d.entries))
      rw [hevict, ← hnil]
      exact h.rep
    · exact h.maxSize
    · exact total_evict_le _ _
    · exact h.capacity

/-- An operation that is permitted keeps the table and its meaning together. -/
theorem apply (h : Reflects t d) {op : TableOp} (hop : Permits t d op) :
    Reflects (t.apply op) (d.apply op) := by
  cases op with
  | prependField name value => exact @prepend t d h ⟨name, value⟩ hop.1 hop.2
  | updateDynamicTableSize size =>
    unfold FieldLookupTable.apply DynamicTable.apply
    simp only
    have hmax := h.maxSize
    by_cases hle : size.toNat ≤ d.maxSize
    · rw [if_pos hle]
      exact h.resize (UInt32.le_iff_toNat_le.mpr (by omega))
    · rw [if_neg hle, updateDynamicTableSize_of_lt (UInt32.lt_iff_toNat_lt.mpr (by omega))]
      exact h
  | setMaxDynamicTableSize size =>
    have hrep := h.rep
    have h' : Reflects { t with maxTableSize := size } { d with maxSize := size.toNat } :=
      ⟨⟨hrep.fields, hrep.chunks, hrep.count, hrep.span, hrep.begin_le, hrep.begin_eq, hrep.entries,
        hrep.size⟩, rfl, h.bounded, h.capacity⟩
    exact h'.resize (UInt32.le_refl size)

/-- A field that should not be added, or should have emptied the table, makes the sizes differ. -/
theorem permits_of_dataSize (h : Reflects t d) {f : HeaderField}
    (hsize : (t.prependField f.name f.value).1.dataSize.toNat =
      total HeaderField.size (d.prepend f).entries) :
    (f.size ≤ 0xffffffff ∨ d.entries = []) ∧ (d.capacity = 0 → t.tableCapacity.toNat < f.size) := by
  have hlt := t.tableCapacity.toNat_lt
  have hdcap := h.capacity_le
  have hpos := size_pos f
  have hprepend (hf : d.capacity < f.size) : (d.prepend f).entries = [] := evict_cons_of_lt hf _
  constructor
  · by_contra hboth
    rw [not_or, Nat.not_le] at hboth
    rw [prependField_none hboth.1, h.rep.size, hprepend (by omega)] at hsize
    exact hboth.2 (nil_of_total_zero (Nat.le_of_eq hsize))
  · intro hzero
    by_contra hle
    have ⟨hrep, _⟩ := prependField_rep h.rep (Nat.le_trans h.bounded hdcap)
      (show f.size ≤ 0xffffffff by omega)
    rw [hrep.size, hprepend (by omega), evict_cons (Nat.not_lt.mp hle), total_cons, total_nil]
      at hsize
    omega

theorem not_agrees (h : Reflects t d) {op : TableOp} (hop : ¬Permits t d op) :
    ¬Agrees (t.apply op) (d.apply op) := by
  cases op with
  | prependField name value =>
    intro hagrees
    exact hop (@permits_of_dataSize t d h ⟨name, value⟩ hagrees.dataSize)
  | updateDynamicTableSize size => exact absurd trivial hop
  | setMaxDynamicTableSize size => exact absurd trivial hop

theorem follows_iff (ops : List TableOp) (h : Reflects t d) :
    Follows t d ops ↔ PermitsAll t d ops := by
  induction ops generalizing t d with
  | nil => exact iff_of_true h.agrees trivial
  | cons op ops ih =>
    unfold Follows PermitsAll
    constructor
    · intro hfollows
      have hop : Permits t d op := by
        by_contra hop
        apply h.not_agrees hop
        cases ops with
        | nil => exact hfollows.2
        | cons op' ops => exact hfollows.2.1
      exact ⟨hop, (ih (h.apply hop)).mp hfollows.2⟩
    · intro hall
      exact ⟨h.agrees, (ih (h.apply hall.1)).mpr hall.2⟩

end Reflects

end HPack

end QtBase
