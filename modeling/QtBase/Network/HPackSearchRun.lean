import QtBase.Network.HPackSearch

/-! The search index over all runs of a table. -/
namespace QtBase

open List Nat

namespace HPack

open SizedQueue

/-- A call of a table. -/
inductive TableCall where
  | op (op : TableOp)
  | evictEntry
  | clearDynamicTable

namespace FieldLookupTable

variable {t : FieldLookupTable} {es : List HeaderField} {f : HeaderField}

def call (t : FieldLookupTable) : TableCall → FieldLookupTable
  | .op op => t.apply op
  | .evictEntry => t.evictEntry
  | .clearDynamicTable => t.clearDynamicTable

/-- Every `erase` that a change of the size makes removes a key. -/
def ResizeSound (t : FieldLookupTable) (size : UInt32) : Prop :=
  size ≠ 0 → size ≤ t.maxTableSize →
    ∀ t' ∈ evictedFrom (fun t => t.dataSize > t.tableCapacity) t.nDynamic
      { t with tableCapacity := size }, t'.erased = 1

/-- No `insert` or `erase` of the search index fails in a call. -/
def CallSound (t : FieldLookupTable) : TableCall → Prop
  | .op (.prependField name value) => ∀ n, entry_size name value = some n → n ≤ t.tableCapacity →
    let more := fun t : FieldLookupTable => t.tableCapacity - t.dataSize < n
    (∀ t' ∈ evictedFrom more t.nDynamic t, t'.erased = 1) ∧
      ((evictWhile more t.nDynamic t).pushChunk.addFront n ⟨name, value⟩).inserted = true
  | .op (.updateDynamicTableSize size) => t.ResizeSound size
  | .op (.setMaxDynamicTableSize size) => { t with maxTableSize := size }.ResizeSound size
  | .evictEntry => t.nDynamic ≠ 0 → t.erased = 1
  | .clearDynamicTable => True

/-- A field that is entered can be compared with all that stay beside it. -/
def Meets (t : FieldLookupTable) : TableCall → Prop
  | .op (.prependField name value) =>
    let f : HeaderField := ⟨name, value⟩
    f.size ≤ t.tableCapacity.toNat →
      ∀ e ∈ evict HeaderField.size (t.tableCapacity.toNat - f.size) t.dynamicPart, f.ComparableTo e
  | _ => True

/-- The searches that can compare what they look for agree with access. -/
structure Searches (t : FieldLookupTable) : Prop where
  field : ∀ name value, t.Searchable ⟨name, value⟩ → t.FindsField name value
  name : ∀ name, t.Searchable ⟨name, []⟩ → t.FindsName name

/-- The table is ready for a search, and no larger than it may be. -/
structure Reached (t : FieldLookupTable) (es : List HeaderField) : Prop where
  ready : Ready t es
  total_le : total HeaderField.size es ≤ t.tableCapacity.toNat

namespace Ready

theorem of_nil (h : Rep t []) (huse : t.useIndex = true) (hnodup : t.ptrs.Nodup)
    (hfresh : ∀ ptr ∈ t.ptrs, ptr < t.nextPtr) (hindex : t.searchIndex = []) : Ready t [] :=
  ⟨h, huse, Indexed.nil hnodup hfresh (le_trans (le_add_right _ _) h.room_le) hindex⟩

theorem make (maxSize : UInt32) : Ready (FieldLookupTable.make maxSize true) [] :=
  of_nil (rep_make maxSize true) rfl nodup_nil (fun _ h => absurd h not_mem_nil) rfl

theorem clearDynamicTable (h : Ready t es) : Ready t.clearDynamicTable [] :=
  of_nil (rep_clear t) h.useIndex nodup_nil (fun _ h => absurd h not_mem_nil) rfl

theorem withLimits (h : Ready t es) (maxSize capacity : UInt32) :
    Ready { t with maxTableSize := maxSize, tableCapacity := capacity } es := by
  have hrep := h.rep
  refine ⟨⟨hrep.fields, hrep.chunks, hrep.count, hrep.span, hrep.begin_le, hrep.begin_eq,
    hrep.entries, hrep.size⟩, h.useIndex, h.indexed.move rfl h.indexed.nodup h.indexed.fresh
      h.indexed.room fun _ _ _ => rfl⟩

theorem addFront (h : Ready t es) {n : UInt32} (hn : n.toNat = f.size)
    (hsum : t.dataSize.toNat + n.toNat < 2 ^ 32) (hf : ∀ e ∈ es, f.ComparableTo e) :
    Ready (t.pushChunk.addFront n f).indexFront (f :: es) ∧
      (t.pushChunk.addFront n f).inserted = true := by
  have hroom := h.rep.room
  have hsize := hroom.size
  have ⟨hrep, hlimits⟩ := @Room.addFront _ _ hroom n f hn (by rw [hsize, ← h.rep.size]; exact hsum)
  have ⟨hindexed, huse⟩ := h.pushChunk
  obtain ⟨hindex, hnext, hptrs, hbegin⟩ := @addFront_fields t.pushChunk n f
  have hpos := hroom.begin_pos
  refine indexFront hrep (hlimits.useIndex.trans huse) ?_ hf
  rw [hbegin, Nat.sub_add_cancel hpos]
  refine hindexed.move hindex (hptrs ▸ hindexed.nodup) ?_ ?_ fun i _ e => ?_
  · rw [hptrs, hnext]
    exact hindexed.fresh
  · rw [hptrs]
    exact hindexed.room
  · unfold keyAt
    rw [chunkAt_eq, chunkAt_eq, hptrs]

end Ready

namespace Reached

theorem prependField (h : Reached t es) (hmeets : t.Meets (.op (.prependField f.name f.value))) :
    (∃ es', Reached (t.prependField f.name f.value).1 es') ∧
      t.CallSound (.op (.prependField f.name f.value)) := by
  by_cases hsize : f.size ≤ 0xffffffff
  · obtain ⟨n, hn, hn'⟩ := entry_size_of_le hsize
    have hsound : ∀ {P : UInt32 → Prop}, (n ≤ t.tableCapacity → P n) →
        ∀ m, entry_size f.name f.value = some m → m ≤ t.tableCapacity → P m := by
      intro P hP m hm hle
      obtain rfl := Option.some.inj (hn.symm.trans hm)
      exact hP hle
    by_cases hgt : n > t.tableCapacity
    · rw [prependField_of_lt hn hgt]
      exact ⟨⟨[], h.ready.clearDynamicTable, zero_le _⟩,
        hsound fun hle => absurd hle (UInt32.not_le.mpr hgt)⟩
    · have hle := UInt32.not_lt.mp hgt
      have hnle := UInt32.le_iff_toNat_le.mp hle
      have hcap := t.tableCapacity.toNat_lt
      obtain ⟨hrep, hlimits⟩ := evictWhile_prepend_rep h.ready.rep h.total_le hle
      obtain ⟨⟨es', hready⟩, herased⟩ :=
        h.ready.evictWhile (fun t => t.tableCapacity - t.dataSize < n) t.nDynamic
      have hes : es' = evict HeaderField.size (t.tableCapacity.toNat - n.toNat) es := by
        rw [← hready.rep.dynamicPart_eq, hrep.dynamicPart_eq]
      have hkept := @total_evict_le _ HeaderField.size (t.tableCapacity.toNat - n.toNat) es
      have hdata := hready.rep.size
      rw [hes] at hready hdata
      have hcomparable := hmeets (le_trans (le_of_eq hn'.symm) hnle)
      rw [h.ready.rep.dynamicPart_eq, ← hn'] at hcomparable
      obtain ⟨hready', hinserted⟩ := hready.addFront hn' (by omega) hcomparable
      obtain ⟨hrep', hlimits'⟩ := prependField_rep h.ready.rep h.total_le hsize
      rw [prependField_of_le hn hgt] at hrep' hlimits' ⊢
      refine ⟨⟨_, hready', ?_⟩, hsound fun _ => ⟨herased, hinserted⟩⟩
      rw [hlimits'.tableCapacity, total_cons]
      omega
  · rw [prependField_none (not_le.mp hsize)]
    refine ⟨⟨es, h⟩, fun n hn => ?_⟩
    rw [entry_size_of_lt (not_le.mp hsize)] at hn
    cases hn

theorem clearDynamicTable (h : Reached t es) : Reached t.clearDynamicTable [] :=
  ⟨h.ready.clearDynamicTable, zero_le _⟩

theorem evictEntry (h : Reached t es) :
    (∃ es', Reached t.evictEntry es') ∧ t.CallSound .evictEntry := by
  rcases eq_nil_or_concat es with hnil | ⟨es', e, hes⟩
  · have hcount := h.ready.rep.count
    rw [hnil] at hcount
    have hsame : t.evictEntry = t := if_pos hcount
    rw [hsame]
    exact ⟨⟨es, h⟩, fun hne => absurd hcount hne⟩
  · rw [concat_eq_append] at hes
    rw [hes] at h
    have htotal := h.total_le
    rw [total_append] at htotal
    obtain ⟨hready, hone⟩ := h.ready.evictEntry
    refine ⟨⟨es', hready, ?_⟩, fun _ => hone⟩
    rw [(evictEntry_rep h.ready.rep).2.tableCapacity]
    omega

theorem resize (h : Ready t es) (hle : total HeaderField.size es ≤ t.tableCapacity.toNat)
    (size : UInt32) :
    (∃ es', Reached (t.updateDynamicTableSize size).1 es') ∧ t.ResizeSound size := by
  by_cases hzero : size = 0
  · rw [hzero, updateDynamicTableSize_zero]
    exact ⟨⟨[], h.clearDynamicTable, zero_le _⟩, fun hne => absurd rfl hne⟩
  · by_cases hmax : size ≤ t.maxTableSize
    · obtain ⟨hrep, hlimits⟩ := updateDynamicTableSize_rep h.rep hzero hmax
      obtain ⟨⟨es', hready⟩, herased⟩ := (h.withLimits t.maxTableSize size).evictWhile
        (fun t => t.dataSize > t.tableCapacity) t.nDynamic
      refine ⟨⟨es', ?_⟩, fun _ _ => herased⟩
      have hupdate : (t.updateDynamicTableSize size).1 = FieldLookupTable.evictWhile
          (fun t => t.dataSize > t.tableCapacity) t.nDynamic { t with tableCapacity := size } := by
        unfold updateDynamicTableSize
        rw [if_neg hzero, if_neg (UInt32.not_lt.mpr hmax)]
      rw [← hupdate] at hready
      have hes : es' = evict HeaderField.size size.toNat es := by
        rw [← hready.rep.dynamicPart_eq, hrep.dynamicPart_eq]
      refine ⟨hready, ?_⟩
      rw [hes, hlimits.tableCapacity]
      exact total_evict_le _ _
    · rw [updateDynamicTableSize_of_lt (UInt32.not_le.mp hmax)]
      exact ⟨⟨es, h, hle⟩, fun _ hle => absurd hle hmax⟩

/-- A call that meets the condition keeps the index, and none of its inserts and erases fails. -/
theorem call (h : Reached t es) {c : TableCall} (hc : t.Meets c) :
    (∃ es', Reached (t.call c) es') ∧ t.CallSound c := by
  cases c with
  | op op =>
    cases op with
    | prependField name value => exact @prependField t es ⟨name, value⟩ h hc
    | updateDynamicTableSize size => exact resize h.ready h.total_le size
    | setMaxDynamicTableSize size =>
      exact resize (h.ready.withLimits size t.tableCapacity) h.total_le size
  | evictEntry => exact h.evictEntry
  | clearDynamicTable => exact ⟨⟨[], h.clearDynamicTable⟩, trivial⟩

theorem searches (h : Reached t es) : t.Searches :=
  ⟨fun _ _ hs => h.ready.findsField hs, fun _ hs => h.ready.findsName hs⟩

end Reached

/-- The condition on all calls of a run. -/
def MeetsAll (t : FieldLookupTable) : List TableCall → Prop
  | [] => True
  | c :: calls => t.Meets c ∧ (t.call c).MeetsAll calls

/-- Searches agree with access before and behind every call of a run, and no insert or erase
fails. -/
def SearchesThrough (t : FieldLookupTable) : List TableCall → Prop
  | [] => t.Searches
  | c :: calls => t.Searches ∧ t.CallSound c ∧ (t.call c).SearchesThrough calls

theorem Reached.searchesThrough (h : Reached t es) {calls : List TableCall}
    (hall : t.MeetsAll calls) : t.SearchesThrough calls := by
  induction calls generalizing t es with
  | nil => exact h.searches
  | cons c calls ih =>
    obtain ⟨⟨es', h'⟩, hsound⟩ := h.call hall.1
    exact ⟨h.searches, hsound, ih h' hall.2⟩

/-- A name whose only entry has a long value is not found, because the difference of the lengths
turns negative. -/
theorem indexOfName_long {v : List UInt8} (hlong : 2 ^ 31 < v.length)
    (hfits : v.length + 33 ≤ 0xffffffff) :
    let t := (make 0xffffffff true).call (.op (.prependField [120] v))
    t.indexOfName [120] = 0 ∧ t.field 62 = some ⟨[120], v⟩ := by
  intro t
  have hf : (⟨[120], v⟩ : HeaderField).size = v.length + 33 := by
    unfold HeaderField.size
    show 1 + v.length + 32 = v.length + 33
    omega
  have hcap : (make 0xffffffff true).tableCapacity.toNat = 0xffffffff := rfl
  have hempty : evict HeaderField.size ((make 0xffffffff true).tableCapacity.toNat -
      (⟨[120], v⟩ : HeaderField).size) [] = [] := evict_of_le (zero_le _)
  have hstart : Reached (make 0xffffffff true) [] := ⟨Ready.make 0xffffffff, zero_le _⟩
  obtain ⟨⟨es, hreached⟩, -⟩ := @Reached.prependField _ [] ⟨[120], v⟩ hstart fun _ e he => by
    rw [hstart.ready.rep.dynamicPart_eq, hempty] at he
    exact absurd he not_mem_nil
  have hrep : t.Rep (evict HeaderField.size _ [⟨[120], v⟩]) :=
    (@prependField_rep _ [] hstart.ready.rep ⟨[120], v⟩ hstart.total_le (by omega)).1
  rw [evict_cons (by omega), hempty] at hrep
  have hes : es = [⟨[120], v⟩] := by
    rw [← hreached.ready.rep.dynamicPart_eq]
    exact hrep.dynamicPart_eq
  rw [hes] at hreached
  refine ⟨?_, hrep.field 0⟩
  have hindex : t.searchIndex = [t.keyAt t.beginPos ⟨[120], v⟩] :=
    perm_singleton.mp hreached.ready.indexed.perm
  have hless : t.less (t.keyAt t.beginPos ⟨[120], v⟩) ⟨⟨[120], []⟩, none, 0⟩ = true := by
    have hname : compare [120] [120] = 0 := by decide
    have hvalue : compare v [] < 0 := by
      rw [compare_to_nil, ← Int.sub_bmod_right, Int.bmod_eq_of_le (by omega) (by omega)]
      omega
    unfold less keyAt
    dsimp only
    rw [hname, if_neg (not_not.mpr rfl), if_pos hvalue.ne]
    exact decide_eq_true hvalue
  have huse : t.useIndex = true := hreached.ready.useIndex
  have hdynamic : lookup.dynamic t ⟨[120], []⟩ (fun f => f.name == [120]) = 0 := by
    unfold lookup.dynamic lower_bound
    simp [huse, hindex, hless]
  have hstatic : staticPart[findInStaticPart ⟨[120], []⟩ false]? = none := by decide +kernel
  unfold indexOfName lookup
  rw [hstatic]
  exact hdynamic

end FieldLookupTable

end HPack

end QtBase
