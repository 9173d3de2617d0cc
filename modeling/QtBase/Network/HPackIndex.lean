import QtBase.Network.HPackOrder

/-! The search index: the keys of all entries, ordered by field and, among equal ones, from the
oldest entry to the newest. -/
namespace QtBase

open List

namespace HPack

open Lib SizedQueue

namespace FieldLookupTable

variable {t t' : FieldLookupTable} {es : List HeaderField} {e f : HeaderField} {p : ℕ}

/-! ## Places -/

/-- The addresses of the chunks. -/
def ptrs (t : FieldLookupTable) : List ℕ := t.chunks.map Chunk.ptr

theorem chunkAt_eq (t : FieldLookupTable) (i : ℕ) : t.chunkAt i = t.ptrs[i]? :=
  getElem?_map.symm

theorem indexOfChunk_eq (t : FieldLookupTable) (ptr : ℕ) :
    t.indexOfChunk ptr = t.ptrs.findIdx fun x => x == ptr := by
  unfold indexOfChunk ptrs
  rw [findIdx_map]
  rfl

/-- The key of a field at a position. -/
def keyAt (t : FieldLookupTable) (p : ℕ) (e : HeaderField) : SearchEntry :=
  ⟨e, t.chunkAt (p / ChunkSize), p % ChunkSize⟩

/-- The keys of fields from a position on. -/
def keys (t : FieldLookupTable) : ℕ → List HeaderField → List SearchEntry
  | _, [] => []
  | p, e :: es => t.keyAt p e :: t.keys (p + 1) es

/-- Later positions come first, and what is not in the index before all of them. -/
def place (t : FieldLookupTable) (e : SearchEntry) : WithBot ℤ := match e.chunk with
  | none => ⊥
  | some ptr => ((-(t.indexOfChunk ptr * ChunkSize + e.offset : ℕ) : ℤ) : WithBot ℤ)

def rank (t : FieldLookupTable) (e : SearchEntry) : (List ℕ ×ₗ List ℕ) ×ₗ WithBot ℤ :=
  toLex (e.field.key, t.place e)

theorem keys_append (p : ℕ) (es es' : List HeaderField) :
    t.keys p (es ++ es') = t.keys p es ++ t.keys (p + es.length) es' := by
  induction es generalizing p with
  | nil => rfl
  | cons e es ih =>
    rw [cons_append, length_cons, keys, keys, ih, cons_append, Nat.add_right_comm,
      Nat.add_assoc]

theorem keys_congr {p' : ℕ} (h : ∀ i < es.length, ∀ e, t'.keyAt (p' + i) e = t.keyAt (p + i) e) :
    t'.keys p' es = t.keys p es := by
  induction es generalizing p p' with
  | nil => rfl
  | cons e es ih =>
    rw [length_cons] at h
    rw [keys, keys]
    congr 1
    · exact h 0 (Nat.succ_pos _) e
    · refine ih fun i hi e => ?_
      rw [Nat.add_right_comm, Nat.add_assoc, Nat.add_right_comm p, Nat.add_assoc p]
      exact h (i + 1) (Nat.succ_lt_succ hi) e

variable {x : SearchEntry}

theorem mem_keys :
    x ∈ t.keys p es ↔ ∃ i e, es[i]? = some e ∧ x = t.keyAt (p + i) e := by
  induction es generalizing p with
  | nil => exact ⟨fun h => absurd h not_mem_nil, fun ⟨i, e, h, _⟩ => by cases h⟩
  | cons e es ih =>
    unfold keys
    rw [mem_cons, ih]
    constructor
    · intro hor
      rcases hor with rfl | ⟨i, e', he', rfl⟩
      · exact ⟨0, e, rfl, rfl⟩
      · exact ⟨i + 1, e', he', by rw [Nat.add_right_comm, Nat.add_assoc]⟩
    · intro ⟨i, e', he', hx⟩
      cases i with
      | zero =>
        obtain rfl := Option.some.inj he'
        exact .inl hx
      | succ i => exact .inr ⟨i, e', he', by rw [hx, Nat.add_right_comm, Nat.add_assoc]⟩

theorem indexOfChunk_of_chunkAt (hnodup : t.ptrs.Nodup) {i ptr : ℕ} (h : t.chunkAt i = some ptr) :
    t.indexOfChunk ptr = i := by
  rw [chunkAt_eq] at h
  obtain ⟨hi, hptr⟩ := List.getElem?_eq_some_iff.mp h
  rw [indexOfChunk_eq, findIdx_eq hi]
  refine ⟨beq_iff_eq.mpr hptr, fun j hj => ?_⟩
  rw [beq_eq_false_iff_ne, ← hptr]
  exact fun heq => absurd (hnodup.getElem_inj_iff.mp heq) (Nat.ne_of_lt hj)

theorem place_keyAt (hnodup : t.ptrs.Nodup) (hp : p < ChunkSize * t.ptrs.length)
    (e : HeaderField) : t.place (t.keyAt p e) = ((-(p : ℕ) : ℤ) : WithBot ℤ) := by
  have hchunk : p / ChunkSize < t.ptrs.length := Nat.div_lt_of_lt_mul hp
  have hat : t.chunkAt (p / ChunkSize) = some (t.ptrs[p / ChunkSize]) := by
    rw [chunkAt_eq, getElem?_eq_getElem hchunk]
  unfold place keyAt
  dsimp only
  rw [hat]
  dsimp only
  rw [indexOfChunk_of_chunkAt hnodup hat, Nat.mul_comm, Nat.div_add_mod]

theorem place_lt_iff {a b : SearchEntry} (ha : a.offset < ChunkSize) (hb : b.offset < ChunkSize) :
    (match a.chunk, b.chunk with
    | none, chunk => chunk.isSome
    | some _, none => false
    | some left, some right =>
      if t.indexOfChunk left ≠ t.indexOfChunk right then
        decide (t.indexOfChunk left > t.indexOfChunk right)
      else decide (a.offset > b.offset)) = true ↔ t.place a < t.place b := by
  unfold place
  unfold ChunkSize at ha hb ⊢
  cases a.chunk with
  | none =>
    cases b.chunk with
    | none => exact iff_of_false Bool.false_ne_true (lt_irrefl _)
    | some right => exact iff_of_true rfl (WithBot.bot_lt_coe _)
  | some left =>
    cases b.chunk with
    | none => exact iff_of_false Bool.false_ne_true not_lt_bot
    | some right =>
      dsimp only
      rw [WithBot.coe_lt_coe]
      split_ifs
      · rw [decide_eq_true_iff]
        omega
      · rw [decide_eq_true_iff]
        omega

theorem less_iff {a b : SearchEntry} (h : a.field.ComparableTo b.field) (ha : a.offset < ChunkSize)
    (hb : b.offset < ChunkSize) : t.less a b = true ↔ t.rank a < t.rank b := by
  unfold less rank
  dsimp only
  rw [tells_then_iff (compare_tells h.1), Prod.Lex.toLex_lt_toLex]
  dsimp only
  have hplace := @place_lt_iff t a b ha hb
  rw [HeaderField.key_lt_iff]
  constructor
  · intro hor
    rcases hor with hname | ⟨hname, hrest⟩
    · exact .inl (.inl hname)
    · rw [tells_then_iff (compare_tells (h.2 (bytes_injective hname)))] at hrest
      rcases hrest with hvalue | ⟨hvalue, hlt⟩
      · exact .inl (.inr ⟨hname, hvalue⟩)
      · exact .inr ⟨congrArg toLex (Prod.ext hname hvalue), hplace.mp hlt⟩
  · intro hor
    rcases hor with (hname | ⟨hname, hvalue⟩) | ⟨hkey, hlt⟩
    · exact .inl hname
    · refine .inr ⟨hname, ?_⟩
      rw [tells_then_iff (compare_tells (h.2 (bytes_injective hname)))]
      exact .inl hvalue
    · have hfield := HeaderField.key_injective hkey
      refine .inr ⟨by rw [hfield], ?_⟩
      rw [tells_then_iff (compare_tells (h.2 (by rw [hfield])))]
      exact .inr ⟨by rw [hfield], hplace.mpr hlt⟩

/-! ## The index -/

/-- The index holds the keys of all entries from a position on. -/
structure Indexed (t : FieldLookupTable) (p : ℕ) (es : List HeaderField) : Prop where
  nodup : t.ptrs.Nodup
  fresh : ∀ ptr ∈ t.ptrs, ptr < t.nextPtr
  room : p + es.length ≤ ChunkSize * t.ptrs.length
  sorted : OrderedSet.Sorted t.rank t.searchIndex
  perm : t.searchIndex.Perm (t.keys p es)
  comparable : ∀ e ∈ es, ∀ e' ∈ es, e.ComparableTo e'

theorem offset_keyAt (t : FieldLookupTable) (p : ℕ) (e : HeaderField) :
    (t.keyAt p e).offset < ChunkSize := Nat.mod_lt p (Nat.succ_pos 15)

theorem ranks_of_comparable {s : SearchEntry → Prop} (hoffset : ∀ x, s x → x.offset < ChunkSize)
    (h : ∀ x y, s x → s y → x.field.ComparableTo y.field) :
    OrderedSet.Ranks t.less t.rank s := fun a b ha hb =>
  less_iff (h a b ha hb) (hoffset a ha) (hoffset b hb)

namespace Indexed

theorem mem_iff (h : Indexed t p es) :
    x ∈ t.searchIndex ↔ ∃ i e, es[i]? = some e ∧ x = t.keyAt (p + i) e := by
  rw [h.perm.mem_iff, mem_keys]

theorem offset_lt (h : Indexed t p es) (hx : x ∈ t.searchIndex) :
    x.offset < ChunkSize := by
  obtain ⟨i, e, -, rfl⟩ := h.mem_iff.1 hx
  exact offset_keyAt t _ e

theorem field_mem (h : Indexed t p es) (hx : x ∈ t.searchIndex) :
    x.field ∈ es := by
  obtain ⟨i, e, he, rfl⟩ := h.mem_iff.1 hx
  exact mem_of_getElem? he

/-- The index is ranked, also together with a key of a field that can be compared. -/
theorem ranks (h : Indexed t p es) : OrderedSet.Ranks t.less t.rank fun x => x ∈ t.searchIndex :=
  ranks_of_comparable (fun _ => h.offset_lt) fun _ _ hx hy =>
    h.comparable _ (h.field_mem hx) _ (h.field_mem hy)

theorem ranks_with (h : Indexed t p es) {k : SearchEntry} (hk : k.offset < ChunkSize)
    (hcomparable : ∀ e ∈ es, k.field.ComparableTo e) :
    OrderedSet.Ranks t.less t.rank fun x => x = k ∨ x ∈ t.searchIndex := by
  refine ranks_of_comparable (fun x hx => ?_) fun x y hx hy => ?_
  · rcases hx with rfl | hx
    · exact hk
    · exact h.offset_lt hx
  · rcases hx with rfl | hx
    · rcases hy with rfl | hy
      · exact HeaderField.ComparableTo.refl _
      · exact hcomparable _ (h.field_mem hy)
    · rcases hy with rfl | hy
      · exact (hcomparable _ (h.field_mem hx)).symm
      · exact h.comparable _ (h.field_mem hx) _ (h.field_mem hy)

theorem place_eq (h : Indexed t p es) {i : ℕ} (hi : es[i]? = some e) (f : HeaderField) :
    t.place (t.keyAt (p + i) f) = ((-(p + i : ℕ) : ℤ) : WithBot ℤ) := by
  have hroom := h.room
  have hlt := (List.getElem?_eq_some_iff.mp hi).1
  exact place_keyAt h.nodup (by omega) f

theorem nil (hnodup : t.ptrs.Nodup) (hfresh : ∀ ptr ∈ t.ptrs, ptr < t.nextPtr)
    (hroom : p ≤ ChunkSize * t.ptrs.length) (hindex : t.searchIndex = []) : Indexed t p [] where
  nodup := hnodup
  fresh := hfresh
  room := hroom
  sorted := by
    rw [hindex]
    exact List.Pairwise.nil
  perm := by rw [hindex]; rfl
  comparable _ he := absurd he not_mem_nil

/-- Erasing the last entry. -/
theorem erase (h : Indexed t p (es ++ [e])) :
    Indexed { t with searchIndex := t.eraseKey (t.keyAt (p + es.length) e) } p es ∧
      (t.searchIndex.filter fun x => t.equivalent x (t.keyAt (p + es.length) e)).length = 1 := by
  have hmem : t.keyAt (p + es.length) e ∈ t.searchIndex :=
    h.mem_iff.2 ⟨es.length, e, by rw [getElem?_concat_length], rfl⟩
  obtain ⟨hperm, hone⟩ := OrderedSet.erase_perm h.sorted h.ranks hmem
  have hroom := h.room
  rw [length_append] at hroom
  refine ⟨⟨h.nodup, h.fresh, Nat.le_trans (by omega) hroom, OrderedSet.sorted_erase h.sorted, ?_,
    fun a ha b hb => h.comparable a (mem_append_left _ ha) b (mem_append_left _ hb)⟩,
    hone⟩
  have hkeys := h.perm
  have hsame : keys { t with searchIndex := t.eraseKey (t.keyAt (p + es.length) e) } p es =
      t.keys p es := keys_congr fun _ _ _ => rfl
  rw [keys_append] at hkeys
  rw [hsame]
  exact (hperm.symm.trans (hkeys.trans perm_append_comm)).cons_inv

/-- Inserting a new first entry. -/
theorem insert (h : Indexed t (p + 1) es) (hf : ∀ e ∈ es, f.ComparableTo e) :
    Indexed { t with searchIndex := t.insertKey (t.keyAt p f) } p (f :: es) ∧
      t.searchIndex.any (t.equivalent (t.keyAt p f)) = false := by
  have hroom := h.room
  have hranks := h.ranks_with (offset_keyAt t p f) hf
  have hne : ∀ x ∈ t.searchIndex, t.rank x ≠ t.rank (t.keyAt p f) := by
    intro x hx heq
    obtain ⟨i, e, he, rfl⟩ := h.mem_iff.1 hx
    have hplace := congrArg Prod.snd (toLex.injective heq)
    dsimp only at hplace
    rw [h.place_eq he e, place_keyAt h.nodup (by omega) f, WithBot.coe_inj] at hplace
    omega
  have hsame : keys { t with searchIndex := t.insertKey (t.keyAt p f) } p (f :: es) =
      t.keys p (f :: es) := keys_congr fun _ _ _ => rfl
  refine ⟨⟨h.nodup, h.fresh, ?_, OrderedSet.sorted_insert h.sorted hranks hne, ?_, ?_⟩,
    OrderedSet.any_equivalent_eq_false hranks hne⟩
  · rw [length_cons]
    show p + (es.length + 1) ≤ ChunkSize * t.ptrs.length
    omega
  · rw [hsame]
    exact (OrderedSet.insert_perm hranks hne).trans (h.perm.cons _)
  · intro a ha b hb
    rcases mem_cons.mp ha with ha' | ha'
    · rw [ha']
      rcases mem_cons.mp hb with hb' | hb'
      · rw [hb']
        exact HeaderField.ComparableTo.refl f
      · exact hf b hb'
    · rcases mem_cons.mp hb with hb' | hb'
      · rw [hb']
        exact (hf a ha').symm
      · exact h.comparable a ha' b hb'

/-- Positions may be moved, all by the same distance. -/
theorem move {p' : ℕ} (h : Indexed t p es) (hindex : t'.searchIndex = t.searchIndex)
    (hnodup : t'.ptrs.Nodup) (hfresh : ∀ ptr ∈ t'.ptrs, ptr < t'.nextPtr)
    (hroom : p' + es.length ≤ ChunkSize * t'.ptrs.length)
    (hsame : ∀ i < es.length, ∀ e, t'.keyAt (p' + i) e = t.keyAt (p + i) e) :
    Indexed t' p' es := by
  refine ⟨hnodup, hfresh, hroom, ?_, ?_, h.comparable⟩
  · rw [hindex]
    refine h.sorted.imp_of_mem fun {a b} ha hb hlt => ?_
    obtain ⟨i, e, he, rfl⟩ := h.mem_iff.1 ha
    obtain ⟨j, f, hf, rfl⟩ := h.mem_iff.1 hb
    have hi := (List.getElem?_eq_some_iff.mp he).1
    have hj := (List.getElem?_eq_some_iff.mp hf).1
    unfold rank at hlt ⊢
    rw [Prod.Lex.toLex_lt_toLex] at hlt ⊢
    dsimp only at hlt ⊢
    rw [h.place_eq he e, h.place_eq hf f, WithBot.coe_lt_coe] at hlt
    rw [← hsame i hi e, ← hsame j hj f, place_keyAt hnodup (by omega) e,
      place_keyAt hnodup (by omega) f, WithBot.coe_lt_coe]
    refine hlt.imp_right fun ⟨hkey, hplace⟩ => ⟨hkey, ?_⟩
    omega
  · rw [hindex, keys_congr hsame]
    exact h.perm

end Indexed

/-! ## The operations -/

theorem Rep.room_le (h : Rep t es) : t.beginPos + es.length ≤ ChunkSize * t.ptrs.length := by
  have hspan := h.span
  have hchunks := h.chunks
  unfold ptrs
  rw [length_map]
  unfold ChunkSize at *
  omega

theorem Rep.backKey (h : Rep t (es ++ [e])) :
    t.backKey = t.keyAt (t.beginPos + es.length) e := by
  have hspan := h.span
  rw [length_append, length_singleton] at hspan
  unfold FieldLookupTable.backKey keyAt
  rw [h.back, hspan, ← Nat.add_assoc, Nat.add_sub_cancel]

theorem keyAt_of_isPrefix (hleading : t'.ptrs <+: t.ptrs) (hp : p < ChunkSize * t'.ptrs.length)
    (e : HeaderField) : t'.keyAt p e = t.keyAt p e := by
  have hchunk : p / ChunkSize < t'.ptrs.length := Nat.div_lt_of_lt_mul hp
  obtain ⟨rest, hrest⟩ := hleading
  unfold keyAt
  rw [chunkAt_eq, chunkAt_eq, ← hrest, getElem?_append_left hchunk]

theorem dropEntry_fields (n : UInt32) :
    (t.dropEntry n).searchIndex = t.searchIndex ∧ (t.dropEntry n).nextPtr = t.nextPtr ∧
      (t.dropEntry n).ptrs <+: t.ptrs ∧
      ((t.dropEntry n).beginPos = t.beginPos ∨ t.endPos - 1 = t.beginPos) := by
  unfold dropEntry
  dsimp only
  split_ifs with hlast
  · exact ⟨rfl, rfl, prefix_rfl, .inr hlast⟩
  · refine ⟨rfl, rfl, ?_, .inl rfl⟩
    unfold ptrs
    dsimp only
    rw [map_dropLast]
    exact dropLast_prefix _
  · exact ⟨rfl, rfl, prefix_rfl, .inl rfl⟩

theorem dropEntry_indexed (h : Indexed t t.beginPos es)
    (hspan : t.endPos = t.beginPos + es.length + 1) {n : UInt32} (hrep : Rep (t.dropEntry n) es) :
    Indexed (t.dropEntry n) (t.dropEntry n).beginPos es := by
  obtain ⟨hindex, hnext, hleading, hbegin⟩ := dropEntry_fields (t := t) n
  have hroom := hrep.room_le
  refine h.move hindex (h.nodup.sublist hleading.sublist)
    (fun ptr hptr => hnext ▸ h.fresh ptr (hleading.subset hptr)) hroom fun i hi e => ?_
  have hsame := hbegin.resolve_right (by omega)
  rw [hsame] at hroom ⊢
  exact keyAt_of_isPrefix hleading (by omega) e

/-- How many keys `evictEntry` erases from the index. -/
def erased (t : FieldLookupTable) : ℕ :=
  (t.searchIndex.filter fun x => t.equivalent x t.backKey).length

theorem evictEntry_indexed (hrep : Rep t (es ++ [e])) (huse : t.useIndex = true)
    (h : Indexed t t.beginPos (es ++ [e])) :
    Indexed t.evictEntry t.evictEntry.beginPos es ∧ t.erased = 1 := by
  have hsize := hrep.size_lt
  rw [total_append, total_cons, total_nil, Nat.add_zero] at hsize
  have ⟨n, hn, hn'⟩ := entry_size_of_le (show e.size ≤ 0xffffffff by omega)
  have hcount := hrep.count
  have hspan := hrep.span
  rw [length_append, length_singleton] at hcount hspan
  obtain ⟨herase, hone⟩ := h.erase
  rw [← hrep.backKey] at herase hone
  have hrep' := hrep.withIndex (t.eraseKey t.backKey)
  unfold evictEntry
  rw [if_neg (by omega)]
  simp only [if_pos huse]
  rw [hrep'.back, hn]
  exact ⟨dropEntry_indexed herase (by rw [hspan, Nat.add_assoc]) (dropEntry_rep hrep' hn').1, hone⟩

/-- The table has these entries, and so has its index. -/
structure Ready (t : FieldLookupTable) (es : List HeaderField) : Prop where
  rep : Rep t es
  useIndex : t.useIndex = true
  indexed : Indexed t t.beginPos es

theorem Ready.evictEntry (h : Ready t (es ++ [e])) : Ready t.evictEntry es ∧ t.erased = 1 := by
  have ⟨hrep, hlimits⟩ := evictEntry_rep h.rep
  have ⟨hindexed, hone⟩ := evictEntry_indexed h.rep h.useIndex h.indexed
  exact ⟨⟨hrep, hlimits.useIndex.trans h.useIndex, hindexed⟩, hone⟩

/-- The tables that a loop evicts an entry of. -/
def evictedFrom (more : FieldLookupTable → Bool) : ℕ → FieldLookupTable → List FieldLookupTable
  | 0, _ => []
  | n + 1, t => if t.nDynamic ≠ 0 && more t then t :: evictedFrom more n t.evictEntry else []

theorem Ready.evictWhile (h : Ready t es) (more : FieldLookupTable → Bool) (n : ℕ) :
    (∃ es', Ready (FieldLookupTable.evictWhile more n t) es') ∧
      ∀ t' ∈ evictedFrom more n t, t'.erased = 1 := by
  induction n generalizing t es with
  | zero => exact ⟨⟨es, h⟩, fun t' ht' => absurd ht' not_mem_nil⟩
  | succ n ih =>
    unfold FieldLookupTable.evictWhile evictedFrom
    split_ifs with hmore
    · rw [Bool.and_eq_true, decide_eq_true_iff, h.rep.count] at hmore
      rcases eq_nil_or_concat es with hnil | ⟨es', e, hes⟩
      · rw [hnil] at hmore
        exact absurd rfl hmore.1
      · rw [hes, concat_eq_append] at h
        obtain ⟨hready, hone⟩ := h.evictEntry
        obtain ⟨hready', hall⟩ := ih hready
        refine ⟨hready', fun t' ht' => ?_⟩
        rcases mem_cons.mp ht' with rfl | ht'
        · exact hone
        · exact hall t' ht'
    · exact ⟨⟨es, h⟩, fun t' ht' => absurd ht' not_mem_nil⟩

theorem Ready.pushChunk (h : Ready t es) :
    Indexed t.pushChunk t.pushChunk.beginPos es ∧ t.pushChunk.useIndex = true := by
  have hroom := h.rep.room_le
  refine ⟨?_, (SameLimits.pushChunk t).useIndex.trans h.useIndex⟩
  unfold FieldLookupTable.pushChunk
  split_ifs with hbegin
  · generalize ht' : ({ t with
      chunks := ⟨t.nextPtr, List.replicate ChunkSize ⟨[], []⟩⟩ :: t.chunks
      endPos := t.endPos + ChunkSize
      beginPos := ChunkSize
      nextPtr := t.nextPtr + 1 } : FieldLookupTable) = t'
    have hptrs : t'.ptrs = t.nextPtr :: t.ptrs := by rw [← ht']; rfl
    have hnext : t'.nextPtr = t.nextPtr + 1 := by rw [← ht']
    have hposition : t'.beginPos = ChunkSize := by rw [← ht']
    rw [hposition]
    refine h.indexed.move (by rw [← ht']) ?_ ?_ ?_ ?_
    · rw [hptrs]
      exact nodup_cons.mpr
        ⟨fun hmem => Nat.lt_irrefl _ (h.indexed.fresh _ hmem), h.indexed.nodup⟩
    · intro ptr hptr
      rw [hptrs] at hptr
      rw [hnext]
      rcases mem_cons.mp hptr with rfl | hptr
      · exact Nat.lt_succ_self _
      · exact Nat.lt_succ_of_lt (h.indexed.fresh _ hptr)
    · rw [hptrs, length_cons, Nat.mul_succ]
      omega
    · intro i _ e
      unfold keyAt
      rw [hbegin, Nat.zero_add, Nat.add_mod_left, Nat.add_div_left i (show 0 < ChunkSize by decide),
        chunkAt_eq, chunkAt_eq, hptrs, getElem?_cons_succ]
  · exact h.indexed

theorem addFront_fields (n : UInt32) (f : HeaderField) :
    (t.addFront n f).searchIndex = t.searchIndex ∧ (t.addFront n f).nextPtr = t.nextPtr ∧
      (t.addFront n f).ptrs = t.ptrs ∧ (t.addFront n f).beginPos = t.beginPos - 1 := by
  refine ⟨rfl, rfl, ?_, rfl⟩
  unfold addFront setFront ptrs
  dsimp only
  cases t.chunks with
  | nil => rfl
  | cons c cs => rfl

theorem Rep.frontKey (h : Rep t (f :: es)) : t.frontKey = t.keyAt t.beginPos f := by
  have hfront := h.entries 0 f rfl
  rw [Nat.add_zero] at hfront
  have hlt : t.beginPos < ChunkSize :=
    Nat.lt_of_le_of_ne h.begin_le fun heq => cons_ne_nil f es (h.begin_eq heq)
  unfold FieldLookupTable.frontKey keyAt front
  rw [hfront, Nat.div_eq_of_lt hlt, Nat.mod_eq_of_lt hlt]

/-- Whether the key of the first entry is inserted into the index. -/
def inserted (t : FieldLookupTable) : Bool := !t.searchIndex.any (t.equivalent t.frontKey)

theorem Ready.indexFront (hrep : Rep t (f :: es)) (huse : t.useIndex = true)
    (h : Indexed t (t.beginPos + 1) es) (hf : ∀ e ∈ es, f.ComparableTo e) :
    Ready t.indexFront (f :: es) ∧ t.inserted = true := by
  have ⟨hrep', hlimits⟩ := hrep.indexFront
  obtain ⟨hindexed, hany⟩ := h.insert hf
  rw [← hrep.frontKey] at hindexed hany
  refine ⟨⟨hrep', hlimits.useIndex.trans huse, ?_⟩, ?_⟩
  · unfold FieldLookupTable.indexFront
    rw [if_pos huse]
    exact hindexed
  · unfold inserted
    rw [hany]
    rfl

end FieldLookupTable

end HPack

end QtBase
