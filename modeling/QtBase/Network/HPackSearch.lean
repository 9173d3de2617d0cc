import QtBase.Network.HPackIndex

/-! What a search of the table finds, in all runs in which the differences of the lengths that are
compared fit into an `int`. -/
namespace QtBase

open List Bool Option

namespace HPack

open Lib SizedQueue

namespace FieldLookupTable

variable {t : FieldLookupTable} {es : List HeaderField} {f : HeaderField}
  {found : HeaderField → Bool}

/-! ## Access -/

def numberOfEntries (t : FieldLookupTable) : ℕ := staticPart.length + t.nDynamic

/-- The fields of the dynamic part. -/
def dynamicPart (t : FieldLookupTable) : List HeaderField :=
  (List.range t.nDynamic).map fun i => t.fieldAt (t.beginPos + i)

theorem Rep.dynamicPart_eq (h : Rep t es) : t.dynamicPart = es := by
  unfold dynamicPart
  refine ext_getElem ?_ fun i hi hi' => ?_
  · rw [length_map, length_range, h.count]
  · rw [getElem_map, getElem_range]
    exact h.entries i es[i] (List.getElem?_eq_getElem hi')

theorem field_static {i : ℕ} (hi : i < 61) : t.field (i + 1) = staticPart[i]? := by
  unfold field indexIsValid
  rw [staticPart_length, if_pos (by simp; omega), if_pos (by omega)]
  rfl

theorem field_valid {i : ℕ} (h : t.field i = some f) : 1 ≤ i ∧ i ≤ t.numberOfEntries := by
  unfold field indexIsValid at h
  split_ifs at h with hvalid
  · rw [and_eq_true, decide_eq_true_iff, decide_eq_true_iff] at hvalid
    exact ⟨Nat.pos_of_ne_zero hvalid.1, hvalid.2⟩
  · rw [and_eq_true, decide_eq_true_iff, decide_eq_true_iff] at hvalid
    exact ⟨Nat.pos_of_ne_zero hvalid.1, hvalid.2⟩

theorem staticField_of_mem (h : f ∈ staticPart) : ∃ k, k < 61 ∧ staticField k = f := by
  obtain ⟨k, hk⟩ := mem_iff_getElem?.mp h
  have hlt := (List.getElem?_eq_some_iff.mp hk).1
  rw [staticPart_length] at hlt
  rw [staticPart_getElem? hlt] at hk
  exact ⟨k, hlt, some.inj hk⟩

theorem name_key_le (f : HeaderField) : (⟨f.name, []⟩ : HeaderField).key ≤ f.key := by
  rw [HeaderField.key, HeaderField.key, Prod.Lex.toLex_le_toLex]
  exact .inr ⟨rfl, not_lt.mp (not_lt_nil _)⟩

theorem Rep.field_iff (h : Rep t es) : (∃ i, 1 ≤ i ∧ i ≤ t.numberOfEntries ∧ t.field i = some f) ↔
    f ∈ staticPart ∨ f ∈ es := by
  have hcount := h.count
  constructor
  · intro ⟨i, hi, _, hfield⟩
    by_cases hlt : i ≤ 61
    · obtain ⟨j, rfl⟩ := Nat.exists_eq_add_of_le' hi
      rw [field_static (by omega)] at hfield
      exact .inl (mem_of_getElem? hfield)
    · obtain ⟨j, rfl⟩ := Nat.exists_eq_add_of_le (show 62 ≤ i by omega)
      rw [h.field j] at hfield
      exact .inr (mem_of_getElem? hfield)
  · unfold numberOfEntries
    rw [staticPart_length]
    intro hor
    rcases hor with hmem | hmem
    · obtain ⟨i, hi⟩ := mem_iff_getElem?.mp hmem
      have hlt := (List.getElem?_eq_some_iff.mp hi).1
      rw [staticPart_length] at hlt
      exact ⟨i + 1, by omega, by omega, by rw [field_static hlt, hi]⟩
    · obtain ⟨i, hi⟩ := mem_iff_getElem?.mp hmem
      have hlt := (List.getElem?_eq_some_iff.mp hi).1
      exact ⟨62 + i, by omega, by omega, by rw [h.field i, hi]⟩

/-! ## The search index -/

theorem keyToIndex_keyAt (h : Ready t es) {i : ℕ} (hi : i < es.length) (e : HeaderField) :
    t.keyToIndex (t.keyAt (t.beginPos + i) e) = 62 + i := by
  have hroom := h.rep.room_le
  have hchunk : (t.beginPos + i) / ChunkSize < t.ptrs.length := Nat.div_lt_of_lt_mul (by omega)
  have hat : t.chunkAt ((t.beginPos + i) / ChunkSize) =
      some (t.ptrs[(t.beginPos + i) / ChunkSize]) := by
    rw [chunkAt_eq, List.getElem?_eq_getElem hchunk]
  have hposition := Nat.mod_add_div' (t.beginPos + i) ChunkSize
  unfold keyToIndex keyAt
  dsimp only
  rw [hat, getD_some, indexOfChunk_of_chunkAt h.indexed.nodup hat, hposition,
    staticPart_length]
  omega

theorem rank_key_le_iff {x : SearchEntry} :
    t.rank ⟨f, none, 0⟩ ≤ t.rank x ↔ f.key ≤ x.field.key := by
  unfold rank
  rw [Prod.Lex.toLex_le_toLex]
  constructor
  · intro hor
    rcases hor with hlt | ⟨heq, -⟩
    · exact hlt.le
    · exact heq.le
  · intro hle
    rcases hle.lt_or_eq with hlt | heq
    · exact .inl hlt
    · exact .inr ⟨heq, bot_le⟩

theorem key_le_of_rank_le {x y : SearchEntry} (h : t.rank x ≤ t.rank y) :
    x.field.key ≤ y.field.key := by
  unfold rank at h
  rw [Prod.Lex.toLex_le_toLex] at h
  rcases h with hlt | ⟨heq, -⟩
  · exact hlt.le
  · exact heq.le

/-- What is looked for is found in the dynamic part if its fields follow each other, from the key
of the lookup on. -/
theorem Ready.dynamic (h : Ready t es) (hcomparable : ∀ e ∈ es, f.ComparableTo e)
    (hle : ∀ g, found g = true → f.key ≤ g.key)
    (hconvex : ∀ g y, found g = true → f.key ≤ y.key → y.key ≤ g.key → found y = true) :
    (∃ i g, lookup.dynamic t f found = 62 + i ∧ es[i]? = some g ∧ found g = true) ∨
      lookup.dynamic t f found = 0 ∧ ∀ g ∈ es, found g = false := by
  have hranks := h.indexed.ranks_with (k := ⟨f, none, 0⟩) (Nat.succ_pos 15) hcomparable
  have hspec := OrderedSet.lower_bound_spec h.indexed.sorted hranks
  have hkey : ∀ g ∈ es, found g = true →
      ∃ x ∈ t.searchIndex, x.field = g ∧ t.rank ⟨f, none, 0⟩ ≤ t.rank x := by
    intro g hg hfound
    obtain ⟨i, hi⟩ := mem_iff_getElem?.mp hg
    exact ⟨_, h.indexed.mem_iff.2 ⟨i, g, hi, rfl⟩, rfl, rank_key_le_iff.2 (hle g hfound)⟩
  have hlower : t.lower_bound ⟨f, none, 0⟩ =
      OrderedSet.lower_bound t.less ⟨f, none, 0⟩ t.searchIndex := rfl
  unfold lookup.dynamic
  rw [if_pos h.useIndex, hlower]
  cases hbound : OrderedSet.lower_bound t.less ⟨f, none, 0⟩ t.searchIndex with
  | none =>
    rw [hbound] at hspec
    refine .inr ⟨rfl, fun g hg => ?_⟩
    rw [← not_eq_true]
    intro hfound
    obtain ⟨x, hx, -, hrank⟩ := hkey g hg hfound
    exact absurd (hspec x hx) (not_lt.mpr hrank)
  | some y =>
    rw [hbound] at hspec
    obtain ⟨hy, hkeyle, hleast⟩ := hspec
    dsimp only
    split_ifs with hfound
    · obtain ⟨i, e, he, rfl⟩ := h.indexed.mem_iff.1 hy
      exact .inl ⟨i, e, keyToIndex_keyAt h (List.getElem?_eq_some_iff.mp he).1 e, he, hfound⟩
    · refine .inr ⟨rfl, fun g hg => ?_⟩
      rw [← not_eq_true]
      intro hg'
      obtain ⟨x, hx, rfl, hrank⟩ := hkey g hg hg'
      exact hfound (hconvex _ _ hg' (rank_key_le_iff.1 hkeyle)
        (key_le_of_rank_le (hleast x hx hrank)))

/-- A lookup in both parts. -/
theorem Ready.lookup (h : Ready t es) {nameAndValue : Bool}
    (hstatic : ∀ g ∈ staticPart, found g = true →
      ∃ g', staticPart[findInStaticPart f nameAndValue]? = some g' ∧ found g' = true)
    (hdynamic : (∃ i g, lookup.dynamic t f found = 62 + i ∧ es[i]? = some g ∧ found g = true) ∨
      lookup.dynamic t f found = 0 ∧ ∀ g ∈ es, found g = false) :
    (∃ g, t.lookup f nameAndValue found ≠ 0 ∧
        t.field (t.lookup f nameAndValue found) = some g ∧ found g = true) ∨
      t.lookup f nameAndValue found = 0 ∧ ∀ g, g ∈ staticPart ∨ g ∈ es → found g = false := by
  have hnext : (∀ g ∈ staticPart, found g = false) →
      t.lookup f nameAndValue found = lookup.dynamic t f found →
      (∃ g, t.lookup f nameAndValue found ≠ 0 ∧
          t.field (t.lookup f nameAndValue found) = some g ∧ found g = true) ∨
        t.lookup f nameAndValue found = 0 ∧ ∀ g, g ∈ staticPart ∨ g ∈ es → found g = false := by
    intro hnone heq
    rw [heq]
    rcases hdynamic with ⟨i, g, hi, hg, hfound⟩ | ⟨hzero, hall⟩
    · exact .inl ⟨g, by omega, by rw [hi, h.rep.field, hg], hfound⟩
    · exact .inr ⟨hzero, fun g hor => hor.elim (hnone g) (hall g)⟩
  have hnone : (∀ g, staticPart[findInStaticPart f nameAndValue]? = some g → found g = false) →
      ∀ g ∈ staticPart, found g = false := by
    intro hfalse g hg
    rw [← not_eq_true]
    intro hfound
    obtain ⟨g', hg', hfound'⟩ := hstatic g hg hfound
    rw [hfalse g' hg'] at hfound'
    cases hfound'
  cases hfind : staticPart[findInStaticPart f nameAndValue]? with
  | none =>
    refine hnext (hnone fun g hg => ?_) ?_
    · rw [hfind] at hg
      cases hg
    · unfold FieldLookupTable.lookup
      rw [hfind]
  | some g =>
    by_cases hfound : found g = true
    · have heq : t.lookup f nameAndValue found = findInStaticPart f nameAndValue + 1 := by
        unfold FieldLookupTable.lookup
        rw [hfind]
        exact if_pos hfound
      have hlt := (List.getElem?_eq_some_iff.mp hfind).1
      rw [staticPart_length] at hlt
      exact .inl ⟨g, by omega, by rw [heq, field_static hlt, hfind], hfound⟩
    · refine hnext (hnone fun g' hg' => ?_) ?_
      · rw [hfind] at hg'
        rw [← some.inj hg']
        exact eq_false_iff.mpr hfound
      · unfold FieldLookupTable.lookup
        rw [hfind]
        exact if_neg hfound

/-! ## What a search should find -/

/-- A field is found if it is there, by its name and value. -/
structure FindsField (t : FieldLookupTable) (name value : List UInt8) : Prop where
  ne_zero_iff : t.indexOf name value ≠ 0 ↔
    ∃ i, 1 ≤ i ∧ i ≤ t.numberOfEntries ∧ t.field i = some ⟨name, value⟩
  field : t.indexOf name value ≠ 0 → t.field (t.indexOf name value) = some ⟨name, value⟩

/-- A field is found if it is there, by its name. -/
structure FindsName (t : FieldLookupTable) (name : List UInt8) : Prop where
  ne_zero_iff : t.indexOfName name ≠ 0 ↔
    ∃ i, 1 ≤ i ∧ i ≤ t.numberOfEntries ∧ t.fieldName i = some name
  fieldName : t.indexOfName name ≠ 0 → t.fieldName (t.indexOfName name) = some name

/-- A field can be compared with all fields of the table. -/
def Searchable (t : FieldLookupTable) (f : HeaderField) : Prop :=
  ∀ g, g ∈ staticPart ∨ g ∈ t.dynamicPart → g.ComparableTo f

theorem Ready.findsField (h : Ready t es) {name value : List UInt8}
    (hs : Searchable t ⟨name, value⟩) : FindsField t name value := by
  unfold Searchable at hs
  rw [h.rep.dynamicPart_eq] at hs
  have hfound : ∀ g : HeaderField,
      (g.name == name && g.value == value) = true ↔ g = ⟨name, value⟩ := by
    intro g
    rw [and_eq_true, beq_iff_eq, beq_iff_eq]
    exact ⟨fun ⟨hname, hvalue⟩ => by cases g; congr, fun heq => by rw [heq]; exact ⟨rfl, rfl⟩⟩
  have hstatic : ∀ g ∈ staticPart, (g.name == name && g.value == value) = true →
      ∃ g', staticPart[findInStaticPart ⟨name, value⟩ true]? = some g' ∧
        (g'.name == name && g'.value == value) = true := by
    intro g hg hg'
    obtain ⟨k, hk, heq⟩ := staticField_of_mem hg
    rw [(hfound g).mp hg'] at heq
    have hfind := findInStaticPart_value hk fun g hg => heq ▸ hs g (.inl hg)
    rw [heq] at hfind
    exact ⟨_, hfind, (hfound _).mpr rfl⟩
  have hdynamic := @Ready.dynamic t es ⟨name, value⟩
    (fun g => g.name == name && g.value == value) h (fun e he => (hs e (.inr he)).symm)
    (fun g hg => by rw [(hfound g).mp hg])
    (fun g y hg hle hle' => by
      rw [(hfound g).mp hg] at hle'
      exact (hfound y).mpr (HeaderField.key_injective (le_antisymm hle' hle)))
  rcases @Ready.lookup t es _ _ h true hstatic hdynamic with ⟨g, hne, hfield, hg⟩ | ⟨hzero, hall⟩
  · rw [(hfound g).mp hg] at hfield
    exact ⟨iff_of_true hne ⟨_, (field_valid hfield).1, (field_valid hfield).2, hfield⟩,
      fun _ => hfield⟩
  · refine ⟨iff_of_false (fun hne => hne hzero) fun hex => ?_, fun hne => absurd hzero hne⟩
    have hfalse := hall _ (h.rep.field_iff.1 hex)
    rw [(hfound _).mpr rfl] at hfalse
    cases hfalse

theorem Ready.findsName (h : Ready t es) {name : List UInt8} (hs : Searchable t ⟨name, []⟩) :
    FindsName t name := by
  unfold Searchable at hs
  rw [h.rep.dynamicPart_eq] at hs
  have hstatic : ∀ g ∈ staticPart, (g.name == name) = true →
      ∃ g', staticPart[findInStaticPart ⟨name, []⟩ false]? = some g' ∧
        (g'.name == name) = true := by
    intro g hg hg'
    obtain ⟨k, hk, rfl⟩ := staticField_of_mem hg
    obtain ⟨g', hfind, hname⟩ :=
      findInStaticPart_name hk (beq_iff_eq.mp hg') fun g hg => hs g (.inl hg)
    exact ⟨g', hfind, beq_iff_eq.mpr hname⟩
  have hdynamic := @Ready.dynamic t es ⟨name, []⟩ (fun g => g.name == name) h
    (fun e he => (hs e (.inr he)).symm)
    (fun g hg => by
      rw [← beq_iff_eq.mp hg]
      exact name_key_le g)
    (fun g y hg hle hle' => by
      have hle := name_le_of_key_le hle
      have hle' := name_le_of_key_le hle'
      rw [beq_iff_eq.mp hg] at hle'
      exact beq_iff_eq.mpr (bytes_injective (le_antisymm hle' hle)))
  rcases @Ready.lookup t es _ _ h false hstatic hdynamic with ⟨g, hne, hfield, hg⟩ | ⟨hzero, hall⟩
  · have hname : t.fieldName (t.indexOfName name) = some name :=
      (congrArg (Option.map HeaderField.name) hfield).trans (congrArg some (beq_iff_eq.mp hg))
    exact ⟨iff_of_true hne ⟨_, (field_valid hfield).1, (field_valid hfield).2, hname⟩,
      fun _ => hname⟩
  · refine ⟨iff_of_false (fun hne => hne hzero) fun ⟨i, hi, hi', hname⟩ => ?_,
      fun hne => absurd hzero hne⟩
    obtain ⟨g, hfield, rfl⟩ := Option.map_eq_some_iff.mp hname
    have hfalse := hall g (h.rep.field_iff.1 ⟨i, hi, hi', hfield⟩)
    rw [beq_self_eq_true] at hfalse
    cases hfalse

end FieldLookupTable

end HPack

end QtBase
