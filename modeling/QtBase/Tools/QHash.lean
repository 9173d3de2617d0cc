import QtBase.Tools.HashModel
import QtBase.Lib.Cow

/-! `QHash`: the member functions over a table that several hashes may share. -/
namespace QtBase

open QHashPrivate LinearProbing

/-- A `QHash` object; its `d` pointer may be null. -/
structure QHash (K V : Type) where
  d : Cow.Handle (Data K V)

namespace QHash

variable {K V : Type}

def size (h : QHash K V) : ℕ := match h.d with
  | none => 0
  | some l => l.data.size

def capacity (h : QHash K V) : ℕ := match h.d with
  | none => 0
  | some l => l.data.numBuckets >>> 1

def isDetached (h : QHash K V) : Bool := match h.d with
  | none => false
  | some l => !l.shared

/-- The hash that is the only owner of its table. -/
def own (d : Data K V) : QHash K V := ⟨Cow.Handle.own d⟩

section Members

variable [DecidableEq K] (calculateHash : K → ℕ → ℕ) (globalSeed : ℕ)

/-- Returns the table, which is not shared any more. -/
def detach (h : QHash K V) : Exec (Data K V) := match h.d with
  | some ⟨false, d⟩ => pure d
  | _ => Data.detached calculateHash globalSeed h.d.data?

def reserve (h : QHash K V) (size : ℕ) : Exec (QHash K V) :=
  if size ≠ 0 ∧ h.capacity ≥ size then pure h
  else match h.d with
    | some ⟨false, d⟩ => do
      let d ← d.rehash calculateHash size
      pure (own d)
    | _ => do
      let d ← Data.detachedReserved calculateHash globalSeed size h.d.data?
      pure (own d)

def squeeze (h : QHash K V) : Exec (QHash K V) :=
  if h.capacity ≠ 0 then h.reserve calculateHash globalSeed 0 else pure h

def clear (_ : QHash K V) : QHash K V := ⟨none⟩

/-! ### Reading -/

def contains (h : QHash K V) (key : K) : Exec Bool := match h.d with
  | none => pure false
  | some l => do
    let n ← l.data.findNode calculateHash key
    pure n.isSome

def value [Inhabited V] (h : QHash K V) (key : K) : Exec V := match h.d with
  | none => pure default
  | some l => do
    let n ← l.data.findNode calculateHash key
    pure ((n.map Node.value).getD default)

/-- `find() const` -/
def constFind (h : QHash K V) (key : K) : Exec (Option ℕ) := match h.d with
  | none => pure none
  | some l =>
    if l.data.size = 0 then pure none
    else do
      let it ← l.data.findBucket calculateHash key
      if l.data.isUnused it then pure none else pure (some it.toBucketIndex)

def constBegin (h : QHash K V) : Exec (Option ℕ) := match h.d with
  | none => pure none
  | some l => l.data.begin

/-! ### Changing -/

def begin (h : QHash K V) : Exec (QHash K V × Option ℕ) := do
  let d ← h.detach calculateHash globalSeed
  let it ← d.begin
  pure (own d, it)

def find (h : QHash K V) (key : K) : Exec (QHash K V × Option ℕ) := match h.d with
  | none => pure (h, none)
  | some l =>
    if l.data.size = 0 then pure (h, none)
    else do
      let it ← l.data.findBucket calculateHash key
      let d ← h.detach calculateHash globalSeed
      let it := Bucket.ofIndex it.toBucketIndex
      if d.isUnused it then pure (own d, none) else pure (own d, some it.toBucketIndex)

def remove (h : QHash K V) (key : K) : Exec (QHash K V × Bool) := match h.d with
  | none => pure (h, false)
  | some l =>
    if l.data.size = 0 then pure (h, false)
    else do
      let it ← l.data.findBucket calculateHash key
      let d ← h.detach calculateHash globalSeed
      let it := Bucket.ofIndex it.toBucketIndex
      if d.isUnused it then pure (own d, false)
      else do
        let d ← d.erase calculateHash it
        pure (own d, true)

def take [Inhabited V] (h : QHash K V) (key : K) : Exec (QHash K V × V) := match h.d with
  | none => pure (h, default)
  | some l =>
    if l.data.size = 0 then pure (h, default)
    else do
      let it ← l.data.findBucket calculateHash key
      let d ← h.detach calculateHash globalSeed
      let it := Bucket.ofIndex it.toBucketIndex
      if d.isUnused it then pure (own d, default)
      else do
        let n ← d.node it
        let d ← d.erase calculateHash it
        pure (own d, n.value)

def emplace_helper (d : Data K V) (key : K) (value : V) : Exec (QHash K V × Option ℕ) := do
  let (d, it, initialized) ← d.findOrInsert calculateHash key
  if initialized then do
    let n ← d.node it
    pure (own (d.construct it { n with value := value }), some it.toBucketIndex)
  else pure (own (d.construct it ⟨key, value⟩), some it.toBucketIndex)

/-- `insert` and `emplace` -/
def insert (h : QHash K V) (key : K) (value : V) : Exec (QHash K V × Option ℕ) := do
  let d ← h.detach calculateHash globalSeed
  emplace_helper calculateHash d key value

/-- `operator[]`: the bucket whose value the result refers to. -/
def index [Inhabited V] (h : QHash K V) (key : K) : Exec (Data K V × Bucket) := do
  let d ← h.detach calculateHash globalSeed
  let (d, it, initialized) ← d.findOrInsert calculateHash key
  if initialized then pure (d, it) else pure (d.construct it ⟨key, default⟩, it)

/-- `hash[key]`, read -/
def indexValue [Inhabited V] (h : QHash K V) (key : K) : Exec (QHash K V × V) := do
  let (d, it) ← h.index calculateHash globalSeed key
  let n ← d.node it
  pure (own d, n.value)

/-- `hash[key] = value` -/
def indexAssign [Inhabited V] (h : QHash K V) (key : K) (value : V) : Exec (QHash K V) := do
  let (d, it) ← h.index calculateHash globalSeed key
  let n ← d.node it
  pure (own (d.construct it { n with value := value }))

/-- `erase(const_iterator it)`, for an iterator of this hash. -/
def erase (h : QHash K V) (it : Option ℕ) : Exec (QHash K V × Option ℕ) := match it with
  | none => .error .undefined
  | some bucket => do
    let d ← h.detach calculateHash globalSeed
    let d ← d.erase calculateHash (Bucket.ofIndex bucket)
    if (Bucket.ofIndex bucket).toBucketIndex = d.numBuckets - 1 ∨ d.isUnused (Bucket.ofIndex bucket) then do
      let it ← d.increment d.numBuckets bucket
      pure (own d, it)
    else pure (own d, some bucket)

end Members

/-! ## What the members do to the map -/

variable {calculateHash : K → ℕ → ℕ} {globalSeed : ℕ} {h : QHash K V}

/-- The iterator at bucket `b` refers to the node. -/
def At (h : QHash K V) (b : ℕ) (n : Node K V) : Prop :=
  ∃ l, h.d = some l ∧ b < l.data.numBuckets ∧ l.data.node (Bucket.ofIndex b) = .ok n

theorem at_own {d : Data K V} (hs : d.Storage) {b : ℕ} (hb : b < d.numBuckets) {n : Node K V}
    (hc : d.cell b = some n) : (own d).At b n := ⟨_, rfl, hb, hs.node_eq hb hc⟩

variable [DecidableEq K] {m : Finmap fun _ : K => V}

/-- The hash holds the entries of the map. -/
def Models (calculateHash : K → ℕ → ℕ) (h : QHash K V) (m : Finmap fun _ : K => V) : Prop :=
  match h.d with
  | none => m = ∅
  | some l => l.data.Models calculateHash m

/-- The iterator is the one of the key, or the end if there is no such key. -/
def Locates (h : QHash K V) (m : Finmap fun _ : K => V) (key : K) : Option ℕ → Prop
  | none => m.lookup key = none
  | some b => ∃ v, m.lookup key = some v ∧ h.At b ⟨key, v⟩

theorem new_zero (calculateHash : K → ℕ → ℕ) (globalSeed : ℕ) : ∃ d : Data K V, Data.new globalSeed 0 = .ok d ∧
    d.Models calculateHash ∅ := by
  rcases Data.new_spec (V := V) calculateHash globalSeed 0 with
    ⟨-, hmax⟩ | ⟨d, hrun, hinv, -, -, hcell⟩
  · exact absurd hmax (by decide)
  · exact ⟨d, hrun, Data.models_empty hinv hcell⟩

namespace Models

theorem data {l : Cow.Local (Data K V)} (hm : h.Models calculateHash m) (hd : h.d = some l) :
    l.data.Models calculateHash m := by
  rw [Models, hd] at hm
  exact hm

theorem eq_empty (hm : h.Models calculateHash m) (hd : h.d = none) : m = ∅ := by
  rw [Models, hd] at hm
  exact hm

theorem of_data? {h' : QHash K V}
    (hm : h.Models calculateHash m) (hd : h'.d.data? = h.d.data?) : h'.Models calculateHash m := by
  unfold Models at hm ⊢
  cases hh : h.d with
  | none =>
    rw [hh] at hm hd
    cases hh' : h'.d with
    | none => exact hm
    | some l' => simp [hh'] at hd
  | some l =>
    rw [hh] at hm hd
    cases hh' : h'.d with
    | none => simp [hh'] at hd
    | some l' =>
      rw [hh', Cow.Handle.data?_some, Cow.Handle.data?_some, Option.some.injEq] at hd
      simp [hd, hm]

theorem size_eq (hm : h.Models calculateHash m) : h.size = m.keys.card := by
  cases hd : h.d with
  | none => simp [size, hd, hm.eq_empty hd]
  | some l => simp [size, hd, (hm.data hd).size_eq_card]

theorem contains (hm : h.Models calculateHash m) (key : K) :
    h.contains calculateHash key = .ok (m.lookup key).isSome := by
  cases hd : h.d with
  | none => simp [QHash.contains, hd, hm.eq_empty hd]
  | some l =>
    rw [QHash.contains, hd]
    simp only [(hm.data hd).findNode, ok_bind, pure_eq_ok, Option.isSome_map]

theorem value [Inhabited V] (hm : h.Models calculateHash m) (key : K) :
    h.value calculateHash key = .ok ((m.lookup key).getD default) := by
  cases hd : h.d with
  | none => simp [QHash.value, hd, hm.eq_empty hd]
  | some l =>
    rw [QHash.value, hd]
    simp only [(hm.data hd).findNode, ok_bind, pure_eq_ok, Option.map_map]
    cases m.lookup key <;> rfl

theorem lookup_of_size {l : Cow.Local (Data K V)} (hm : h.Models calculateHash m)
    (hd : h.d = some l) (hz : l.data.size = 0) : m = ∅ := by
  have hcard := (hm.data hd).size_eq_card
  rw [hz, eq_comm, Finset.card_eq_zero] at hcard
  refine Finmap.ext_lookup fun key => ?_
  rw [Finmap.lookup_empty, Finmap.lookup_eq_none, ← Finmap.mem_keys, hcard]
  simp

theorem constFind (hm : h.Models calculateHash m) (key : K) :
    ∃ it, h.constFind calculateHash key = .ok it ∧ h.Locates m key it := by
  cases hd : h.d with
  | none => exact ⟨none, by simp [QHash.constFind, hd], by simp [Locates, hm.eq_empty hd]⟩
  | some l =>
    rw [QHash.constFind, hd]
    by_cases hz : l.data.size = 0
    · exact ⟨none, by simp [hz], by simp [Locates, hm.lookup_of_size hd hz]⟩
    obtain ⟨r, hr, hfind, hres⟩ := (hm.data hd).findBucket key
    simp only [if_neg hz, hfind, ok_bind, (hm.data hd).isUnused_eq hr]
    rcases hres with ⟨v, hc, hv⟩ | ⟨hc, hv⟩
    · refine ⟨some r, by simp [hc, Bucket.toBucketIndex_ofIndex], v, hv, l, hd, hr, ?_⟩
      exact (hm.data hd).node_eq hr hc
    · exact ⟨none, by simp [hc], hv⟩

/-- `detach` gives a table of one's own with the same nodes in the same buckets. -/
theorem detach (hm : h.Models calculateHash m) (globalSeed : ℕ) :
    ∃ d, h.detach calculateHash globalSeed = .ok d ∧ d.Models calculateHash m ∧
      ∀ l, h.d = some l → Data.SameTable l.data d := by
  cases hd : h.d with
  | none =>
    obtain ⟨d, hrun, hd'⟩ := new_zero (K := K) (V := V) calculateHash globalSeed
    exact ⟨d, by rw [QHash.detach, hd]; exact hrun, by rwa [hm.eq_empty hd], by simp⟩
  | some l =>
    obtain ⟨sh, data⟩ := l
    cases sh with
    | false =>
      refine ⟨data, by rw [QHash.detach, hd]; rfl, hm.data hd, fun l hl => ?_⟩
      cases hl
      exact Data.SameTable.refl data
    | true =>
      obtain ⟨d', hrun, hm', hsame⟩ := (hm.data hd).copy
      refine ⟨d', by rw [QHash.detach, hd]; exact hrun, hm', fun l hl => ?_⟩
      cases hl
      exact hsame

/-- The start of `find`, `remove` and `take`: the bucket found before the detach still holds
after it. -/
theorem locate (hm : h.Models calculateHash m) (globalSeed : ℕ) {l : Cow.Local (Data K V)}
    (hd : h.d = some l) (key : K) :
    ∃ r d, l.data.findBucket calculateHash key = .ok (Bucket.ofIndex r) ∧
      h.detach calculateHash globalSeed = .ok d ∧ d.Models calculateHash m ∧ r < d.numBuckets ∧
      ((∃ v, d.cell r = some ⟨key, v⟩ ∧ m.lookup key = some v) ∨
        (d.cell r = none ∧ m.lookup key = none)) := by
  obtain ⟨r, hr, hfind, hres⟩ := (hm.data hd).findBucket key
  obtain ⟨d, hrun, hm', hsame⟩ := hm.detach globalSeed
  have hs := hsame l hd
  refine ⟨r, d, hfind, hrun, hm', by rwa [hs.numBuckets], ?_⟩
  rwa [hs.cell r hr]

theorem find (hm : h.Models calculateHash m) (globalSeed : ℕ) (key : K) :
    ∃ h' it, h.find calculateHash globalSeed key = .ok (h', it) ∧ h'.Models calculateHash m ∧
      h.d.Legal h'.d ∧ h'.Locates m key it := by
  cases hd : h.d with
  | none =>
    exact ⟨h, none, by simp [QHash.find, hd], hm, hd ▸ Cow.Handle.Legal.refl _,
      by simp [Locates, hm.eq_empty hd]⟩
  | some l =>
    rw [QHash.find, hd]
    by_cases hz : l.data.size = 0
    · exact ⟨h, none, by simp [hz], hm, hd ▸ Cow.Handle.Legal.refl _,
        by simp [Locates, hm.lookup_of_size hd hz]⟩
    obtain ⟨r, d, hfind, hrun, hm', hr, hres⟩ := hm.locate globalSeed hd key
    simp only [if_neg hz, hfind, hrun, ok_bind, Bucket.toBucketIndex_ofIndex, hm'.isUnused_eq hr]
    rcases hres with ⟨v, hc, hv⟩ | ⟨hc, hv⟩
    · exact ⟨QHash.own d, some r, by simp [hc], hm', Cow.Handle.Legal.own _ d, v, hv,
        at_own hm'.toStorage hr hc⟩
    · exact ⟨QHash.own d, none, by simp [hc], hm', Cow.Handle.Legal.own _ d, hv⟩

theorem erase_eq_self {key : K} (hv : m.lookup key = none) : m.erase key = m := by
  refine Finmap.ext_lookup fun k => ?_
  by_cases hk : k = key
  · rw [hk, Finmap.lookup_erase, hv]
  · rw [Finmap.lookup_erase_ne hk]

theorem remove (hm : h.Models calculateHash m) (globalSeed : ℕ) (key : K) :
    ∃ h', h.remove calculateHash globalSeed key = .ok (h', (m.lookup key).isSome) ∧
      h'.Models calculateHash (m.erase key) ∧ h.d.Legal h'.d := by
  cases hd : h.d with
  | none =>
    have hv : m.lookup key = none := by simp [hm.eq_empty hd]
    exact ⟨h, by simp [QHash.remove, hd, hv], by rwa [erase_eq_self hv],
      hd ▸ Cow.Handle.Legal.refl _⟩
  | some l =>
    rw [QHash.remove, hd]
    by_cases hz : l.data.size = 0
    · have hv : m.lookup key = none := by simp [hm.lookup_of_size hd hz]
      exact ⟨h, by simp [hz, hv], by rwa [erase_eq_self hv], hd ▸ Cow.Handle.Legal.refl _⟩
    obtain ⟨r, d, hfind, hrun, hm', hr, hres⟩ := hm.locate globalSeed hd key
    simp only [if_neg hz, hfind, hrun, ok_bind, Bucket.toBucketIndex_ofIndex, hm'.isUnused_eq hr]
    rcases hres with ⟨v, hc, hv⟩ | ⟨hc, hv⟩
    · obtain ⟨d', -, herase, hm'', -⟩ := hm'.erase hr hc
      exact ⟨QHash.own d', by simp [hc, hv, herase], hm'', Cow.Handle.Legal.own _ d'⟩
    · exact ⟨QHash.own d, by simp [hc, hv], by rw [erase_eq_self hv]; exact hm',
        Cow.Handle.Legal.own _ d⟩

theorem take [Inhabited V] (hm : h.Models calculateHash m) (globalSeed : ℕ) (key : K) :
    ∃ h', h.take calculateHash globalSeed key = .ok (h', (m.lookup key).getD default) ∧
      h'.Models calculateHash (m.erase key) ∧ h.d.Legal h'.d := by
  cases hd : h.d with
  | none =>
    have hv : m.lookup key = none := by simp [hm.eq_empty hd]
    exact ⟨h, by simp [QHash.take, hd, hv], by rwa [erase_eq_self hv],
      hd ▸ Cow.Handle.Legal.refl _⟩
  | some l =>
    rw [QHash.take, hd]
    by_cases hz : l.data.size = 0
    · have hv : m.lookup key = none := by simp [hm.lookup_of_size hd hz]
      exact ⟨h, by simp [hz, hv], by rwa [erase_eq_self hv], hd ▸ Cow.Handle.Legal.refl _⟩
    obtain ⟨r, d, hfind, hrun, hm', hr, hres⟩ := hm.locate globalSeed hd key
    simp only [if_neg hz, hfind, hrun, ok_bind, Bucket.toBucketIndex_ofIndex, hm'.isUnused_eq hr]
    rcases hres with ⟨v, hc, hv⟩ | ⟨hc, hv⟩
    · obtain ⟨d', -, herase, hm'', -⟩ := hm'.erase hr hc
      exact ⟨QHash.own d', by simp [hc, hv, hm'.node_eq hr hc, herase], hm'',
        Cow.Handle.Legal.own _ d'⟩
    · exact ⟨QHash.own d, by simp [hc, hv], by rw [erase_eq_self hv]; exact hm',
        Cow.Handle.Legal.own _ d⟩

theorem emplace_helper {d : Data K V} (hm : d.Models calculateHash m) (key : K) (v : V) :
    Ends (emplace_helper calculateHash d key v) (TooLarge (d.size + 1)) fun r =>
      r.1.Models calculateHash (m.insert key v) ∧ (∃ d', r.1 = QHash.own d') ∧
        ∃ b, r.2 = some b ∧ r.1.At b ⟨key, v⟩ := by
  refine (hm.findOrInsert key).bind ?_
  rintro ⟨d₁, it, initialized⟩ ⟨b, hb, rfl, hres⟩
  rcases hres with ⟨rfl, rfl, v₀, hc, -⟩ | ⟨rfl, -, hcons⟩
  · obtain ⟨hm', hc'⟩ := hm.assign hb hc v
    simp only [if_true, hm.node_eq hb hc, ok_bind, Bucket.toBucketIndex_ofIndex]
    exact Ends.ok ⟨hm', ⟨_, rfl⟩, b, rfl, at_own hm'.toStorage hb hc'⟩
  · obtain ⟨hm', hc'⟩ := hcons v
    simp only [Bool.false_eq_true, if_false, Bucket.toBucketIndex_ofIndex]
    exact Ends.ok ⟨hm', ⟨_, rfl⟩, b, rfl, at_own hm'.toStorage hb hc'⟩

theorem detach_size (hm : h.Models calculateHash m) {d : Data K V}
    (hd : d.Models calculateHash m) : d.size = h.size := by
  rw [hm.size_eq, hd.size_eq_card]

theorem insert (hm : h.Models calculateHash m) (globalSeed : ℕ) (key : K) (v : V) :
    Ends (h.insert calculateHash globalSeed key v) (TooLarge (h.size + 1)) fun r =>
      r.1.Models calculateHash (m.insert key v) ∧ h.d.Legal r.1.d ∧
        ∃ b, r.2 = some b ∧ r.1.At b ⟨key, v⟩ := by
  obtain ⟨d, hrun, hm', -⟩ := hm.detach globalSeed
  rw [QHash.insert, hrun, ok_bind, ← hm.detach_size hm']
  refine (emplace_helper hm' key v).mono id ?_
  rintro ⟨h', it⟩ ⟨hm'', ⟨d', rfl⟩, hat⟩
  exact ⟨hm'', Cow.Handle.Legal.own _ d', hat⟩

/-- `operator[]` inserts a default value for a key that is not there. -/
theorem index [Inhabited V] (hm : h.Models calculateHash m) (globalSeed : ℕ) (key : K) :
    Ends (h.index calculateHash globalSeed key) (TooLarge (h.size + 1)) fun r =>
      ∃ b < r.1.numBuckets, r.2 = Bucket.ofIndex b ∧
        r.1.cell b = some ⟨key, (m.lookup key).getD default⟩ ∧
        r.1.Models calculateHash (m.insert key ((m.lookup key).getD default)) := by
  obtain ⟨d, hrun, hm', -⟩ := hm.detach globalSeed
  rw [QHash.index, hrun, ok_bind, ← hm.detach_size hm']
  refine (hm'.findOrInsert key).bind ?_
  rintro ⟨d₁, it, initialized⟩ ⟨b, hb, rfl, hres⟩
  rcases hres with ⟨rfl, rfl, v₀, hc, hv⟩ | ⟨rfl, hv, hcons⟩
  · have hsame : m.insert key v₀ = m := by
      refine Finmap.ext_lookup fun k => ?_
      by_cases hk : k = key
      · rw [hk, Finmap.lookup_insert, hv]
      · rw [Finmap.lookup_insert_of_ne _ hk]
    simp only [if_true, hv, Option.getD_some]
    exact Ends.ok ⟨b, hb, rfl, hc, by rwa [hsame]⟩
  · obtain ⟨hm'', hc'⟩ := hcons default
    simp only [Bool.false_eq_true, if_false, hv, Option.getD_none]
    exact Ends.ok ⟨b, hb, rfl, hc', hm''⟩

theorem indexValue [Inhabited V] (hm : h.Models calculateHash m) (globalSeed : ℕ) (key : K) :
    Ends (h.indexValue calculateHash globalSeed key) (TooLarge (h.size + 1)) fun r =>
      r.1.Models calculateHash (m.insert key ((m.lookup key).getD default)) ∧
        h.d.Legal r.1.d ∧ r.2 = (m.lookup key).getD default := by
  refine (hm.index globalSeed key).bind ?_
  rintro ⟨d, it⟩ ⟨b, hb, rfl, hc, hm'⟩
  simp only [hm'.node_eq hb hc, ok_bind]
  exact Ends.ok ⟨hm', Cow.Handle.Legal.own _ d, rfl⟩

theorem indexAssign [Inhabited V] (hm : h.Models calculateHash m) (globalSeed : ℕ) (key : K) (v : V) :
    Ends (h.indexAssign calculateHash globalSeed key v) (TooLarge (h.size + 1)) fun h' =>
      h'.Models calculateHash (m.insert key v) ∧ h.d.Legal h'.d := by
  refine (hm.index globalSeed key).bind ?_
  rintro ⟨d, it⟩ ⟨b, hb, rfl, hc, hm'⟩
  obtain ⟨hm'', -⟩ := hm'.assign hb hc v
  rw [Finmap.insert_insert] at hm''
  simp only [hm'.node_eq hb hc, ok_bind]
  exact Ends.ok ⟨hm'', Cow.Handle.Legal.own _ _⟩

theorem erase (hm : h.Models calculateHash m) (globalSeed : ℕ) {b : ℕ} {n : Node K V}
    (hat : h.At b n) : ∃ h' it, h.erase calculateHash globalSeed (some b) = .ok (h', it) ∧
      h'.Models calculateHash (m.erase n.key) ∧ h.d.Legal h'.d := by
  obtain ⟨l, hd, hb, hn⟩ := hat
  obtain ⟨d, hrun, hm', hsame⟩ := hm.detach globalSeed
  have hs := hsame l hd
  have hc : l.data.cell b = some n := (hm.data hd).cell_of_node hb hn
  have hb' : b < d.numBuckets := by rwa [hs.numBuckets]
  obtain ⟨d', -, herase, hm'', hnb, -⟩ := hm'.erase hb' (by rw [hs.cell b hb, hc])
  simp only [QHash.erase, hrun, ok_bind, herase]
  rcases hm''.resume (hnb ▸ hb') with ⟨hstop, hinc⟩ | ⟨hstay, -⟩
  · rw [if_pos hstop, hinc]
    exact ⟨QHash.own d', _, rfl, hm'', Cow.Handle.Legal.own _ d'⟩
  · rw [if_neg hstay]
    exact ⟨QHash.own d', _, rfl, hm'', Cow.Handle.Legal.own _ d'⟩

theorem begin (hm : h.Models calculateHash m) (globalSeed : ℕ) :
    ∃ h' it, h.begin calculateHash globalSeed = .ok (h', it) ∧ h'.Models calculateHash m ∧
      h.d.Legal h'.d := by
  obtain ⟨d, hrun, hm', -⟩ := hm.detach globalSeed
  exact ⟨QHash.own d, _, by rw [QHash.begin, hrun, ok_bind, hm'.begin_eq]; rfl, hm',
    Cow.Handle.Legal.own _ d⟩

theorem reserve (hm : h.Models calculateHash m) (globalSeed n : ℕ) :
    Ends (h.reserve calculateHash globalSeed n) (TooLarge (max h.size n)) fun h' =>
      h'.Models calculateHash m ∧ h.d.Legal h'.d := by
  rw [QHash.reserve]
  split_ifs with hcap
  · exact Ends.ok ⟨hm, Cow.Handle.Legal.refl _⟩
  cases hd : h.d with
  | none =>
    have hsize : h.size = 0 := by simp [size, hd]
    rw [hsize, Nat.zero_max]
    simp only [Cow.Handle.data?_none, Data.detachedReserved]
    rcases Data.new_spec (V := V) calculateHash globalSeed n with
      ⟨herr, hmax⟩ | ⟨d, hrun, hinv, -, -, hcell⟩
    · exact Or.inr ⟨by rw [herr]; rfl, hmax⟩
    · rw [hrun, ok_bind]
      refine Ends.ok ⟨?_, Cow.Handle.Legal.own _ d⟩
      rw [hm.eq_empty hd]
      exact Data.models_empty hinv hcell
  | some l =>
    have hm' := hm.data hd
    have hsize : h.size = l.data.size := by simp [size, hd]
    rw [hsize]
    obtain ⟨sh, data⟩ := l
    cases sh with
    | false =>
      have hle : data.size ≤ data.numBuckets >>> 1 := by
        have hload : 2 * data.size ≤ data.numBuckets := hm'.load
        omega
      have hcap' : ¬ (n ≠ 0 ∧ data.numBuckets >>> 1 ≥ n) := by simpa [capacity, hd] using hcap
      have hhint : (if n = 0 then data.size else n) = max data.size n := by
        split_ifs with hn
        · rw [hn, Nat.max_zero]
        · exact (max_eq_right (by omega)).symm
      simp only
      rcases Data.rehash_spec hm'.toInv n (by rw [hhint]; exact le_max_left _ _) with
        ⟨herr, hmax⟩ | ⟨d', hrun, hinv, -, -, -, hholds⟩
      · exact Or.inr ⟨by rw [herr]; rfl, by rwa [hhint] at hmax⟩
      · rw [hrun, ok_bind]
        exact Ends.ok ⟨hm'.congr hinv hholds, Cow.Handle.Legal.own _ d'⟩
    | true =>
      simp only [Cow.Handle.data?_some, Data.detachedReserved]
      rcases Data.copyReserved_spec hm'.toInv n with
        ⟨herr, hmax⟩ | ⟨d', hrun, hinv, -, -, -, hholds⟩
      · exact Or.inr ⟨by rw [herr]; rfl, hmax⟩
      · rw [hrun, ok_bind]
        exact Ends.ok ⟨hm'.congr hinv hholds, Cow.Handle.Legal.own _ d'⟩

end Models

end QHash

end QtBase
