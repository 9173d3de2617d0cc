import QtBase.Tools.ContiguousCache
import Mathlib.Algebra.Order.Group.Unbundled.Int
import Mathlib.Tactic.Ring

/-! A contiguous cache is a window: at most `capacity` values with consecutive indexes. -/
namespace QtBase

open List Int

variable {α : Type}

/-- The values with the indexes `first`, `first + 1`, ... -/
structure Window (α : Type) where
  capacity : ℤ
  first : ℤ
  items : List α
  length_le : items.length ≤ capacity

namespace Window

def append (w : Window α) (v : α) : Window α :=
  if h0 : w.capacity = 0 then w
  else if hfull : w.items.length = w.capacity then
    ⟨w.capacity, w.first + 1, w.items.drop 1 ++ [v], by
      rw [List.length_append, List.length_drop, List.length_singleton]
      omega⟩
  else
    ⟨w.capacity, w.first, w.items ++ [v], by
      have hle := w.length_le
      rw [List.length_append, List.length_singleton]
      omega⟩

def prepend (w : Window α) (v : α) : Window α :=
  if h0 : w.capacity = 0 then w
  else
    ⟨w.capacity, w.first - 1, v :: w.items.take (w.capacity - 1).toNat, by
      have hle := w.length_le
      rw [List.length_cons, List.length_take]
      omega⟩

def contains (w : Window α) (pos : ℤ) : Prop := w.first ≤ pos ∧ pos < w.first + w.items.length

instance (w : Window α) (pos : ℤ) : Decidable (w.contains pos) :=
  inferInstanceAs (Decidable (_ ∧ _))

def set (w : Window α) (pos : ℤ) (v : α) : Window α :=
  ⟨w.capacity, w.first, w.items.set (pos - w.first).toNat v, by
    rw [List.length_set]
    exact w.length_le⟩

def insert (w : Window α) (pos : ℤ) (v : α) : Window α :=
  if h0 : w.capacity = 0 then w
  else if w.contains pos then w.set pos v
  else if pos = w.first - 1 then w.prepend v
  else if pos = w.first + w.items.length then w.append v
  else ⟨w.capacity, pos, [v], by
    have hle := w.length_le
    rw [List.length_singleton]
    omega⟩

/-- The last values stay. -/
def setCapacity (w : Window α) (size : ℕ) : Window α :=
  ⟨size, w.first + (w.items.length - size : ℕ), w.items.drop (w.items.length - size), by
    rw [List.length_drop]
    omega⟩

def clear (w : Window α) : Window α := ⟨w.capacity, 0, [], by
  have hle := w.length_le
  rw [List.length_nil]
  omega⟩

def removeFirst (w : Window α) : Window α := ⟨w.capacity, w.first + 1, w.items.drop 1, by
  have hle := w.length_le
  rw [List.length_drop]
  omega⟩

def removeLast (w : Window α) : Window α := ⟨w.capacity, w.first, w.items.dropLast, by
  have hle := w.length_le
  rw [List.length_dropLast]
  omega⟩

def normalizeIndexes (w : Window α) : Window α :=
  ⟨w.capacity, if w.capacity = 0 then 0 else w.first % w.capacity, w.items, w.length_le⟩

/-- The value at an index, the default one being inserted where there is none. -/
def subscript [Inhabited α] (w : Window α) (pos : ℤ) (value : Option α) : Window α :=
  let w := if w.contains pos then w else w.insert pos default
  match value with
  | none => w
  | some v => w.set pos v

open QContiguousCache in
def step [Inhabited α] (w : Window α) : Op α → Window α
  | .append value => w.append value
  | .prepend value => w.prepend value
  | .insert pos value => w.insert pos value
  | .subscript pos value => w.subscript pos value
  | .removeFirst => w.removeFirst
  | .removeLast => w.removeLast
  | .setCapacity size => if size = w.capacity then w else w.setCapacity size.toNat
  | .clear => w.clear
  | .normalizeIndexes => w.normalizeIndexes

theorem contains_insert (w : Window α) {pos : ℤ} (h0 : w.capacity ≠ 0) (v : α) :
    (w.insert pos v).contains pos := by
  have hle := w.length_le
  unfold Window.insert
  rw [dif_neg h0]
  split
  · rename_i hin
    unfold Window.contains Window.set at *
    simp [hin]
  · split
    · rename_i hfirst
      unfold Window.prepend Window.contains
      rw [dif_neg h0]
      show w.first - 1 ≤ pos ∧ pos < w.first - 1 + ((v :: w.items.take _).length : ℤ)
      simp
      omega
    · split
      · rename_i hlast
        unfold Window.append Window.contains
        rw [dif_neg h0]
        split
        · show w.first + 1 ≤ pos ∧ pos < w.first + 1 + ((w.items.drop 1 ++ [v]).length : ℤ)
          simp
          omega
        · show w.first ≤ pos ∧ pos < w.first + ((w.items ++ [v]).length : ℤ)
          simp
          omega
      · show pos ≤ pos ∧ pos < pos + (([v] : List α).length : ℤ)
        simp

theorem set_getD (w : Window α) {pos : ℤ} {old : α}
    (hold : w.items[(pos - w.first).toNat]? = some old) (value : Option α) :
    w.set pos (value.getD old) = match value with
      | none => w
      | some v => w.set pos v := by
  cases value with
  | some v => rfl
  | none =>
    have hsame : w.items.set (pos - w.first).toNat old = w.items := by
      obtain ⟨hlt, hget⟩ := List.getElem?_eq_some_iff.mp hold
      rw [← hget]
      exact set_getElem_self hlt
    show (⟨w.capacity, w.first, w.items.set _ old, _⟩ : Window α) = w
    simp only [hsame]

theorem insert_capacity (w : Window α) (pos : ℤ) (v : α) :
    (w.insert pos v).capacity = w.capacity := by
  unfold Window.insert
  split
  · rfl
  · split
    · rfl
    · split
      · unfold Window.prepend
        split <;> rfl
      · split
        · unfold Window.append
          split
          · rfl
          · split <;> rfl
        · rfl

end Window

namespace QContiguousCache

/-! ## Slots -/

/-- The slot of the index `p` holds `v`. -/
def Holds (array : List (Option α)) (cap p : ℤ) (v : α) : Prop :=
  array[(p % cap).toNat]? = some (some v)

def Slots (array : List (Option α)) (cap first : ℤ) (items : List α) : Prop :=
  ∀ (i : ℕ) (v : α), items[i]? = some v → Holds array cap (first + i) v

theorem emod_ne {p q cap : ℤ} (hne : q ≠ p) (hlt : q < p + cap) (hgt : p < q + cap) :
    (q % cap).toNat ≠ (p % cap).toNat := by
  have hcap : 0 < cap := by omega
  have hp := emod_nonneg p (ne_of_gt hcap)
  have hq := emod_nonneg q (ne_of_gt hcap)
  intro heq
  have hmod : (q - p) % cap = 0 := emod_eq_emod_iff_emod_sub_eq_zero.mp (by omega)
  have hzero := eq_zero_of_abs_lt_dvd (dvd_of_emod_eq_zero hmod) (abs_lt.mpr (by omega))
  omega

variable {array : List (Option α)} {cap first p : ℤ} {items : List α}

theorem toNat_emod_lt (hcap : 0 < cap) (hlen : array.length = cap.toNat) :
    (p % cap).toNat < array.length := by
  have hp := emod_nonneg p (ne_of_gt hcap)
  have hlt := emod_lt_of_pos p hcap
  omega

theorem holds_set_self (hcap : 0 < cap) (hlen : array.length = cap.toNat) (v : α) :
    Holds (array.set (p % cap).toNat (some v)) cap p v :=
  getElem?_set_self (toNat_emod_lt hcap hlen)

theorem Holds.set_ne {q : ℤ} {w : α} (h : Holds array cap q w) (hne : q ≠ p)
    (hlt : q < p + cap) (hgt : p < q + cap) (v : α) :
    Holds (array.set (p % cap).toNat (some v)) cap q w := by
  unfold Holds
  rw [getElem?_set_ne (emod_ne hne hlt hgt).symm]
  exact h

namespace Slots

theorem drop (h : Slots array cap first items) (n : ℕ) :
    Slots array cap (first + n) (items.drop n) := by
  intro i v hv
  rw [getElem?_drop] at hv
  have hh := h (n + i) v hv
  rwa [Nat.cast_add, ← add_assoc] at hh

theorem take (h : Slots array cap first items) (n : ℕ) : Slots array cap first (items.take n) := by
  intro i v hv
  rw [getElem?_take] at hv
  split at hv
  · exact h i v hv
  · cases hv

theorem append_last (h : Slots array cap first items) (hlen : array.length = cap.toNat)
    (hlt : items.length < cap) (v : α) :
    Slots (array.set ((first + items.length) % cap).toNat (some v)) cap first (items ++ [v]) := by
  intro i w hw
  rw [getElem?_append] at hw
  split at hw
  · rename_i hi
    exact (h i w hw).set_ne (by omega) (by omega) (by omega) v
  · rename_i hi
    have hi' : i = items.length := by
      by_contra hne
      rw [getElem?_eq_none (by rw [length_singleton]; omega)] at hw
      cases hw
    subst hi'
    rw [Nat.sub_self] at hw
    cases hw
    exact holds_set_self (by omega) hlen v

theorem cons_first (h : Slots array cap first items) (hlen : array.length = cap.toNat)
    (hlt : items.length < cap) (v : α) :
    Slots (array.set ((first - 1) % cap).toNat (some v)) cap (first - 1) (v :: items) := by
  intro i w hw
  cases i with
  | zero =>
    cases hw
    rw [Nat.cast_zero, add_zero]
    exact holds_set_self (by omega) hlen v
  | succ i =>
    rw [List.getElem?_cons_succ] at hw
    have hi := (List.getElem?_eq_some_iff.mp hw).1
    have hh : Holds array cap (first - 1 + (i + 1 : ℕ)) w := by
      have hidx : first - 1 + ((i + 1 : ℕ) : ℤ) = first + i := by omega
      rw [hidx]
      exact h i w hw
    exact hh.set_ne (by omega) (by omega) (by omega) v

theorem set (h : Slots array cap first items) (hlen : array.length = cap.toNat)
    (hle : items.length ≤ cap) {i : ℕ} (hi : i < items.length) (v : α) :
    Slots (array.set ((first + i) % cap).toNat (some v)) cap first (items.set i v) := by
  intro j w hw
  by_cases hij : i = j
  · subst hij
    rw [List.getElem?_set_self hi] at hw
    cases hw
    exact holds_set_self (by omega) hlen v
  · rw [List.getElem?_set_ne hij] at hw
    have hj := (List.getElem?_eq_some_iff.mp hw).1
    exact (h j w hw).set_ne (by omega) (by omega) (by omega) v

theorem emod (h : Slots array cap first items) : Slots array cap (first % cap) items := by
  intro i v hv
  have hh := h i v hv
  unfold Holds at hh ⊢
  rwa [emod_add_emod]

end Slots

/-! ## The machine's remainder and the slots in range -/

theorem remainder_of_nonneg {a b : ℤ} (ha : 0 ≤ a) (hb : b ≠ 0) : remainder a b = .ok (a % b) := by
  unfold remainder
  rw [if_neg hb, tmod_eq_emod_of_nonneg ha]

theorem remainder_of_dvd {a b : ℤ} (ha : 0 ≤ a ∨ b ∣ a) (hb : b ≠ 0) :
    remainder a b = .ok (a % b) := by
  rcases ha with ha | ha
  · exact remainder_of_nonneg ha hb
  · unfold remainder
    rw [if_neg hb, tmod_eq_zero_of_dvd ha, emod_eq_zero_of_dvd ha]

theorem storeSlot_emod (hcap : 0 < cap) (hlen : array.length = cap.toNat) (v : α) :
    storeSlot array (p % cap) v = .ok (array.set (p % cap).toNat (some v)) := by
  have hp := emod_nonneg p (ne_of_gt hcap)
  have hlt := toNat_emod_lt (p := p) hcap hlen
  unfold storeSlot
  rw [if_neg (by omega)]

theorem Holds.loadSlot {v : α} (h : Holds array cap p v) (hcap : 0 < cap) :
    loadSlot array (p % cap) = .ok v := by
  have hp := emod_nonneg p (ne_of_gt hcap)
  unfold QtBase.loadSlot
  rw [if_neg (by omega)]
  unfold Holds at h
  rw [h]

theorem emod_pred (hcap : 0 < cap) (p : ℤ) :
    (if p % cap = 0 then cap else p % cap) - 1 = (p - 1) % cap := by
  have hp := emod_nonneg p (ne_of_gt hcap)
  have hlt := emod_lt_of_pos p hcap
  have hsub : (p - 1) % cap = (p % cap - 1) % cap := by rw [emod_sub_emod]
  rw [hsub]
  split
  · rename_i h
    have hlast : (-1 + cap) % cap = -1 + cap := emod_eq_of_lt (by omega) (by omega)
    rw [h, zero_sub, ← add_emod_right, hlast]
    omega
  · have hlow : (p % cap - 1) % cap = p % cap - 1 := emod_eq_of_lt (by omega) (by omega)
    rw [hlow]

/-! ## The operations keep the window -/

/-- The cache shows the window `w`. -/
structure Models (d : QContiguousCache α) (w : Window α) : Prop where
  alloc : d.alloc = w.capacity
  offset : d.offset = w.first
  count : d.count = w.items.length
  start : d.start = if w.capacity = 0 then 0 else w.first % w.capacity
  length : d.array.length = w.capacity.toNat
  slots : Slots d.array w.capacity w.first w.items

variable {d : QContiguousCache α} {w : Window α}

theorem Models.containsIndex (h : Models d w) (pos : ℤ) :
    d.containsIndex pos = true ↔ w.contains pos := by
  unfold QContiguousCache.containsIndex Window.contains
  rw [Bool.and_eq_true, decide_eq_true_iff, decide_eq_true_iff, h.offset, h.count]
  omega

theorem Models.remainder_start (h : Models d w) (hcap : w.capacity ≠ 0) {n : ℤ} (hn : 0 ≤ n) :
    remainder (d.start + n) d.alloc = .ok ((w.first + n) % w.capacity) := by
  have hle := w.length_le
  have hpos := emod_nonneg w.first hcap
  rw [h.start, h.alloc, if_neg hcap, remainder_of_nonneg (by omega) hcap, emod_add_emod]

theorem Models.alloc_ne (h : Models d w) (hcap : w.capacity ≠ 0) : ¬ d.alloc = 0 := by
  rwa [h.alloc]

theorem Models.append (h : Models d w) (v : α) :
    ∃ d', d.append v = .ok d' ∧ Models d' (w.append v) := by
  have hle := w.length_le
  unfold QContiguousCache.append Window.append
  by_cases h0 : w.capacity = 0
  · rw [if_pos (h.alloc.trans h0), dif_pos h0]
    exact ⟨d, rfl, h⟩
  have hcap : 0 < w.capacity := by omega
  have hlen := h.length
  have hslot := h.remainder_start h0 (natCast_nonneg w.items.length)
  rw [← h.count] at hslot
  rw [if_neg (h.alloc_ne h0), dif_neg h0, hslot, ok_bind, h.count, storeSlot_emod hcap hlen, ok_bind]
  by_cases hfull : (w.items.length : ℤ) = w.capacity
  · rw [if_pos (hfull.trans h.alloc.symm), dif_pos hfull, h.remainder_start h0 (by omega), ok_bind]
    refine ⟨_, rfl, h.alloc, ?_, ?_, ?_, ?_, ?_⟩
    · show d.offset + 1 = w.first + 1
      rw [h.offset]
    · show (w.items.length : ℤ) = _
      simp
      omega
    · rw [if_neg h0]
    · show (d.array.set _ _).length = _
      rw [length_set, hlen]
    · have hdrop := (h.slots.drop 1).append_last hlen (by rw [length_drop]; omega) v
      have hidx : w.first + ((1 : ℕ) : ℤ) + ((w.items.drop 1).length : ℤ) =
          w.first + w.items.length := by
        simp
        omega
      rw [hidx] at hdrop
      exact hdrop
  · rw [if_neg (fun heq => hfull (heq.trans h.alloc)), dif_neg hfull]
    refine ⟨_, rfl, h.alloc, h.offset, ?_, h.start, ?_, ?_⟩
    · show (w.items.length : ℤ) + 1 = _
      simp
    · show (d.array.set _ _).length = _
      rw [length_set, hlen]
    · exact h.slots.append_last hlen (by omega) v

theorem Models.prepend (h : Models d w) (v : α) :
    ∃ d', d.prepend v = .ok d' ∧ Models d' (w.prepend v) := by
  have hle := w.length_le
  unfold QContiguousCache.prepend Window.prepend
  by_cases h0 : w.capacity = 0
  · rw [if_pos (h.alloc.trans h0), dif_pos h0]
    exact ⟨d, rfl, h⟩
  have hcap : 0 < w.capacity := by omega
  have hlen := h.length
  have hstart : (if d.start ≠ 0 then d.start - 1 else d.alloc - 1) = (w.first - 1) % w.capacity := by
    rw [← emod_pred hcap, h.start, if_neg h0, h.alloc]
    by_cases hz : w.first % w.capacity = 0
    · rw [if_neg (not_not_intro hz), if_pos hz]
    · rw [if_pos hz, if_neg hz]
  have htake : (w.items.take (w.capacity - 1).toNat).length < w.capacity := by
    simp
    omega
  rw [if_neg (h.alloc_ne h0), dif_neg h0, hstart]
  simp only
  rw [storeSlot_emod hcap hlen, ok_bind]
  refine ⟨_, rfl, h.alloc, ?_, ?_, ?_, ?_, ?_⟩
  · show d.offset - 1 = w.first - 1
    rw [h.offset]
  · show (if d.count ≠ d.alloc then d.count + 1 else d.count) = _
    rw [h.count, h.alloc, length_cons, length_take]
    split <;> omega
  · rw [if_neg h0]
  · show (d.array.set _ _).length = _
    rw [length_set, hlen]
  · exact (h.slots.take _).cons_first hlen htake v

variable {pos : ℤ}

theorem Models.remainder_index (h : Models d w) (hcap : w.capacity ≠ 0)
    (hpos : 0 ≤ pos ∨ w.capacity ∣ pos) : remainder pos d.alloc = .ok (pos % w.capacity) := by
  rw [h.alloc]
  exact remainder_of_dvd hpos hcap

theorem Models.set (h : Models d w) (hpos : w.contains pos) (v : α) :
    Models { d with array := d.array.set (pos % w.capacity).toNat (some v) } (w.set pos v) := by
  have hle := w.length_le
  unfold Window.contains at hpos
  refine ⟨h.alloc, h.offset, ?_, h.start, ?_, ?_⟩
  · show d.count = ((w.items.set _ v).length : ℤ)
    rw [length_set]
    exact h.count
  · show (d.array.set _ _).length = _
    rw [length_set]
    exact h.length
  · have hset := h.slots.set h.length hle (i := (pos - w.first).toNat) (by omega) v
    have hidx : w.first + ((pos - w.first).toNat : ℤ) = pos := by omega
    rw [hidx] at hset
    exact hset

theorem Models.insert (h : Models d w) (hpos : 0 ≤ pos) (v : α) :
    ∃ d', d.insert pos v = .ok d' ∧ Models d' (w.insert pos v) := by
  have hle := w.length_le
  unfold QContiguousCache.insert Window.insert
  rw [qAssert_pos hpos, ok_bind]
  by_cases h0 : w.capacity = 0
  · rw [if_pos (h.alloc.trans h0), dif_pos h0]
    exact ⟨d, rfl, h⟩
  have hcap : 0 < w.capacity := by omega
  rw [if_neg (h.alloc_ne h0), dif_neg h0]
  by_cases hin : w.contains pos
  · rw [if_pos ((h.containsIndex pos).mpr hin), if_pos hin, h.remainder_index h0 (.inl hpos),
      ok_bind, storeSlot_emod hcap h.length, ok_bind]
    exact ⟨_, rfl, h.set hin v⟩
  rw [if_neg (fun hc => hin ((h.containsIndex pos).mp hc)), if_neg hin, h.offset, h.count]
  by_cases hfirst : pos = w.first - 1
  · rw [if_pos hfirst, if_pos hfirst]
    exact h.prepend v
  rw [if_neg hfirst, if_neg hfirst]
  by_cases hlast : pos = w.first + w.items.length
  · rw [if_pos hlast, if_pos hlast]
    exact h.append v
  have hstore : storeSlot d.clear.array (pos % w.capacity) v = _ := storeSlot_emod hcap h.length v
  rw [if_neg hlast, if_neg hlast, h.remainder_index h0 (.inl hpos), ok_bind, hstore, ok_bind]
  refine ⟨_, rfl, h.alloc, rfl, rfl, ?_, ?_, ?_⟩
  · rw [if_neg h0]
  · show (d.array.set _ _).length = _
    rw [length_set]
    exact h.length
  · have hnil : Slots d.array w.capacity pos [] := fun i u hu => by cases hu
    have hone := hnil.append_last h.length hcap v
    rw [length_nil, Nat.cast_zero, add_zero] at hone
    exact hone

theorem Models.clear (h : Models d w) : Models d.clear w.clear where
  alloc := h.alloc
  offset := rfl
  count := rfl
  start := by
    show 0 = if w.capacity = 0 then 0 else 0 % w.capacity
    rw [zero_emod, ite_self]
  length := h.length
  slots := fun i v hv => by cases hv

theorem Models.normalizeIndexes (h : Models d w) :
    Models d.normalizeIndexes w.normalizeIndexes where
  alloc := h.alloc
  offset := h.start
  count := h.count
  start := by
    show d.start = if w.capacity = 0 then 0
      else (if w.capacity = 0 then 0 else w.first % w.capacity) % w.capacity
    rw [h.start]
    split
    · rfl
    · rw [emod_emod]
  length := h.length
  slots := by
    show Slots d.array w.capacity (if w.capacity = 0 then 0 else w.first % w.capacity) w.items
    split
    · rename_i h0
      have hle := w.length_le
      have hnil : w.items = [] := length_eq_zero_iff.mp (by omega)
      rw [hnil]
      exact fun i v hv => by cases hv
    · exact h.slots.emod

theorem Models.removeFirst (h : Models d w) (hne : w.items ≠ []) :
    ∃ d', d.removeFirst = .ok d' ∧ Models d' w.removeFirst := by
  have hle := w.length_le
  have hpos := length_pos_iff.mpr hne
  have h0 : w.capacity ≠ 0 := by omega
  unfold QContiguousCache.removeFirst
  rw [qAssert_pos (by rw [h.count]; omega), ok_bind, h.remainder_start h0 (by omega), ok_bind]
  refine ⟨_, rfl, h.alloc, ?_, ?_, ?_, h.length, h.slots.drop 1⟩
  · show d.offset + 1 = w.first + 1
    rw [h.offset]
  · show d.count - 1 = ((w.items.drop 1).length : ℤ)
    rw [h.count, length_drop]
    omega
  · show _ = if w.capacity = 0 then 0 else (w.first + 1) % w.capacity
    rw [if_neg h0]

theorem Models.removeLast (h : Models d w) (hne : w.items ≠ []) :
    ∃ d', d.removeLast = .ok d' ∧ Models d' w.removeLast := by
  have hpos := length_pos_iff.mpr hne
  unfold QContiguousCache.removeLast
  rw [qAssert_pos (by rw [h.count]; omega), ok_bind]
  refine ⟨_, rfl, h.alloc, h.offset, ?_, h.start, h.length, ?_⟩
  · show d.count - 1 = (w.items.dropLast.length : ℤ)
    rw [h.count, length_dropLast]
    omega
  · show Slots _ _ _ w.items.dropLast
    rw [dropLast_eq_take]
    exact h.slots.take _

/-- The values are copied from the last one down to the first, each to the slot of its index. -/
theorem copyBackwards_spec {src : List (Option α)} {srcAlloc destAlloc : ℤ} (hs : 0 < srcAlloc)
    (hslots : Slots src srcAlloc first items) (hle : items.length ≤ destAlloc) :
    ∀ n ≤ items.length, ∀ dest : List (Option α), dest.length = destAlloc.toNat →
      Slots dest destAlloc (first + n) (items.drop n) →
      ∃ dest', copyBackwards src srcAlloc destAlloc n ((first + n - 1) % srcAlloc)
        ((first + n - 1) % destAlloc) dest = .ok dest' ∧ dest'.length = destAlloc.toNat ∧
        Slots dest' destAlloc first items
  | 0, _, dest, hlen, hdest => by
    rw [Nat.cast_zero, add_zero] at hdest
    exact ⟨dest, rfl, hlen, hdest⟩
  | n + 1, hn, dest, hlen, hdest => by
    have hd : 0 < destAlloc := by omega
    have hidx : first + ((n + 1 : ℕ) : ℤ) - 1 = first + n := by omega
    obtain ⟨v, hv⟩ : ∃ v, items[n]? = some v := ⟨_, List.getElem?_eq_getElem hn⟩
    have hdrop : items.drop n = v :: items.drop (n + 1) := by
      obtain ⟨hn', rfl⟩ := List.getElem?_eq_some_iff.mp hv
      exact drop_eq_getElem_cons hn'
    have hshort : ((items.drop (n + 1)).length : ℤ) < destAlloc := by
      simp
      omega
    have hcons := hdest.cons_first hlen hshort v
    rw [hidx, ← hdrop] at hcons
    have hset : (dest.set ((first + n) % destAlloc).toNat (some v)).length = destAlloc.toNat := by
      rw [length_set, hlen]
    obtain ⟨dest', hcopy, hlen', hslots'⟩ :=
      copyBackwards_spec hs hslots hle n (by omega) _ hset hcons
    refine ⟨dest', ?_, hlen', hslots'⟩
    unfold copyBackwards
    rw [hidx, (hslots n v hv).loadSlot hs, ok_bind, storeSlot_emod hd hlen, ok_bind]
    simp only [emod_pred hs, emod_pred hd]
    exact hcopy

theorem allocateData_slots (α : Type) (cap : ℤ) (first : ℤ) :
    (allocateData cap : List (Option α)).length = cap.toNat ∧
      Slots (allocateData cap : List (Option α)) cap first [] :=
  ⟨length_replicate, fun i v hv => by cases hv⟩

/-- What `firstIndex` will be once the capacity is `size`. -/
def newOffset (d : QContiguousCache α) (size : ℤ) : ℤ := d.offset + d.count - min d.count size

theorem Models.newOffset (h : Models d w) {size : ℤ} (hsize : 0 ≤ size) :
    d.newOffset size = (w.setCapacity size.toNat).first ∧
      min d.count size = (w.setCapacity size.toNat).items.length := by
  unfold QContiguousCache.newOffset
  rw [h.offset, h.count]
  constructor
  · show _ = w.first + ((w.items.length - size.toNat : ℕ) : ℤ)
    omega
  · show _ = ((w.items.drop (w.items.length - size.toNat)).length : ℤ)
    simp
    omega

theorem Models.setCapacity (h : Models d w) {size : ℤ} (hsize : 0 ≤ size)
    (hfit : size ≠ d.alloc → 0 < size → 0 ≤ d.newOffset size ∨ size ∣ d.newOffset size) :
    ∃ d', d.setCapacity size = .ok d' ∧
      Models d' (if size = w.capacity then w else w.setCapacity size.toNat) := by
  have hle := w.length_le
  unfold QContiguousCache.setCapacity
  rw [qAssert_pos hsize, ok_bind]
  by_cases heq : size = d.alloc
  · rw [if_pos heq, if_pos (heq.trans h.alloc)]
    exact ⟨d, rfl, h⟩
  have heq' : ¬ size = w.capacity := fun hc => heq (hc.trans h.alloc.symm)
  rw [if_neg heq, if_neg heq']
  obtain ⟨hoff, hcount⟩ := h.newOffset hsize
  have hcapacity : (w.setCapacity size.toNat).capacity = size := toNat_of_nonneg hsize
  have hstart : newStart (d.newOffset size) size =
      .ok (if size = 0 then 0 else d.newOffset size % size) := by
    unfold newStart
    split
    · rfl
    · exact remainder_of_dvd (hfit heq (by omega)) ‹_›
  show ∃ d', (newStart (d.newOffset size) size >>= _) = .ok d' ∧ _
  rw [hstart, ok_bind]
  by_cases hzero : min d.count size = 0
  · rw [if_pos hzero]
    have hnil : (w.setCapacity size.toNat).items = [] := length_eq_zero_iff.mp (by omega)
    obtain ⟨hlen, hslots⟩ := allocateData_slots α size (d.newOffset size)
    refine ⟨_, rfl, hcapacity.symm, hoff, hcount, ?_, ?_, ?_⟩
    · rw [hcapacity, ← hoff]
    · simp
      omega
    · rw [hcapacity, hnil, ← hoff]
      exact hslots
  · have hpos : 0 < size := by
      rw [h.count] at hzero
      omega
    have hcap : w.capacity ≠ 0 := by
      rw [h.count] at hzero
      omega
    have hne : size ≠ 0 := by omega
    have hlast : d.newOffset size + min d.count size - 1 = w.first + (d.count - 1) := by
      unfold QContiguousCache.newOffset
      rw [h.offset]
      omega
    have hnonneg := emod_nonneg (d.newOffset size) hne
    have hdest : remainder (d.newOffset size % size + min d.count size - 1) size =
        .ok ((d.newOffset size + min d.count size - 1) % size) := by
      rw [h.count] at hzero ⊢
      rw [add_sub_assoc, remainder_of_nonneg (by omega) hne, emod_add_emod,
        add_sub_assoc]
    have hsrc : remainder (d.start + d.count - 1) d.alloc =
        .ok ((d.newOffset size + min d.count size - 1) % w.capacity) := by
      rw [hlast, add_sub_assoc]
      apply h.remainder_start hcap
      rw [h.count] at hzero ⊢
      omega
    obtain ⟨hlen, hslots⟩ := allocateData_slots α size
      ((w.setCapacity size.toNat).first + (w.setCapacity size.toNat).items.length)
    have hold : Slots d.array w.capacity (w.setCapacity size.toNat).first
        (w.setCapacity size.toNat).items := h.slots.drop _
    have hshort := (w.setCapacity size.toNat).length_le
    rw [hcapacity] at hshort
    obtain ⟨array, hcopy, hlen', hslots'⟩ := copyBackwards_spec (by omega) hold hshort
      (w.setCapacity size.toNat).items.length (Nat.le_refl _) (allocateData size) hlen
      (by rw [drop_length]; exact hslots)
    rw [← hoff, ← hcount] at hcopy
    rw [if_neg hzero, if_neg hne, hdest, ok_bind, hsrc, ok_bind, h.alloc, hcount,
      toNat_natCast, ← hcount, hcopy, ok_bind]
    refine ⟨_, rfl, hcapacity.symm, hoff, hcount, ?_, ?_, ?_⟩
    · rw [hcapacity, ← hoff, if_neg hne]
    · simp
      omega
    · rw [hcapacity]
      exact hslots'

theorem Models.holds (h : Models d w) (hpos : w.contains pos) :
    ∃ v, w.items[(pos - w.first).toNat]? = some v ∧ Holds d.array w.capacity pos v := by
  unfold Window.contains at hpos
  have hlt : (pos - w.first).toNat < w.items.length := by omega
  have hidx : w.first + ((pos - w.first).toNat : ℤ) = pos := by omega
  have hv := getElem?_eq_getElem hlt
  have hh := h.slots _ _ hv
  rw [hidx] at hh
  exact ⟨_, hv, hh⟩

theorem Models.get (h : Models d w) (hin : w.contains pos) (hpos : 0 ≤ pos ∨ w.capacity ∣ pos) :
    ∃ v, w.items[(pos - w.first).toNat]? = some v ∧ d.get pos = .ok v := by
  obtain ⟨v, hv, hh⟩ := h.holds hin
  have hle := w.length_le
  unfold Window.contains at hin
  have h0 : w.capacity ≠ 0 := by omega
  refine ⟨v, hv, ?_⟩
  unfold QContiguousCache.get
  rw [qAssert_pos (by rw [h.offset, h.count]; omega), ok_bind, h.remainder_index h0 hpos, ok_bind]
  exact hh.loadSlot (by omega)

theorem Models.subscript [Inhabited α] (h : Models d w) (value : Option α) (h0 : w.capacity ≠ 0)
    (hassert : ¬ w.contains pos → 0 ≤ pos) (hpos : 0 ≤ pos ∨ w.capacity ∣ pos) :
    ∃ d', d.subscript pos value = .ok d' ∧ Models d' (w.subscript pos value) := by
  have hle := w.length_le
  obtain ⟨d₁, hd₁, h₁⟩ : ∃ d₁, d.ensureIndex pos = .ok d₁ ∧
      Models d₁ (if w.contains pos then w else w.insert pos default) := by
    unfold ensureIndex
    by_cases hin : w.contains pos
    · rw [if_pos ((h.containsIndex pos).mpr hin), if_pos hin]
      exact ⟨d, rfl, h⟩
    · rw [if_neg (fun hc => hin ((h.containsIndex pos).mp hc)), if_neg hin]
      exact h.insert (hassert hin) default
  have hin₁ : (if w.contains pos then w else w.insert pos default).contains pos := by
    split
    · assumption
    · exact w.contains_insert h0 default
  have hcap₁ : (if w.contains pos then w else w.insert pos default).capacity = w.capacity := by
    split
    · rfl
    · exact w.insert_capacity pos default
  unfold QContiguousCache.subscript Window.subscript
  generalize (if w.contains pos then w else w.insert pos default) = w₁ at h₁ hin₁ hcap₁ ⊢
  have h0₁ : w₁.capacity ≠ 0 := by rwa [hcap₁]
  have hpos₁ : 0 ≤ pos ∨ w₁.capacity ∣ pos := by rwa [hcap₁]
  have hcappos : 0 < w₁.capacity := by omega
  obtain ⟨old, hold, hh⟩ := h₁.holds hin₁
  rw [hd₁, ok_bind, h₁.remainder_index h0₁ hpos₁, ok_bind, hh.loadSlot hcappos, ok_bind,
    storeSlot_emod hcappos h₁.length, ok_bind]
  have hset := h₁.set hin₁ (value.getD old)
  rw [w₁.set_getD hold] at hset
  exact ⟨_, rfl, hset⟩

/-! ## Runs -/

/-- What the operations assert. -/
def Asserts (d : QContiguousCache α) : Op α → Prop
  | .insert pos _ => 0 ≤ pos
  | .subscript pos _ => d.containsIndex pos = true ∨ 0 ≤ pos
  | .removeFirst => 0 < d.count
  | .removeLast => 0 < d.count
  | .setCapacity size => 0 ≤ size
  | _ => True

/-- The remainders that are taken are not negative. -/
def IndexesFit (d : QContiguousCache α) : Op α → Prop
  | .subscript pos _ => d.alloc ≠ 0 ∧ (0 ≤ pos ∨ d.alloc ∣ pos)
  | .setCapacity size =>
    size ≠ d.alloc → 0 < size → 0 ≤ d.newOffset size ∨ size ∣ d.newOffset size
  | _ => True

/-- Every step of the run meets `P`. -/
def Meets [Inhabited α] (P : QContiguousCache α → Op α → Prop) :
    QContiguousCache α → List (Op α) → Prop
  | _, [] => True
  | d, op :: ops => P d op ∧ ∀ d', d.step op = .ok d' → Meets P d' ops

theorem Models.step [Inhabited α] (h : Models d w) {op : Op α} (hassert : d.Asserts op)
    (hfit : d.IndexesFit op) : ∃ d', d.step op = .ok d' ∧ Models d' (w.step op) := by
  cases op with
  | append value => exact h.append value
  | prepend value => exact h.prepend value
  | insert pos value => exact h.insert hassert value
  | subscript pos value =>
    have h0 : w.capacity ≠ 0 := by
      rw [← h.alloc]
      exact hfit.1
    have hpos : 0 ≤ pos ∨ w.capacity ∣ pos := by
      rw [← h.alloc]
      exact hfit.2
    exact h.subscript value h0 (fun hin => hassert.resolve_left fun hc =>
      hin ((h.containsIndex pos).mp hc)) hpos
  | removeFirst =>
    have hcount : 0 < d.count := hassert
    rw [h.count] at hcount
    exact h.removeFirst (length_pos_iff.mp (by omega))
  | removeLast =>
    have hcount : 0 < d.count := hassert
    rw [h.count] at hcount
    exact h.removeLast (length_pos_iff.mp (by omega))
  | setCapacity size => exact h.setCapacity hassert hfit
  | clear => exact ⟨_, rfl, h.clear⟩
  | normalizeIndexes => exact ⟨_, rfl, h.normalizeIndexes⟩

theorem Models.run [Inhabited α] (ops : List (Op α)) (h : Models d w)
    (hmeets : Meets (fun d op => d.Asserts op ∧ d.IndexesFit op) d ops) :
    ∃ d', d.run ops = .ok d' ∧ Models d' (ops.foldl Window.step w) := by
  induction ops generalizing d w with
  | nil => exact ⟨d, rfl, h⟩
  | cons op ops ih =>
    obtain ⟨d', hstep, h'⟩ := h.step hmeets.1.1 hmeets.1.2
    unfold QContiguousCache.run
    rw [hstep, ok_bind]
    exact ih h' (hmeets.2 d' hstep)

theorem models_ofCapacity {cap : ℤ} (hcap : 0 ≤ cap) :
    ∃ d, ofCapacity cap = .ok d ∧ Models d (⟨cap, 0, [], hcap⟩ : Window α) := by
  unfold ofCapacity
  rw [qAssert_pos hcap, ok_bind]
  obtain ⟨hlen, hslots⟩ := allocateData_slots α cap 0
  refine ⟨_, rfl, rfl, rfl, rfl, ?_, hlen, hslots⟩
  show 0 = if cap = 0 then 0 else 0 % cap
  rw [zero_emod, ite_self]

end QContiguousCache

end QtBase
