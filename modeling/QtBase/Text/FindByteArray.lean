import QtBase.Text.FindString

/-! `QtPrivate::findByteArray` and `QByteArrayMatcher`: the search for one byte, with a rolling
hash, and after Boyer and Moore, is naive search. -/
namespace QtBase.ByteArrayMatcher

open PatternSearch RollingHash StringMatcher

/-- A pointer into memory and a size. The bytes are `data 0` to `data (size - 1)`. -/
structure QByteArrayView where
  data : ℤ → UInt8
  size : ℕ

/-- The byte as an `uchar`. -/
def QByteArrayView.key (v : QByteArrayView) (i : ℤ) : ℕ := (v.data i).toNat

/-- The byte as a `char`, which is signed, converted to `std::size_t`. -/
def QByteArrayView.code (v : QByteArrayView) (i : ℤ) : ℕ :=
  if (v.data i).toNat < 128 then (v.data i).toNat else 2 ^ 64 - 256 + (v.data i).toNat

def bm_init_skiptable (needle : QByteArrayView) : ℕ → ℕ :=
  let l := min needle.size 255
  fillSkiptable needle.key l (needle.size - l) fun _ => l

def bm_find (haystack : QByteArrayView) (index : ℤ) (needle : QByteArrayView)
    (skiptable : ℕ → ℕ) : Exec ℤ :=
  let l := haystack.size
  let pl := needle.size
  if pl = 0 then .ok (if index > l then -1 else index)
  else bmLoop haystack.key (fun t => needle.key t) pl skiptable (fun _ => true) l (l + 1)
    (index + (pl - 1))

/-- `QByteArrayMatcher::indexIn(data, from)` of a matcher with this pattern. -/
def indexIn (pattern data : QByteArrayView) (start : ℤ) : Exec ℤ :=
  bm_find data (if start < 0 then 0 else start) pattern (bm_init_skiptable pattern)

def qFindByteArrayBoyerMoore (haystack : QByteArrayView) (haystackOffset : ℤ)
    (needle : QByteArrayView) : Exec ℤ :=
  let skiptable := bm_init_skiptable needle
  bm_find haystack (if haystackOffset < 0 then 0 else haystackOffset) needle skiptable

def findChar (str : QByteArrayView) (ch : UInt8) (start : ℤ) : ℤ :=
  let start := if start < 0 then max (start + str.size) 0 else start
  if start < str.size then
    let n := findIf (fun i => str.data i = ch) (str.size - start.toNat) start
    if n ≠ str.size then n else -1
  else -1

def qFindByteArray (haystack0 : QByteArrayView) (start : ℤ) (needle : QByteArrayView) : Exec ℤ :=
  let l := haystack0.size
  let sl := needle.size
  let start := if start < 0 then start + l else start
  -- compared as `std::size_t`
  if sl + start < 0 ∨ sl + start > l then .ok (-1)
  else if sl = 0 then .ok start
  else if l = 0 then .ok (-1)
  else if sl = 1 then .ok (findChar haystack0 (needle.data 0) start)
  else if l > 500 ∧ sl > 5 then qFindByteArrayBoyerMoore haystack0 start needle
  else
    let hashNeedle := hashKeys needle.code sl 0 0
    let hashHaystack := hashKeys haystack0.code sl start 0
    -- `*needle == *haystack`, then `memcmp`
    .ok (hashLoop haystack0.code (sl - 1) hashNeedle
      (fun i => decide (needle.data 0 = haystack0.data i) &&
        (List.range sl).all fun t => needle.data t = haystack0.data (i + t))
      (l - sl + 1 - start).toNat start
      (sizeT (hashHaystack - haystack0.code (start + (sl - 1 : ℕ)))))

/-- `memchr` finds what `findChar` finds. -/
def findCharHelper (haystack : QByteArrayView) (start : ℤ) (needle : UInt8) : ℤ :=
  findChar haystack needle start

def findByteArray (haystack : QByteArrayView) (start : ℤ) (needle : QByteArrayView) : Exec ℤ :=
  let ol := needle.size
  let l := haystack.size
  if ol = 0 then
    .ok (if start < 0 then max (start + l) 0 else if start > l then -1 else start)
  else if ol = 1 then .ok (findCharHelper haystack start (needle.data 0))
  else if start > l ∨ ol + start > l then .ok (-1)
  else qFindByteArray haystack start needle

/-- The bytes of the needle are those of the haystack from `i` on. -/
def Matches (haystack needle : QByteArrayView) (i : ℤ) : Prop :=
  i + needle.size ≤ haystack.size ∧ ∀ t < needle.size, haystack.data (i + t) = needle.data t

variable {haystack needle : QByteArrayView} {start : ℤ}

theorem occurs_iff (i : ℤ) : Occurs haystack.key (fun t => needle.key t) needle.size i ↔
    ∀ t < needle.size, haystack.data (i + t) = needle.data t := by
  unfold Occurs QByteArrayView.key
  exact forall_congr' fun t => imp_congr_right fun _ => UInt8.toNat_inj

theorem bm_find_spec (hsize : 1 ≤ needle.size) {index : ℤ} (hindex : 0 ≤ index) :
    ∃ r, bm_find haystack index needle (bm_init_skiptable needle) = .ok r ∧
      FirstAt (Matches haystack needle) index r := by
  have htable := @skips_fillSkiptable needle.key (fun t => needle.key t) needle.size
    (min needle.size 255) (Nat.min_le_left ..) fun _ _ => rfl
  obtain ⟨r, hloop, hfirst⟩ := @bmLoop_spec haystack.key _ _ _ (fun _ => true) haystack.size hsize
    htable (Or.inl fun _ => rfl) (haystack.size + 1) (index + (needle.size - 1)) (by omega)
    (by omega)
  refine ⟨r, ?_, ?_⟩
  · unfold bm_find
    rw [if_neg (by omega)]
    exact hloop
  · rw [add_sub_cancel_right] at hfirst
    refine (FirstAt.congr fun i _ => ?_).mp hfirst
    unfold Hit Matches
    rw [occurs_iff]
    exact and_congr_right fun _ => and_iff_left rfl

theorem findChar_spec (hsize : needle.size = 1) (hstart : -haystack.size ≤ start) :
    FirstAt (Matches haystack needle) (startOf haystack.size start)
      (findChar haystack (needle.data 0) start) := by
  have hpos : 0 ≤ startOf haystack.size start := by
    unfold startOf
    split_ifs <;> omega
  have hfrom : (if start < 0 then max (start + haystack.size) 0 else start) =
      startOf haystack.size start := by
    unfold startOf at hpos ⊢
    split_ifs at hpos ⊢
    · exact max_eq_left hpos
    · rfl
  unfold findChar
  dsimp only
  rw [hfrom]
  by_cases hin : startOf haystack.size start < haystack.size
  · rw [if_pos hin]
    refine (FirstAt.congr fun i _ => ?_).mp (findIf_spec (by omega))
    unfold Matches
    rw [hsize, decide_eq_true_eq]
    refine and_congr Int.lt_iff_add_one_le ⟨fun h t ht => ?_, fun h => ?_⟩
    · obtain rfl : t = 0 := by omega
      simpa using h
    · simpa using h 0 (by omega)
  · rw [if_neg hin]
    refine .none fun i hi h => ?_
    have := h.1
    omega

theorem qFindByteArray_spec (hsize : 1 < needle.size) (hstart : -haystack.size ≤ start) :
    ∃ r, qFindByteArray haystack start needle = .ok r ∧
      FirstAt (Matches haystack needle) (startOf haystack.size start) r := by
  have hpos : 0 ≤ startOf haystack.size start := by
    unfold startOf
    split_ifs <;> omega
  unfold qFindByteArray
  dsimp only
  rw [← startOf]
  generalize startOf haystack.size start = start at hpos
  by_cases hout : (needle.size : ℤ) + start < 0 ∨ (needle.size : ℤ) + start > haystack.size
  · rw [if_pos hout]
    refine ⟨-1, rfl, .none fun i hi h => ?_⟩
    have := h.1
    omega
  · rw [if_neg hout, if_neg (by omega), if_neg (by omega), if_neg (by omega)]
    by_cases hlong : haystack.size > 500 ∧ needle.size > 5
    · rw [if_pos hlong]
      unfold qFindByteArrayBoyerMoore
      rw [if_neg (by omega)]
      exact bm_find_spec (by omega) hpos
    · rw [if_neg hlong]
      have hsame : ∀ i, (decide (needle.data 0 = haystack.data i) &&
          (List.range needle.size).all fun t => decide (needle.data t = haystack.data (i + t))) =
            true ↔ ∀ t < needle.size, haystack.data (i + t) = needle.data t := by
        intro i
        rw [Bool.and_eq_true, decide_eq_true_eq, List.all_eq_true]
        constructor
        · intro h t ht
          exact (of_decide_eq_true (h.2 t (List.mem_range.mpr ht))).symm
        · intro h
          refine ⟨?_, fun t ht => decide_eq_true (h t (List.mem_range.mp ht)).symm⟩
          simpa using (h 0 (by omega)).symm
      refine ⟨_, rfl, (FirstAt.congr fun i hi => ?_).mp (hashSearch_spec (by omega)
        fun j _ h t ht => ?_)⟩
      · rw [hsame]
        exact and_congr_left fun _ => ⟨fun h => by omega, fun h => by omega⟩
      · unfold QByteArrayView.code
        rw [(hsame j).mp h t ht]

/-- `findByteArray` finds the first place of the needle from `start` on, which counts from the end
if it is negative, and so does a matcher. -/
theorem find_eq_naive (haystack needle : QByteArrayView) (hsize : 1 ≤ needle.size) {start : ℤ}
    (hstart : -haystack.size ≤ start) :
    (∃ r, findByteArray haystack start needle = .ok r ∧
      FirstAt (Matches haystack needle) (startOf haystack.size start) r) ∧
    (0 ≤ start → ∃ r, indexIn needle haystack start = .ok r ∧
      FirstAt (Matches haystack needle) start r) := by
  constructor
  · unfold findByteArray
    dsimp only
    rw [if_neg (by omega)]
    by_cases hone : needle.size = 1
    · rw [if_pos hone]
      exact ⟨_, rfl, findChar_spec hone hstart⟩
    · rw [if_neg hone]
      by_cases hout : start > haystack.size ∨ needle.size + start > haystack.size
      · rw [if_pos hout]
        refine ⟨-1, rfl, .none fun i hi h => ?_⟩
        have hend := h.1
        unfold startOf at hi
        split_ifs at hi <;> omega
      · rw [if_neg hout]
        exact qFindByteArray_spec (by omega) hstart
  · intro hpos
    unfold indexIn
    rw [if_neg (by omega)]
    exact bm_find_spec hsize hpos

/-- The bytes 1 2 1 2 1 2 and so on, where 2 1 is looked for from the last but two on. -/
theorem find_eq_naive_alternating :
    ∃ r, findByteArray ⟨fun i => if i % 2 = 0 then 1 else 2, 6⟩ (-3)
        ⟨fun i => if i = 0 then 2 else 1, 2⟩ = .ok r ∧
      FirstAt (Matches ⟨fun i => if i % 2 = 0 then 1 else 2, 6⟩
        ⟨fun i => if i = 0 then 2 else 1, 2⟩) 3 r :=
  (find_eq_naive _ _ (by decide) (by decide)).1

end QtBase.ByteArrayMatcher
