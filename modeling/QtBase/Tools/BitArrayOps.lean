import QtBase.Tools.BitArrayBits

/-! The operations on bit arrays, each on the list of bits its operands stand for. -/
namespace QtBase

open List Nat

namespace QBitArray

variable {a b : QBitArray} {bits bits' : List Bool}

/-- An operation that leaves the header alone. -/
theorem Holds.of_data (h : Holds a bits) {d : List UInt8} (hlen : d.length = a.d.length)
    (hhead : d.getD 0 0 = a.d.getD 0 0) (hbits : bits'.length = bits.length)
    (hbit : ∀ i, bitAt d i = bits'.getD i false) : Holds ⟨d⟩ bits' where
  length := by rw [hbits, ← h.length, hlen]
  header hz := by
    rw [hbits] at hz
    rw [hhead, hbits, hlen, h.header hz]
  bit := hbit

theorem bits_ext {l l' : List Bool} (hlen : l.length = l'.length)
    (h : ∀ i < l.length, l.getD i false = l'.getD i false) : l = l' := by
  apply ext_getElem hlen
  intro i h₁ h₂
  have hi := h i h₁
  rw [getD_eq_getElem _ _ h₁, getD_eq_getElem _ _ h₂] at hi
  exact hi

/-! ## Single bits -/

theorem Holds.setBit (h : Holds a bits) {i : ℕ} (hi : i < bits.length) (value : Bool) :
    ∃ a', a.setBit i value = .ok a' ∧ Holds a' (bits.set i value) := by
  have hsize : i < a.size := by rw [h.size]; exact hi
  have hlen := h.length
  rw [if_neg (by omega)] at hlen
  have hdata : 1 + i / 8 < a.d.length := by omega
  have hmod : i % 8 < 8 := mod_lt i (by decide)
  have hset : ∀ k, (bits.set i value).getD k false = if i = k then value else bits.getD k false := by
    intro k
    rw [getD_eq_getElem?_getD, getD_eq_getElem?_getD, getElem?_set]
    by_cases hk : i = k
    · rw [if_pos hk, if_pos hk, if_pos (by omega)]
      rfl
    · rw [if_neg hk, if_neg hk]
  unfold QBitArray.setBit
  rw [qAssert_pos hsize, ok_bind]
  have hstay : ∀ f : UInt8 → UInt8,
      (∀ j < 8, (f (a.d.getD (1 + i / 8) 0)).toNat.testBit j =
        if i % 8 = j then value else (a.d.getD (1 + i / 8) 0).toNat.testBit j) →
      Holds ⟨a.d.modify (1 + i / 8) f⟩ (bits.set i value) := by
    intro f hf
    apply h.of_data
    · rw [length_modify]
    · rw [getD_modify, if_neg (by omega)]
    · rw [length_set]
    · intro k
      rw [bitAt_modify, hset]
      by_cases hk : k / 8 = i / 8
      · rw [if_pos ⟨hk, hdata⟩, hf (k % 8) (mod_lt k (by decide)), ← hk]
        by_cases heq : i = k
        · rw [if_pos heq, if_pos (by rw [heq])]
        · rw [if_neg heq, if_neg (by omega), ← h.bit]
          rfl
      · rw [if_neg (fun h' => hk h'.1), if_neg (fun h' => hk (by rw [h'])), h.bit]
  cases value with
  | true =>
    refine ⟨_, rfl, hstay _ ?_⟩
    intro j hj
    rw [testBit_or, testBit_bitMask hmod]
    by_cases hj' : i % 8 = j
    · rw [if_pos hj', decide_eq_true hj', Bool.or_true]
    · rw [if_neg hj', decide_eq_false hj', Bool.or_false]
  | false =>
    refine ⟨_, rfl, hstay _ ?_⟩
    intro j hj
    rw [testBit_and, testBit_not _ hj, testBit_bitMask hmod]
    by_cases hj' : i % 8 = j
    · rw [if_pos hj', decide_eq_true hj', Bool.not_true, Bool.and_false]
    · rw [if_neg hj', decide_eq_false hj', Bool.not_false, Bool.and_true]

/-! ## Ranges -/

/-- The bits from `first` up to `last` set to `value`. -/
def setRange (bits : List Bool) (value : Bool) (first last : ℕ) : List Bool :=
  bitsOf bits.length fun i => if first ≤ i ∧ i < last then value else bits.getD i false

@[simp] theorem length_setRange (bits : List Bool) (value : Bool) (first last : ℕ) :
    (setRange bits value first last).length = bits.length := length_bitsOf _ _

theorem getD_setRange {value : Bool} {first last : ℕ} (h : first < last → last ≤ bits.length)
    (i : ℕ) : (setRange bits value first last).getD i false =
      if first ≤ i ∧ i < last then value else bits.getD i false := by
  unfold setRange
  rw [getD_bitsOf]
  by_cases hi : i < bits.length
  · rw [decide_eq_true hi, Bool.true_and]
  · rw [decide_eq_false hi, Bool.false_and, if_neg (by omega), getD_eq_default _ _ (by omega)]

theorem setRange_empty (bits : List Bool) (value : Bool) {first last : ℕ} (h : last ≤ first) :
    setRange bits value first last = bits := by
  apply bits_ext (length_setRange _ _ _ _)
  intro i _
  rw [getD_setRange (by omega), if_neg (by omega)]

theorem setRange_setRange {value : Bool} {first mid last : ℕ} (h₁ : first ≤ mid) (h₂ : mid ≤ last)
    (h : first < last → last ≤ bits.length) :
    setRange (setRange bits value first mid) value mid last = setRange bits value first last := by
  apply bits_ext
  · rw [length_setRange, length_setRange, length_setRange]
  · intro i _
    rw [getD_setRange (by rw [length_setRange]; omega), getD_setRange (by omega), getD_setRange h]
    by_cases hi : first ≤ i ∧ i < last
    · rw [if_pos hi]
      by_cases hmid : mid ≤ i ∧ i < last
      · rw [if_pos hmid]
      · rw [if_neg hmid, if_pos (by omega)]
    · rw [if_neg hi, if_neg (by omega), if_neg (by omega)]

theorem set_eq_setRange (bits : List Bool) (value : Bool) {i : ℕ} (hi : i < bits.length) :
    bits.set i value = setRange bits value i (i + 1) := by
  apply bits_ext
  · rw [length_set, length_setRange]
  · intro k hk
    rw [getD_setRange (by omega), getD_eq_getElem?_getD, getElem?_set]
    by_cases heq : i = k
    · rw [if_pos heq, if_pos (by omega), if_pos (by omega)]
      rfl
    · rw [if_neg heq, if_neg (by omega), getD_eq_getElem?_getD]

/-- The loop sets the bits it passes, and stops early only where `more` says so. -/
theorem Holds.setBits (value : Bool) (more : ℕ → Bool) (n : ℕ) :
    ∀ {first : ℕ} {a : QBitArray} {bits : List Bool}, Holds a bits →
      (0 < n → first + n ≤ bits.length) →
      ∃ m a', setBits value more n first a = .ok (first + m, a') ∧ m ≤ n ∧
        Holds a' (setRange bits value first (first + m)) ∧
        (m = n ∨ more (first + m) = false) := by
  induction n with
  | zero =>
    intro first a bits h _
    refine ⟨0, a, rfl, le_refl 0, ?_, .inl rfl⟩
    rw [add_zero, setRange_empty _ _ (le_refl _)]
    exact h
  | succ n ih =>
    intro first a bits h hle
    have hfirst : first < bits.length := by
      have hpos := hle (succ_pos n)
      omega
    unfold QBitArray.setBits
    cases hmore : more first with
    | false =>
      refine ⟨0, a, rfl, zero_le _, ?_, .inr hmore⟩
      rw [add_zero, setRange_empty _ _ (le_refl _)]
      exact h
    | true =>
      have ⟨a₁, hset, h₁⟩ := h.setBit hfirst value
      rw [set_eq_setRange _ _ hfirst] at h₁
      have hle₁ : 0 < n → first + 1 + n ≤ (setRange bits value first (first + 1)).length := by
        rw [length_setRange]
        omega
      have ⟨m, a₂, hrest, hm, h₂, hend⟩ := ih h₁ hle₁
      have hall : first < first + 1 + m → first + 1 + m ≤ bits.length := by omega
      rw [setRange_setRange (by omega) (by omega) hall] at h₂
      have hadd : first + 1 + m = first + (m + 1) := by omega
      rw [hadd] at hrest h₂ hend
      refine ⟨m + 1, a₂, ?_, succ_le_succ hm, h₂, hend.imp_left (congrArg (· + 1))⟩
      rw [if_pos rfl, hset, ok_bind, hrest]

theorem Holds.fillRange (h : Holds a bits) (value : Bool) {first last : ℕ}
    (hle : first < last → last ≤ bits.length) :
    ∃ a', a.fillRange value first last = .ok a' ∧ Holds a' (setRange bits value first last) := by
  have hcount : 0 < last - first → first + (last - first) ≤ bits.length := by omega
  have ⟨m, a₁, hhead, hm, h₁, hend⟩ := h.setBits value (· % 8 != 0) (last - first) hcount
  have hstop : first + m = last ∨ last < first ∨ (first + m) % 8 = 0 := by
    rw [bne_eq_false_iff_eq] at hend
    omega
  unfold QBitArray.fillRange
  rw [hhead, ok_bind]
  simp only
  generalize hmid : first + m = mid at h₁ hstop
  by_cases hlen : last - mid = 0
  · rw [if_pos hlen]
    refine ⟨a₁, rfl, ?_⟩
    by_cases hempty : last ≤ first
    · rw [setRange_empty _ _ (by omega)] at h₁
      rw [setRange_empty _ _ hempty]
      exact h₁
    · have heq : mid = last := by omega
      rw [← heq]
      exact h₁
  rw [if_neg hlen]
  -- the whole bytes
  have hmod : mid % 8 = 0 := by omega
  have hlen₁ := h₁.length
  rw [length_setRange, if_neg (by omega)] at hlen₁
  have hdiv : (last - mid) / 8 * 8 / 8 = (last - mid) / 8 := Nat.mul_div_cancel _ (by decide)
  have hroom : mid / 8 + 1 + (last - mid) / 8 * 8 / 8 ≤ a₁.d.length := by omega
  have ⟨d, hmem, hlen₂, hget⟩ := memset_ok hroom (if value then 0xff else 0)
  rw [hmem, ok_bind]
  have h₂ : Holds ⟨d⟩ (setRange bits value first (mid + (last - mid) / 8 * 8)) := by
    have hmid₁ : first ≤ mid := by omega
    rw [← setRange_setRange hmid₁ (by omega) (by omega)]
    apply h₁.of_data hlen₂
    · rw [hget, if_neg (by omega)]
    · rw [length_setRange]
    · intro i
      rw [getD_setRange (by rw [length_setRange]; omega), ← h₁.bit]
      unfold bitAt
      rw [hget, hdiv]
      by_cases hi : mid ≤ i ∧ i < mid + (last - mid) / 8 * 8
      · rw [if_pos hi, if_pos (by omega), testBit_fill value (by omega)]
      · rw [if_neg hi, if_neg (by omega)]
  -- the bits of the last byte
  have hrest : 0 < last - (mid + (last - mid) / 8 * 8) →
      mid + (last - mid) / 8 * 8 + (last - (mid + (last - mid) / 8 * 8)) ≤
        (setRange bits value first (mid + (last - mid) / 8 * 8)).length := by
    rw [length_setRange]
    omega
  have ⟨k, a₃, htail, hk, h₃, hend₃⟩ := h₂.setBits value (fun _ => true) _ hrest
  rw [htail, ok_bind]
  refine ⟨a₃, rfl, ?_⟩
  have hk' : k = last - (mid + (last - mid) / 8 * 8) := hend₃.resolve_right Bool.noConfusion
  have hlast : mid + (last - mid) / 8 * 8 + k = last := by omega
  rw [hlast, setRange_setRange (by omega) (by omega) hle] at h₃
  exact h₃

/-! ## Copying bits -/

theorem Holds.fromBits {data : List UInt8} {n : ℕ} (h : (n + 7) / 8 ≤ data.length) :
    ∃ a', QBitArray.fromBits data n = .ok a' ∧
      Holds a' (bitsOf n fun i => (data.getD (i / 8) 0).toNat.testBit (i % 8)) := by
  unfold QBitArray.fromBits
  by_cases hn : n = 0
  · subst hn
    exact ⟨_, if_pos rfl, holds_nil⟩
  rw [if_neg hn]
  simp only
  rw [qAssert_pos h, ok_bind]
  have hlen : (0 :: data.take ((n + 7) / 8)).length = 1 + (n + 7) / 8 := by
    rw [length_cons, length_take_of_le h, add_comm]
  have hbit : ∀ i, i < n →
      bitAt (0 :: data.take ((n + 7) / 8)) i = (data.getD (i / 8) 0).toNat.testBit (i % 8) := by
    intro i hi
    have hlt : i / 8 < (n + 7) / 8 := by omega
    unfold bitAt
    rw [add_comm 1, getD_cons_succ, getD_eq_getElem?_getD, getD_eq_getElem?_getD,
      getElem?_take_of_lt hlt]
  have hout : ∀ i, n ≤ i → n % 8 = 0 → bitAt (0 :: data.take ((n + 7) / 8)) i = false := by
    intro i hi hmod
    unfold bitAt
    rw [getD_eq_default _ _ (by omega), testBit_zero]
  generalize 0 :: data.take ((n + 7) / 8) = d at hlen hbit hout
  by_cases hmod : n % 8 ≠ 0
  · have hmask : (0xff >>> UInt8.ofNat (8 - n % 8) : UInt8) = lowMask (n % 8) := by
      have hall : ∀ k < 8, k ≠ 0 → (0xff >>> UInt8.ofNat (8 - k) : UInt8) = lowMask k := by decide
      exact hall _ (mod_lt n (by decide)) hmod
    have hpos : (n + 7) / 8 = 1 + n / 8 := by omega
    simp only [if_pos hmod, hmask]
    refine ⟨_, rfl, holds_set_header hn ?_ _ ?_⟩
    · rw [length_modify, hlen]
    · intro i
      rw [hpos, bitAt_mask hmod hlen]
      by_cases hi : i < n
      · rw [hbit i hi]
      · rw [decide_eq_false hi, Bool.false_and, Bool.false_and]
  · simp only [if_neg hmod]
    refine ⟨_, rfl, holds_set_header hn hlen _ ?_⟩
    intro i
    by_cases hi : i < n
    · rw [decide_eq_true hi, Bool.true_and, hbit i hi]
    · rw [decide_eq_false hi, Bool.false_and, hout i (by omega) (by omega)]

/-! ## Whole arrays -/

/-- The bits of two lists combined, the missing ones of the shorter list taken to be 0. -/
def combine (f : Bool → Bool → Bool) (bits bits' : List Bool) : List Bool :=
  bitsOf (max bits.length bits'.length) fun i => f (bits.getD i false) (bits'.getD i false)

theorem getD_combine {f : Bool → Bool → Bool} (hf : f false false = false) (bits bits' : List Bool)
    (i : ℕ) : (combine f bits bits').getD i false = f (bits.getD i false) (bits'.getD i false) := by
  unfold combine
  rw [getD_bitsOf]
  by_cases hi : i < max bits.length bits'.length
  · rw [decide_eq_true hi, Bool.true_and]
  · rw [decide_eq_false hi, Bool.false_and, getD_eq_default bits _ (by omega),
      getD_eq_default bits' _ (by omega), hf]

theorem length_combineData (op : UInt8 → UInt8 → UInt8) (as bs : List UInt8) :
    (combineData op as bs).length = as.length := by
  fun_induction combineData op as bs with
  | case1 as => rfl
  | case2 => rfl
  | case3 a as b bs ih => rw [length_cons, length_cons, ih]

theorem getD_combineData {op : UInt8 → UInt8 → UInt8} {as bs : List UInt8}
    (hle : bs.length ≤ as.length) (k : ℕ) : (combineData op as bs).getD k 0 =
      if k < bs.length then op (as.getD k 0) (bs.getD k 0) else as.getD k 0 := by
  induction as generalizing bs k with
  | nil =>
    have hbs : bs = [] := length_eq_zero_iff.mp (by rw [length_nil] at hle; omega)
    rw [hbs]
    rfl
  | cons a as ih =>
    cases bs with
    | nil => rfl
    | cons b bs =>
      have hle' : bs.length ≤ as.length := by
        rw [length_cons, length_cons] at hle
        omega
      unfold combineData
      cases k with
      | zero => rw [if_pos (by rw [length_cons]; omega)]; rfl
      | succ k =>
        rw [getD_cons_succ, getD_cons_succ, getD_cons_succ, ih hle', length_cons]
        simp only [Nat.add_lt_add_iff_right]

theorem bitAt_eq_drop (d : List UInt8) (i : ℕ) :
    bitAt d i = ((d.drop 1).getD (i / 8) 0).toNat.testBit (i % 8) := by
  unfold bitAt
  rw [getD_eq_getElem?_getD, getD_eq_getElem?_getD, getElem?_drop]

theorem Holds.of_bytes (h : Holds a bits) {bytes : List UInt8}
    (hlen : bytes.length = a.d.length - 1) (hbits : bits'.length = bits.length)
    (hbit : ∀ i, (bytes.getD (i / 8) 0).toNat.testBit (i % 8) = bits'.getD i false) :
    Holds ⟨a.d.take 1 ++ bytes⟩ bits' := by
  have htake : (a.d.take 1).length = min 1 a.d.length := length_take
  by_cases hd : a.d.length = 0
  · have hnil : a.d = [] := length_eq_zero_iff.mp hd
    have hbytes : bytes = [] := length_eq_zero_iff.mp (by omega)
    rw [hnil, hbytes]
    apply h.of_data
    · rw [hd]
      rfl
    · rw [hnil]
      rfl
    · exact hbits
    · intro i
      rw [← hbit, hbytes]
      rfl
  · apply h.of_data
    · simp
      omega
    · rw [getD_eq_getElem?_getD, getElem?_append_left (by omega),
        getElem?_take_of_lt (by omega), getD_eq_getElem?_getD]
    · exact hbits
    · intro i
      rw [← hbit]
      unfold bitAt
      rw [getD_eq_getElem?_getD, getElem?_append_right (by omega),
        getD_eq_getElem?_getD]
      have hidx : 1 + i / 8 - (a.d.take 1).length = i / 8 := by omega
      rw [hidx]

/-- Both operands of a combination once the first one has the length of the longer one. -/
theorem Holds.resize_max (ha : Holds a bits) (hb : Holds b bits') (added : ℕ → UInt8) :
    ∃ a', a.resize (max a.size b.size) added = .ok a' ∧
      Holds a' (bitsOf (max bits.length bits'.length) (bits.getD · false)) ∧
      b.d.length - 1 ≤ a'.d.length - 1 ∧ ∀ i, bitAt a'.d i = bits.getD i false := by
  have ⟨a', hres, h'⟩ := ha.resize (max a.size b.size) added
  rw [ha.size, hb.size] at hres h'
  rw [ha.size, hb.size]
  have hla := h'.length
  have hlb := hb.length
  rw [length_bitsOf] at hla
  refine ⟨a', hres, h', ?_, ?_⟩
  · split at hla <;> split at hlb <;> omega
  · intro i
    rw [h'.bit, getD_bitsOf]
    by_cases hi : i < max bits.length bits'.length
    · rw [decide_eq_true hi, Bool.true_and]
    · rw [decide_eq_false hi, Bool.false_and, getD_eq_default _ _ (by omega)]

theorem Holds.combineData (ha : Holds a bits) (hb : Holds b bits') (added : ℕ → UInt8)
    (op : UInt8 → UInt8 → UInt8) {f : Bool → Bool → Bool} (hzero : ∀ x, op x 0 = x)
    (hop : ∀ x y i, (op x y).toNat.testBit i = f (x.toNat.testBit i) (y.toNat.testBit i)) :
    ∃ a', a.resize (max a.size b.size) added = .ok a' ∧
      Holds ⟨a'.d.take 1 ++ QBitArray.combineData op (a'.d.drop 1) (b.d.drop 1)⟩
        (combine f bits bits') := by
  have ⟨a', hres, h', hle, hbit⟩ := ha.resize_max hb added
  have hf : f false false = false := by
    have h0 := hop 0 0 0
    rw [hzero, testBit_zero] at h0
    exact h0.symm
  refine ⟨a', hres, h'.of_bytes ?_ ?_ ?_⟩
  · rw [length_combineData, length_drop]
  · unfold combine
    rw [length_bitsOf, length_bitsOf]
  · intro i
    have hle' : (b.d.drop 1).length ≤ (a'.d.drop 1).length := by
      simp [hle]
    have hbyte : (QBitArray.combineData op (a'.d.drop 1) (b.d.drop 1)).getD (i / 8) 0 =
        op ((a'.d.drop 1).getD (i / 8) 0) ((b.d.drop 1).getD (i / 8) 0) := by
      rw [getD_combineData hle']
      by_cases hi : i / 8 < (b.d.drop 1).length
      · rw [if_pos hi]
      · rw [if_neg hi, getD_eq_default (b.d.drop 1) _ (by omega), hzero]
    rw [getD_combine hf, hbyte, hop, ← bitAt_eq_drop, ← bitAt_eq_drop, hbit, hb.bit]

theorem Holds.orAssign (ha : Holds a bits) (hb : Holds b bits') (added : ℕ → UInt8) :
    ∃ a', a.orAssign b added = .ok a' ∧ Holds a' (combine or bits bits') := by
  have ⟨a', hres, h'⟩ := ha.combineData hb added (· ||| ·) (fun _ => UInt8.or_zero) testBit_or
  unfold QBitArray.orAssign
  rw [hres, ok_bind]
  exact ⟨_, rfl, h'⟩

theorem Holds.xorAssign (ha : Holds a bits) (hb : Holds b bits') (added : ℕ → UInt8) :
    ∃ a', a.xorAssign b added = .ok a' ∧ Holds a' (combine xor bits bits') := by
  have ⟨a', hres, h'⟩ := ha.combineData hb added (· ^^^ ·) (fun _ => UInt8.xor_zero) testBit_xor
  unfold QBitArray.xorAssign
  rw [hres, ok_bind]
  exact ⟨_, rfl, h'⟩

theorem Holds.andAssign (ha : Holds a bits) (hb : Holds b bits') (added : ℕ → UInt8) :
    ∃ a', a.andAssign b added = .ok a' ∧ Holds a' (combine and bits bits') := by
  have ⟨a', hres, h', hle, hbit⟩ := ha.resize_max hb added
  unfold QBitArray.andAssign
  rw [hres, ok_bind]
  refine ⟨_, rfl, ?_⟩
  rw [append_assoc]
  have hlen : ((a'.d.drop 1).take (b.d.length - 1)).length = b.d.length - 1 :=
    length_take_of_le (by rw [length_drop]; exact hle)
  have hdrop : (b.d.drop 1).length = b.d.length - 1 := length_drop
  have hle' : (b.d.drop 1).length ≤ ((a'.d.drop 1).take (b.d.length - 1)).length := by omega
  refine h'.of_bytes ?_ ?_ ?_
  · rw [length_append, length_combineData, hlen, length_map, length_drop]
    omega
  · unfold combine
    rw [length_bitsOf, length_bitsOf]
  · intro i
    rw [getD_combine rfl, ← hbit, ← hb.bit, bitAt_eq_drop, bitAt_eq_drop, ← testBit_and]
    refine congrArg (fun x : UInt8 => x.toNat.testBit (i % 8)) ?_
    rw [getD_eq_getElem?_getD, getElem?_append, length_combineData, hlen]
    by_cases hi : i / 8 < b.d.length - 1
    · rw [if_pos hi, ← getD_eq_getElem?_getD, getD_combineData hle', if_pos (by omega)]
      refine congrArg (· &&& _) ?_
      rw [getD_eq_getElem?_getD, getElem?_take_of_lt hi, getD_eq_getElem?_getD]
    · -- the bytes the other array does not have
      rw [if_neg hi, getD_eq_default (b.d.drop 1) _ (by omega), UInt8.and_zero,
        getElem?_map]
      cases (a'.d.drop (1 + (b.d.length - 1)))[i / 8 - (b.d.length - 1)]? with
      | none => rfl
      | some x => rfl

theorem Holds.complement (h : Holds a bits) (added : ℕ → UInt8) :
    ∃ a', a.complement added = .ok a' ∧ Holds a' (bits.map not) := by
  have ⟨r, hr, hrep⟩ := holds_ofSize a.size false added
  have hla := h.length
  have hlr := hrep.length
  have hhead := hrep.header
  rw [length_bitsOf] at hlr hhead
  unfold QBitArray.complement
  simp only
  rw [hr, ok_bind]
  rw [h.size] at hlr hhead ⊢
  by_cases hn : bits.length = 0
  · have hbits : bits = [] := length_eq_zero_iff.mp hn
    rw [if_pos hn] at hla hlr
    rw [length_eq_zero_iff.mp hla, length_eq_zero_iff.mp hlr, hbits]
    exact ⟨_, rfl, holds_nil⟩
  rw [if_neg hn] at hla hlr
  have htake : (r.d.take 1).length = 1 := length_take_of_le (by omega)
  have hlen : (r.d.take 1 ++ (a.d.drop 1).map (~~~·)).length = 1 + (bits.length + 7) / 8 := by
    simp [htake, hla]
  have hfirst : ((r.d.take 1 ++ (a.d.drop 1).map (~~~·)).getD 0 0) =
      UInt8.ofNat ((1 + (bits.length + 7) / 8) * 8 - bits.length) := by
    rw [getD_eq_getElem?_getD, getElem?_append_left (by omega),
      getElem?_take_of_lt (by omega), ← getD_eq_getElem?_getD]
    apply UInt8.toNat_inj.mp
    rw [hhead hn, hlr, UInt8.toNat_ofNat', mod_eq_of_lt (by omega)]
  have hbit : ∀ i, i < bits.length →
      bitAt (r.d.take 1 ++ (a.d.drop 1).map (~~~·)) i = !bits.getD i false := by
    intro i hi
    have hdata : i / 8 < (a.d.drop 1).length := by
      simp
      omega
    have hidx : 1 + i / 8 - (r.d.take 1).length = i / 8 := by omega
    rw [← h.bit, bitAt_eq_drop a.d]
    unfold bitAt
    rw [getD_eq_getElem?_getD, getElem?_append_right (by omega), hidx, getElem?_map,
      getElem?_eq_getElem hdata, getD_eq_getElem _ _ hdata, ← testBit_not _ (by omega)]
    rfl
  have hmap : bits.map not = bitsOf bits.length fun i => !bits.getD i false := by
    apply bits_ext
    · rw [length_map, length_bitsOf]
    · intro i hi
      rw [length_map] at hi
      rw [getD_bitsOf, decide_eq_true hi, Bool.true_and, getD_eq_getElem?_getD,
        getElem?_map, getElem?_eq_getElem hi, getD_eq_getElem _ _ hi]
      rfl
  rw [hmap]
  have hout : ∀ i, bits.length ≤ i → bits.length % 8 = 0 →
      bitAt (r.d.take 1 ++ (a.d.drop 1).map (~~~·)) i = false := by
    intro i hi hmod
    unfold bitAt
    rw [getD_eq_default _ _ (by omega), testBit_zero]
  generalize r.d.take 1 ++ (a.d.drop 1).map (~~~·) = d at hlen hfirst hbit hout
  by_cases hmod : bits.length % 8 ≠ 0
  · rw [if_pos hmod]
    have hpos : d.length - 1 = 1 + bits.length / 8 := by omega
    refine ⟨_, rfl, holds_of_header hn ?_ ?_ _ ?_⟩
    · rw [length_modify, hlen]
    · rw [getD_modify, if_neg (by omega), hfirst, length_modify, hlen]
    · intro i
      rw [hpos, bitAt_mask hmod hlen]
      by_cases hi : i < bits.length
      · rw [hbit i hi]
      · rw [decide_eq_false hi, Bool.false_and, Bool.false_and]
  · rw [if_neg hmod]
    refine ⟨_, rfl, holds_of_header hn hlen ?_ _ ?_⟩
    · rw [hfirst, hlen]
    · intro i
      by_cases hi : i < bits.length
      · rw [decide_eq_true hi, Bool.true_and, hbit i hi]
      · rw [decide_eq_false hi, Bool.false_and, hout i (by omega) (by omega)]

end QBitArray

end QtBase
