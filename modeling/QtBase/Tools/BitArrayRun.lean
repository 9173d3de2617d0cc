import QtBase.Tools.BitArrayOps
import Mathlib.Data.Bool.Count

/-! Bit arrays over whole runs: every array of a program that works on them holds the bits the
operations are meant to give, and counting and comparing see nothing else. -/
namespace QtBase

open List Nat

namespace QBitArray

variable {a b : QBitArray} {bits bits' : List Bool}

/-! ## Counting -/

theorem countP_range_add (p : ℕ → Bool) (m n : ℕ) :
    (List.range (m + n)).countP p =
      (List.range m).countP p + (List.range n).countP fun i => p (m + i) := by
  rw [range_add, countP_append, countP_map]
  rfl

theorem qPopulationCount_append (w : ℕ) (b : UInt8) (v : ℕ) :
    qPopulationCount (8 + w) (b.toNat + 256 * v) =
      qPopulationCount 8 b.toNat + qPopulationCount w v := by
  have hb : b.toNat < 2 ^ 8 := b.toNat_lt
  have hsum : b.toNat + 256 * v = 2 ^ 8 * v + b.toNat := Nat.add_comm _ _
  unfold qPopulationCount
  rw [hsum, countP_range_add]
  congr 1
  · apply countP_congr
    intro i hi
    rw [mem_range] at hi
    rw [Nat.testBit_two_pow_mul_add _ hb, if_pos hi]
  · apply countP_congr
    intro i _
    rw [Nat.testBit_two_pow_mul_add _ hb, if_neg (by omega), Nat.add_sub_cancel_left]

/-- The number of 1-bits of some bytes. -/
def bitCount (bytes : List UInt8) : ℕ := (bytes.map fun b => qPopulationCount 8 b.toNat).sum

theorem bitCount_append (l l' : List UInt8) : bitCount (l ++ l') = bitCount l + bitCount l' := by
  unfold bitCount
  rw [map_append, sum_append]

theorem qPopulationCount_foldr (l : List UInt8) :
    qPopulationCount (8 * l.length)
      (l.foldr (fun (b : UInt8) v => b.toNat + 256 * v) 0) = bitCount l := by
  induction l with
  | nil => rfl
  | cons b l ih =>
    have hw : 8 * (b :: l).length = 8 + 8 * l.length := by
      simp
      omega
    rw [hw, foldr_cons, qPopulationCount_append, ih]
    rfl

theorem qPopulationCount_qFromUnaligned {n : ℕ} {bits : List UInt8} (h : n ≤ bits.length + 1) :
    qPopulationCount (8 * n) (qFromUnaligned n bits) = bitCount (bits.take n) := by
  have hlen : ((bits ++ [0]).take n).length = n :=
    length_take_of_le (by rw [length_append]; exact h)
  have hcount := qPopulationCount_foldr ((bits ++ [0]).take n)
  rw [hlen] at hcount
  unfold qFromUnaligned
  rw [hcount]
  by_cases hn : n ≤ bits.length
  · rw [take_append_of_le_length hn]
  · have hn' : n = bits.length + 1 := by omega
    have hall : (bits ++ [0]).take n = bits ++ [0] :=
      take_of_length_le (by rw [length_append, hn']; exact le_refl _)
    rw [hall, take_of_length_le (by omega), bitCount_append]
    rfl

theorem bitCount_load {n : ℕ} {bits : List UInt8} (h : n ≤ bits.length + 1) (numBits : ℕ) :
    numBits + qPopulationCount (8 * n) (qFromUnaligned n bits) + bitCount (bits.drop n) =
      numBits + bitCount bits := by
  rw [qPopulationCount_qFromUnaligned h, add_assoc, ← bitCount_append, take_append_drop]

theorem countWords_spec (fuel : ℕ) (bits : List UInt8) (numBits : ℕ)
    (h : bits.length ≤ 8 * fuel) :
    (countWords fuel bits numBits).2 + bitCount (countWords fuel bits numBits).1 =
      numBits + bitCount bits ∧ (countWords fuel bits numBits).1.length < 7 := by
  induction fuel generalizing bits numBits with
  | zero =>
    exact ⟨rfl, by show bits.length < 7; omega⟩
  | succ fuel ih =>
    unfold countWords
    by_cases hlen : 7 ≤ bits.length
    · have hdrop : (bits.drop 8).length ≤ 8 * fuel := by
        simp
        omega
      have ⟨hsum, hshort⟩ := ih _ (numBits + qPopulationCount 64 (qFromUnaligned 8 bits)) hdrop
      rw [if_pos hlen]
      exact ⟨hsum.trans (bitCount_load (n := 8) (by omega) numBits), hshort⟩
    · rw [if_neg hlen]
      exact ⟨rfl, by show bits.length < 7; omega⟩

theorem count_true (a : QBitArray) : a.count true = bitCount (a.d.drop 1) := by
  have hfuel : (a.d.drop 1).length ≤ 8 * a.d.length := by
    simp
    omega
  have ⟨hwords, hshort⟩ := countWords_spec a.d.length (a.d.drop 1) 0 hfuel
  unfold count
  generalize countWords a.d.length (a.d.drop 1) 0 = p at hwords hshort
  obtain ⟨bytes, numBits⟩ := p
  rw [zero_add] at hwords
  rw [← hwords]
  -- four bytes, two bytes and one byte, each only if there are that many
  have h4 : ∀ (bytes : List UInt8) (n : ℕ), bytes.length < 7 → ∃ bytes' n',
      (if 3 ≤ bytes.length then
        (bytes.drop 4, n + qPopulationCount 32 (qFromUnaligned 4 bytes)) else (bytes, n)) =
          (bytes', n') ∧ bytes'.length < 3 ∧ n' + bitCount bytes' = n + bitCount bytes := by
    intro bytes n hlen
    by_cases h : 3 ≤ bytes.length
    · refine ⟨_, _, if_pos h, ?_, bitCount_load (n := 4) (by omega) n⟩
      simp
      omega
    · exact ⟨_, _, if_neg h, by omega, rfl⟩
  have h2 : ∀ (bytes : List UInt8) (n : ℕ), bytes.length < 3 → ∃ bytes' n',
      (if 1 < bytes.length then
        (bytes.drop 2, n + qPopulationCount 16 (qFromUnaligned 2 bytes)) else (bytes, n)) =
          (bytes', n') ∧ bytes'.length < 2 ∧ n' + bitCount bytes' = n + bitCount bytes := by
    intro bytes n hlen
    by_cases h : 1 < bytes.length
    · refine ⟨_, _, if_pos h, ?_, bitCount_load (n := 2) (by omega) n⟩
      simp
      omega
    · exact ⟨_, _, if_neg h, by omega, rfl⟩
  have ⟨bytes₂, n₂, heq₂, hlen₂, hsum₂⟩ := h4 bytes numBits hshort
  have ⟨bytes₃, n₃, heq₃, hlen₃, hsum₃⟩ := h2 bytes₂ n₂ hlen₂
  simp only [heq₂, heq₃]
  rw [if_pos trivial]
  show _ = numBits + bitCount bytes
  rw [← hsum₂, ← hsum₃]
  match bytes₃, hlen₃ with
  | [], _ => rfl
  | [b], _ => rfl

theorem bitCount_eq_countP (l : List UInt8) :
    bitCount l = (List.range (8 * l.length)).countP
      fun i => (l.getD (i / 8) 0).toNat.testBit (i % 8) := by
  induction l with
  | nil => rfl
  | cons b l ih =>
    have hw : 8 * (b :: l).length = 8 + 8 * l.length := by
      simp
      omega
    have hsum : bitCount (b :: l) = qPopulationCount 8 b.toNat + bitCount l := rfl
    rw [hw, countP_range_add, hsum, ih]
    refine congrArg₂ (· + ·) ?_ ?_
    · apply countP_congr
      intro i hi
      rw [mem_range] at hi
      rw [div_eq_of_lt hi, mod_eq_of_lt hi]
      rfl
    · apply countP_congr
      intro i _
      have hdiv : (8 + i) / 8 = i / 8 + 1 := by omega
      simp

theorem countP_range_eq_count (bits : List Bool) {n : ℕ} (h : bits.length ≤ n) :
    (List.range n).countP (bits.getD · false) = bits.count true := by
  have hsplit : n = bits.length + (n - bits.length) := by omega
  have hpast : (List.range (n - bits.length)).countP
      (fun i => bits.getD (bits.length + i) false) = 0 := by
    apply countP_eq_zero.mpr
    intro i _
    rw [getD_eq_default _ _ (by omega)]
    exact Bool.false_ne_true
  have hmap : (List.range bits.length).map (bits.getD · false) = bits := by
    apply bits_ext
    · rw [length_map, length_range]
    · intro i hi
      rw [length_map, length_range] at hi
      rw [getD_eq_getElem?_getD, List.getElem?_map, List.getElem?_range hi]
      rfl
  rw [hsplit, countP_range_add, hpast, add_zero]
  conv_rhs => rw [← hmap, List.count, countP_map]
  apply countP_congr
  intro i _
  simp

theorem Holds.count (h : Holds a bits) (on : Bool) : a.count on = bits.count on := by
  have htrue : a.count true = bits.count true := by
    have hlen := h.length
    have hle : bits.length ≤ 8 * (a.d.drop 1).length := by
      rw [length_drop]
      split at hlen <;> omega
    rw [count_true, bitCount_eq_countP, ← countP_range_eq_count bits hle]
    apply countP_congr
    intro i _
    rw [← bitAt_eq_drop, h.bit]
  cases on with
  | true => exact htrue
  | false =>
    have hsub : a.count false = a.size - a.count true := rfl
    have hall := count_false_add_count_true bits
    rw [hsub, htrue, h.size]
    omega

/-! ## Reading and comparing -/

theorem and_bitMask_ne_zero (x : UInt8) {k : ℕ} (hk : k < 8) :
    (x &&& UInt8.ofNat (1 <<< k) != 0) = x.toNat.testBit k := by
  have hlt : 2 ^ k < 2 ^ 8 := Nat.pow_lt_pow_right (by decide) hk
  have hpos := Nat.two_pow_pos k
  have hand : (x &&& UInt8.ofNat (1 <<< k)).toNat = (x.toNat.testBit k).toNat * 2 ^ k := by
    rw [UInt8.toNat_and, UInt8.toNat_ofNat', Nat.one_shiftLeft, Nat.mod_eq_of_lt hlt,
      Nat.and_two_pow]
  cases hbit : x.toNat.testBit k with
  | true =>
    rw [hbit, Bool.toNat_true, Nat.one_mul] at hand
    apply bne_iff_ne.mpr
    intro hzero
    rw [hzero] at hand
    have h0 : (0 : UInt8).toNat = 0 := rfl
    omega
  | false =>
    rw [hbit, Bool.toNat_false, Nat.zero_mul] at hand
    have hzero : x &&& UInt8.ofNat (1 <<< k) = 0 := UInt8.toNat_inj.mp hand
    rw [hzero]
    rfl

theorem Holds.testBit (h : Holds a bits) {i : ℕ} (hi : i < bits.length) :
    a.testBit i = .ok (bits.getD i false) := by
  have hsize : i < a.size := by rw [h.size]; exact hi
  unfold QBitArray.testBit
  rw [qAssert_pos hsize, ok_bind, pure_eq_ok, ← h.bit,
    and_bitMask_ne_zero _ (mod_lt i (by decide))]
  rfl

theorem uint8_eq_of_testBit {x y : UInt8}
    (h : ∀ i < 8, x.toNat.testBit i = y.toNat.testBit i) : x = y := by
  apply UInt8.toNat_inj.mp
  apply Nat.eq_of_testBit_eq
  intro i
  by_cases hi : i < 8
  · exact h i hi
  · have hpow : 2 ^ 8 ≤ 2 ^ i := Nat.pow_le_pow_right (by decide) (by omega)
    have hx := x.toNat_lt
    have hy := y.toNat_lt
    rw [Nat.testBit_lt_two_pow (by omega), Nat.testBit_lt_two_pow (by omega)]

/-- Nothing is stored but the bits, so that comparing the bytes compares the bits. -/
theorem Holds.eq_iff (h : Holds a bits) (h' : Holds b bits') : a = b ↔ bits = bits' := by
  constructor
  · intro heq
    subst heq
    apply bits_ext (h.size.symm.trans h'.size)
    intro i _
    rw [← h.bit, ← h'.bit]
  · intro heq
    subst heq
    have hlen : a.d.length = b.d.length := by rw [h.length, h'.length]
    have hget : ∀ k, a.d.getD k 0 = b.d.getD k 0 := by
      intro k
      cases k with
      | zero =>
        by_cases hz : bits.length = 0
        · have hla := h.length
          rw [if_pos hz] at hla
          rw [getD_eq_default _ _ (by omega), getD_eq_default _ _ (by omega)]
        · apply UInt8.toNat_inj.mp
          rw [h.header hz, h'.header hz, hlen]
      | succ k =>
        apply uint8_eq_of_testBit
        intro i hi
        have hbit := (h.bit (8 * k + i)).trans (h'.bit (8 * k + i)).symm
        have hdiv : 1 + (8 * k + i) / 8 = k + 1 := by omega
        have hmod : (8 * k + i) % 8 = i := by omega
        unfold bitAt at hbit
        rw [hdiv, hmod] at hbit
        exact hbit
    have hd : a.d = b.d := by
      apply ext_getElem hlen
      intro k h₁ h₂
      rw [← getD_eq_getElem _ 0 h₁, ← getD_eq_getElem _ 0 h₂, hget]
    exact congrArg QBitArray.mk hd

/-! ## Runs -/

/-- What a program does with its bit arrays, which are numbered. -/
inductive Op
  | resize (x size : ℕ) (added : ℕ → UInt8)
  | fill (x : ℕ) (value : Bool) (size : Option ℕ) (added : ℕ → UInt8)
  | fillRange (x : ℕ) (value : Bool) (first last : ℕ)
  | setBit (x i : ℕ) (value : Bool)
  | andAssign (x y : ℕ) (added : ℕ → UInt8)
  | orAssign (x y : ℕ) (added : ℕ → UInt8)
  | xorAssign (x y : ℕ) (added : ℕ → UInt8)
  /-- `x = ~y` -/
  | complement (x y : ℕ) (added : ℕ → UInt8)
  /-- `x = fromBits(data, size)` -/
  | fromBits (x : ℕ) (data : List UInt8) (size : ℕ)

namespace Op

/-- The array an operation changes. -/
def target : Op → ℕ
  | resize x .. | fill x .. | fillRange x .. | setBit x .. | andAssign x .. | orAssign x ..
  | xorAssign x .. | complement x .. | fromBits x .. => x

/-- The new value of that array. -/
def eval (env : ℕ → QBitArray) : Op → Exec QBitArray
  | resize x size added => (env x).resize size added
  | fill x value size added => (env x).fill value size added
  | fillRange x value first last => (env x).fillRange value first last
  | setBit x i value => (env x).setBit i value
  | andAssign x y added => (env x).andAssign (env y) added
  | orAssign x y added => (env x).orAssign (env y) added
  | xorAssign x y added => (env x).xorAssign (env y) added
  | complement _ y added => (env y).complement added
  | fromBits _ data size => QBitArray.fromBits data size

/-- What the operation means, on lists of bits. -/
def meaning (env : ℕ → List Bool) : Op → List Bool
  | resize x size _ => bitsOf size ((env x).getD · false)
  | fill x value size _ => List.replicate (size.getD (env x).length) value
  | fillRange x value first last => setRange (env x) value first last
  | setBit x i value => (env x).set i value
  | andAssign x y _ => combine and (env x) (env y)
  | orAssign x y _ => combine or (env x) (env y)
  | xorAssign x y _ => combine xor (env x) (env y)
  | complement _ y _ => (env y).map not
  | fromBits _ data size => bitsOf size fun i => (data.getD (i / 8) 0).toNat.testBit (i % 8)

/-- The positions are inside the array, and `fromBits` is given enough bytes. -/
def Valid (env : ℕ → List Bool) : Op → Prop
  | fillRange x _ first last => first < last → last ≤ (env x).length
  | setBit x i _ => i < (env x).length
  | fromBits _ data size => (size + 7) / 8 ≤ data.length
  | _ => True

end Op

def run (ops : List Op) (env : ℕ → QBitArray) : Exec (ℕ → QBitArray) :=
  ops.foldlM (fun env op => do
    let a ← op.eval env
    pure (Function.update env op.target a)) env

def meaningOfRun (ops : List Op) (env : ℕ → List Bool) : ℕ → List Bool :=
  ops.foldl (fun env op => Function.update env op.target (op.meaning env)) env

def ValidRun : List Op → (ℕ → List Bool) → Prop
  | [], _ => True
  | op :: ops, env => op.Valid env ∧ ValidRun ops (Function.update env op.target (op.meaning env))

theorem Op.holds_eval {env : ℕ → QBitArray} {bits : ℕ → List Bool} (h : ∀ x, Holds (env x) (bits x))
    {op : Op} (hop : op.Valid bits) : ∃ a, op.eval env = .ok a ∧ Holds a (op.meaning bits) := by
  cases op with
  | resize x size added => exact (h x).resize size added
  | fill x value size added =>
    have ⟨a, ha, hrep⟩ := holds_ofSize (size.getD (env x).size) value added
    have hbits : bitsOf (size.getD (env x).size) (fun _ => value) =
        List.replicate (size.getD (bits x).length) value := by
      unfold bitsOf
      rw [(h x).size, map_const', length_range]
    rw [hbits] at hrep
    exact ⟨a, ha, hrep⟩
  | fillRange x value first last => exact (h x).fillRange value hop
  | setBit x i value => exact (h x).setBit hop value
  | andAssign x y added => exact (h x).andAssign (h y) added
  | orAssign x y added => exact (h x).orAssign (h y) added
  | xorAssign x y added => exact (h x).xorAssign (h y) added
  | complement x y added => exact (h y).complement added
  | fromBits x data size => exact Holds.fromBits hop

theorem holds_run (ops : List Op) {env : ℕ → QBitArray} {bits : ℕ → List Bool}
    (h : ∀ x, Holds (env x) (bits x)) (hops : ValidRun ops bits) :
    ∃ env', run ops env = .ok env' ∧ ∀ x, Holds (env' x) (meaningOfRun ops bits x) := by
  induction ops generalizing env bits with
  | nil => exact ⟨env, rfl, h⟩
  | cons op ops ih =>
    have ⟨a, heval, ha⟩ := op.holds_eval h hops.1
    have hupdate : ∀ x, Holds (Function.update env op.target a x)
        (Function.update bits op.target (op.meaning bits) x) := by
      intro x
      by_cases hx : x = op.target
      · simp [hx, ha]
      · rw [Function.update_of_ne hx, Function.update_of_ne hx]
        exact h x
    have ⟨env', hrun, h'⟩ := ih hupdate hops.2
    refine ⟨env', ?_, h'⟩
    unfold run
    rw [foldlM_cons, heval, ok_bind, pure_eq_ok, ok_bind]
    exact hrun

/-- A bit array is a faithful vector of bits: after every run the unused bits are 0, and sizes,
single bits, counts and comparisons are those of the lists of bits. -/
theorem bitVector_of_run (ops : List Op) (hops : ValidRun ops fun _ => []) :
    ∃ env, run ops (fun _ => ⟨[]⟩) = .ok env ∧
      (∀ x, (env x).size = (meaningOfRun ops (fun _ => []) x).length ∧
        (∀ i, (env x).size ≤ i → bitAt (env x).d i = false) ∧
        (∀ i < (env x).size,
          (env x).testBit i = .ok ((meaningOfRun ops (fun _ => []) x).getD i false)) ∧
        ∀ on, (env x).count on = (meaningOfRun ops (fun _ => []) x).count on) ∧
      ∀ x y, env x = env y ↔ meaningOfRun ops (fun _ => []) x = meaningOfRun ops (fun _ => []) y := by
  have ⟨env, hrun, h⟩ := holds_run ops (fun _ => holds_nil) hops
  refine ⟨env, hrun, fun x => ⟨(h x).size, ?_, ?_, (h x).count⟩, fun x y => (h x).eq_iff (h y)⟩
  · intro i hi
    rw [(h x).size] at hi
    rw [(h x).bit, getD_eq_default _ _ hi]
  · intro i hi
    rw [(h x).size] at hi
    exact (h x).testBit hi

theorem bitVector_of_run_grow : ValidRun [.resize 0 5 fun _ => 0xff, .setBit 0 3 true,
      .fill 1 true (some 12) fun _ => 7, .xorAssign 0 1 fun _ => 0xa5] (fun _ => []) ∧
    ∃ env, run [.resize 0 5 fun _ => 0xff, .setBit 0 3 true, .fill 1 true (some 12) fun _ => 7,
      .xorAssign 0 1 fun _ => 0xa5] (fun _ => ⟨[]⟩) = .ok env ∧ (env 0).count true = 11 := by
  have hvalid : ValidRun [.resize 0 5 fun _ => 0xff, .setBit 0 3 true,
      .fill 1 true (some 12) fun _ => 7, .xorAssign 0 1 fun _ => 0xa5] (fun _ => []) :=
    ⟨trivial, by show 3 < 5; decide, trivial, trivial, trivial⟩
  have ⟨env, hrun, h, _⟩ := bitVector_of_run _ hvalid
  exact ⟨hvalid, env, hrun, (h 0).2.2.2 true⟩

end QBitArray

end QtBase
