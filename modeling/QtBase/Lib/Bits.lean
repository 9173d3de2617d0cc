import Mathlib.Data.List.Basic
import Mathlib.Data.List.Induction
import Mathlib.Data.List.TakeDrop
import Mathlib.Data.Nat.Notation
import Mathlib.Tactic.Ring

/-! Lists of bits, the most significant one first, with the numbers and the bytes they stand for. -/
namespace QtBase.Lib.Bits

open List Bool Nat

def toNat (l : List Bool) : ℕ := l.foldl (fun n b => 2 * n + b.toNat) 0

/-- The `n` lowest bits of a number. -/
def ofNat : ℕ → ℕ → List Bool
  | 0, _ => []
  | n + 1, x => ofNat n (x / 2) ++ [decide (x % 2 = 1)]

/-- The bits of a sequence of bytes. -/
def ofBytes (bytes : List UInt8) : List Bool := bytes.flatMap fun b => ofNat 8 b.toNat

variable {l l' : List Bool} {m n x : ℕ}

/-! ## Numbers -/

theorem toNat_append_singleton (l : List Bool) (b : Bool) :
    toNat (l ++ [b]) = 2 * toNat l + b.toNat := by
  unfold toNat
  simp

theorem toNat_append (l l' : List Bool) :
    toNat (l ++ l') = toNat l * 2 ^ l'.length + toNat l' := by
  induction l' using List.reverseRecOn with
  | nil =>
    rw [append_nil, length_nil, pow_zero, mul_one]
    rfl
  | append_singleton l' b ih =>
    rw [← append_assoc, toNat_append_singleton, toNat_append_singleton, ih, length_append,
      length_singleton, pow_succ]
    ring

theorem toNat_lt (l : List Bool) : toNat l < 2 ^ l.length := by
  induction l using List.reverseRecOn with
  | nil => exact one_pos
  | append_singleton l b ih =>
    rw [toNat_append_singleton, length_append, length_singleton, pow_succ]
    have hb : b.toNat ≤ 1 := toNat_le b
    omega

@[simp] theorem length_ofNat (n x : ℕ) : (ofNat n x).length = n := by
  induction n generalizing x with
  | zero => rfl
  | succ n ih =>
    unfold ofNat
    rw [length_append, ih, length_singleton]

theorem toNat_ofNat (n x : ℕ) : toNat (ofNat n x) = x % 2 ^ n := by
  induction n generalizing x with
  | zero =>
    rw [pow_zero, mod_one]
    rfl
  | succ n ih =>
    have hbit : (decide (x % 2 = 1)).toNat = x % 2 := by
      rcases mod_two_eq_zero_or_one x with h | h <;> rw [h] <;> rfl
    unfold ofNat
    rw [toNat_append_singleton, ih, hbit, pow_succ, mul_comm (2 ^ n) 2, mod_mul]
    omega

theorem ofNat_toNat (l : List Bool) : ofNat l.length (toNat l) = l := by
  induction l using List.reverseRecOn with
  | nil => rfl
  | append_singleton l b ih =>
    have hhalf : (2 * toNat l + b.toNat) / 2 = toNat l := by
      have hb : b.toNat ≤ 1 := toNat_le b
      omega
    have hbit : decide ((2 * toNat l + b.toNat) % 2 = 1) = b := by
      cases b with
      | false => exact decide_eq_false (by rw [toNat_false]; omega)
      | true => exact decide_eq_true (by rw [toNat_true]; omega)
    rw [length_append, length_singleton, toNat_append_singleton]
    unfold ofNat
    rw [hhalf, hbit, ih]

theorem toNat_inj (hlength : l.length = l'.length) (h : toNat l = toNat l') : l = l' := by
  rw [← ofNat_toNat l, ← ofNat_toNat l', hlength, h]

theorem ofNat_eq_of_toNat (hlength : l.length = n) (h : toNat l = x % 2 ^ n) : ofNat n x = l :=
  toNat_inj (by rw [length_ofNat, hlength]) (by rw [toNat_ofNat, h])

theorem ofNat_append (m n x : ℕ) : ofNat m (x / 2 ^ n) ++ ofNat n x = ofNat (m + n) x := by
  refine (ofNat_eq_of_toNat (by simp) ?_).symm
  rw [toNat_append, toNat_ofNat, toNat_ofNat, length_ofNat, add_comm m n, pow_add,
    mod_mul]
  ring

theorem toNat_drop {k : ℕ} (hk : k ≤ l.length) (hn : l.length = k + n) :
    toNat (l.drop k) = toNat l % 2 ^ n := by
  have hlength : (l.drop k).length = n := by
    simp
    omega
  have hlt := toNat_lt (l.drop k)
  have hsplit := toNat_append (l.take k) (l.drop k)
  rw [take_append_drop, hlength] at hsplit
  rw [hlength] at hlt
  rw [hsplit, mul_add_mod_self_right, mod_eq_of_lt hlt]

theorem toNat_replicate_true (n : ℕ) : toNat (List.replicate n true) + 1 = 2 ^ n := by
  induction n with
  | zero => rfl
  | succ n ih =>
    rw [replicate_succ', toNat_append_singleton, toNat_true, pow_succ, ← ih]
    ring

theorem toNat_replicate_false (n : ℕ) : toNat (List.replicate n false) = 0 := by
  induction n with
  | zero => rfl
  | succ n ih => rw [replicate_succ', toNat_append_singleton, ih, toNat_false]

theorem eq_replicate_true_iff : l = List.replicate l.length true ↔ toNat l + 1 = 2 ^ l.length := by
  constructor
  · intro h
    rw [h, toNat_replicate_true, length_replicate]
  · intro h
    refine toNat_inj (by rw [length_replicate]) ?_
    have := toNat_replicate_true l.length
    omega

/-! ## Bytes -/

theorem toNat_byte (b : UInt8) : toNat (ofNat 8 b.toNat) = b.toNat := by
  rw [toNat_ofNat]
  exact mod_eq_of_lt b.toNat_lt

@[simp] theorem ofBytes_nil : ofBytes [] = [] := rfl

theorem ofBytes_cons (b : UInt8) (bytes : List UInt8) :
    ofBytes (b :: bytes) = ofNat 8 b.toNat ++ ofBytes bytes := flatMap_cons

theorem ofBytes_append (bytes bytes' : List UInt8) :
    ofBytes (bytes ++ bytes') = ofBytes bytes ++ ofBytes bytes' := flatMap_append

@[simp] theorem length_ofBytes (bytes : List UInt8) :
    (ofBytes bytes).length = 8 * bytes.length := by
  induction bytes with
  | nil => rfl
  | cons b bytes ih =>
    rw [ofBytes_cons, length_append, length_ofNat, ih, length_cons]
    omega

theorem ofBytes_drop (bytes : List UInt8) (n : ℕ) :
    ofBytes (bytes.drop n) = (ofBytes bytes).drop (8 * n) := by
  rcases le_total n bytes.length with h | h
  · conv_rhs => rw [← take_append_drop n bytes, ofBytes_append]
    rw [drop_left']
    rw [length_ofBytes, length_take, min_eq_left h]
  · rw [drop_eq_nil_of_le h, drop_eq_nil_of_le (by rw [length_ofBytes]; omega)]
    rfl

theorem ofBytes_take (bytes : List UInt8) (n : ℕ) :
    ofBytes (bytes.take n) = (ofBytes bytes).take (8 * n) := by
  rcases le_total n bytes.length with h | h
  · conv_rhs => rw [← take_append_drop n bytes, ofBytes_append]
    rw [take_left']
    rw [length_ofBytes, length_take, min_eq_left h]
  · rw [take_of_length_le h, take_of_length_le (by rw [length_ofBytes]; omega)]

theorem exists_append_of_ofBytes {bytes : List UInt8} (hl : l.length % 8 = 0)
    (h : ofBytes bytes = l ++ l') :
    ∃ a b, bytes = a ++ b ∧ ofBytes a = l ∧ ofBytes b = l' := by
  have hlength := Nat.mul_div_cancel' (Nat.dvd_of_mod_eq_zero hl)
  refine ⟨bytes.take (l.length / 8), bytes.drop (l.length / 8),
    (take_append_drop _ _).symm, ?_, ?_⟩
  · rw [ofBytes_take, hlength, h, take_left]
  · rw [ofBytes_drop, hlength, h, drop_left]

theorem ofBytes_inj {bytes bytes' : List UInt8} (h : ofBytes bytes = ofBytes bytes') :
    bytes = bytes' := by
  induction bytes generalizing bytes' with
  | nil =>
    have hlength := congrArg List.length h
    rw [length_ofBytes, length_ofBytes, length_nil] at hlength
    exact (eq_nil_of_length_eq_zero (by omega)).symm
  | cons b bytes ih =>
    cases bytes' with
    | nil =>
      have hlength := congrArg List.length h
      rw [length_ofBytes, length_ofBytes, length_cons, length_nil] at hlength
      omega
    | cons b' bytes' =>
      rw [ofBytes_cons, ofBytes_cons] at h
      obtain ⟨hb, hbytes⟩ := append_inj h (by rw [length_ofNat, length_ofNat])
      have hnat := congrArg toNat hb
      rw [toNat_byte, toNat_byte] at hnat
      rw [UInt8.toNat_inj.mp hnat, ih hbytes]

end QtBase.Lib.Bits
