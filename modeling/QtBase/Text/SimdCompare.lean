import QtBase.Text.CompareOrder

/-! `QUtf8::compareUtf8` of UTF-8 with UTF-16 in builds with a `simdCompareAscii`, and the inputs on
which its vector instructions pass over too much. -/
namespace QtBase

open Unicode QUtf8Functions List Option UInt16 Nat

/-- The `simdCompareAscii` that is compiled. -/
inductive SimdBuild
  | portable
  | sse2
  | avx2
  deriving DecidableEq

abbrev Lane := UInt8 × UInt16

namespace Lane

/-- Not equal as Latin-1. -/
def differs (x : Lane) : Bool := x.1.toUInt16 != x.2

def nonAscii (x : Lane) : Bool := 0x80 ≤ x.1.toNat

/-- `qCountTrailingZeroBits(mask) >> bitSpacing`: the first lane that `mask` marks. -/
def first (marked : Lane → Bool) (lanes : List Lane) : Option ℕ := lanes.findIdx? marked

end Lane

open Lane

/-- Sixteen lanes: the first one that `mask` marks when the loop breaks. -/
def sixteen : SimdBuild → List Lane → Option ℕ
  | .avx2, lanes => (first nonAscii lanes).or (first differs lanes)
  | _, lanes => (first differs lanes).or (first nonAscii lanes)

/-- The loop: the offset, and the lane behind it that `mask` marks. -/
def sixteens (build : SimdBuild) : ℕ → List Lane → ℕ × Option ℕ
  | 0, _ => (0, none)
  | fuel + 1, lanes =>
    if 16 < lanes.length then
      match sixteen build (lanes.take 16) with
      | some i => (0, some i)
      | none =>
        let (offset, mask) := sixteens build fuel (lanes.drop 16)
        (16 + offset, mask)
    else (0, none)

/-- The helper for `n` lanes, and the condition under which it is called. -/
def cmp_lt_16 (n : ℕ) (lanes : List Lane) : ℕ × Option ℕ → ℕ × Option ℕ
  | (offset, none) =>
    if offset + n < lanes.length then
      match first (fun x => x.differs || x.nonAscii) ((lanes.drop offset).take n) with
      | none => (offset + n, none)
      | some i => (offset, some i)
    else (offset, none)
  | stopped => stopped

/-- How many characters are passed over. -/
def simdCompareAscii (build : SimdBuild) (src8 : List UInt8) (src16 : List UInt16) : ℕ :=
  if build = .portable then 0
  else
    let lanes := src8.zip src16
    let (offset, mask) := cmp_lt_16 4 lanes (cmp_lt_16 8 lanes
      (sixteens build lanes.length lanes))
    offset + mask.getD 0

/-- The next character of the UTF-8, as `compareUtf8` reads it. -/
def next1 (b : UInt8) (src1 : List UInt8) : UInt32 × List UInt8 :=
  if b ≥ 0x80 then nextUtf8 b src1 else (b.toUInt32, src1)

/-- The next character of the UTF-16: surrogates are combined only beside a byte from 0x80 on. -/
def next2 (b : UInt8) (u : UInt16) (src2 : List UInt16) : UInt32 × List UInt16 :=
  if b ≥ 0x80 then nextUtf16 u src2 else (u.toUInt32, src2)

/-- The loop of `compareUtf8`. -/
def compareUtf8SimdFrom (build : SimdBuild) : ℕ → List UInt8 → List UInt16 → ℤ
  | fuel + 1, src1, src2 =>
    let n := simdCompareAscii build src1 src2
    match src1.drop n, src2.drop n with
    | b :: src1, u :: src2 =>
      let (uc1, rest1) := next1 b src1
      let (uc2, rest2) := next2 b u src2
      if uc1 ≠ uc2 then (uc1.toNat : ℤ) - uc2.toNat
      else compareUtf8SimdFrom build fuel rest1 rest2
    | src1, src2 => (if src1 = [] then 0 else 1) - (if src2 = [] then 0 else 1)
  | 0, src1, src2 => (if src1 = [] then 0 else 1) - (if src2 = [] then 0 else 1)

/-- `QUtf8::compareUtf8` of UTF-8 with UTF-16, case-sensitive. -/
def compareUtf8Simd (build : SimdBuild) (utf8 : List UInt8) (utf16 : List UInt16) : ℤ :=
  compareUtf8SimdFrom build (utf8.length + 1) utf8 utf16

/-! ## What the vector instructions overlook -/

/-- The same ASCII character on both sides. -/
def Lane.Good (x : Lane) : Prop := x.differs = false ∧ x.nonAscii = false

/-- SSE2 looks for a difference first, and then takes what is before it for ASCII. AVX2 looks for
something that is not ASCII first, and then takes what is before it for equal. -/
def Overlooks : SimdBuild → List Lane → Prop
  | .portable, _ => False
  | .sse2, block => (∃ y ∈ block, y.differs) ∧ ∃ x ∈ block.takeWhile (!differs ·), x.nonAscii
  | .avx2, block => (∃ y ∈ block, y.nonAscii) ∧ ∃ x ∈ block.takeWhile (!nonAscii ·), x.differs

/-- The first block of sixteen that is not equal ASCII throughout has something to overlook. -/
def Trips (build : SimdBuild) (lanes : List Lane) : Prop :=
  ∃ k, 16 * k + 16 < lanes.length ∧ (∀ x ∈ lanes.take (16 * k), x.Good) ∧
    Overlooks build ((lanes.drop (16 * k)).take 16)

/-- No call of `simdCompareAscii` on the way through the two strings meets such a block. -/
def Clean (build : SimdBuild) : ℕ → List UInt8 → List UInt16 → Prop
  | fuel + 1, src1, src2 =>
    ¬Trips build (src1.zip src2) ∧
    match src1.drop (simdCompareAscii build src1 src2),
      src2.drop (simdCompareAscii build src1 src2) with
    | b :: src1, u :: src2 => (next1 b src1).1 = (next2 b u src2).1 →
      Clean build fuel (next1 b src1).2 (next2 b u src2).2
    | _, _ => True
  | 0, _, _ => True

/-- The code points of bytes: each byte that no character begins with gives U+FFFD. -/
inductive Decodes : List UInt8 → List ℕ → Prop
  | nil : Decodes [] []
  | char {rest ns} (c : Char) : Decodes rest ns →
      Decodes (String.utf8EncodeChar c ++ rest) (c.val.toNat :: ns)
  | error {b rest ns} : (∀ c r, b :: rest ≠ String.utf8EncodeChar c ++ r) → Decodes rest ns →
      Decodes (b :: rest) (0xfffd :: ns)

/-! ## What a call passes over -/

variable {lanes : List Lane}

namespace Lane

theorem good_iff {x : Lane} : x.Good ↔ (x.differs || x.nonAscii) = false := by
  rw [Bool.or_eq_false_iff]
  rfl

theorem first_none {marked : Lane → Bool} (h : first marked lanes = none) :
    ∀ x ∈ lanes, marked x = false := findIdx?_eq_none_iff.mp h

theorem first_some {marked : Lane → Bool} {i : ℕ}
    (h : first marked lanes = some i) : i < lanes.length ∧
      lanes.take i = lanes.takeWhile (!marked ·) ∧ (∀ x ∈ lanes.take i, marked x = false) ∧
      ∃ y ∈ lanes, marked y := by
  obtain ⟨hlt, hfirst⟩ := findIdx?_eq_some_iff_findIdx_eq.mp h
  have htake : lanes.take i = lanes.takeWhile (!marked ·) := by
    rw [takeWhile_eq_take_findIdx_not, ← hfirst]
    simp only [Bool.not_not]
  refine ⟨hlt, htake, fun x hx => ?_, lanes[i], getElem_mem hlt, ?_⟩
  · rw [htake] at hx
    exact Bool.not_eq_true' _ ▸ all_eq_true.mp all_takeWhile x hx
  · obtain ⟨_, hmarked, -⟩ := findIdx?_eq_some_iff_getElem.mp h
    exact hmarked

/-- One mark is looked for first, and then what is before it is taken to lack the other one too. -/
theorem first_or {p q : Lane → Bool} {i : ℕ}
    (h : (first p lanes).or (first q lanes) = some i) : i < lanes.length ∧
      (¬∀ x ∈ lanes, p x = false ∧ q x = false) ∧
      ((∀ x ∈ lanes.take i, p x = false ∧ q x = false) ↔
        ¬((∃ y ∈ lanes, p y) ∧ ∃ x ∈ lanes.takeWhile (!p ·), q x)) := by
  cases hp : first p lanes with
  | some j =>
    rw [hp, some_or, some.injEq] at h
    subst h
    obtain ⟨hlt, htake, hfalse, hex⟩ := first_some hp
    refine ⟨hlt, fun hall => ?_, ?_⟩
    · obtain ⟨y, hy, hmarked⟩ := hex
      rw [(hall y hy).1] at hmarked
      cases hmarked
    rw [← htake]
    constructor
    · rintro hgood ⟨-, x, hx, hq⟩
      rw [(hgood x hx).2] at hq
      cases hq
    · intro hno x hx
      refine ⟨hfalse x hx, ?_⟩
      by_contra hq
      exact hno ⟨hex, x, hx, by simpa using hq⟩
  | none =>
    rw [hp, none_or] at h
    obtain ⟨hlt, -, hq, hex⟩ := first_some h
    have hfalse := first_none hp
    refine ⟨hlt, fun hall => ?_, fun _ => ?_,
      fun _ x hx => ⟨hfalse x (mem_of_mem_take hx), hq x hx⟩⟩
    · obtain ⟨y, hy, hmarked⟩ := hex
      rw [(hall y hy).2] at hmarked
      cases hmarked
    · rintro ⟨⟨y, hy, hmarked⟩, -⟩
      rw [hfalse y hy] at hmarked
      cases hmarked

theorem first_or_none {p q : Lane → Bool} (h : (first p lanes).or (first q lanes) = none) :
    (∀ x ∈ lanes, p x = false ∧ q x = false) ∧
      ¬((∃ y ∈ lanes, p y) ∧ ∃ x ∈ lanes.takeWhile (!p ·), q x) := by
  rw [or_eq_none_iff] at h
  have hp := first_none h.1
  refine ⟨fun x hx => ⟨hp x hx, first_none h.2 x hx⟩, ?_⟩
  rintro ⟨⟨y, hy, hmarked⟩, -⟩
  rw [hp y hy] at hmarked
  cases hmarked

end Lane

variable {build : SimdBuild}

/-- A block that stops the loop: what is before the lane is equal ASCII, or something in it is
overlooked. -/
theorem sixteen_some (hbuild : build ≠ .portable) {block : List Lane} {i : ℕ}
    (h : sixteen build block = some i) : i < block.length ∧ (¬∀ x ∈ block, x.Good) ∧
      ((∀ x ∈ block.take i, x.Good) ↔ ¬Overlooks build block) := by
  cases build with
  | portable => exact absurd rfl hbuild
  | sse2 => exact first_or h
  | avx2 =>
    obtain ⟨hlt, hbad, hiff⟩ := first_or (p := nonAscii) h
    refine ⟨hlt, fun hall => hbad fun x hx => (hall x hx).symm, Iff.trans ?_ hiff⟩
    exact forall₂_congr fun x _ => and_comm

theorem sixteen_none {block : List Lane} (h : sixteen build block = none) :
    (∀ x ∈ block, x.Good) ∧ ¬Overlooks build block := by
  cases build with
  | portable => exact ⟨(first_or_none h).1, id⟩
  | sse2 => exact first_or_none h
  | avx2 =>
    obtain ⟨hgood, hno⟩ := first_or_none (p := nonAscii) h
    exact ⟨fun x hx => (hgood x hx).symm, hno⟩

theorem trips_iff : Trips build lanes ↔
    16 < lanes.length ∧ (Overlooks build (lanes.take 16) ∨
      (∀ x ∈ lanes.take 16, x.Good) ∧ Trips build (lanes.drop 16)) := by
  constructor
  · rintro ⟨k, hlen, hgood, hover⟩
    refine ⟨by omega, ?_⟩
    cases k with
    | zero => exact .inl hover
    | succ k =>
      have hk : 16 * (k + 1) = 16 + 16 * k := by omega
      rw [hk, take_add] at hgood
      refine .inr ⟨fun x hx => hgood x (mem_append_left _ hx), k, ?_, fun x hx =>
        hgood x (mem_append_right _ hx), ?_⟩
      · simp
        omega
      · rw [drop_drop, ← hk]
        exact hover
  · rintro ⟨hlen, hover | ⟨hgood, k, hk, hrest, hover⟩⟩
    · exact ⟨0, hlen, fun x hx => absurd hx not_mem_nil, hover⟩
    · rw [length_drop] at hk
      have hk' : 16 * (k + 1) = 16 + 16 * k := by omega
      refine ⟨k + 1, by omega, ?_, ?_⟩
      · rw [hk', take_add]
        intro x hx
        exact (mem_append.mp hx).elim (hgood x) (hrest x)
      · rw [hk', ← drop_drop]
        exact hover

/-- What has been passed over after a step, and what it says about the blocks. -/
structure Passed (build : SimdBuild) (lanes : List Lane) (r : ℕ × Option ℕ) : Prop where
  le : r.1 + r.2.getD 0 ≤ lanes.length
  good : ∀ x ∈ lanes.take r.1, x.Good
  stopped : ∀ i, r.2 = some i → ((∀ x ∈ lanes.take (r.1 + i), x.Good) ↔ ¬Trips build lanes)
  ended : r.2 = none → ¬Trips build lanes

theorem Passed.start {build : SimdBuild} {lanes : List Lane} (h : ¬Trips build lanes) :
    Passed build lanes (0, none) where
  le := zero_le _
  good x hx := absurd hx not_mem_nil
  stopped i hi := by cases hi
  ended _ := h

theorem sixteens_passed (hbuild : build ≠ .portable) {fuel : ℕ} (hfuel : lanes.length ≤ fuel) :
    Passed build lanes (sixteens build fuel lanes) := by
  induction fuel generalizing lanes with
  | zero =>
    refine Passed.start fun h => ?_
    have := (trips_iff.1 h).1
    omega
  | succ fuel ih =>
    unfold sixteens
    by_cases hlen : 16 < lanes.length
    · rw [if_pos hlen]
      have hblock : (lanes.take 16).length = 16 := by
        simp
        omega
      cases hstop : sixteen build (lanes.take 16) with
      | some i =>
        obtain ⟨hlt, hbad, hiff⟩ := sixteen_some hbuild hstop
        rw [hblock] at hlt
        rw [take_take, Nat.min_eq_left hlt.le] at hiff
        have htrips : Trips build lanes ↔ Overlooks build (lanes.take 16) := by
          rw [trips_iff]
          exact ⟨fun h => h.2.resolve_right fun h => hbad h.1, fun h => ⟨hlen, .inl h⟩⟩
        refine ⟨by simp only [getD_some]; omega,
          fun x hx => absurd hx not_mem_nil, fun j hj => ?_, nofun⟩
        obtain rfl := some.inj hj
        rw [htrips, Nat.zero_add]
        exact hiff
      | none =>
        obtain ⟨hgood, hno⟩ := sixteen_none hstop
        have hrest := @ih (lanes.drop 16) (by rw [length_drop]; omega)
        have hle := hrest.le
        rw [length_drop] at hle
        have htrips : Trips build lanes ↔ Trips build (lanes.drop 16) := by
          rw [trips_iff]
          exact ⟨fun h => (h.2.resolve_left hno).2, fun h => ⟨hlen, .inr ⟨hgood, h⟩⟩⟩
        have htake : ∀ n, (∀ x ∈ lanes.take (16 + n), x.Good) ↔
            ∀ x ∈ (lanes.drop 16).take n, x.Good := fun n => by
          rw [take_add]
          exact ⟨fun h x hx => h x (mem_append_right _ hx),
            fun h x hx => (mem_append.mp hx).elim (hgood x) (h x)⟩
        dsimp only
        refine ⟨by dsimp only; omega, (htake _).mpr hrest.good, fun i hi => ?_, fun hnone => ?_⟩
        · rw [htrips, Nat.add_assoc, htake]
          exact hrest.stopped i hi
        · rw [htrips]
          exact hrest.ended hnone
    · rw [if_neg hlen]
      exact Passed.start fun h => hlen (trips_iff.1 h).1

theorem cmp_lt_16_passed {r : ℕ × Option ℕ} (h : Passed build lanes r)
    (n : ℕ) : Passed build lanes (cmp_lt_16 n lanes r) := by
  obtain ⟨offset, mask⟩ := r
  cases mask with
  | some i => exact h
  | none =>
    unfold cmp_lt_16
    dsimp only
    by_cases hlen : offset + n < lanes.length
    · rw [if_pos hlen]
      have hblock : ((lanes.drop offset).take n).length = n := by
        simp
        omega
      have hgood : ∀ m, (∀ x ∈ (lanes.drop offset).take m, x.Good) →
          ∀ x ∈ lanes.take (offset + m), x.Good := fun m hm => by
        rw [take_add]
        exact fun x hx => (mem_append.mp hx).elim (h.good x) (hm x)
      cases hfirst : first (fun x => x.differs || x.nonAscii) ((lanes.drop offset).take n) with
      | none =>
        exact ⟨hlen.le, hgood n fun x hx => good_iff.2 (first_none hfirst x hx), nofun,
          fun _ => h.ended rfl⟩
      | some i =>
        obtain ⟨hlt, -, hbefore, -⟩ := first_some hfirst
        rw [hblock] at hlt
        rw [take_take, min_eq_left hlt.le] at hbefore
        refine ⟨by simp only [getD_some]; omega, h.good, fun j hj => ?_, nofun⟩
        obtain rfl := some.inj hj
        exact ⟨fun _ => h.ended rfl, fun _ => hgood i fun x hx => good_iff.2 (hbefore x hx)⟩
    · simp [hlen, h]

theorem simdCompareAscii_good_iff (build : SimdBuild) (src8 : List UInt8) (src16 : List UInt16) :
    simdCompareAscii build src8 src16 ≤ (src8.zip src16).length ∧
      ((∀ x ∈ (src8.zip src16).take (simdCompareAscii build src8 src16), Lane.Good x) ↔
        ¬Trips build (src8.zip src16)) := by
  unfold simdCompareAscii
  by_cases hbuild : build = .portable
  · rw [if_pos hbuild]
    refine ⟨zero_le _, fun _ => ?_, fun _ x hx => absurd hx not_mem_nil⟩
    rintro ⟨k, -, -, hover⟩
    rw [hbuild] at hover
    exact hover
  · rw [if_neg hbuild]
    obtain ⟨lanes, hlanes⟩ : ∃ lanes, lanes = src8.zip src16 := ⟨_, rfl⟩
    rw [← hlanes]
    have h := cmp_lt_16_passed (cmp_lt_16_passed (sixteens_passed hbuild
      (le_refl lanes.length)) 8) 4
    dsimp only
    refine ⟨h.le, ?_⟩
    cases hmask : (cmp_lt_16 4 lanes (cmp_lt_16 8 lanes
        (sixteens build lanes.length lanes))).2 with
    | some i => exact h.stopped i hmask
    | none => exact ⟨fun _ => h.ended hmask, fun _ => h.good⟩

theorem not_trips_of_all {src8 : List UInt8} {src16 : List UInt16}
    (h : ((src8.zip src16).take (simdCompareAscii build src8 src16)).all (fun x => !(Lane.differs x || Lane.nonAscii x)) = true) : ¬Trips build (src8.zip src16) := by
  refine (simdCompareAscii_good_iff build src8 src16).2.mp fun x hx => good_iff.2 ?_
  exact Bool.not_eq_true' _ ▸ all_eq_true.mp h x hx

/-! ## The loop with and without vector instructions -/

theorem nextUtf8_length (b : UInt8) (src : List UInt8) :
    (nextUtf8 b src).2.length ≤ src.length := by
  unfold nextUtf8
  split
  · simp
  · exact le_rfl

theorem next1_length (b : UInt8) (src : List UInt8) : (next1 b src).2.length ≤ src.length := by
  unfold next1
  split
  · exact nextUtf8_length b src
  · exact le_rfl

theorem compareUtf8From_cons (fuel : ℕ) (b : UInt8) (src1 : List UInt8) (u : UInt16)
    (src2 : List UInt16) : compareUtf8From (fuel + 1) (b :: src1) (u :: src2) =
      if (next1 b src1).1 ≠ (next2 b u src2).1 then
        ((next1 b src1).1.toNat : ℤ) - (next2 b u src2).1.toNat
      else compareUtf8From fuel (next1 b src1).2 (next2 b u src2).2 := rfl

theorem compareUtf8From_nil (fuel : ℕ) {src1 : List UInt8} {src2 : List UInt16}
    (h : src1 = [] ∨ src2 = []) : compareUtf8From fuel src1 src2 =
      (if src1 = [] then 0 else 1) - (if src2 = [] then 0 else 1) := by
  cases fuel with
  | zero => rfl
  | succ fuel =>
    cases src1 with
    | nil => rfl
    | cons b src1 =>
      obtain rfl := h.resolve_left nofun
      rfl

theorem compareUtf8From_fuel {fuel fuel' : ℕ} {src1 : List UInt8} {src2 : List UInt16}
    (h : src1.length ≤ fuel) (h' : src1.length ≤ fuel') :
    compareUtf8From fuel src1 src2 = compareUtf8From fuel' src1 src2 := by
  induction fuel generalizing fuel' src1 src2 with
  | zero =>
    have hnil : src1 = [] := eq_nil_of_length_eq_zero (Nat.le_zero.mp h)
    rw [compareUtf8From_nil 0 (.inl hnil), compareUtf8From_nil fuel' (.inl hnil)]
  | succ fuel ih =>
    rcases src1 with _ | ⟨b, src1⟩
    · rw [compareUtf8From_nil _ (.inl rfl), compareUtf8From_nil _ (.inl rfl)]
    rcases src2 with _ | ⟨u, src2⟩
    · rw [compareUtf8From_nil _ (.inr rfl), compareUtf8From_nil _ (.inr rfl)]
    rw [length_cons] at h h'
    obtain ⟨fuel', rfl⟩ := Nat.exists_eq_add_of_le' (Nat.one_le_of_lt h')
    have hlen := next1_length b src1
    rw [compareUtf8From_cons, compareUtf8From_cons, @ih fuel' _ _ (by omega) (by omega)]

theorem compareUtf8From_drop {n fuel : ℕ} {src1 : List UInt8} {src2 : List UInt16}
    (hle : n ≤ (src1.zip src2).length) (hgood : ∀ x ∈ (src1.zip src2).take n, Lane.Good x) :
    compareUtf8From (fuel + n) src1 src2 = compareUtf8From fuel (src1.drop n) (src2.drop n) := by
  induction n generalizing src1 src2 with
  | zero => rfl
  | succ n ih =>
    rcases src1 with _ | ⟨b, src1⟩
    · rw [zip_nil_left] at hle
      cases hle
    rcases src2 with _ | ⟨u, src2⟩
    · rw [zip_nil_right] at hle
      cases hle
    rw [zip_cons_cons, length_cons, Nat.succ_le_succ_iff] at hle
    rw [zip_cons_cons, take_succ_cons] at hgood
    obtain ⟨hequal, hascii⟩ := hgood _ (mem_cons_self ..)
    have hrest := ih hle fun x hx => hgood x (mem_cons_of_mem _ hx)
    have hb : ¬b ≥ 0x80 := by
      intro h
      rw [ge_iff_le, UInt8.le_iff_toNat_le] at h
      unfold nonAscii at hascii
      exact of_decide_eq_false hascii h
    have hu : b.toUInt32 = u.toUInt32 := by
      have hunit : b.toUInt16 = u := bne_eq_false_iff_eq.mp hequal
      rw [← hunit]
      apply UInt32.toNat_inj.mp
      rw [UInt8.toNat_toUInt32, toNat_toUInt32, UInt8.toNat_toUInt16]
    rw [← Nat.add_assoc, compareUtf8From_cons]
    unfold next1 next2
    rw [if_neg hb, if_neg hb, if_neg (not_not.mpr hu)]
    exact hrest

theorem compareUtf8SimdFrom_of_clean {fuel : ℕ} {src1 : List UInt8} {src2 : List UInt16}
    (hclean : Clean build fuel src1 src2) (hfuel : src1.length < fuel) :
    compareUtf8SimdFrom build fuel src1 src2 = compareUtf8From src1.length src1 src2 := by
  induction fuel generalizing src1 src2 with
  | zero => omega
  | succ fuel ih =>
    obtain ⟨htrips, hrest⟩ := hclean
    obtain ⟨hle, hiff⟩ := simdCompareAscii_good_iff build src1 src2
    have hgood := hiff.mpr htrips
    unfold compareUtf8SimdFrom
    generalize simdCompareAscii build src1 src2 = n at hle hgood hrest ⊢
    have hlen : n ≤ src1.length := hle.trans (by rw [length_zip]; exact Nat.min_le_left _ _)
    have hfrom : compareUtf8From src1.length src1 src2 =
        compareUtf8From (src1.length - n) (src1.drop n) (src2.drop n) := by
      rw [← compareUtf8From_drop hle hgood, Nat.sub_add_cancel hlen]
    rw [hfrom]
    have hdrop : (src1.drop n).length = src1.length - n := length_drop
    dsimp only
    cases h₁ : src1.drop n with
    | nil =>
      rw [compareUtf8From_nil _ (.inl rfl)]
    | cons b rest1 =>
      cases h₂ : src2.drop n with
      | nil =>
        rw [compareUtf8From_nil _ (.inr rfl)]
      | cons u rest2 =>
        rw [h₁, length_cons] at hdrop
        rw [h₁, h₂] at hrest
        rw [← hdrop, compareUtf8From_cons]
        dsimp only at hrest ⊢
        by_cases hne : (next1 b rest1).1 ≠ (next2 b u rest2).1
        · rw [if_pos hne, if_pos hne]
        · have hlen1 := next1_length b rest1
          rw [if_neg hne, if_neg hne, ih (hrest (not_not.mp hne)) (by omega)]
          exact compareUtf8From_fuel le_rfl hlen1

/-! ## Code points of bytes -/

theorem decodes_utf8 (cs : List Char) : Decodes (utf8 cs) (cs.map fun c => c.val.toNat) := by
  induction cs with
  | nil => exact Decodes.nil
  | cons c cs ih => exact Decodes.char c ih

theorem nextUtf8_error {b : UInt8} {l : List UInt8} (hb : 0x80 ≤ b.toNat)
    (h : ∀ c r, b :: l ≠ String.utf8EncodeChar c ++ r) :
    nextUtf8 b l = (QChar.ReplacementCharacter.toUInt32, l) := by
  unfold nextUtf8
  cases hres : fromUtf8 true b l with
  | ok units n =>
    rw [fromUtf8_of_ge hb, ← fromUtf8_of_ge hb false] at hres
    obtain ⟨c, r, hc⟩ := exists_of_fromUtf8_ok hres
    exact absurd hc (h c r)
  | error => rfl
  | endOfString => rfl

variable {a : List UInt8} {ns : List ℕ}

/-- The code points that `Decodes` gives are those that `compareUtf8` reads. -/
theorem Decodes.next1 {b : UInt8} (h : Decodes (b :: a) ns) :
    ∃ rest, ns = (QtBase.next1 b a).1.toNat :: rest ∧ Decodes (QtBase.next1 b a).2 rest := by
  unfold QtBase.next1
  generalize hl : b :: a = l at h
  cases h with
  | nil => cases hl
  | char c hrest =>
    by_cases hb : b ≥ 0x80
    · rw [if_pos hb, nextUtf8_encodeChar (UInt8.le_iff_toNat_le.mp hb) hl]
      exact ⟨_, rfl, hrest⟩
    · have hbn : b.toNat < 0x80 := not_le.mp fun h => hb (UInt8.le_iff_toNat_le.mpr h)
      obtain ⟨hval, rfl⟩ := ascii_of_utf8 hbn hl
      rw [if_neg hb, hval, UInt8.toNat_toUInt32]
      exact ⟨_, rfl, hrest⟩
  | error hno hrest =>
    obtain ⟨rfl, rfl⟩ := List.cons.inj hl
    have hb : 0x80 ≤ b.toNat := by
      by_contra hlt
      obtain ⟨c, hc⟩ := exists_char (v := b.toNat) (by omega) (by omega)
      exact hno c a (by rw [utf8EncodeChar_one (by omega) hc]; rfl)
    have hge : b ≥ 0x80 := UInt8.le_iff_toNat_le.mpr hb
    rw [if_pos hge, nextUtf8_error hb hno]
    exact ⟨_, rfl, hrest⟩

theorem Decodes.nil_iff (h : Decodes a ns) : ns = [] ↔ a = [] := by
  cases h with
  | nil => simp
  | char c hrest =>
    have hlen := Char.utf8Size_pos c
    rw [← String.length_utf8EncodeChar, length_pos_iff_ne_nil] at hlen
    simp [hlen]
  | error hno hrest => simp

theorem codePoints_next2 {b : UInt8} {u : UInt16} {us : List UInt16}
    (h : (next1 b a).1 = (next2 b u us).1) :
    codePoints (u :: us) = (next2 b u us).1.toNat :: codePoints (next2 b u us).2 := by
  unfold next1 at h
  unfold next2 at h ⊢
  by_cases hb : b ≥ 0x80
  · rw [if_pos hb]
    exact codePoints_nextUtf16 u us
  · rw [if_neg hb, if_neg hb] at h
    rw [if_neg hb]
    have hnat := congrArg UInt32.toNat h
    rw [UInt8.toNat_toUInt32, toNat_toUInt32] at hnat
    have hlt := b.toNat_lt
    have hhigh : ¬High u := by
      unfold High
      omega
    rw [codePoints_cons hhigh, toNat_toUInt32]

theorem codePoints_next2_ne {b : UInt8} {u : UInt16} {us : List UInt16}
    (h : (next1 b a).1 ≠ (next2 b u us).1) : ∃ m rest, codePoints (u :: us) = m :: rest ∧
      (next1 b a).1.toNat ≠ m ∧
      ((next1 b a).1.toNat < (next2 b u us).1.toNat ↔ (next1 b a).1.toNat < m) := by
  have hnat : (next1 b a).1.toNat ≠ (next2 b u us).1.toNat := fun heq => h (UInt32.toNat_inj.mp heq)
  by_cases hb : b ≥ 0x80
  · have hnext : next2 b u us = nextUtf16 u us := if_pos hb
    rw [hnext] at hnat ⊢
    exact ⟨_, _, codePoints_nextUtf16 u us, hnat, Iff.rfl⟩
  · have hnext : next2 b u us = (u.toUInt32, us) := if_neg hb
    have hascii : next1 b a = (b.toUInt32, a) := if_neg hb
    rw [hnext, hascii] at hnat ⊢
    dsimp only at hnat ⊢
    rw [UInt8.toNat_toUInt32, toNat_toUInt32] at hnat ⊢
    have hlt := b.toNat_lt
    obtain ⟨m, rest, hcode, hm⟩ := codePoints_head u us
    exact ⟨m, rest, hcode, by omega, by omega⟩

theorem compareUtf8From_tells_nil (fuel : ℕ) (h : Decodes a ns) (us : List UInt16)
    (hnil : a = [] ∨ us = []) :
    Tells (compareUtf8From fuel a us) ns (codePoints us) := by
  rw [compareUtf8From_nil fuel hnil]
  simp only [← h.nil_iff, ← @codePoints_eq_nil_iff us]
  refine Tells.lengths ns (codePoints us) ?_
  rw [h.nil_iff, codePoints_eq_nil_iff]
  exact hnil

/-- Without vector instructions the comparison is that of the code points, for all bytes. -/
theorem compareUtf8From_tells_decodes (fuel : ℕ) (h : Decodes a ns) (us : List UInt16)
    (hfuel : a.length ≤ fuel) :
    Tells (compareUtf8From fuel a us) ns (codePoints us) := by
  induction fuel generalizing a ns us with
  | zero =>
    exact compareUtf8From_tells_nil 0 h us
      (.inl (eq_nil_of_length_eq_zero (le_zero.mp hfuel)))
  | succ fuel ih =>
    rcases a with _ | ⟨b, a⟩
    · exact compareUtf8From_tells_nil _ h us (.inl rfl)
    rcases us with _ | ⟨u, us⟩
    · exact compareUtf8From_tells_nil _ h [] (.inr rfl)
    rw [compareUtf8From_cons]
    obtain ⟨rest, rfl, hrest⟩ := h.next1
    by_cases hne : (next1 b a).1 ≠ (next2 b u us).1
    · obtain ⟨m, codes, hcode, hm, hlt⟩ := codePoints_next2_ne hne
      have hnat : (next1 b a).1.toNat ≠ (next2 b u us).1.toNat :=
        fun heq => hne (UInt32.toNat_inj.mp heq)
      rw [if_pos hne, hcode]
      exact Tells.of_ne hm (by omega) (by omega)
    · have heq := not_not.mp hne
      have hlen := next1_length b a
      rw [length_cons] at hfuel
      rw [if_neg hne, codePoints_next2 heq, heq]
      exact (ih hrest _ (by omega)).cons _

theorem clean_portable (fuel : ℕ) (a : List UInt8) (us : List UInt16) :
    Clean .portable fuel a us := by
  induction fuel generalizing a us with
  | zero => trivial
  | succ fuel ih =>
    refine ⟨fun ⟨_, _, _, hover⟩ => hover, ?_⟩
    split
    · exact fun _ => ih _ _
    · trivial

theorem compareUtf8Simd_portable (h : Decodes a ns)
    (us : List UInt16) : Tells (compareUtf8Simd .portable a us) ns (codePoints us) := by
  unfold compareUtf8Simd
  rw [compareUtf8SimdFrom_of_clean (clean_portable ..) (lt_succ_self _)]
  exact compareUtf8From_tells_decodes a.length h us le_rfl

theorem compareUtf8Simd_portable_accent :
    Tells (compareUtf8Simd .portable (utf8 ['é']) [0xea]) [0xe9] (codePoints [0xea]) :=
  compareUtf8Simd_portable (decodes_utf8 ['é']) [0xea]

/-- The sign is that of the code points wherever no call of `simdCompareAscii` trips. -/
theorem compareUtf8Simd_tells {build : SimdBuild} {a : List UInt8} {us : List UInt16}
    (hclean : Clean build (a.length + 1) a us) :
    ∀ ns, Decodes a ns → Tells (compareUtf8Simd build a us) ns (codePoints us) := by
  intro ns h
  unfold compareUtf8Simd
  rw [compareUtf8SimdFrom_of_clean hclean (lt_succ_self _)]
  exact compareUtf8From_tells_decodes a.length h us le_rfl

theorem compareUtf8Simd_tells_accent :
    Tells (compareUtf8Simd .sse2 (utf8 (List.replicate 17 'x' ++ ['é']))
      (utf16 (List.replicate 17 'x' ++ ['é'])))
      ((List.replicate 17 'x' ++ ['é']).map fun c => c.val.toNat)
      (codePoints (utf16 (List.replicate 17 'x' ++ ['é']))) :=
  compareUtf8Simd_tells
    ⟨not_trips_of_all (by decide +kernel), fun _ =>
      ⟨not_trips_of_all (by decide +kernel), fun _ =>
        ⟨not_trips_of_all (by decide +kernel), trivial⟩⟩⟩ _
    (decodes_utf8 _)

/-- `Ãé` beside `Ã`, U+0083 and `é` with SSE2; a string that begins with `b` beside one that begins
with `a` with AVX2: the results are 0. -/
theorem compareUtf8Simd_equal :
    (∃ a us ns, Decodes a ns ∧ compareUtf8Simd .sse2 a us = 0 ∧ ns ≠ codePoints us) ∧
    ∃ a us ns, Decodes a ns ∧ compareUtf8Simd .avx2 a us = 0 ∧ ns ≠ codePoints us :=
  ⟨⟨_, [0xc3, 0x83, 0xe9] ++ List.replicate 14 0x78, _,
      decodes_utf8 (['Ã', 'é'] ++ List.replicate 14 'x'), by decide +kernel, by decide +kernel⟩,
    _, [0x61] ++ List.replicate 14 0x78 ++ [0xe9, 0x79, 0x79], _,
      decodes_utf8 (['b'] ++ List.replicate 14 'x' ++ ['é', 'y', 'y']), by decide +kernel,
      by decide +kernel⟩

end QtBase
