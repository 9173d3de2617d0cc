import QtBase.Tools.ArrayOps
import Mathlib.Algebra.Order.Group.Int

/-! Both `Inserter`s put the new elements in their place, and leave the other slots alone. -/
namespace QtBase.ArrayOps

open List Function Int Memory

variable {T : Type}

/-! ## Memory in pieces -/

namespace Memory

/-- `m` with the slots from `a` up to `b` as `f` says. -/
def fill (m : Memory T) (a b : ℤ) (f : ℤ → Slot T) : Memory T := fun p =>
  if a ≤ p ∧ p < b then f p else m p

variable {m : Memory T} {a b p : ℤ} {f : ℤ → Slot T}

theorem fill_in (h : a ≤ p ∧ p < b) : m.fill a b f p = f p := if_pos h

theorem fill_out (h : ¬(a ≤ p ∧ p < b)) : m.fill a b f p = m p := if_neg h

theorem fill_empty (h : b ≤ a) : m.fill a b f = m := by
  funext p
  exact fill_out (by omega)

theorem update_fill (h : a ≤ b) : update (m.fill a b f) b (f b) = m.fill a (b + 1) f := by
  funext p
  rcases lt_trichotomy p b with hlt | rfl | hgt
  · rw [update_of_ne hlt.ne]
    by_cases hp : a ≤ p
    · rw [fill_in ⟨hp, hlt⟩, fill_in ⟨hp, by omega⟩]
    · rw [fill_out (by omega), fill_out (by omega)]
  · rw [update_self, fill_in ⟨h, by omega⟩]
  · rw [update_of_ne hgt.ne', fill_out (by omega), fill_out (by omega)]

theorem update_fill_front (h : a ≤ b) :
    update (m.fill a b f) (a - 1) (f (a - 1)) = m.fill (a - 1) b f := by
  funext p
  rcases lt_trichotomy p (a - 1) with hlt | rfl | hgt
  · rw [update_of_ne hlt.ne, fill_out (by omega), fill_out (by omega)]
  · rw [update_self, fill_in ⟨by omega, by omega⟩]
  · rw [update_of_ne hgt.ne']
    by_cases hp : p < b
    · rw [fill_in ⟨by omega, hp⟩, fill_in ⟨by omega, hp⟩]
    · rw [fill_out (by omega), fill_out (by omega)]

theorem construct_eq {value : T} (h : m p = .unconstructed) :
    m.construct p value = .ok (update m p (.live value)) := by
  unfold construct
  rw [h]

theorem assign_eq {value : T} (h : m p ≠ .unconstructed) :
    m.assign p value = .ok (update m p (.live value)) := by
  unfold assign
  split
  · contradiction
  · rfl

theorem moveFrom_eq {value : T} (h : m p = .live value) :
    m.moveFrom p = .ok (value, update m p .moved) := by
  unfold moveFrom
  rw [h]

theorem update_fill_of_out {x : Slot T} (h : ¬(a ≤ p ∧ p < b)) :
    update (m.fill a b f) p x = fill (update m p x) a b f := by
  funext q
  by_cases hq : q = p
  · rw [hq, update_self, fill_out h, update_self]
  · rw [update_of_ne hq]
    unfold fill
    rw [update_of_ne hq]

end Memory

/-! ## The loops -/

theorem forUp_eq {σ : Type} {start stop : ℤ} {body : ℤ → σ → Exec σ} {n : ℕ} (g : ℕ → σ) {s : σ}
    (hs : g 0 = s) (hstop : stop = start + n)
    (hstep : ∀ k < n, body (start + k) (g k) = .ok (g (k + 1))) :
    forUp start stop body s = .ok (g n) := by
  subst hs hstop
  obtain ⟨s, hrun, rfl⟩ := foldlM_range (f := fun s (k : ℕ) => body (start + k) s)
    (fun k s => s = g k) rfl fun k hk s hs => ⟨g (k + 1), hs ▸ hstep k hk, rfl⟩
  unfold forUp
  rw [if_pos (by omega), ← hrun]
  congr 2
  omega

theorem forDown_eq {σ : Type} {start stop : ℤ} {body : ℤ → σ → Exec σ} {n : ℕ} (g : ℕ → σ) {s : σ}
    (hs : g 0 = s) (hstop : stop = start - n)
    (hstep : ∀ k < n, body (start - k) (g k) = .ok (g (k + 1))) :
    forDown start stop body s = .ok (g n) := by
  subst hs hstop
  obtain ⟨s, hrun, rfl⟩ := foldlM_range (f := fun s (k : ℕ) => body (start - k) s)
    (fun k s => s = g k) rfl fun k hk s hs => ⟨g (k + 1), hs ▸ hstep k hk, rfl⟩
  unfold forDown
  rw [if_pos (by omega), ← hrun]
  congr 2
  omega

namespace Generic.Inserter

variable {s : Inserter T} {value : ℤ → Exec T} {f : ℤ → Slot T}

theorem copyConstruct_eq {c : ℕ} (hc : s.sourceCopyConstruct = c)
    (hraw : ∀ p, s.endPos ≤ p → p < s.endPos + c → s.memory p = .unconstructed)
    (hvalue : ∀ i : ℕ, i < c → ∃ t, value (s.nSource - c + i) = .ok t ∧ f (s.endPos + i) = .live t) :
    s.copyConstruct value = .ok { s with
      memory := s.memory.fill s.endPos (s.endPos + c) f
      size := s.size + c } := by
  refine forUp_eq (fun k : ℕ => { s with
      memory := s.memory.fill s.endPos (s.endPos + k) f
      size := s.size + k }) ?_ ?_ fun k hk => ?_
  · rw [fill_empty (by omega)]
    simp
  · rw [hc, zero_add]
  · obtain ⟨t, ht, hf⟩ := hvalue k hk
    have hout : s.memory.fill s.endPos (s.endPos + k) f (s.endPos + k) = .unconstructed := by
      rw [fill_out (by omega), hraw _ (by omega) (by omega)]
    dsimp only
    rw [hc, zero_add, ht, ok_bind, construct_eq hout, ok_bind, ← hf,
      update_fill (by omega), pure_eq_ok, natCast_succ]
    simp only [add_assoc]

theorem moveConstruct_eq {c k : ℕ} (hc : s.sourceCopyConstruct = c) (hn : s.nSource = c + k)
    (hlive : ∀ p, s.endPos - k ≤ p → p < s.endPos → ∃ t, s.memory p = .live t)
    (hraw : ∀ p, s.endPos + c ≤ p → p < s.endPos + c + k → s.memory p = .unconstructed) :
    s.moveConstruct = .ok { s with
      memory := (s.memory.fill (s.endPos - k) s.endPos fun _ => .moved).fill
        (s.endPos + c) (s.endPos + c + k) fun p => s.memory (p - s.nSource)
      size := s.size + k } := by
  have hrun : s.moveConstruct = .ok { s with
      memory := (s.memory.fill (s.endPos - k) (s.endPos - k + k) fun _ => .moved).fill
        (s.endPos + c) (s.endPos + c + k) fun p => s.memory (p - s.nSource)
      size := s.size + k } := by
    refine forUp_eq (fun j : ℕ => { s with
        memory := (s.memory.fill (s.endPos - k) (s.endPos - k + j) fun _ => .moved).fill
          (s.endPos + c) (s.endPos + c + j) fun p => s.memory (p - s.nSource)
        size := s.size + j }) ?_ ?_ fun j hj => ?_
    · rw [Memory.fill_empty (by omega), Memory.fill_empty (by omega)]
      simp
    · rw [hc, hn]
    · have hq : s.endPos + (↑c + j) - s.nSource = s.endPos - k + j := by omega
      obtain ⟨t, ht⟩ := hlive (s.endPos - k + j) (by omega) (by omega)
      have hfrom : (s.memory.fill (s.endPos - k) (s.endPos - k + j) fun _ => .moved).fill
          (s.endPos + c) (s.endPos + c + j) (fun p => s.memory (p - s.nSource))
          (s.endPos - k + j) = .live t := by
        rw [Memory.fill_out (by omega), Memory.fill_out (by omega), ht]
      have hto : (s.memory.fill (s.endPos - k) (s.endPos - k + j + 1) fun _ => .moved).fill
          (s.endPos + c) (s.endPos + c + j) (fun p => s.memory (p - s.nSource))
          (s.endPos + c + j) = .unconstructed := by
        rw [Memory.fill_out (by omega), Memory.fill_out (by omega),
          hraw _ (by omega) (by omega)]
      have hvalue : Slot.live t = s.memory (s.endPos + c + j - s.nSource) := by
        rw [← ht, add_assoc, hq]
      dsimp only
      unfold Memory.moveConstruct
      rw [hc, hq, Memory.moveFrom_eq hfrom, ok_bind]
      dsimp only
      rw [Memory.update_fill_of_out (by omega),
        Memory.update_fill (f := fun _ => .moved) (by omega), ← add_assoc s.endPos,
        Memory.construct_eq hto, hvalue, ok_bind,
        Memory.update_fill (f := fun p => s.memory (p - s.nSource)) (by omega), pure_eq_ok,
        natCast_succ]
      simp only [add_assoc]
  rw [sub_add_cancel] at hrun
  exact hrun

theorem moveAssign_eq {selfMove : T → T} {n k : ℕ} (hpos : 0 < n)
    (hmove : s.move = -k) (hlast : s.last = s.endPos - 1)
    (hlive : ∀ p, s.endPos - n - k ≤ p → p < s.endPos - n → ∃ t, s.memory p = .live t)
    (hmoved : ∀ p, s.endPos - n ≤ p → s.endPos - k ≤ p → p < s.endPos → s.memory p = .moved) :
    s.moveAssign selfMove n = .ok { s with
      memory := (s.memory.fill (s.endPos - n - k) (s.endPos - n) fun _ => .moved).fill
        (s.endPos - k) s.endPos fun p => s.memory (p - n) } := by
  refine forDown_eq (fun j : ℕ => { s with
      memory := (s.memory.fill (s.endPos - n - j) (s.endPos - n) fun _ => .moved).fill
        (s.endPos - j) s.endPos fun p => s.memory (p - n) }) ?_ ?_ fun j hj => ?_
  · rw [Memory.fill_empty (by omega), Memory.fill_empty (by omega)]
  · rw [hmove, zero_sub]
  · have hp : s.last + (0 - (j : ℤ)) = s.endPos - j - 1 := by omega
    have hq : s.last + (0 - (j : ℤ) - n) = s.endPos - n - j - 1 := by omega
    obtain ⟨t, ht⟩ := hlive (s.endPos - n - j - 1) (by omega) (by omega)
    have hfrom : (s.memory.fill (s.endPos - n - j) (s.endPos - n) fun _ => .moved).fill
        (s.endPos - j) s.endPos (fun p => s.memory (p - n)) (s.endPos - n - j - 1) = .live t := by
      rw [Memory.fill_out (by omega), Memory.fill_out (by omega), ht]
    have hto : (s.memory.fill (s.endPos - n - j - 1) (s.endPos - n) fun _ => .moved).fill
        (s.endPos - j) s.endPos (fun p => s.memory (p - n)) (s.endPos - j - 1) = .moved := by
      rw [Memory.fill_out (by omega)]
      by_cases hlow : s.endPos - j - 1 < s.endPos - n
      · rw [Memory.fill_in ⟨by omega, hlow⟩]
      · rw [Memory.fill_out (by omega), hmoved _ (by omega) (by omega) (by omega)]
    have hvalue : Slot.live t = s.memory (s.endPos - j - 1 - n) := by
      rw [← ht]
      congr 1
      omega
    dsimp only
    unfold Memory.moveAssign
    rw [hp, hq, Memory.moveFrom_eq hfrom, ok_bind]
    dsimp only
    rw [if_neg (by omega), Memory.update_fill_of_out (by omega),
      Memory.update_fill_front (f := fun _ => .moved) (by omega),
      Memory.assign_eq (by rw [hto]; nofun), hvalue, ok_bind,
      Memory.update_fill_front (f := fun p => s.memory (p - n)) (by omega), pure_eq_ok,
      natCast_succ]
    simp only [sub_add_eq_sub_sub]

theorem moveAssign_self {selfMove : T → T} {k : ℕ} (hmove : s.move = -k)
    (hlast : s.last = s.endPos - 1)
    (hlive : ∀ p, s.endPos - k ≤ p → p < s.endPos →
      ∃ t, s.memory p = .live t ∧ f p = .live (selfMove t)) :
    s.moveAssign selfMove 0 = .ok { s with memory := s.memory.fill (s.endPos - k) s.endPos f } := by
  refine forDown_eq (fun j : ℕ => { s with
      memory := s.memory.fill (s.endPos - j) s.endPos f }) ?_ ?_ fun j hj => ?_
  · rw [Memory.fill_empty (by omega)]
  · rw [hmove, zero_sub]
  · have hp : s.last + (0 - (j : ℤ)) = s.endPos - j - 1 := by omega
    have hq : s.last + (0 - (j : ℤ) - 0) = s.endPos - j - 1 := by omega
    obtain ⟨t, ht, hf⟩ := hlive (s.endPos - j - 1) (by omega) (by omega)
    have hfrom : s.memory.fill (s.endPos - j) s.endPos f (s.endPos - j - 1) = .live t := by
      rw [Memory.fill_out (by omega), ht]
    dsimp only
    unfold Memory.moveAssign
    rw [hp, hq, Memory.moveFrom_eq hfrom, ok_bind]
    dsimp only
    rw [if_pos rfl, Memory.assign_eq (by rw [update_self]; nofun), update_idem,
      ok_bind, ← hf, Memory.update_fill_front (by omega), pure_eq_ok, natCast_succ]
    simp only [sub_add_eq_sub_sub]

theorem copyAssign_eq {c : ℕ} (hc : s.sourceCopyAssign = c)
    (hmade : ∀ p, s.where' ≤ p → p < s.where' + c → s.memory p ≠ .unconstructed)
    (hvalue : ∀ i : ℕ, i < c → ∃ t, value i = .ok t ∧ f (s.where' + i) = .live t) :
    s.copyAssign value = .ok { s with memory := s.memory.fill s.where' (s.where' + c) f } := by
  refine forUp_eq (fun k : ℕ => { s with
      memory := s.memory.fill s.where' (s.where' + k) f }) ?_ ?_ fun k hk => ?_
  · rw [fill_empty (by omega)]
  · rw [hc, zero_add]
  · obtain ⟨t, ht, hf⟩ := hvalue k hk
    have hout : s.memory.fill s.where' (s.where' + k) f (s.where' + k) ≠ .unconstructed := by
      rw [fill_out (by omega)]
      exact hmade _ (by omega) (by omega)
    dsimp only
    rw [zero_add, ht, ok_bind, assign_eq hout, ok_bind, ← hf,
      update_fill (by omega), pure_eq_ok, natCast_succ]
    simp only [add_assoc]

end Generic.Inserter

/-! ## The array afterwards -/

/-- The elements of `l` from 0 on, and around them what `m` has. -/
def Memory.holding (l : List T) (m : Memory T) : Memory T := fun p =>
  if 0 ≤ p then (l[p.toNat]?).elim (m p) .live else m p

namespace Memory

variable {l old source tail : List T} {m : Memory T} {p : ℤ} {pos : ℕ}

theorem holding_in {i : ℕ} (h : i < l.length) : holding l m i = .live l[i] := by
  unfold holding
  rw [if_pos (by omega), toNat_natCast, getElem?_eq_getElem h, Option.elim_some]

theorem exists_live (h₀ : 0 ≤ p) (h : p < l.length) : ∃ t, holding l m p = .live t := by
  obtain ⟨i, rfl⟩ := eq_ofNat_of_zero_le h₀
  exact ⟨_, holding_in (by omega)⟩

theorem holding_out (h : p < 0 ∨ l.length ≤ p) : holding l m p = m p := by
  unfold holding
  split
  · rw [getElem?_eq_none (by omega), Option.elim_none]
  · rfl

theorem holding_before (hpos : pos ≤ old.length) (h : p < pos) :
    holding (old.take pos ++ (source ++ tail)) m p = holding old m p := by
  rcases lt_or_ge p 0 with hneg | h₀
  · rw [holding_out (.inl hneg), holding_out (.inl hneg)]
  · obtain ⟨i, rfl⟩ := eq_ofNat_of_zero_le h₀
    have hi : i < (old.take pos).length := by
      simp
      omega
    rw [holding_in (by rw [length_append]; omega), holding_in (by omega),
      getElem_append_left hi, getElem_take]

theorem holding_source (hpos : pos ≤ old.length) {i : ℕ} (h : i < source.length) :
    holding (old.take pos ++ (source ++ tail)) m (pos + i) = .live source[i] := by
  have hlen : (old.take pos).length = pos := by
    simp
    omega
  rw [← natCast_add, holding_in (by simp only [length_append]; omega),
    getElem_append_right (by omega), getElem_append_left (by omega)]
  simp only [hlen, Nat.add_sub_cancel_left]

theorem holding_tail (hpos : pos ≤ old.length) {i : ℕ} (h : i < tail.length) :
    holding (old.take pos ++ (source ++ tail)) m (pos + source.length + i) = .live tail[i] := by
  have hlen : (old.take pos).length = pos := by
    simp
    omega
  rw [← natCast_add, ← natCast_add, holding_in (by simp only [length_append]; omega),
    getElem_append_right (by omega), getElem_append_right (by omega)]
  congr 2
  omega

theorem holding_after (hpos : pos ≤ old.length) (h₁ : pos + source.length ≤ p)
    (h₂ : p < old.length + source.length) :
    holding (old.take pos ++ (source ++ old.drop pos)) m p =
      holding old m (p - source.length) := by
  obtain ⟨i, hi⟩ := eq_ofNat_of_zero_le (by omega : 0 ≤ p - (pos + source.length))
  have hlen : (old.drop pos).length = old.length - pos := length_drop
  have hp : p = pos + source.length + i := by omega
  have hq : p - source.length = ((pos + i : ℕ) : ℤ) := by omega
  rw [hq, hp, holding_tail hpos (by omega), holding_in (by omega), getElem_drop]

theorem holding_behind (hpos : pos ≤ old.length) (h : old.length + source.length ≤ p) :
    holding (old.take pos ++ (source ++ old.drop pos)) m p = m p := by
  refine holding_out (.inr ?_)
  simp
  omega

end Memory

namespace Generic

open Inserter Memory

variable (selfMove : T → T) {old source : List T} {m : Memory T} {pos : ℕ} {value : ℤ → Exec T}

theorem insertValues_of_loops {selfMove : T → T} {n p : ℤ} {s s₁ s₂ s₃ s₄ : Inserter T}
    (h₁ : (s.setup p n).copyConstruct value = .ok s₁) (hle : s₁.size ≤ s.size + n)
    (h₂ : s₁.moveConstruct = .ok s₂) (heq : s₂.size = s.size + n)
    (h₃ : s₂.moveAssign selfMove s₂.nSource = .ok s₃) (h₄ : s₃.copyAssign value = .ok s₄) :
    s.insertValues selfMove p value n = .ok s₄ := by
  unfold insertValues
  dsimp only
  rw [h₁, ok_bind, qAssert_pos hle, ok_bind, h₂, ok_bind, qAssert_pos heq, ok_bind, h₃, ok_bind,
    h₄]

theorem holding_free {n : ℕ}
    (hraw : ∀ p : ℤ, old.length ≤ p → p < old.length + n → m p = .unconstructed) {p : ℤ}
    (h₁ : old.length ≤ p) (h₂ : p < old.length + n) : holding old m p = .unconstructed := by
  rw [holding_out (.inr h₁), hraw p h₁ h₂]

theorem insertValues_long (dist extra : ℕ) (hpos : old.length = pos + dist)
    (hn : source.length = dist + (extra + 1))
    (hraw : ∀ p : ℤ, old.length ≤ p → p < old.length + source.length → m p = .unconstructed)
    (hvalue : ∀ (i : ℕ) (h : i < source.length), value i = .ok source[i]) :
    ∃ s, (ofData ⟨holding old m, old.length⟩).insertValues selfMove pos value source.length =
      .ok s ∧
      s.toData = ⟨holding (old.take pos ++ (source ++ old.drop pos)) m,
        old.length + source.length⟩ := by
  let state (m : Memory T) (size : ℤ) : Inserter T := ⟨m, size, (extra + 1 : ℕ), source.length, 0,
    dist, old.length, old.length - 1, pos⟩
  have hle : pos ≤ old.length := by omega
  have hsetup : (ofData ⟨holding old m, old.length⟩).setup pos source.length =
      state (holding old m) old.length := by
    unfold setup ofData
    dsimp only [state]
    rw [if_pos (by omega), Inserter.mk.injEq]
    simp
    omega
  obtain ⟨w, hw⟩ : ∃ w, w = holding (old.take pos ++ (source ++ old.drop pos)) m := ⟨_, rfl⟩
  have hnew : ∀ i : ℕ, i < source.length → ∃ t, value i = .ok t ∧ w (pos + i) = .live t :=
    fun i hi => ⟨_, hvalue i hi, hw ▸ holding_source hle hi⟩
  obtain ⟨m₁, hm₁⟩ : ∃ m₁, m₁ = (holding old m).fill old.length
      (old.length + (extra + 1 : ℕ)) w := ⟨_, rfl⟩
  have h₁ : copyConstruct value (state (holding old m) old.length) =
      .ok (state m₁ (old.length + (extra + 1 : ℕ))) := by
    rw [hm₁]
    refine copyConstruct_eq rfl (fun p h₁ h₂ => ?_) fun i hi => ?_
    · dsimp only [state] at h₁ h₂ ⊢
      exact holding_free hraw h₁ (by omega)
    · obtain ⟨t, ht, hf⟩ := hnew (dist + i) (by omega)
      refine ⟨t, ?_, ?_⟩
      · rw [← ht]
        congr 1
        dsimp only [state]
        omega
      · rw [← hf]
        congr 1
        dsimp only [state]
        omega
  obtain ⟨m₂, hm₂⟩ : ∃ m₂, m₂ = (m₁.fill (old.length - dist) old.length fun _ => .moved).fill
      (old.length + (extra + 1 : ℕ)) (old.length + (extra + 1 : ℕ) + dist)
      fun p => m₁ (p - source.length) := ⟨_, rfl⟩
  have h₂ : moveConstruct (state m₁ (old.length + (extra + 1 : ℕ))) =
      .ok (state m₂ (old.length + (extra + 1 : ℕ) + dist)) := by
    rw [hm₂]
    refine moveConstruct_eq rfl (by dsimp only [state]; omega) (fun p h₁ h₂ => ?_) fun p h₁ h₂ => ?_
    · dsimp only [state] at h₁ h₂ ⊢
      rw [hm₁, fill_out (by omega)]
      exact exists_live (by omega) (by omega)
    · dsimp only [state] at h₁ h₂ ⊢
      rw [hm₁, fill_out (by omega)]
      exact holding_free hraw (by omega) (by omega)
  have h₃ : Inserter.moveAssign selfMove source.length
      (state m₂ (old.length + (extra + 1 : ℕ) + dist)) =
      .ok (state m₂ (old.length + (extra + 1 : ℕ) + dist)) := rfl
  have h₄ : copyAssign value (state m₂ (old.length + (extra + 1 : ℕ) + dist)) =
      .ok (state (m₂.fill pos (pos + dist) w) (old.length + (extra + 1 : ℕ) + dist)) := by
    refine copyAssign_eq rfl (fun p h₁ h₂ => ?_) fun i hi => hnew i (by omega)
    dsimp only [state] at h₁ h₂ ⊢
    rw [hm₂, fill_out (by omega), fill_in ⟨by omega, by omega⟩]
    nofun
  refine ⟨_, insertValues_of_loops (hsetup ▸ h₁) ?_ h₂ ?_ h₃ h₄, ?_⟩
  · dsimp only [state, ofData]
    omega
  · dsimp only [state, ofData]
    omega
  · unfold toData
    rw [DataPointer.mk.injEq]
    refine ⟨?_, by dsimp only [state]; omega⟩
    funext p
    dsimp only [state]
    by_cases hnewslot : pos ≤ p ∧ p < pos + dist
    · rw [fill_in hnewslot, hw]
    rw [fill_out hnewslot, hm₂]
    by_cases hmoved : old.length + (extra + 1 : ℕ) ≤ p ∧ p < old.length + (extra + 1 : ℕ) + dist
    · rw [fill_in hmoved, hm₁, fill_out (by omega), holding_after hle (by omega) (by omega)]
    rw [fill_out hmoved, fill_out (by omega), hm₁]
    by_cases hmade : old.length ≤ p ∧ p < old.length + (extra + 1 : ℕ)
    · rw [fill_in hmade, hw]
    rw [fill_out hmade]
    by_cases hbefore : p < pos
    · rw [holding_before hle hbefore]
    · rw [holding_out (.inr (by omega)), holding_behind hle (by omega)]

/-- As many elements behind `pos` as new ones, or more: the last of them go to new slots. -/
theorem insertValues_short {k : ℕ} (hpos : old.length = pos + (k + source.length))
    (hn : 0 < source.length)
    (hraw : ∀ p : ℤ, old.length ≤ p → p < old.length + source.length → m p = .unconstructed)
    (hvalue : ∀ (i : ℕ) (h : i < source.length), value i = .ok source[i]) :
    ∃ s, (ofData ⟨holding old m, old.length⟩).insertValues selfMove pos value source.length =
      .ok s ∧
      s.toData = ⟨holding (old.take pos ++ (source ++ old.drop pos)) m,
        old.length + source.length⟩ := by
  let state (m : Memory T) (size : ℤ) : Inserter T := ⟨m, size, 0, source.length, -k,
    source.length, old.length, old.length - 1, pos⟩
  have hle : pos ≤ old.length := by omega
  have hsetup : (ofData ⟨holding old m, old.length⟩).setup pos source.length =
      state (holding old m) old.length := by
    unfold setup ofData
    dsimp only [state]
    rw [if_neg (by omega), Inserter.mk.injEq]
    simp
    omega
  obtain ⟨w, hw⟩ : ∃ w, w = holding (old.take pos ++ (source ++ old.drop pos)) m := ⟨_, rfl⟩
  have hnew : ∀ i : ℕ, i < source.length → ∃ t, value i = .ok t ∧ w (pos + i) = .live t :=
    fun i hi => ⟨_, hvalue i hi, hw ▸ holding_source hle hi⟩
  have h₁ : copyConstruct value (state (holding old m) old.length) =
      .ok (state (holding old m) old.length) := rfl
  obtain ⟨m₂, hm₂⟩ : ∃ m₂, m₂ = ((holding old m).fill (old.length - source.length) old.length
      fun _ => .moved).fill old.length (old.length + source.length)
      fun p => holding old m (p - source.length) := ⟨_, rfl⟩
  have h₂ : moveConstruct (state (holding old m) old.length) =
      .ok (state m₂ (old.length + source.length)) := by
    have hrun := moveConstruct_eq (s := state (holding old m) old.length) (c := 0)
      (k := source.length) rfl (by dsimp only [state]; omega) (fun p h₁ h₂ => ?_) fun p h₁ h₂ => ?_
    · rw [Int.natCast_zero, add_zero] at hrun
      rw [hrun, hm₂]
    · dsimp only [state] at h₁ h₂ ⊢
      exact exists_live (by omega) (by omega)
    · dsimp only [state] at h₁ h₂ ⊢
      exact holding_free hraw (by omega) (by omega)
  obtain ⟨m₃, hm₃⟩ : ∃ m₃, m₃ = (m₂.fill (old.length - source.length - k)
      (old.length - source.length) fun _ => .moved).fill (old.length - k) old.length
      fun p => m₂ (p - source.length) := ⟨_, rfl⟩
  have h₃ : Inserter.moveAssign selfMove source.length (state m₂ (old.length + source.length)) =
      .ok (state m₃ (old.length + source.length)) := by
    rw [hm₃]
    refine moveAssign_eq hn rfl rfl (fun p h₁ h₂ => ?_) fun p h₁ h₂ h₃ => ?_
    · dsimp only [state] at h₁ h₂ ⊢
      rw [hm₂, fill_out (by omega), fill_out (by omega)]
      exact exists_live (by omega) (by omega)
    · dsimp only [state] at h₁ h₂ h₃ ⊢
      rw [hm₂, fill_out (by omega), fill_in ⟨h₁, h₃⟩]
  have h₄ : copyAssign value (state m₃ (old.length + source.length)) =
      .ok (state (m₃.fill pos (pos + source.length) w) (old.length + source.length)) := by
    refine copyAssign_eq rfl (fun p h₁ h₂ => ?_) hnew
    dsimp only [state] at h₁ h₂ ⊢
    rw [hm₃, fill_out (by omega)]
    by_cases hlow : p < old.length - source.length
    · rw [fill_in ⟨by omega, hlow⟩]
      nofun
    · rw [fill_out (by omega), hm₂, fill_out (by omega), fill_in ⟨by omega, by omega⟩]
      nofun
  refine ⟨_, insertValues_of_loops (hsetup ▸ h₁) ?_ h₂ ?_ h₃ h₄, ?_⟩
  · dsimp only [state, ofData]
    omega
  · rfl
  · unfold toData
    rw [DataPointer.mk.injEq]
    refine ⟨?_, by dsimp only [state]⟩
    funext p
    dsimp only [state]
    by_cases hnewslot : pos ≤ p ∧ p < pos + source.length
    · rw [fill_in hnewslot, hw]
    rw [fill_out hnewslot, hm₃]
    by_cases hassigned : old.length - k ≤ p ∧ p < old.length
    · rw [fill_in hassigned, hm₂, fill_out (by omega), fill_out (by omega),
        holding_after hle (by omega) (by omega)]
    rw [fill_out hassigned, fill_out (by omega), hm₂]
    by_cases hmade : old.length ≤ p ∧ p < old.length + source.length
    · rw [fill_in hmade, holding_after hle (by omega) (by omega)]
    rw [fill_out hmade, fill_out (by omega)]
    by_cases hbefore : p < pos
    · rw [holding_before hle hbefore]
    · rw [holding_out (.inr (by omega)), holding_behind hle (by omega)]

theorem insertValues_none (value : ℤ → Exec T) (hpos : pos ≤ old.length) :
    ∃ s, (ofData ⟨holding old m, old.length⟩).insertValues selfMove pos value 0 = .ok s ∧
      s.toData = ⟨holding (old.take pos ++ (old.drop pos).map selfMove) m, old.length⟩ := by
  obtain ⟨k, hk⟩ := Nat.exists_eq_add_of_le hpos
  let state (m : Memory T) : Inserter T := ⟨m, old.length, 0, 0, -k, 0, old.length,
    old.length - 1, pos⟩
  have hsetup : (ofData ⟨holding old m, old.length⟩).setup pos 0 = state (holding old m) := by
    unfold setup ofData
    dsimp only [state]
    rw [if_neg (by omega), Inserter.mk.injEq]
    simp
    omega
  obtain ⟨w, hw⟩ : ∃ w, w = holding (old.take pos ++ ([] ++ (old.drop pos).map selfMove)) m :=
    ⟨_, rfl⟩
  have h₁ : copyConstruct value (state (holding old m)) = .ok (state (holding old m)) := rfl
  have h₂ : moveConstruct (state (holding old m)) = .ok (state (holding old m)) := rfl
  have h₃ : Inserter.moveAssign selfMove 0 (state (holding old m)) =
      .ok (state ((holding old m).fill (old.length - k) old.length w)) := by
    refine moveAssign_self rfl rfl fun p h₁ h₂ => ?_
    dsimp only [state] at h₁ h₂ ⊢
    obtain ⟨i, hi⟩ := eq_ofNat_of_zero_le (by omega : 0 ≤ p - pos)
    have hlen : ((old.drop pos).map selfMove).length = k := by
      simp
      omega
    obtain rfl : p = ((pos + i : ℕ) : ℤ) := by omega
    have hlt : pos + i < old.length := by omega
    have hq : ((pos + i : ℕ) : ℤ) = pos + ([] : List T).length + i := by
      simp
    refine ⟨old[pos + i], holding_in hlt, ?_⟩
    rw [hq, hw, holding_tail hpos (by omega), getElem_map, getElem_drop]
  have h₄ : copyAssign value (state ((holding old m).fill (old.length - k) old.length w)) =
      .ok (state ((holding old m).fill (old.length - k) old.length w)) := rfl
  refine ⟨_, insertValues_of_loops (hsetup ▸ h₁) ?_ h₂ ?_ h₃ h₄, ?_⟩
  · dsimp only [state, ofData]
    omega
  · dsimp only [state, ofData]
    omega
  · unfold toData
    rw [DataPointer.mk.injEq]
    refine ⟨?_, rfl⟩
    funext p
    dsimp only [state]
    rw [nil_append] at hw
    by_cases hassigned : old.length - k ≤ p ∧ p < old.length
    · rw [fill_in hassigned, hw]
    rw [fill_out hassigned]
    by_cases hbefore : p < pos
    · exact (@holding_before T old [] _ m p pos hpos hbefore).symm
    · rw [holding_out (.inr (by omega)), holding_out (.inr ?_)]
      simp
      omega

end Generic

/-- The elements after an insertion. Without new ones, those behind `pos` are moved to
themselves. -/
def inserted (selfMove : T → T) (old : List T) (pos : ℕ) (new : List T) : List T :=
  old.take pos ++ (new ++ if new.isEmpty then (old.drop pos).map selfMove else old.drop pos)

theorem inserted_id (old : List T) (pos : ℕ) (new : List T) :
    inserted id old pos new = old.take pos ++ new ++ old.drop pos := by
  unfold inserted
  rw [map_id, ite_self, append_assoc]

theorem inserted_of_ne_nil (selfMove : T → T) {old : List T} {pos : ℕ} {new : List T}
    (h : new ≠ []) : inserted selfMove old pos new = old.take pos ++ new ++ old.drop pos := by
  unfold inserted
  rw [if_neg (by simp [h]), append_assoc]

/-- The slots for `n` more elements are there, and no object lives in them. -/
def Free (m : Memory T) (size n : ℕ) : Prop :=
  ∀ p : ℤ, size ≤ p → p < size + n → m p = .unconstructed

theorem sourceAt_eq (source : List T) (i : ℕ) (h : i < source.length) :
    sourceAt source i = .ok source[i] := by
  unfold sourceAt
  rw [if_pos (by omega), toNat_natCast, getElem?_eq_getElem h]

section

variable (selfMove : T → T) {old new : List T} {m : Memory T} {pos : ℕ} (value : ℤ → Exec T)

theorem Generic.insertValues_eq (hpos : pos ≤ old.length) (hfree : Free m old.length new.length)
    (hvalue : ∀ (i : ℕ) (h : i < new.length), value i = .ok new[i]) :
    ∃ s, (Inserter.ofData ⟨holding old m, old.length⟩).insertValues selfMove pos value
      new.length = .ok s ∧
      s.toData = ⟨holding (inserted selfMove old pos new) m, old.length + new.length⟩ := by
  cases new with
  | nil =>
    obtain ⟨s, hrun, hs⟩ := insertValues_none selfMove (m := m) value hpos
    exact ⟨s, hrun, hs⟩
  | cons t new =>
    by_cases hlong : old.length < pos + (t :: new).length
    · obtain ⟨extra, hextra⟩ := Nat.exists_eq_add_of_lt hlong
      exact insertValues_long selfMove (old.length - pos) extra (by omega) (by omega) hfree hvalue
    · obtain ⟨k, hk⟩ := Nat.exists_eq_add_of_le (Nat.le_of_not_lt hlong)
      exact insertValues_short selfMove (k := k) (by omega) (Nat.succ_pos _) hfree hvalue

namespace Movable

theorem constructValues_eq {n : ℕ} {f : ℤ → Slot T} {where' : ℤ} {s : Inserter T}
    (hraw : ∀ p, where' ≤ p → p < where' + n → s.data.memory p = .unconstructed)
    (hvalue : ∀ i : ℕ, i < n → ∃ t, value i = .ok t ∧ f (where' + i) = .live t) :
    constructValues value where' n s = .ok { s with
      data := { s.data with memory := s.data.memory.fill where' (where' + n) f }
      displaceFrom := s.displaceFrom + n } := by
  refine forUp_eq (fun k : ℕ => { s with
      data := { s.data with memory := s.data.memory.fill where' (where' + k) f }
      displaceFrom := s.displaceFrom + k }) ?_ (zero_add _).symm fun k hk => ?_
  · rw [fill_empty (by omega)]
    simp
  · obtain ⟨t, ht, hf⟩ := hvalue k hk
    have hout : s.data.memory.fill where' (where' + k) f (where' + k) = .unconstructed := by
      rw [fill_out (by omega), hraw _ (by omega) (by omega)]
    dsimp only
    rw [zero_add, ht, ok_bind, construct_eq hout, ok_bind, ← hf,
      update_fill (by omega), pure_eq_ok, natCast_succ]
    simp only [add_assoc]

theorem displace_free (hpos : pos ≤ old.length) (hfree : Free m old.length new.length) {p : ℤ}
    (h₁ : pos ≤ p) (h₂ : p < pos + new.length) :
    (holding old m).memmove (pos + new.length) pos (old.length - pos) p =
      .unconstructed := by
  unfold memmove
  rw [if_neg (by omega)]
  split
  · rfl
  · rw [holding_out (.inr (by omega)), hfree p (by omega) (by omega)]

theorem constructValues_displace (hpos : pos ≤ old.length)
    (hfree : Free m old.length new.length)
    (hvalue : ∀ (i : ℕ) (h : i < new.length), value i = .ok new[i]) :
    ∃ s, constructValues value pos new.length
      (displace ⟨holding old m, old.length⟩ pos new.length) = .ok s ∧
      s.displaceFrom = s.displaceTo ∧
      s.toData = ⟨holding (inserted id old pos new) m, old.length + new.length⟩ := by
  rw [inserted_id, append_assoc]
  refine ⟨_, constructValues_eq value
    (f := holding (old.take pos ++ (new ++ old.drop pos)) m)
    (fun p h₁ h₂ => displace_free hpos hfree h₁ h₂)
    fun i hi => ⟨_, hvalue i hi, holding_source hpos hi⟩, rfl, ?_⟩
  unfold Inserter.toData displace
  rw [DataPointer.mk.injEq]
  refine ⟨?_, rfl⟩
  funext p
  dsimp only
  by_cases hnewslot : pos ≤ p ∧ p < pos + new.length
  · rw [fill_in hnewslot]
  rw [fill_out hnewslot]
  unfold memmove
  by_cases hmoved : pos + new.length ≤ p ∧ p < pos + new.length + (old.length - pos)
  · rw [if_pos hmoved, holding_after hpos hmoved.1 (by omega)]
    congr 1
    omega
  rw [if_neg hmoved, if_neg (by omega)]
  by_cases hbefore : p < pos
  · rw [holding_before hpos hbefore]
  · rw [holding_out (.inr (by omega)), holding_behind hpos (by omega)]

end Movable

theorem forUp_self {σ : Type} (start : ℤ) (body : ℤ → σ → Exec σ) (s : σ) :
    forUp start start body s = .ok s := by
  unfold forUp
  rw [if_pos le_rfl, sub_self]
  rfl

theorem forUp_one {σ : Type} (body : ℤ → σ → Exec σ) (s : σ) : forUp 0 1 body s = body 0 s := by
  unfold forUp
  rw [if_pos (by decide)]
  exact bind_pure (body 0 s)

theorem forDown_keeps {σ : Type} {P : σ → Prop} {start stop : ℤ} {body : ℤ → σ → Exec σ}
    (hbody : ∀ i s s', body i s = .ok s' → P s → P s') {s s' : σ}
    (hrun : forDown start stop body s = .ok s') (hs : P s) : P s' := by
  unfold forDown at hrun
  split at hrun
  · generalize List.range (start - stop).toNat = l at hrun
    induction l generalizing s with
    | nil =>
      obtain rfl := Except.ok.inj hrun
      exact hs
    | cons k l ih =>
      rw [foldlM_cons] at hrun
      obtain ⟨s₁, hfirst, hrest⟩ := bind_eq_ok hrun
      exact ih (hbody _ _ _ hfirst hs) hrest
  · cases hrun

theorem Generic.Inserter.moveAssign_plan {n : ℤ} {s s' : Inserter T}
    (h : s.moveAssign selfMove n = .ok s') :
    s'.where' = s.where' ∧ s'.sourceCopyAssign = s.sourceCopyAssign :=
  forDown_keeps (P := fun s' : Inserter T => s'.where' = s.where' ∧
    s'.sourceCopyAssign = s.sourceCopyAssign) (fun i s₁ s₂ hbody hs₁ => by
      obtain ⟨memory, -, hbody⟩ := bind_eq_ok hbody
      obtain rfl := Except.ok.inj hbody
      exact hs₁) h ⟨rfl, rfl⟩

theorem Generic.insertOne_of_insertValues {data : DataPointer T} {pos : ℤ} {t : T}
    (hpos : pos ≤ data.size) {s : Inserter T}
    (h : (Inserter.ofData data).insertValues selfMove pos (fun _ => .ok t) 1 = .ok s) :
    insertOne selfMove data pos t = .ok s.toData := by
  unfold Inserter.insertValues at h
  obtain ⟨s₁, h₁, h⟩ := bind_eq_ok h
  obtain ⟨-, -, h⟩ := bind_eq_ok h
  obtain ⟨s₂, h₂, h⟩ := bind_eq_ok h
  obtain ⟨-, -, h⟩ := bind_eq_ok h
  obtain ⟨s₃, h₃, h₄⟩ := bind_eq_ok h
  unfold Inserter.copyConstruct at h₁
  unfold Inserter.moveConstruct at h₂
  unfold insertOne
  rcases hpos.eq_or_lt with rfl | hlt
  · have hsetup : (Inserter.ofData data).setup data.size 1 =
        ⟨data.memory, data.size, 1, 1, 0, 0, data.size, data.size - 1, data.size⟩ := by
      unfold Inserter.setup Inserter.ofData
      dsimp only
      rw [sub_self, if_pos (by decide)]
      rfl
    rw [hsetup, forUp_one, ok_bind] at h₁
    obtain ⟨memory, hmemory, h₁⟩ := bind_eq_ok h₁
    dsimp only at hmemory
    rw [add_zero] at hmemory
    obtain rfl := Except.ok.inj h₁
    rw [forUp_self] at h₂
    obtain rfl := Except.ok.inj h₂
    obtain rfl := Except.ok.inj h₃
    obtain rfl := Except.ok.inj h₄
    dsimp only
    rw [hsetup]
    dsimp only
    rw [if_pos (by decide), qAssert_pos rfl, ok_bind, hmemory]
    rfl
  · have hsetup : (Inserter.ofData data).setup pos 1 = ⟨data.memory, data.size, 0, 1,
        1 - (data.size - pos), 1, data.size, data.size - 1, pos⟩ := by
      unfold Inserter.setup Inserter.ofData
      dsimp only
      rw [if_neg (by omega)]
    rw [hsetup, forUp_self] at h₁
    obtain rfl := Except.ok.inj h₁
    rw [forUp_one] at h₂
    obtain ⟨memory, hmemory, h₂⟩ := bind_eq_ok h₂
    dsimp only at hmemory
    rw [add_zero] at hmemory
    obtain rfl := Except.ok.inj h₂
    dsimp only at h₃
    have hwhere : s₃.where' = pos ∧ s₃.sourceCopyAssign = 1 := Inserter.moveAssign_plan selfMove h₃
    unfold Inserter.copyAssign at h₄
    rw [hwhere.2, forUp_one, ok_bind] at h₄
    obtain ⟨memory₄, hassign, h₄⟩ := bind_eq_ok h₄
    rw [add_zero] at hassign
    obtain rfl := Except.ok.inj h₄
    dsimp only
    rw [hsetup]
    dsimp only
    rw [if_neg (by decide), hmemory, ok_bind, h₃, ok_bind, hassign]
    rfl

/-! ## The three functions of each `Inserter` -/

theorem insert_eq (hpos : pos ≤ old.length) (hfree : Free m old.length new.length) :
    Generic.insert selfMove ⟨holding old m, old.length⟩ pos new new.length =
      .ok ⟨holding (inserted selfMove old pos new) m, old.length + new.length⟩ ∧
    Movable.insert ⟨holding old m, old.length⟩ pos new new.length =
      .ok ⟨holding (inserted id old pos new) m, old.length + new.length⟩ := by
  constructor
  · obtain ⟨s, hrun, hs⟩ := Generic.insertValues_eq selfMove (sourceAt new) hpos hfree
      (sourceAt_eq new)
    unfold Generic.insert
    rw [hrun, ok_bind, hs, pure_eq_ok]
  · obtain ⟨s, hrun, -, hs⟩ := Movable.constructValues_displace (sourceAt new) hpos hfree
      (sourceAt_eq new)
    unfold Movable.insert
    rw [hrun, ok_bind, hs, pure_eq_ok]

theorem insertCopies_eq (t : T) (n : ℕ) (hpos : pos ≤ old.length) (hfree : Free m old.length n) :
    Generic.insertCopies selfMove ⟨holding old m, old.length⟩ pos t n =
      .ok ⟨holding (inserted selfMove old pos (List.replicate n t)) m, old.length + n⟩ ∧
    Movable.insertCopies ⟨holding old m, old.length⟩ pos t n =
      .ok ⟨holding (inserted id old pos (List.replicate n t)) m, old.length + n⟩ := by
  have hvalue : ∀ (i : ℕ) (h : i < (List.replicate n t).length),
      (.ok t : Exec T) = .ok (List.replicate n t)[i] := fun i h => by
    rw [getElem_replicate]
  have hlen : (List.replicate n t).length = n := length_replicate
  have hfree' : Free m old.length (List.replicate n t).length := hlen.symm ▸ hfree
  constructor
  · obtain ⟨s, hrun, hs⟩ := Generic.insertValues_eq selfMove (fun _ => .ok t) hpos hfree' hvalue
    rw [hlen] at hrun hs
    unfold Generic.insertCopies
    rw [hrun, ok_bind, hs, pure_eq_ok]
  · obtain ⟨s, hrun, -, hs⟩ := Movable.constructValues_displace (fun _ => .ok t) hpos
      hfree' hvalue
    rw [hlen] at hrun hs
    unfold Movable.insertCopies
    rw [hrun, ok_bind, hs, pure_eq_ok]

theorem insertOne_eq (t : T) (hpos : pos ≤ old.length) (hfree : Free m old.length 1) :
    Generic.insertOne selfMove ⟨holding old m, old.length⟩ pos t =
      .ok ⟨holding (inserted selfMove old pos [t]) m, old.length + 1⟩ ∧
    Movable.insertOne ⟨holding old m, old.length⟩ pos t =
      .ok ⟨holding (inserted id old pos [t]) m, old.length + 1⟩ := by
  have hvalue : ∀ (i : ℕ) (h : i < [t].length), (.ok t : Exec T) = .ok [t][i] :=
    fun i h => by rw [getElem_singleton]
  constructor
  · obtain ⟨s, hrun, hs⟩ := Generic.insertValues_eq selfMove (fun _ => .ok t) hpos hfree hvalue
    rw [Generic.insertOne_of_insertValues selfMove (by dsimp only; omega) hrun, hs]
    rfl
  · obtain ⟨s, hrun, hto, hs⟩ := Movable.constructValues_displace (fun _ => .ok t) hpos
      hfree hvalue
    unfold Movable.insertOne
    rw [show (1 : ℤ) = ([t].length : ℕ) from rfl, hrun, ok_bind, qAssert_pos hto, ok_bind, hs,
      pure_eq_ok]

end

/-- Both `Inserter`s put new elements into place, with the elements around them and the other slots
as they were. If there are no new elements, `QGenericArrayOps` moves those behind `pos` to
themselves. -/
theorem inserters_spec (selfMove : T → T) {old : List T} (m : Memory T) {pos : ℕ}
    (hpos : pos ≤ old.length) :
    (∀ source : List T, Free m old.length source.length →
      Generic.insert selfMove ⟨Memory.holding old m, old.length⟩ pos source source.length =
        .ok ⟨Memory.holding (inserted selfMove old pos source) m, old.length + source.length⟩ ∧
      Movable.insert ⟨Memory.holding old m, old.length⟩ pos source source.length =
        .ok ⟨Memory.holding (old.take pos ++ source ++ old.drop pos) m,
          old.length + source.length⟩) ∧
    (∀ (t : T) (n : ℕ), Free m old.length n →
      Generic.insertCopies selfMove ⟨Memory.holding old m, old.length⟩ pos t n =
        .ok ⟨Memory.holding (inserted selfMove old pos (List.replicate n t)) m, old.length + n⟩ ∧
      Movable.insertCopies ⟨Memory.holding old m, old.length⟩ pos t n =
        .ok ⟨Memory.holding (old.take pos ++ List.replicate n t ++ old.drop pos) m,
          old.length + n⟩) ∧
    (∀ t : T, Free m old.length 1 →
      Generic.insertOne selfMove ⟨Memory.holding old m, old.length⟩ pos t =
        .ok ⟨Memory.holding (old.take pos ++ [t] ++ old.drop pos) m, old.length + 1⟩ ∧
      Movable.insertOne ⟨Memory.holding old m, old.length⟩ pos t =
        .ok ⟨Memory.holding (old.take pos ++ [t] ++ old.drop pos) m, old.length + 1⟩) ∧
    (∀ new : List T, new ≠ [] →
      inserted selfMove old pos new = old.take pos ++ new ++ old.drop pos) := by
  refine ⟨fun source hfree => ?_, fun t n hfree => ?_, fun t hfree => ?_, fun new hnew => ?_⟩
  · rw [← inserted_id]
    exact insert_eq selfMove hpos hfree
  · rw [← inserted_id]
    exact insertCopies_eq selfMove t n hpos hfree
  · have h := insertOne_eq selfMove t hpos hfree
    rw [inserted_of_ne_nil selfMove (cons_ne_nil t []), inserted_id] at h
    exact h
  · exact inserted_of_ne_nil selfMove hnew

/-- `[7]` put in front of the second element. -/
theorem inserters_spec_pair :
    Generic.insert id ⟨Memory.holding [1, 2] fun _ => .unconstructed, 2⟩ 1 [7] 1 =
      .ok ⟨Memory.holding [1, 7, 2] fun _ => .unconstructed, 3⟩ ∧
    Movable.insert ⟨Memory.holding [1, 2] fun _ => .unconstructed, 2⟩ 1 [7] 1 =
      .ok ⟨Memory.holding [1, 7, 2] fun _ => .unconstructed, 3⟩ :=
  (@inserters_spec ℕ id [1, 2] (fun _ => .unconstructed) 1 (by decide)).1 [7] fun _ _ _ => rfl

/-- No elements put in front of one whose self-move-assignment clears it. -/
theorem insert_none_clears :
    (Generic.insert (fun _ => []) ⟨Memory.holding [[5]] fun _ => .unconstructed, 1⟩ 0 [] 0).map
      (fun data => data.memory 0) = .ok (Slot.live []) ∧
    Memory.holding [[5]] (fun _ => .unconstructed) 0 = Slot.live [5] :=
  ⟨rfl, rfl⟩

end QtBase.ArrayOps
