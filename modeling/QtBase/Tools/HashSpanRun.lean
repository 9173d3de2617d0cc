import QtBase.Tools.HashSpan

/-! Any calls of the members of spans that keep what the members assert. -/
namespace QtBase.QHashPrivate.Span

open Function

variable {N : Type}

/-- `moveFromSpan(*this, fromIndex, dst)` -/
def moveFromItself (s : Span N) (fromIndex dst : ℕ) : Exec (Span N) := do
  qAssert (dst < NEntries)
  qAssert (s.offsets dst = UnusedEntry)
  qAssert (fromIndex < NEntries)
  qAssert (s.offsets fromIndex ≠ UnusedEntry)
  let s ← s.reserve
  qAssert (s.nextFree < s.allocated)
  let toEntry := s.nextFree
  let next ← (s.entries toEntry).getNextFree
  let s := { s with offsets := Function.update s.offsets dst toEntry, nextFree := next }
  let fromOffset := s.offsets fromIndex
  let n ← (s.entries fromOffset).getNode
  let entries := Function.update s.entries toEntry (.node n)
  pure { s with
    offsets := Function.update s.offsets fromIndex UnusedEntry
    entries := Function.update entries fromOffset (.free s.nextFree)
    nextFree := uchar fromOffset }

/-- A call of a member of span `k`. -/
inductive Call (N : Type)
  /-- The caller constructs `n` in the entry it is given. -/
  | insert (k i : ℕ) (n : N)
  | erase (k bucket : ℕ)
  | moveLocal (k src dst : ℕ)
  | moveFromSpan (k fromSpan fromIndex dst : ℕ)

namespace Call

def run (p : ℕ → Span N) : Call N → Exec (ℕ → Span N)
  | insert k i n => do
    let s ← (p k).insert i
    pure (Function.update p k (s.construct i n))
  | erase k bucket => do
    let s ← (p k).erase bucket
    pure (Function.update p k s)
  | moveLocal k src dst => do
    let s ← (p k).moveLocal src dst
    pure (Function.update p k s)
  | moveFromSpan k fromSpan fromIndex dst =>
    if k = fromSpan then do
      let s ← (p k).moveFromItself fromIndex dst
      pure (Function.update p k s)
    else do
      let (s, u) ← (p k).moveFromSpan (p fromSpan) fromIndex dst
      pure (Function.update (Function.update p k s) fromSpan u)

/-- What the member asserts about its arguments, which are slots of the span. -/
def Asserted (p : ℕ → Span N) : Call N → Prop
  | insert k i _ => i < NEntries ∧ (p k).offsets i = UnusedEntry
  | erase k bucket => bucket < NEntries ∧ (p k).offsets bucket ≠ UnusedEntry
  | moveLocal k src dst => src < NEntries ∧ dst < NEntries ∧
      (p k).offsets src ≠ UnusedEntry ∧ (p k).offsets dst = UnusedEntry
  | moveFromSpan k fromSpan fromIndex dst => dst < NEntries ∧ (p k).offsets dst = UnusedEntry ∧
      fromIndex < NEntries ∧ (p fromSpan).offsets fromIndex ≠ UnusedEntry

/-- The span in which the call takes a free entry. -/
def fills : Call N → Option ℕ
  | insert k _ _ | moveFromSpan k _ _ _ => some k
  | _ => none

end Call

/-- The states of any number of spans, all new at first, after calls that keep the assertions. -/
inductive Reached : (ℕ → Span N) → Prop
  | new : Reached fun _ => Span.new
  | call {p p' : ℕ → Span N} (c : Call N) :
      Reached p → c.Asserted p → c.run p = .ok p' → Reached p'

/-- The entries that slots refer to. -/
def Referenced (s : Span N) (entry : ℕ) : Prop :=
  ∃ i < NEntries, s.offsets i ≠ UnusedEntry ∧ s.offsets i = entry

/-- The free list that starts at `nextFree` ends, with the value `allocated`, and has the entries
below `allocated` to which no slot refers. -/
structure Partitioned (s : Span N) : Prop where
  free : ∃ fl, FreeChain s.entries s.allocated s.nextFree fl ∧ fl.Nodup ∧
    (∀ entry ∈ fl, ¬ s.Referenced entry) ∧
    ∀ entry, entry ∈ fl ∨ s.Referenced entry ↔ entry < s.allocated
  allocated_le : s.allocated ≤ 128
  referenced_ne : ∀ entry, s.Referenced entry → entry ≠ UnusedEntry

variable {s u : Span N} {i dst bucket src : ℕ}

theorem Inv.allocated_le (h : s.Inv) : s.allocated ≤ 128 := by
  rcases h.sizes with hs | hs | hs | hs | hs | hs <;> omega

theorem Inv.partition (h : s.Inv) : s.Partitioned := by
  obtain ⟨fl, hc, hnd, hm⟩ := h.free
  refine ⟨⟨fl, hc, hnd, ?_, fun entry => ⟨?_, fun hlt => ?_⟩⟩, h.allocated_le, ?_⟩
  · rintro entry hmem ⟨i, hi, -, heq⟩
    exact ((hm entry).mp hmem).2 i hi heq
  · rintro (hmem | ⟨i, hi, hu, rfl⟩)
    · exact ((hm entry).mp hmem).1
    · exact (h.used i hi hu).1
  · by_cases href : ∀ i < NEntries, s.offsets i ≠ entry
    · exact Or.inl ((hm entry).mpr ⟨hlt, href⟩)
    · right
      push Not at href
      obtain ⟨i, hi, rfl⟩ := href
      have hle := h.allocated_le
      exact ⟨i, hi, fun hu => by rw [hu, UnusedEntry] at hlt; omega, rfl⟩
  · rintro entry ⟨i, -, hu, rfl⟩
    exact hu

theorem Inv.exists_cell (h : s.Inv) (hi : i < NEntries) (hu : s.offsets i ≠ UnusedEntry) :
    ∃ n, s.cell i = some n := by
  obtain ⟨-, n, hn⟩ := h.used i hi hu
  exact ⟨n, (h.cell_eq_some hi).mpr ⟨hu, hn⟩⟩

theorem Inv.moveFromItself (h : s.Inv) (hi : i < NEntries) (hdst : dst < NEntries)
    (hui : s.offsets i ≠ UnusedEntry) (hud : s.offsets dst = UnusedEntry) :
    ∃ s', s.moveFromItself i dst = .ok s' ∧ s'.Inv := by
  obtain ⟨s₁, hs₁, hinv, hoff, -, hroom⟩ := h.reserve hdst hud
  obtain ⟨next, hnext⟩ := exists_next hinv hroom
  have hne : i ≠ dst := by
    rintro rfl
    exact hui hud
  have hui₁ : s₁.offsets i ≠ UnusedEntry := by rwa [hoff]
  obtain ⟨-, n, hn⟩ := hinv.used i hi hui₁
  have hfill := (hinv.fill hdst (by rw [hoff, hud]) hroom hnext n).1
  have hkept : (s₁.fill dst next n).offsets i = s₁.offsets i := update_of_ne hne ..
  have huc : uchar (s₁.offsets i) = s₁.offsets i :=
    Nat.mod_eq_of_lt ((hinv.offset_lt hi hui₁).trans (by decide))
  refine ⟨_, ?_, (hfill.release hi (by rwa [hkept])).1⟩
  simp only [Span.moveFromItself, qAssert_pos hdst, qAssert_pos hud, qAssert_pos hi,
    qAssert_pos hui, ok_bind, hs₁, qAssert_pos hroom, hnext, Entry.getNextFree,
    update_of_ne hne, hn, Entry.getNode, pure_eq_ok, huc]
  rw [Span.release, hkept]
  rfl

variable {p : ℕ → Span N}

theorem inv_update (hp : ∀ k, (p k).Inv) (k : ℕ) (hs : s.Inv) (l : ℕ) :
    (update p k s l).Inv := by
  rw [update_apply]
  split
  · exact hs
  · exact hp l

/-- A call that keeps the assertions returns, and leaves every span in order. -/
theorem Call.run_spec (hp : ∀ k, (p k).Inv) (c : Call N) (hc : c.Asserted p) :
    ∃ p', c.run p = .ok p' ∧ ∀ k, (p' k).Inv := by
  cases c with
  | insert k i n =>
    obtain ⟨hi, hu⟩ := hc
    obtain ⟨s, hs, hinv⟩ := (hp k).insert hi (((hp k).cell_eq_none hi).mpr hu)
    exact ⟨_, by simp only [run, hs, ok_bind, pure_eq_ok], inv_update hp k (hinv n).1⟩
  | erase k bucket =>
    obtain ⟨hb, hu⟩ := hc
    obtain ⟨n, hn⟩ := (hp k).exists_cell hb hu
    obtain ⟨s, hs, hinv, -⟩ := (hp k).erase hb hn
    exact ⟨_, by simp only [run, hs, ok_bind, pure_eq_ok], inv_update hp k hinv⟩
  | moveLocal k src dst =>
    obtain ⟨hsrc, hdst, hus, hud⟩ := hc
    obtain ⟨n, hn⟩ := (hp k).exists_cell hsrc hus
    obtain ⟨s, hs, hinv, -⟩ :=
      (hp k).moveLocal hsrc hdst hn (((hp k).cell_eq_none hdst).mpr hud)
    exact ⟨_, by simp only [run, hs, ok_bind, pure_eq_ok], inv_update hp k hinv⟩
  | moveFromSpan k fromSpan fromIndex dst =>
    obtain ⟨hdst, hud, hi, hui⟩ := hc
    by_cases hk : k = fromSpan
    · subst hk
      obtain ⟨s, hs, hinv⟩ := (hp k).moveFromItself hi hdst hui hud
      exact ⟨_, by simp only [run, if_true, hs, ok_bind, pure_eq_ok], inv_update hp k hinv⟩
    · obtain ⟨n, hn⟩ := (hp fromSpan).exists_cell hi hui
      obtain ⟨s, u, hs, hinv, hinv', -, -⟩ := (hp k).moveFromSpan (hp fromSpan) hi hdst hn
        (((hp k).cell_eq_none hdst).mpr hud)
      exact ⟨_, by simp only [run, if_neg hk, hs, ok_bind, pure_eq_ok],
        inv_update (inv_update hp k hinv) fromSpan hinv'⟩

theorem Reached.inv (h : Reached p) (k : ℕ) : (p k).Inv := by
  induction h generalizing k with
  | new => exact inv_new
  | call c _ hc hrun ih =>
    obtain ⟨p', hp', hinv⟩ := Call.run_spec ih c hc
    rw [hrun, Except.ok.injEq] at hp'
    exact hp' ▸ hinv k

theorem Call.fills_unused {c : Call N} (hc : c.Asserted p) {k : ℕ}
    (hk : c.fills = some k) : ∃ i < NEntries, (p k).offsets i = UnusedEntry := by
  cases c with
  | insert l i n =>
    obtain rfl : l = k := Option.some.inj hk
    exact ⟨i, hc⟩
  | moveFromSpan l fromSpan fromIndex dst =>
    obtain rfl : l = k := Option.some.inj hk
    exact ⟨dst, hc.1, hc.2.1⟩
  | erase => cases hk
  | moveLocal => cases hk

/-- However the spans have come about, each is partitioned into referenced and free entries; a
further call that keeps the assertions returns, and never has a span of 128 entries grow. -/
theorem Reached.partitioned {p : ℕ → Span N} (h : Reached p) :
    (∀ k, (p k).Partitioned) ∧ ∀ c : Call N, c.Asserted p →
      (∃ p', c.run p = .ok p') ∧
      ∀ k, c.fills = some k → (p k).nextFree = (p k).allocated → (p k).allocated < 128 := by
  refine ⟨fun k => (h.inv k).partition, fun c hc => ⟨?_, fun k hk hfull => ?_⟩⟩
  · exact (Call.run_spec h.inv c hc).imp fun _ hp' => hp'.1
  · obtain ⟨i, hi, hu⟩ := Call.fills_unused hc hk
    exact (h.inv k).allocated_lt hfull hi hu

theorem Reached.partitioned_insert : ∃ p : ℕ → Span ℕ,
    (Call.insert 0 5 7).run (fun _ => Span.new) = .ok p ∧ (∀ k, (p k).Partitioned) := by
  have hc : (Call.insert 0 5 7).Asserted fun _ => (Span.new : Span ℕ) := ⟨by decide, rfl⟩
  obtain ⟨⟨p, hp⟩, -⟩ := (Reached.partitioned Reached.new).2 _ hc
  exact ⟨p, hp, (Reached.partitioned (Reached.new.call _ hc hp)).1⟩

end QtBase.QHashPrivate.Span
