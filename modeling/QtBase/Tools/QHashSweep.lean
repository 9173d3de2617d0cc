import QtBase.Tools.QHashRun
import QtBase.Lib.ProbingSweep

/-! Iterating a `QHash` while erasing (`QtPrivate::associative_erase_if`): which elements the
predicate is shown, and when each is shown exactly once. -/
namespace QtBase.QHash

open QHashPrivate LinearProbing Option

variable {K V : Type} [DecidableEq K]

/-- The node that an iterator of the hash refers to. -/
def nodeAt (h : QHash K V) (it : ℕ) : Exec (Node K V) := match h.d with
  | none => .error .undefined
  | some l => l.data.node (Bucket.ofIndex it)

/-- `++it` -/
def next (h : QHash K V) (it : ℕ) : Exec (Option ℕ) := match h.d with
  | none => .error .undefined
  | some l => l.data.increment l.data.numBuckets it

section EraseIf

variable (calculateHash : K → ℕ → ℕ) (globalSeed : ℕ) (pred : Node K V → Bool)

/-- The loop of `associative_erase_if`. Besides `result` it returns the nodes that `pred` is
called with. -/
def eraseIfFrom : ℕ → QHash K V → Option ℕ → ℕ → Exec (QHash K V × ℕ × List (Node K V))
  | 0, _, _, _ => .error .diverge
  | _ + 1, h, none, result => pure (h, result, [])
  | k + 1, h, some it, result => do
    let n ← h.nodeAt it
    if pred n then do
      let (h, it) ← h.erase calculateHash globalSeed (some it)
      let (h, result, met) ← eraseIfFrom k h it (result + 1)
      pure (h, result, n :: met)
    else do
      let it ← h.next it
      let (h, result, met) ← eraseIfFrom k h it result
      pure (h, result, n :: met)

/-- `removeIf`; every round erases a node or goes to a later bucket. -/
def eraseIf (h : QHash K V) : Exec (QHash K V × ℕ × List (Node K V)) := do
  let (h, it) ← h.begin calculateHash globalSeed
  eraseIfFrom calculateHash globalSeed pred (h.size + 2 * h.capacity + 1) h it 0

end EraseIf

variable {calculateHash : K → ℕ → ℕ} {globalSeed : ℕ} {pred : Node K V → Bool} {d : Data K V}
  {m : Finmap fun _ : K => V}

omit [DecidableEq K] in
theorem table_of_inv (h : d.Inv calculateHash) :
    Table d.numBuckets (d.home calculateHash) Node.key d.cell :=
  ⟨h.probed, h.distinct, h.exists_empty⟩

/-- Where `erase` leaves the iterator: at the same bucket, unless that is empty now or the last. -/
theorem erase_own (hm : d.Models calculateHash m) (globalSeed : ℕ) {b : ℕ} (hb : b < d.numBuckets)
    {n : Node K V} (hc : d.cell b = some n) :
    ∃ d' hole, (own d).erase calculateHash globalSeed (some b) = .ok (own d',
        nextOccupied d.numBuckets d'.cell (if b + 1 = d.numBuckets then d.numBuckets else b)) ∧
      d'.Models calculateHash (m.erase n.key) ∧ d'.numBuckets = d.numBuckets ∧ d'.seed = d.seed ∧
      backshift d.numBuckets (d.home calculateHash) d.numBuckets (Function.update d.cell b none) b
        (succ d.numBuckets b) = some (d'.cell, hole) := by
  obtain ⟨d', hole, herase, hm', hnb, hsd, hshift⟩ := hm.erase hb hc
  refine ⟨d', hole, ?_, hm', hnb, hsd, hshift⟩
  have hdet : (own d).detach calculateHash globalSeed = .ok d := rfl
  rw [← hnb]
  simp only [erase, hdet, ok_bind, herase]
  rcases hm'.resume (hnb ▸ hb) with ⟨hstop, hinc⟩ | ⟨hstay, hnext⟩
  · simp [hstop, hinc]
  · simp [hstay, hnext]

theorem eraseIfFrom_eq (globalSeed k : ℕ) (hm : d.Models calculateHash m) {b : ℕ} {met : List (Node K V)}
    {t' : ℕ → Option (Node K V)}
    (hrun : sweep d.numBuckets (d.home calculateHash) pred k d.cell b = some (met, t')) (result : ℕ) :
    ∃ d' m' result', eraseIfFrom calculateHash globalSeed pred k (own d)
        (nextOccupied d.numBuckets d.cell b) result = .ok (own d', result', met) ∧
      d'.Models calculateHash m' ∧ d'.numBuckets = d.numBuckets ∧ d'.cell = t' ∧
      result' + d'.size = result + d.size := by
  induction k generalizing d m b met result with
  | zero => simp [sweep] at hrun
  | succ k ih =>
    rw [sweep] at hrun
    cases hnext : nextOccupied d.numBuckets d.cell b with
    | none =>
      simp only [hnext, some.injEq, Prod.mk.injEq] at hrun
      obtain ⟨rfl, rfl⟩ := hrun
      exact ⟨d, m, result, rfl, hm, rfl, rfl, rfl⟩
    | some c =>
      obtain ⟨-, hcn, ⟨n, hc⟩, -⟩ := nextOccupied_eq_some.1 hnext
      have hnode : (own d).nodeAt c = .ok n := hm.node_eq hcn hc
      simp only [hnext, hc] at hrun
      simp only [eraseIfFrom, hnode, ok_bind]
      cases hpred : pred n with
      | true =>
        obtain ⟨d₁, hole, herase, hm₁, hnb, hsd, hshift⟩ := erase_own hm globalSeed hcn hc
        have hhome : d₁.home calculateHash = d.home calculateHash := Data.home_congr hnb hsd
        simp only [hpred, if_true, hshift, bind_eq_bind, bind_some,
          bind_eq_some_iff] at hrun
        obtain ⟨⟨met₁, t₁⟩, hrun₁, heq⟩ := hrun
        simp only [pure_def, some.injEq, Prod.mk.injEq] at heq
        obtain ⟨rfl, rfl⟩ := heq
        rw [← hnb, ← hhome] at hrun₁
        obtain ⟨d', m', result', hloop, hm', hnb', hcell', hres⟩ := ih hm₁ hrun₁ (result + 1)
        rw [hnb] at hloop
        have hsize : d₁.size + 1 = d.size := by
          rw [hm₁.size_eq_card, hm.size_eq_card, Finmap.keys_erase, Finset.card_erase_add_one]
          exact Finmap.mem_keys.mpr (Finmap.mem_of_lookup_eq_some (hm.lookup_of_cell hcn hc))
        refine ⟨d', m', result', ?_, hm', hnb'.trans hnb, hcell', by omega⟩
        simp only [if_true, herase, ok_bind, hloop, pure_eq_ok]
      | false =>
        simp only [hpred, Bool.false_eq_true, if_false, bind_eq_bind,
          bind_eq_some_iff] at hrun
        obtain ⟨⟨met₁, t₁⟩, hrun₁, heq⟩ := hrun
        simp only [pure_def, some.injEq, Prod.mk.injEq] at heq
        obtain ⟨rfl, rfl⟩ := heq
        obtain ⟨d', m', result', hloop, hm', hnb', hcell', hres⟩ := ih hm hrun₁ result
        have hinc : (own d).next c = .ok (nextOccupied d.numBuckets d.cell (c + 1)) :=
          hm.increment_eq d.numBuckets hcn (by omega)
        refine ⟨d', m', result', ?_, hm', hnb', hcell', hres⟩
        simp only [Bool.false_eq_true, if_false, hinc, ok_bind, hloop, pure_eq_ok]

/-- Every marked node, except in the last bucket, has a barrier behind it: a bucket border that
no probe walk of a node stored behind it, or of an unmarked node wrapped to the front, passes. -/
def Fenced (calculateHash : K → ℕ → ℕ) (pred : Node K V → Bool) (d : Data K V) : Prop :=
  ∀ b, b + 1 < d.numBuckets → ∀ n, d.cell b = some n → pred n = true →
    ∃ c, b < c ∧ c ≤ d.numBuckets ∧ Barrier d.numBuckets (d.home calculateHash) pred d.cell c

omit [DecidableEq K] in
theorem Fenced.congr {d' : Data K V} (hsame : Data.SameTable d d') (h : Fenced calculateHash pred d) :
    Fenced calculateHash pred d' := by
  obtain ⟨hnb, hsd, -, hcell⟩ := hsame
  intro b hb n hn hpred
  rw [hnb] at hb
  rw [hcell b (by omega)] at hn
  obtain ⟨c, hbc, hcn, hbar⟩ := h b hb n hn hpred
  refine ⟨c, hbc, by rwa [hnb], fun p hp n' hn' hcase => ?_⟩
  rw [hnb] at hp
  rw [hcell p hp] at hn'
  rw [Data.home_congr hnb hsd] at hcase ⊢
  exact hbar p hp n' hn' hcase

/-- The nodes met are the entries of the map, each once. -/
def ExactlyOnce (met : List (Node K V)) (m : Finmap fun _ : K => V) : Prop :=
  met.Nodup ∧ ∀ n, n ∈ met ↔ m.lookup n.key = some n.value

theorem ExactlyOnce.nodup_keys {met : List (Node K V)} (h : ExactlyOnce met m) : (met.map Node.key).Nodup := by
  refine h.1.map_on fun n hn n' hn' hk => ?_
  have hv := (h.2 n).mp hn
  rw [hk, (h.2 n').mp hn', some.injEq] at hv
  obtain ⟨key, value⟩ := n
  obtain ⟨key', value'⟩ := n'
  simp only at hk hv
  rw [hk, hv]

theorem eraseIfFrom_begin (hm : d.Models calculateHash m) (globalSeed : ℕ) (pred : Node K V → Bool) :
    ∃ d' m' result met, eraseIfFrom calculateHash globalSeed pred
        ((own d).size + 2 * (own d).capacity + 1) (own d)
        (nextOccupied d.numBuckets d.cell 0) 0 = .ok (own d', result, met) ∧
      d'.Models calculateHash m' ∧ result + d'.size = d.size ∧
      (∀ key v, m'.lookup key = some v ↔ m.lookup key = some v ∧ pred ⟨key, v⟩ = false) ∧
      (ExactlyOnce met m ↔ Fenced calculateHash pred d) := by
  obtain ⟨half, -, heven⟩ := hm.exists_mul
  have hfuel : (occupied d.numBuckets d.cell).card + d.numBuckets <
      (own d).size + 2 * (own d).capacity + 1 := by
    have hcap : (own d).capacity = d.numBuckets >>> 1 := rfl
    have hsize : (own d).size = d.size := rfl
    rw [hm.size_eq, hcap, hsize, Nat.shiftRight_eq_div_pow]
    omega
  obtain ⟨met, t', hrun, -, hholds, hmem, hnodup⟩ :=
    sweep_exactly_once (M := pred) (table_of_inv hm.toInv) hfuel
  obtain ⟨d', m', result, hloop, hm', hnb, hcell, hres⟩ :=
    eraseIfFrom_eq globalSeed _ hm hrun 0
  refine ⟨d', m', result, met, hloop, hm', by omega, fun key v => ?_, ?_⟩
  · have h₁ := hm'.lookup ⟨key, v⟩
    rw [hnb, hcell, hholds, hm.lookup] at h₁
    exact h₁.symm
  · rw [ExactlyOnce, hnodup]
    exact and_iff_left fun n => (hmem n).trans (hm.lookup n)

/-- Erasing while iterating always ends and removes exactly the marked elements. It shows every
element to the predicate exactly once if and only if the table is fenced. -/
theorem Models.eraseIf {h : QHash K V} (hm : h.Models calculateHash m) (globalSeed : ℕ)
    (pred : Node K V → Bool) :
    ∃ h' m' result met, h.eraseIf calculateHash globalSeed pred = .ok (h', result, met) ∧
      h'.Models calculateHash m' ∧ result + m'.keys.card = m.keys.card ∧
      (∀ key v, m'.lookup key = some v ↔ m.lookup key = some v ∧ pred ⟨key, v⟩ = false) ∧
      (ExactlyOnce met m ↔ ∀ l, h.d = some l → Fenced calculateHash pred l.data) := by
  obtain ⟨d, hdet, hmd, hsame⟩ := hm.detach globalSeed
  obtain ⟨d', m', result, met, hloop, hm', hres, hlookup, honce⟩ :=
    eraseIfFrom_begin hmd globalSeed pred
  refine ⟨QHash.own d', m', result, met, ?_, hm', ?_, hlookup, honce.trans ?_⟩
  · simp only [QHash.eraseIf, QHash.begin, hdet, hmd.begin_eq, ok_bind, pure_eq_ok]
    exact hloop
  · rwa [← hm'.size_eq_card, ← hmd.size_eq_card]
  · cases hd : h.d with
    | none =>
      refine iff_of_true (fun b hb n hn _ => ?_) (by simp)
      have hv := hmd.lookup_of_cell (by omega) hn
      rw [hm.eq_empty hd, Finmap.lookup_empty] at hv
      cases hv
    | some l =>
      have hs := hsame l hd
      constructor
      · intro hf l' hl'
        cases hl'
        exact hf.congr hs.symm
      · exact fun hf => (hf l rfl).congr hs

section Runs

variable [Inhabited V] {ι : Type} [Fintype ι] [DecidableEq ι] {w : World ι K V}
  {maps : ι → Finmap fun _ : K => V}

/-- Of every reachable hash: the loop that erases the marked elements shows each element
exactly once if and only if each marked one, save in the last bucket, has a barrier behind it. -/
theorem eraseIf_exactly_once_iff (hrun : Run calculateHash w maps) (i : ι) (globalSeed : ℕ)
    (pred : Node K V → Bool) : ∃ h' result met,
      (w.hash i).eraseIf calculateHash globalSeed pred = .ok (h', result, met) ∧
      (ExactlyOnce met (maps i) ↔
        ∀ l, (w.hash i).d = some l → Fenced calculateHash pred l.data) := by
  obtain ⟨h', -, result, met, hloop, -, -, -, honce⟩ := (hrun.models i).eraseIf globalSeed pred
  exact ⟨h', result, met, hloop, honce⟩

/-- Keys 0 and 2 have bucket 126 as their home and key 1 has 127, so key 2 has wrapped to
bucket 0. -/
def lateHash (key _ : ℕ) : ℕ := if key = 1 then 127 else 126

theorem eraseIf_exactly_once_iff_wrapped : ∃ (w : World (Fin 1) ℕ ℕ)
    (maps : Fin 1 → Finmap fun _ : ℕ => ℕ) (h' : QHash ℕ ℕ) (result : ℕ) (met : List (Node ℕ ℕ)),
    Run lateHash w maps ∧
      (w.hash 0).eraseIf lateHash 0 (fun n => n.key == 0) = .ok (h', result, met) ∧
      (ExactlyOnce met (maps 0) ↔
        ∀ l, (w.hash 0).d = some l → Fenced lateHash (fun n => n.key == 0) l.data) := by
  have heval : (World.insertAll lateHash 0 (Cow.Store.empty : World (Fin 1) ℕ ℕ)
      [(0, 0), (1, 0), (2, 0)]).isOk = true := by decide +kernel
  cases hw : World.insertAll lateHash 0 (Cow.Store.empty : World (Fin 1) ℕ ℕ)
      [(0, 0), (1, 0), (2, 0)] with
  | error e => simp [hw, Except.isOk, Except.toBool] at heval
  | ok w =>
    obtain ⟨maps, hrun⟩ := Run.start.insertAll 0 _ hw
    obtain ⟨h', result, met, hloop, honce⟩ :=
      eraseIf_exactly_once_iff hrun 0 0 fun n => n.key == 0
    exact ⟨w, maps, h', result, met, hrun, hloop, honce⟩

/-- Erasing key 0 pulls key 2 back from bucket 0, where it has been met, to bucket 126. -/
theorem eraseIf_twice : ∃ (w : World (Fin 1) ℕ ℕ) (maps : Fin 1 → Finmap fun _ : ℕ => ℕ)
    (h' : QHash ℕ ℕ) (result : ℕ) (met : List (Node ℕ ℕ)), Run lateHash w maps ∧
      (w.hash 0).eraseIf lateHash 0 (fun n => n.key == 0) = .ok (h', result, met) ∧
      met.map Node.key = [2, 0, 2, 1] ∧ ¬ ExactlyOnce met (maps 0) := by
  have heval : (World.insertAll lateHash 0 (Cow.Store.empty : World (Fin 1) ℕ ℕ)
      [(0, 0), (1, 0), (2, 0)] >>= fun w =>
        (w.hash 0).eraseIf lateHash 0 (fun n => n.key == 0) >>= fun r =>
          pure (r.2.2.map Node.key)) = .ok [2, 0, 2, 1] := by
    decide +kernel
  obtain ⟨w, hw, heval⟩ := bind_eq_ok heval
  obtain ⟨⟨h', result, met⟩, hmet, heval⟩ := bind_eq_ok heval
  simp only [pure_eq_ok, Except.ok.injEq] at heval
  obtain ⟨maps, hrun⟩ := Run.start.insertAll 0 _ hw
  refine ⟨w, maps, h', result, met, hrun, hmet, heval, fun honce => ?_⟩
  have hnd := honce.nodup_keys
  rw [heval] at hnd
  exact absurd hnd (by decide)

end Runs

end QtBase.QHash
