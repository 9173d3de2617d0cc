import QtBase.Tools.QMultiHashRun

/-! `operator==` of `QMultiHash`. It compares the sizes and the numbers of keys, and looks every
value of the right-hand side up in the chain of its key on the left-hand side. -/
namespace QtBase.QMultiHash

open QHashPrivate LinearProbing PairLog List

variable {K V : Type} [DecidableEq K] [DecidableEq V] (calculateHash : K → ℕ → ℕ)

/-- The loop over the nodes of the right-hand side, from `it` on. -/
def chainsContained (d other : Data K (List V)) : ℕ → Option ℕ → Exec Bool
  | 0, _ => .error .diverge
  | _ + 1, none => pure true
  | k + 1, some it => do
    let node ← other.node (Bucket.ofIndex it)
    let n ← d.findNode calculateHash node.key
    match n with
    | none => pure false
    | some n =>
      if node.value.all fun e => n.value.any fun oe => oe == e then do
        let it ← other.increment other.numBuckets it
        chainsContained d other k it
      else pure false

/-- `operator==`; `sameTable` is `d == other.d`. -/
def operatorEq (h other : QMultiHash K V) (sameTable : Bool) : Exec Bool :=
  if sameTable then pure true
  else if h.m_size ≠ other.m_size then pure false
  else if h.m_size = 0 then pure true
  else match h.d, other.d with
    | some l, some ol =>
      if l.data.size ≠ ol.data.size then pure false
      else do
        let it ← ol.data.begin
        chainsContained calculateHash l.data ol.data (ol.data.numBuckets + 1) it
    | _, _ => .error .undefined

variable {calculateHash} {d other : Data K (List V)} {log olog : List (K × V)}

omit [DecidableEq V] in
theorem Chains.findNode (hch : Chains calculateHash d log) (key : K) :
    d.findNode calculateHash key =
      .ok (if valuesOf log key = [] then none else some ⟨key, valuesOf log key⟩) := by
  obtain ⟨m, hm, ha⟩ := hch
  rw [hm.findNode]
  by_cases hv : valuesOf log key = []
  · rw [if_pos hv, ha.lookup_eq_none.2 hv]
    rfl
  · rw [if_neg hv, (ha key _).mpr ⟨rfl, hv⟩]
    rfl

omit [DecidableEq V] in
/-- The number of nodes is the number of keys. -/
theorem Keeps.size_eq {h : QMultiHash K V} (hk : h.Keeps calculateHash log) :
    h.toQHash.size = (log.map Prod.fst).toFinset.card := by
  obtain ⟨⟨m, hm, ha⟩, -⟩ := hk
  rw [hm.size_eq]
  congr 1
  ext key
  rw [Finmap.mem_keys, mem_toFinset, mem_map]
  constructor
  · intro hmem
    obtain ⟨l, hl⟩ := Finmap.mem_iff.mp hmem
    obtain ⟨rfl, hne⟩ := (ha key l).mp hl
    obtain ⟨v, hv⟩ := exists_mem_of_ne_nil _ hne
    exact ⟨(key, v), mem_valuesOf.1 hv, rfl⟩
  · rintro ⟨⟨k, v⟩, hp, rfl⟩
    have hne : valuesOf log k ≠ [] := ne_nil_of_mem (mem_valuesOf.2 hp)
    exact Finmap.mem_of_lookup_eq_some ((ha k _).mpr ⟨rfl, hne⟩)

theorem all_any_iff {l l' : List V} :
    (l.all fun e => l'.any fun oe => oe == e) = true ↔ l ⊆ l' := by
  simp [all_eq_true, subset_def]

theorem chainsContained_spec (hch : Chains calculateHash d log)
    (ho : Chains calculateHash other olog) (k b : ℕ) (hk : other.numBuckets ≤ b + k) :
    ∃ r, chainsContained calculateHash d other (k + 1)
        (nextOccupied other.numBuckets other.cell b) = .ok r ∧
      (r = true ↔ ∀ n ∈ entriesFrom other.numBuckets other.cell b, n.value ⊆ valuesOf log n.key) := by
  induction k generalizing b with
  | zero =>
    have hnone : nextOccupied other.numBuckets other.cell b = none := nextOccupied_of_le hk
    rw [hnone, entriesFrom_none hnone]
    exact ⟨true, rfl, by simp⟩
  | succ k ih =>
    cases hn : nextOccupied other.numBuckets other.cell b with
    | none =>
      rw [entriesFrom_none hn]
      exact ⟨true, rfl, by simp⟩
    | some c =>
      obtain ⟨hbc, hcn, ⟨n, hc⟩, -⟩ := nextOccupied_eq_some.1 hn
      obtain ⟨-, hne⟩ := ho.of_cell hcn hc
      obtain ⟨r, hrun, hr⟩ := ih (c + 1) (by omega)
      rw [entriesFrom_some hn hc, forall_mem_cons, ← hr]
      simp only [chainsContained, ho.inv.node_eq hcn hc, ok_bind, hch.findNode]
      by_cases hv : valuesOf log n.key = []
      · refine ⟨false, by rw [if_pos hv]; rfl, iff_of_false (by simp) fun h => hne ?_⟩
        exact subset_nil.mp (hv ▸ h.1)
      · rw [if_neg hv]
        simp only
        by_cases hsub : n.value ⊆ valuesOf log n.key
        · rw [if_pos (all_any_iff.2 hsub), ho.inv.increment_eq other.numBuckets hcn (by omega), ok_bind]
          exact ⟨r, hrun, (and_iff_right hsub).symm⟩
        · rw [if_neg (mt all_any_iff.1 hsub)]
          exact ⟨false, rfl, iff_of_false (by simp) fun h => hsub h.1⟩

theorem chainsContained_begin (hch : Chains calculateHash d log)
    (ho : Chains calculateHash other olog) :
    ∃ r, chainsContained calculateHash d other (other.numBuckets + 1)
        (nextOccupied other.numBuckets other.cell 0) = .ok r ∧ (r = true ↔ olog ⊆ log) := by
  obtain ⟨r, hrun, hr⟩ := chainsContained_spec hch ho other.numBuckets 0 (by omega)
  refine ⟨r, hrun, hr.trans ⟨?_, ?_⟩⟩
  · rintro h ⟨key, v⟩ hp
    have hv := mem_valuesOf.2 hp
    obtain ⟨b, hb, hc⟩ := ho.exists_cell (ne_nil_of_mem hv)
    exact mem_valuesOf.1 (h _ (mem_entriesFrom.2 ⟨b, Nat.zero_le b, hb, hc⟩) hv)
  · intro h n hn v hv
    obtain ⟨b, -, hb, hc⟩ := mem_entriesFrom.1 hn
    rw [(ho.of_cell hb hc).1] at hv
    exact mem_valuesOf.2 (h (mem_valuesOf.1 hv))

theorem Keeps.operatorEq {h other : QMultiHash K V} (hk : h.Keeps calculateHash log)
    (ho : other.Keeps calculateHash olog) : ∃ r,
      h.operatorEq calculateHash other false = .ok r ∧
      (r = true ↔ h.m_size = other.m_size ∧ h.toQHash.size = other.toQHash.size ∧ olog ⊆ log) := by
  simp only [QMultiHash.operatorEq, Bool.false_eq_true, if_false]
  by_cases hsize : h.m_size = other.m_size
  · rw [if_neg (not_not_intro hsize)]
    by_cases hzero : h.m_size = 0
    · have hnil : log = [] := by simpa [hk.m_size] using hzero
      have honil : olog = [] := by simpa [ho.m_size] using hsize.symm.trans hzero
      rw [if_pos hzero]
      refine ⟨true, rfl, iff_of_true rfl ⟨hsize, ?_, by simp [honil]⟩⟩
      rw [hk.size_eq, ho.size_eq, hnil, honil]
    · rw [if_neg hzero]
      cases hd : h.d with
      | none => exact absurd (by simp [hk.m_size, hk.eq_nil hd]) hzero
      | some l =>
        cases hod : other.d with
        | none => exact absurd (by simp [hsize, ho.m_size, ho.eq_nil hod]) hzero
        | some ol =>
          have hsz : h.toQHash.size = l.data.size := by simp [toQHash, QHash.size, hd]
          have hosz : other.toQHash.size = ol.data.size := by simp [toQHash, QHash.size, hod]
          rw [hsz, hosz]
          simp only
          by_cases hnodes : l.data.size = ol.data.size
          · obtain ⟨r, hrun, hr⟩ := chainsContained_begin (hk.chains hd) (ho.chains hod)
            rw [if_neg (not_not_intro hnodes), (ho.chains hod).inv.begin_eq, ok_bind]
            exact ⟨r, hrun, hr.trans ⟨fun h => ⟨hsize, hnodes, h⟩, fun h => h.2.2⟩⟩
          · rw [if_pos hnodes]
            exact ⟨false, rfl, iff_of_false (by simp) fun h => hnodes h.2.1⟩
  · rw [if_pos hsize]
    exact ⟨false, rfl, iff_of_false (by simp) fun h => hsize h.1⟩

/-! ## Equality of the values -/

variable (calculateHash) in
/-- The values of a key. -/
def held (h : QMultiHash K V) (key : K) : List V := match h.values calculateHash key with
  | .ok l => l
  | .error _ => []

omit [DecidableEq V] in
theorem Keeps.held_eq {h : QMultiHash K V} (hk : h.Keeps calculateHash log) (key : K) :
    h.held calculateHash key = valuesOf log key := by
  rw [held, hk.values]

variable (calculateHash) in
/-- The same values with the same multiplicities for every key. -/
def SameValues (h other : QMultiHash K V) : Prop :=
  ∀ key, (h.held calculateHash key).Perm (other.held calculateHash key)

variable (calculateHash) in
/-- The right-hand side has a value several times under one key that the left-hand side has less
often, and makes up for it by having other values less often: the sizes and the numbers of keys
are the same, and no value is missing on the left. -/
structure Masked (h other : QMultiHash K V) : Prop where
  size : h.m_size = other.m_size
  keys : h.toQHash.size = other.toQHash.size
  subset : ∀ key, other.held calculateHash key ⊆ h.held calculateHash key
  repeated : ∃ key v, 2 ≤ (other.held calculateHash key).count v ∧
    (h.held calculateHash key).count v < (other.held calculateHash key).count v

namespace Keeps

variable {h other : QMultiHash K V}

theorem sameValues_iff (hk : h.Keeps calculateHash log) (ho : other.Keeps calculateHash olog) :
    SameValues calculateHash h other ↔ log.Perm olog := by
  simp only [SameValues, hk.held_eq, ho.held_eq, perm_iff_count, count_valuesOf, Prod.forall]

omit [DecidableEq V] in
theorem subset_iff (hk : h.Keeps calculateHash log) (ho : other.Keeps calculateHash olog) :
    (∀ key, other.held calculateHash key ⊆ h.held calculateHash key) ↔ olog ⊆ log := by
  simp only [hk.held_eq, ho.held_eq, subset_def, mem_valuesOf, Prod.forall]

theorem masked_iff (hk : h.Keeps calculateHash log) (ho : other.Keeps calculateHash olog) :
    Masked calculateHash h other ↔ (h.m_size = other.m_size ∧ h.toQHash.size = other.toQHash.size ∧
      olog ⊆ log) ∧ ¬ log.Perm olog := by
  constructor
  · rintro ⟨hsize, hkeys, hsub, key, v, -, hlt⟩
    refine ⟨⟨hsize, hkeys, (hk.subset_iff ho).mp hsub⟩, fun hperm => ?_⟩
    rw [hk.held_eq, ho.held_eq, count_valuesOf, count_valuesOf, hperm.count_eq] at hlt
    exact lt_irrefl _ hlt
  · rintro ⟨⟨hsize, hkeys, hsub⟩, hperm⟩
    have hlen : log.length = olog.length := by
      have := hsize
      rwa [hk.m_size, ho.m_size, Int.natCast_inj] at this
    rw [perm_iff_count_le hlen] at hperm
    push Not at hperm
    obtain ⟨⟨key, v⟩, hlt⟩ := hperm
    have hmem : (key, v) ∈ olog := count_pos_iff.mp (by omega)
    have hpos : 0 < log.count (key, v) := count_pos_iff.mpr (hsub hmem)
    refine ⟨hsize, hkeys, (hk.subset_iff ho).mpr hsub, key, v, ?_⟩
    rw [hk.held_eq, ho.held_eq, count_valuesOf, count_valuesOf]
    exact ⟨by omega, hlt⟩

omit [DecidableEq V] in
theorem compared_of_perm (hk : h.Keeps calculateHash log) (ho : other.Keeps calculateHash olog)
    (hperm : log.Perm olog) :
    h.m_size = other.m_size ∧ h.toQHash.size = other.toQHash.size ∧ olog ⊆ log := by
  refine ⟨by rw [hk.m_size, ho.m_size, hperm.length_eq], ?_, hperm.symm.subset⟩
  rw [hk.size_eq, ho.size_eq, toFinset_eq_of_perm _ _ (hperm.map Prod.fst)]

end Keeps

section Runs

variable [Inhabited V] {ι : Type} [Fintype ι] [DecidableEq ι] {w : World ι K V}
  {logs : ι → List (K × V)}

/-- `operator==` of two hashes of a program. -/
def World.operatorEq (calculateHash : K → ℕ → ℕ) (w : World ι K V) (i j : ι) : Exec Bool :=
  (w.hash i).operatorEq calculateHash (w.hash j) (decide (w.store.ptr i = w.store.ptr j))

omit [Inhabited V] [DecidableEq V] in
theorem World.held_of_ptr_eq {i j : ι} (hptr : w.store.ptr i = w.store.ptr j) (key : K) :
    (w.hash i).held calculateHash key = (w.hash j).held calculateHash key := by
  have hget : (w.hash i).d.data? = (w.hash j).d.data? := by
    have : w.store.get i = w.store.get j := by rw [w.store.get_eq, w.store.get_eq, hptr]
    exact this
  have hvalues : (w.hash i).values calculateHash key = (w.hash j).values calculateHash key := by
    rw [values, values]
    cases hi : (w.hash i).d <;> cases hj : (w.hash j).d <;> simp_all
  rw [held, held, hvalues]

/-- Of any two reachable multi-hashes: `operator==` returns whether they have the same values
with the same multiplicities if and only if they are not masked. -/
theorem operatorEq_iff (hrun : Run calculateHash w logs) (i j : ι) :
    ∃ r, w.operatorEq calculateHash i j = .ok r ∧
      ((r = true ↔ SameValues calculateHash (w.hash i) (w.hash j)) ↔
        ¬ Masked calculateHash (w.hash i) (w.hash j)) := by
  have hi := hrun.keeps i
  have hj := hrun.keeps j
  rw [hi.sameValues_iff hj, hi.masked_iff hj, World.operatorEq]
  by_cases hptr : w.store.ptr i = w.store.ptr j
  · have hperm : (logs i).Perm (logs j) := by
      rw [← hi.sameValues_iff hj]
      intro key
      rw [World.held_of_ptr_eq hptr]
    rw [decide_eq_true hptr]
    exact ⟨true, rfl, by simp [hperm]⟩
  · rw [decide_eq_false hptr]
    obtain ⟨r, hrun, hr⟩ := hi.operatorEq hj
    refine ⟨r, hrun, ?_⟩
    rw [hr]
    have hcompared := hi.compared_of_perm hj
    tauto

/-- Hash 0 has the values 1, 2 and 3 for key 0, and hash 1 has the value 1 three times. -/
theorem exists_masked : ∃ (w : World (Fin 2) ℕ ℕ) (logs : Fin 2 → List (ℕ × ℕ)),
    Run (fun _ _ => 0) w logs ∧ logs 0 = [(0, 3), (0, 2), (0, 1)] ∧
      logs 1 = [(0, 1), (0, 1), (0, 1)] ∧
      w.operatorEq (fun _ _ => 0) 0 1 = .ok true ∧ w.operatorEq (fun _ _ => 0) 1 0 = .ok false := by
  have heval : (World.insertAll (fun _ _ => 0) 0 (⟨Cow.Store.empty, fun _ => 0⟩ : World (Fin 2) ℕ ℕ)
      [(0, 1), (0, 2), (0, 3)] >>= fun w =>
        World.insertAll (fun _ _ => 0) 1 w [(0, 1), (0, 1), (0, 1)] >>= fun w =>
          w.operatorEq (fun _ _ => 0) 0 1 >>= fun r => w.operatorEq (fun _ _ => 0) 1 0 >>= fun r' =>
            pure (r, r')) = .ok (true, false) := by
    decide +kernel
  obtain ⟨w₀, hw₀, heval⟩ := bind_eq_ok heval
  obtain ⟨w, hw, heval⟩ := bind_eq_ok heval
  obtain ⟨r, hr, heval⟩ := bind_eq_ok heval
  obtain ⟨r', hr', heval⟩ := bind_eq_ok heval
  simp only [pure_eq_ok, Except.ok.injEq, Prod.mk.injEq] at heval
  obtain ⟨rfl, rfl⟩ := heval
  exact ⟨w, _, (Run.start.insertAll 0 _ hw₀).insertAll 1 _ hw, by simp, by simp, hr, hr'⟩

theorem operatorEq_iff_masked : ∃ (w : World (Fin 2) ℕ ℕ) (r : Bool),
    w.operatorEq (fun _ _ => 0) 1 0 = .ok r ∧
      ((r = true ↔ SameValues (fun _ _ => 0) (w.hash 1) (w.hash 0)) ↔
        ¬ Masked (fun _ _ => 0) (w.hash 1) (w.hash 0)) := by
  obtain ⟨w, logs, hrun, -⟩ := exists_masked
  exact ⟨w, operatorEq_iff hrun 1 0⟩

/-- The right-hand side is only asked whether its values are known, not how often. -/
theorem operatorEq_of_repeated : ∃ (w : World (Fin 2) ℕ ℕ) (logs : Fin 2 → List (ℕ × ℕ)),
    Run (fun _ _ => 0) w logs ∧ w.operatorEq (fun _ _ => 0) 0 1 = .ok true ∧
      w.operatorEq (fun _ _ => 0) 1 0 = .ok false ∧
      ¬ SameValues (fun _ _ => 0) (w.hash 0) (w.hash 1) := by
  obtain ⟨w, logs, hrun, h₀, h₁, heq, hne⟩ := exists_masked
  refine ⟨w, logs, hrun, heq, hne, ?_⟩
  rw [(hrun.keeps 0).sameValues_iff (hrun.keeps 1), h₀, h₁]
  decide

end Runs

end QtBase.QMultiHash
