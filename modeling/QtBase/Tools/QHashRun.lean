import QtBase.Tools.QHash

/-! Whole runs of member calls and assignments on hashes that share tables: every hash refines
the finite map that the same calls make of the empty map. -/
namespace QtBase.QHash

open QHashPrivate LinearProbing Function

variable {K V : Type}

/-- The calls of a hash; `emplace` is `insert`, with the value it constructs. -/
inductive Call (K V : Type)
  | insert (key : K) (value : V)
  | indexValue (key : K)
  | indexAssign (key : K) (value : V)
  | remove (key : K)
  | take (key : K)
  | erase (it : ℕ)
  | find (key : K)
  | begin
  | reserve (size : ℕ)
  | squeeze
  | clear
  | detach

inductive Answer (V : Type)
  | void
  | bool (b : Bool)
  | value (v : V)
  | iterator (it : Option ℕ)

/-- `it.key()` -/
def keyAt (h : QHash K V) (it : ℕ) : Option K := match h.d with
  | none => none
  | some l => (l.data.node (Bucket.ofIndex it)).toOption.map Node.key

namespace Call

/-- An iterator that is passed is one of this hash, and not its end. -/
def Valid (h : QHash K V) : Call K V → Prop
  | erase it => ∃ n, h.At it n
  | _ => True

/-- The bucket count asked for cannot be allocated. -/
def Oom (h : QHash K V) : Call K V → Prop
  | insert _ _ | indexValue _ | indexAssign _ _ => TooLarge (h.size + 1)
  | reserve n => TooLarge (max h.size n)
  | squeeze => TooLarge h.size
  | _ => False

variable [DecidableEq K] [Inhabited V] (calculateHash : K → ℕ → ℕ) (globalSeed : ℕ)

def run (h : QHash K V) : Call K V → Exec (QHash K V × Answer V)
  | insert key v => do
    let (h, it) ← h.insert calculateHash globalSeed key v
    pure (h, .iterator it)
  | indexValue key => do
    let (h, v) ← h.indexValue calculateHash globalSeed key
    pure (h, .value v)
  | indexAssign key v => do
    let h ← h.indexAssign calculateHash globalSeed key v
    pure (h, .void)
  | remove key => do
    let (h, b) ← h.remove calculateHash globalSeed key
    pure (h, .bool b)
  | take key => do
    let (h, v) ← h.take calculateHash globalSeed key
    pure (h, .value v)
  | erase it => do
    let (h, it) ← h.erase calculateHash globalSeed (some it)
    pure (h, .iterator it)
  | find key => do
    let (h, it) ← h.find calculateHash globalSeed key
    pure (h, .iterator it)
  | begin => do
    let (h, it) ← h.begin calculateHash globalSeed
    pure (h, .iterator it)
  | reserve n => do
    let h ← h.reserve calculateHash globalSeed n
    pure (h, .void)
  | squeeze => do
    let h ← h.squeeze calculateHash globalSeed
    pure (h, .void)
  | clear => pure (h.clear, .void)
  | detach => do
    let d ← h.detach calculateHash globalSeed
    pure (own d, .void)

/-- What the call does to the map. -/
def effect (h : QHash K V) (m : Finmap fun _ : K => V) : Call K V → Finmap fun _ : K => V
  | insert key v | indexAssign key v => m.insert key v
  | indexValue key => m.insert key ((m.lookup key).getD default)
  | remove key | take key => m.erase key
  | erase it => match h.keyAt it with
    | none => m
    | some key => m.erase key
  | clear => ∅
  | _ => m

/-- What the call answers, for a hash with the entries of `m` that it leaves as `h'`. -/
def Answers (m : Finmap fun _ : K => V) (h' : QHash K V) : Call K V → Answer V → Prop
  | insert key v, a => ∃ b, a = .iterator (some b) ∧ h'.At b ⟨key, v⟩
  | indexValue key, a | take key, a => a = .value ((m.lookup key).getD default)
  | remove key, a => a = .bool (m.lookup key).isSome
  | find key, a => ∃ it, a = .iterator it ∧ h'.Locates m key it
  | erase _, a | begin, a => ∃ it, a = .iterator it
  | _, a => a = .void

variable {calculateHash globalSeed} {h : QHash K V} {m : Finmap fun _ : K => V}

theorem run_spec (hm : h.Models calculateHash m) (globalSeed : ℕ) (c : Call K V) (hc : c.Valid h) :
    Ends (c.run calculateHash globalSeed h) (c.Oom h) fun r =>
      r.1.Models calculateHash (c.effect h m) ∧ h.d.Legal r.1.d ∧ c.Answers m r.1 r.2 := by
  cases c with
  | insert key v =>
    refine (hm.insert globalSeed key v).bind ?_
    rintro ⟨h', it⟩ ⟨hm', hl, b, rfl, hat⟩
    exact Ends.ok ⟨hm', hl, b, rfl, hat⟩
  | indexValue key =>
    refine (hm.indexValue globalSeed key).bind ?_
    rintro ⟨h', v⟩ ⟨hm', hl, rfl⟩
    exact Ends.ok ⟨hm', hl, rfl⟩
  | indexAssign key v =>
    refine (hm.indexAssign globalSeed key v).bind ?_
    rintro h' ⟨hm', hl⟩
    exact Ends.ok ⟨hm', hl, rfl⟩
  | remove key =>
    obtain ⟨h', hrun, hm', hl⟩ := hm.remove globalSeed key
    simp only [run, hrun, ok_bind]
    exact Ends.ok ⟨hm', hl, rfl⟩
  | take key =>
    obtain ⟨h', hrun, hm', hl⟩ := hm.take globalSeed key
    simp only [run, hrun, ok_bind]
    exact Ends.ok ⟨hm', hl, rfl⟩
  | erase it =>
    obtain ⟨n, hat⟩ := hc
    obtain ⟨h', it', hrun, hm', hl⟩ := hm.erase globalSeed hat
    obtain ⟨l, hd, -, hn⟩ := hat
    have hkey : h.keyAt it = some n.key := by simp [keyAt, hd, hn, Except.toOption]
    simp only [run, hrun, ok_bind, effect, hkey]
    exact Ends.ok ⟨hm', hl, it', rfl⟩
  | find key =>
    obtain ⟨h', it, hrun, hm', hl, hloc⟩ := hm.find globalSeed key
    simp only [run, hrun, ok_bind]
    exact Ends.ok ⟨hm', hl, it, rfl, hloc⟩
  | begin =>
    obtain ⟨h', it, hrun, hm', hl⟩ := hm.begin globalSeed
    simp only [run, hrun, ok_bind]
    exact Ends.ok ⟨hm', hl, it, rfl⟩
  | reserve n =>
    refine (hm.reserve globalSeed n).bind ?_
    rintro h' ⟨hm', hl⟩
    exact Ends.ok ⟨hm', hl, rfl⟩
  | squeeze =>
    simp only [run, QHash.squeeze]
    split_ifs with hcap
    · refine ((hm.reserve globalSeed 0).mono (fun h => by rwa [Nat.max_zero] at h) fun _ h => h).bind ?_
      rintro h' ⟨hm', hl⟩
      exact Ends.ok ⟨hm', hl, rfl⟩
    · exact Ends.ok ⟨hm, Cow.Handle.Legal.refl _, rfl⟩
  | clear => exact Ends.ok ⟨rfl, Cow.Handle.Legal.none _, rfl⟩
  | detach =>
    obtain ⟨d, hrun, hm', -⟩ := hm.detach globalSeed
    simp only [run, hrun, ok_bind]
    exact Ends.ok ⟨hm', Cow.Handle.Legal.own _ d, rfl⟩

end Call

/-! ## Runs -/

section Runs

variable [DecidableEq K] [Inhabited V] {ι : Type} [Fintype ι] [DecidableEq ι]

/-- The hashes of a program and the tables they share. -/
abbrev World (ι K V : Type) [Fintype ι] [DecidableEq ι] := Cow.Store ι (Data K V)

def World.hash (w : World ι K V) (i : ι) : QHash K V := ⟨w.view i⟩

/-- Any number of calls and assignments, with the maps that they make. Each call may find
another global seed. -/
inductive Run (calculateHash : K → ℕ → ℕ) : World ι K V → (ι → Finmap fun _ : K => V) → Prop
  | start : Run calculateHash Cow.Store.empty fun _ => ∅
  | call {w m} (i : ι) (globalSeed : ℕ) (c : Call K V) {h' a} : Run calculateHash w m →
      c.Valid (w.hash i) → c.run calculateHash globalSeed (w.hash i) = .ok (h', a) →
      Run calculateHash (w.commit i h'.d) (Function.update m i (c.effect (w.hash i) (m i)))
  | assign {w m} (i j : ι) : Run calculateHash w m →
      Run calculateHash (w.share i j) (Function.update m i (m j))

/-- Inserts into one hash, in order. -/
def World.insertAll (calculateHash : K → ℕ → ℕ) (i : ι) (w : World ι K V) (l : List (K × V)) :
    Exec (World ι K V) :=
  l.foldlM (fun w p => do
    let (h, _) ← (w.hash i).insert calculateHash 0 p.1 p.2
    pure (w.commit i h.d)) w

variable {calculateHash : K → ℕ → ℕ} {w : World ι K V} {m : ι → Finmap fun _ : K => V}

theorem Run.insertAll (hrun : Run calculateHash w m) (i : ι) (l : List (K × V)) {w' : World ι K V}
    (h : World.insertAll calculateHash i w l = .ok w') : ∃ m', Run calculateHash w' m' := by
  induction l generalizing w m with
  | nil =>
    cases h
    exact ⟨m, hrun⟩
  | cons p l ih =>
    rw [World.insertAll, List.foldlM_cons] at h
    obtain ⟨w₁, h₁, h₂⟩ := bind_eq_ok h
    obtain ⟨⟨h', it⟩, hins, heq⟩ := bind_eq_ok h₁
    cases heq
    have hcall : (Call.insert p.1 p.2).run calculateHash 0 (w.hash i) = .ok (h', .iterator it) := by
      simp only [Call.run, hins, ok_bind, pure_eq_ok]
    exact ih (hrun.call i 0 (.insert p.1 p.2) trivial hcall) h₂

theorem Run.models (hrun : Run calculateHash w m) (i : ι) :
    (w.hash i).Models calculateHash (m i) := by
  induction hrun generalizing i with
  | start => rfl
  | @call w m j globalSeed c h' a _ hv hc ih =>
    obtain ⟨hm', hl, -⟩ := (c.run_spec (ih j) globalSeed hv).of_ok hc
    have hget := w.get_commit j i hl
    by_cases hij : i = j
    · subst hij
      rw [if_pos rfl] at hget
      rw [update_self]
      exact hm'.of_data? hget
    · rw [if_neg hij] at hget
      rw [update_of_ne hij]
      exact (ih i).of_data? hget
  | @assign w m j k _ ih =>
    have hget := w.get_share j k i
    by_cases hij : i = j
    · subst hij
      rw [if_pos rfl] at hget
      rw [update_self]
      exact (ih k).of_data? hget
    · rw [if_neg hij] at hget
      rw [update_of_ne hij]
      exact (ih i).of_data? hget

/-- A hash answers as the map does, over a table that keeps the probe invariant. -/
structure Refines (calculateHash : K → ℕ → ℕ) (h : QHash K V) (m : Finmap fun _ : K => V) : Prop where
  contains : ∀ key, h.contains calculateHash key = .ok (m.lookup key).isSome
  value : ∀ key, h.value calculateHash key = .ok ((m.lookup key).getD default)
  find : ∀ key, ∃ it, h.constFind calculateHash key = .ok it ∧ h.Locates m key it
  size : h.size = m.keys.card
  table : ∀ l, h.d = some l → l.data.Inv calculateHash

/-- After every run each hash refines its map, and every further call returns the answer of
the map, or throws because the bucket array it needs exceeds the largest one. -/
theorem refines_of_run (hrun : Run calculateHash w m) (i : ι) :
    Refines calculateHash (w.hash i) (m i) ∧
      ∀ globalSeed (c : Call K V), c.Valid (w.hash i) →
        Ends (c.run calculateHash globalSeed (w.hash i)) (c.Oom (w.hash i)) fun r =>
          c.Answers (m i) r.1 r.2 := by
  have hm := hrun.models i
  refine ⟨⟨hm.contains, hm.value, hm.constFind, hm.size_eq, fun l hl => (hm.data hl).toInv⟩,
    fun globalSeed c hc => (c.run_spec hm globalSeed hc).mono id fun r hr => hr.2.2⟩

theorem refines_of_run_shared : ∃ (w : World (Fin 2) ℕ ℕ) (m : Fin 2 → Finmap fun _ : ℕ => ℕ),
    Run (fun key _ => key) w m ∧ (m 1).lookup 5 = some 7 ∧
      Refines (fun key _ => key) (w.hash 1) (m 1) := by
  obtain ⟨⟨h', a⟩, hcall⟩ : ∃ r, (Call.insert 5 7).run (fun key _ => key) 0
      (World.hash (Cow.Store.empty : World (Fin 2) ℕ ℕ) 0) = .ok r := ⟨_, rfl⟩
  have hrun := Run.assign 1 0 (Run.call 0 0 (.insert 5 7) .start trivial hcall)
  exact ⟨_, _, hrun, by simp [Call.effect], (refines_of_run hrun 1).1⟩

end Runs

end QtBase.QHash
