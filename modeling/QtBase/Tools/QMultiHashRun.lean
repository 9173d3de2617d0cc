import QtBase.Tools.MultiHashErase

/-! Whole runs on multi-hashes that share tables: the separately kept size, the chains and the
order of their values, and the iterator that `erase` returns. -/
namespace QtBase.QMultiHash

open QHashPrivate LinearProbing PairLog Function

variable {K V : Type}

inductive Call (K V : Type)
  | insert (key : K) (value : V)
  | replace (key : K) (value : V)
  | indexValue (key : K)
  | indexAssign (key : K) (value : V)
  | remove (key : K)
  | removeValue (key : K) (value : V)
  | take (key : K)
  | erase (it : Iterator)
  | reserve (size : ℕ)
  | squeeze
  | clear
  | detach

inductive Answer (V : Type)
  | void
  | size (n : ℤ)
  | value (v : V)
  | iterator (it : Option Iterator)

/-- The node that an iterator of this hash is at. -/
def At (h : QMultiHash K V) (it : Iterator) (n : Node K (List V)) : Prop :=
  ∃ l, h.d = some l ∧ it.bucket < l.data.numBuckets ∧ l.data.cell it.bucket = some n ∧
    it.pos < n.value.length

/-- `it.key()` -/
def keyAt (h : QMultiHash K V) (it : Iterator) : Option K := match h.d with
  | none => none
  | some l => (l.data.cell it.bucket).map Node.key

namespace Call

/-- An iterator that is passed is one of this hash, and not its end. -/
def Valid (h : QMultiHash K V) : Call K V → Prop
  | erase it => ∃ n, h.At it n
  | _ => True

/-- The bucket count asked for cannot be allocated. -/
def Oom (h : QMultiHash K V) : Call K V → Prop
  | insert _ _ | replace _ _ | indexValue _ | indexAssign _ _ => TooLarge (h.toQHash.size + 1)
  | reserve n => TooLarge (max h.toQHash.size n)
  | squeeze => TooLarge h.toQHash.size
  | _ => False

variable [DecidableEq K] [DecidableEq V] [Inhabited V] (calculateHash : K → ℕ → ℕ) (globalSeed : ℕ)

def run (h : QMultiHash K V) : Call K V → Exec (QMultiHash K V × Answer V)
  | insert key v => do
    let (h, it) ← h.insert calculateHash globalSeed key v
    pure (h, .iterator it)
  | replace key v => do
    let (h, it) ← h.replace calculateHash globalSeed key v
    pure (h, .iterator it)
  | indexValue key => do
    let (h, v) ← h.indexValue calculateHash globalSeed key
    pure (h, .value v)
  | indexAssign key v => do
    let h ← h.indexAssign calculateHash globalSeed key v
    pure (h, .void)
  | remove key => do
    let (h, n) ← h.remove calculateHash globalSeed key
    pure (h, .size n)
  | removeValue key v => do
    let (h, n) ← h.removeValue calculateHash globalSeed key v
    pure (h, .size n)
  | take key => do
    let (h, v) ← h.take calculateHash globalSeed key
    pure (h, .value v)
  | erase it => do
    let (h, it) ← h.erase calculateHash it
    pure (h, .iterator it)
  | reserve n => do
    let h ← h.reserve calculateHash globalSeed n
    pure (h, .void)
  | squeeze => do
    let h ← h.squeeze calculateHash globalSeed
    pure (h, .void)
  | clear => pure (h.clear, .void)
  | detach => do
    let d ← h.detach calculateHash globalSeed
    pure (own d h.m_size, .void)

/-- What the call does to the pairs, the latest first. -/
def effect (h : QMultiHash K V) (log : List (K × V)) : Call K V → List (K × V)
  | insert key v => (key, v) :: log
  | replace key v | indexAssign key v => PairLog.replace key v log
  | indexValue key => Keeps.indexed key log
  | remove key => removeKey key log
  | removeValue key v => removePair key v log
  | take key => eraseAt key log 0
  | erase it => match h.keyAt it with
    | none => log
    | some key => eraseAt key log it.pos
  | clear => []
  | _ => log

/-- What the call answers, for a hash with the pairs of `log`. -/
def Answers (log : List (K × V)) : Call K V → Answer V → Prop
  | insert _ _, a | replace _ _, a => ∃ b, a = .iterator (some ⟨b, 0⟩)
  | indexValue key, a | take key, a => a = .value ((valuesOf log key).headD default)
  | remove key, a => a = .size (valuesOf log key).length
  | removeValue key v, a => a = .size ((valuesOf log key).count v)
  | erase _, a => ∃ it, a = .iterator it
  | _, a => a = .void

variable {calculateHash globalSeed} {h : QMultiHash K V} {log : List (K × V)}

theorem run_spec (hk : h.Keeps calculateHash log) (globalSeed : ℕ) (c : Call K V) (hc : c.Valid h) :
    Ends (c.run calculateHash globalSeed h) (c.Oom h) fun r =>
      r.1.Keeps calculateHash (c.effect h log) ∧ h.d.Legal r.1.d ∧ c.Answers log r.2 := by
  cases c with
  | insert key v =>
    refine (hk.insert globalSeed key v).bind ?_
    rintro ⟨h', it⟩ ⟨hk', ⟨d', m_size', rfl⟩, b, rfl⟩
    exact Ends.ok ⟨hk', Cow.Handle.Legal.own _ d', b, rfl⟩
  | replace key v =>
    refine (hk.replace globalSeed key v).bind ?_
    rintro ⟨h', it⟩ ⟨hk', hl, b, rfl⟩
    exact Ends.ok ⟨hk', hl, b, rfl⟩
  | indexValue key =>
    refine (hk.indexValue globalSeed key).bind ?_
    rintro ⟨h', v⟩ ⟨hk', hl, rfl⟩
    exact Ends.ok ⟨hk', hl, rfl⟩
  | indexAssign key v =>
    refine (hk.indexAssign globalSeed key v).bind ?_
    rintro h' ⟨hk', hl⟩
    exact Ends.ok ⟨hk', hl, rfl⟩
  | remove key =>
    obtain ⟨h', hrun, hk', hl⟩ := hk.remove globalSeed key
    simp only [run, hrun, ok_bind]
    exact Ends.ok ⟨hk', hl, rfl⟩
  | removeValue key v =>
    obtain ⟨h', hrun, hk', hl⟩ := hk.removeValue globalSeed key v
    simp only [run, hrun, ok_bind]
    exact Ends.ok ⟨hk', hl, rfl⟩
  | take key =>
    obtain ⟨h', hrun, hk', hl⟩ := hk.take globalSeed key
    simp only [run, hrun, ok_bind]
    exact Ends.ok ⟨hk', hl, rfl⟩
  | erase it =>
    obtain ⟨n, l, hd, hb, hcell, hpos⟩ := hc
    obtain ⟨d', it', next, hrun, hk', -⟩ := hk.erase hd hb hcell hpos
    have hkey : h.keyAt it = some n.key := by simp [keyAt, hd, hcell]
    simp only [run, hrun, ok_bind, effect, hkey]
    exact Ends.ok ⟨hk', Cow.Handle.Legal.own _ d', it', rfl⟩
  | reserve n =>
    refine (hk.reserve globalSeed n).bind ?_
    rintro h' ⟨hk', hl⟩
    exact Ends.ok ⟨hk', hl, rfl⟩
  | squeeze =>
    refine ((hk.reserve globalSeed 0).mono (fun h => by rwa [Nat.max_zero] at h) fun _ h => h).bind ?_
    rintro h' ⟨hk', hl⟩
    exact Ends.ok ⟨hk', hl, rfl⟩
  | clear =>
    exact Ends.ok ⟨⟨⟨∅, rfl, Agrees.empty⟩, rfl⟩, Cow.Handle.Legal.none _, rfl⟩
  | detach =>
    obtain ⟨d, hrun, hch, -⟩ := hk.detach globalSeed
    simp only [run, hrun, ok_bind]
    exact Ends.ok ⟨Keeps.own hch hk.m_size, Cow.Handle.Legal.own _ d, rfl⟩

end Call

/-! ## Runs -/

section Runs

variable [DecidableEq K] [DecidableEq V] [Inhabited V] {ι : Type} [Fintype ι] [DecidableEq ι]

/-- The multi-hashes of a program, and the tables they share. -/
structure World (ι K V : Type) [Fintype ι] [DecidableEq ι] where
  store : Cow.Store ι (Data K (List V))
  m_size : ι → ℤ

namespace World

def hash (w : World ι K V) (i : ι) : QMultiHash K V := ⟨w.store.view i, w.m_size i⟩

def commit (w : World ι K V) (i : ι) (h : QMultiHash K V) : World ι K V :=
  ⟨w.store.commit i h.d, Function.update w.m_size i h.m_size⟩

/-- `operator=` -/
def assign (w : World ι K V) (i j : ι) : World ι K V :=
  if w.store.ptr i = w.store.ptr j then w
  else ⟨w.store.share i j, Function.update w.m_size i (w.m_size j)⟩

def unite (calculateHash : K → ℕ → ℕ) (globalSeed : ℕ) (w : World ι K V) (i j : ι) :
    Exec (World ι K V) :=
  if (w.hash i).isEmpty then pure (w.assign i j)
  else do
    let h ← (w.hash i).unite calculateHash globalSeed (w.hash j)
      (decide (w.store.ptr i = w.store.ptr j))
    pure (w.commit i h)

end World

/-- Any number of calls, assignments and unions, with the pairs that each hash should hold. -/
inductive Run (calculateHash : K → ℕ → ℕ) : World ι K V → (ι → List (K × V)) → Prop
  | start : Run calculateHash ⟨Cow.Store.empty, fun _ => 0⟩ fun _ => []
  | call {w logs} (i : ι) (globalSeed : ℕ) (c : Call K V) {h' a} : Run calculateHash w logs →
      c.Valid (w.hash i) → c.run calculateHash globalSeed (w.hash i) = .ok (h', a) →
      Run calculateHash (w.commit i h') (Function.update logs i (c.effect (w.hash i) (logs i)))
  | assign {w logs} (i j : ι) : Run calculateHash w logs →
      Run calculateHash (w.assign i j) (Function.update logs i (logs j))
  | unite {w logs} (i j : ι) (globalSeed : ℕ) {w'} : Run calculateHash w logs →
      w.unite calculateHash globalSeed i j = .ok w' →
      Run calculateHash w' (Function.update logs i
        (if logs i = [] then logs j else (w.hash j).visited.reverse ++ logs i))

/-- Inserts into one hash, in order. -/
def World.insertAll (calculateHash : K → ℕ → ℕ) (i : ι) (w : World ι K V) (l : List (K × V)) :
    Exec (World ι K V) :=
  l.foldlM (fun w p => do
    let (h, _) ← (w.hash i).insert calculateHash 0 p.1 p.2
    pure (w.commit i h)) w

variable {calculateHash : K → ℕ → ℕ} {w : World ι K V} {logs : ι → List (K × V)}

theorem Run.insertAll (hrun : Run calculateHash w logs) (i : ι) (l : List (K × V))
    {w' : World ι K V} (h : World.insertAll calculateHash i w l = .ok w') :
    Run calculateHash w' (update logs i (l.reverse ++ logs i)) := by
  induction l generalizing w logs with
  | nil =>
    cases h
    simpa using hrun
  | cons p l ih =>
    rw [World.insertAll, List.foldlM_cons] at h
    obtain ⟨w₁, h₁, h₂⟩ := bind_eq_ok h
    obtain ⟨⟨h', it⟩, hins, heq⟩ := bind_eq_ok h₁
    cases heq
    have hcall : (Call.insert p.1 p.2).run calculateHash 0 (w.hash i) = .ok (h', .iterator it) := by
      simp only [Call.run, hins, ok_bind, pure_eq_ok]
    have hrun' := ih (hrun.call i 0 (.insert p.1 p.2) trivial hcall) h₂
    simpa [Call.effect] using hrun'

omit [DecidableEq V] [Inhabited V] in
theorem Keeps.of_data? {h h' : QMultiHash K V} {log : List (K × V)} (hk : h.Keeps calculateHash log)
    (hd : h'.d.data? = h.d.data?) (hs : h'.m_size = h.m_size) : h'.Keeps calculateHash log := by
  obtain ⟨⟨m, hm, ha⟩, hsize⟩ := hk
  exact ⟨⟨m, hm.of_data? hd, ha⟩, hs.trans hsize⟩

omit [DecidableEq V] [Inhabited V] in
theorem keeps_commit (h : ∀ i, (w.hash i).Keeps calculateHash (logs i)) (i : ι)
    {h' : QMultiHash K V} {log : List (K × V)} (hl : (w.hash i).d.Legal h'.d)
    (hk : h'.Keeps calculateHash log) (j : ι) :
    ((w.commit i h').hash j).Keeps calculateHash (update logs i log j) := by
  have hget := w.store.get_commit i j hl
  by_cases hij : j = i
  · subst hij
    rw [if_pos rfl] at hget
    rw [update_self]
    exact hk.of_data? hget (update_self ..)
  · rw [if_neg hij] at hget
    rw [update_of_ne hij]
    exact (h j).of_data? hget (update_of_ne hij ..)

omit [DecidableEq V] [Inhabited V] in
theorem Keeps.same_table {h h' : QMultiHash K V} {log log' : List (K × V)}
    (hk : h.Keeps calculateHash log) (hk' : h'.Keeps calculateHash log')
    (hd : h.d.data? = h'.d.data?) : log.length = log'.length := by
  cases hh : h.d with
  | none =>
    cases hh' : h'.d with
    | none => rw [hk.eq_nil hh, hk'.eq_nil hh']
    | some l' => simp [hh, hh'] at hd
  | some l =>
    cases hh' : h'.d with
    | none => simp [hh, hh'] at hd
    | some l' =>
      rw [hh, hh', Cow.Handle.data?_some, Cow.Handle.data?_some, Option.some.injEq] at hd
      rw [← (hk.chains hh).sum_length, ← (hk'.chains hh').sum_length, hd]

omit [DecidableEq V] [Inhabited V] in
theorem keeps_assign (h : ∀ i, (w.hash i).Keeps calculateHash (logs i)) (i j k : ι) :
    ((w.assign i j).hash k).Keeps calculateHash (update logs i (logs j) k) := by
  rw [World.assign]
  by_cases hki : k = i
  · subst hki
    rw [update_self]
    split_ifs with hptr
    · have hget : (w.hash k).d.data? = (w.hash j).d.data? := by
        have : w.store.get k = w.store.get j := by rw [w.store.get_eq, w.store.get_eq, hptr]
        exact this
      have hlen := (h k).same_table (h j) hget
      refine (h j).of_data? hget ?_
      rw [(h k).m_size, (h j).m_size, hlen]
    · have hget := w.store.get_share k j k
      rw [if_pos rfl] at hget
      exact (h j).of_data? hget (update_self ..)
  · rw [update_of_ne hki]
    split_ifs with hptr
    · exact h k
    · have hget := w.store.get_share i j k
      rw [if_neg hki] at hget
      exact (h k).of_data? hget (update_of_ne hki ..)

/-- Every hash of every run holds the pairs that it should. -/
theorem Run.keeps (hrun : Run calculateHash w logs) (i : ι) :
    (w.hash i).Keeps calculateHash (logs i) := by
  induction hrun generalizing i with
  | start => exact ⟨⟨∅, rfl, Agrees.empty⟩, rfl⟩
  | @call w logs j globalSeed c h' a _ hv hc ih =>
    obtain ⟨hk', hl, -⟩ := (c.run_spec (ih j) globalSeed hv).of_ok hc
    exact keeps_commit ih j hl hk' i
  | @assign w logs j k _ ih => exact keeps_assign ih j k i
  | @unite w logs j k globalSeed w' _ hu ih =>
    rw [World.unite] at hu
    split_ifs at hu with hemp
    · cases hu
      rw [if_pos ((ih j).isEmpty_iff.mp hemp)]
      exact keeps_assign ih j k i
    · obtain ⟨h', hrun, heq⟩ := bind_eq_ok hu
      cases heq
      have hne : logs j ≠ [] := fun h => hemp ((ih j).isEmpty_iff.mpr h)
      obtain ⟨hl, hk'⟩ := ((ih j).unite (ih k) globalSeed _).of_ok hrun
      rw [if_neg hne]
      exact keeps_commit ih j hl hk' i

/-- The size is the number of values in all chains, no chain is empty, and each chain has the
values of its key with the most recently inserted first. -/
structure Bookkeeping (calculateHash : K → ℕ → ℕ) (h : QMultiHash K V) (log : List (K × V)) :
    Prop where
  size_nonneg : 0 ≤ h.m_size
  size_null : h.d = none → h.m_size = 0
  size_sum : ∀ l, h.d = some l → h.m_size =
    ∑ b ∈ Finset.range l.data.numBuckets, ((l.data.cell b).map fun n => n.value.length).getD 0
  no_empty : ∀ l, h.d = some l → ∀ b < l.data.numBuckets, ∀ n, l.data.cell b = some n → n.value ≠ []
  values : ∀ key, h.values calculateHash key = .ok (valuesOf log key)

omit [DecidableEq V] [Inhabited V] in
theorem Keeps.bookkeeping {h : QMultiHash K V} {log : List (K × V)}
    (hk : h.Keeps calculateHash log) : Bookkeeping calculateHash h log where
  size_nonneg := by
    rw [hk.m_size]
    exact Int.natCast_nonneg _
  size_null hd := by simp [hk.m_size, hk.eq_nil hd]
  size_sum l hd := by rw [hk.m_size, ← (hk.chains hd).sum_length]
  no_empty l hd b hb n hn := ((hk.chains hd).of_cell hb hn).2
  values := hk.values

/-- In every run the bookkeeping is right, and every further call returns or throws because the
bucket array it needs exceeds the largest one. The iterator returned by `erase` is at the
element that followed the erased one if and only if that element is not overtaken. -/
theorem bookkeeping_of_run (hrun : Run calculateHash w logs) (i : ι) :
    Bookkeeping calculateHash (w.hash i) (logs i) ∧
    (∀ globalSeed (c : Call K V), c.Valid (w.hash i) →
      Ends (c.run calculateHash globalSeed (w.hash i)) (c.Oom (w.hash i)) fun r =>
        c.Answers (logs i) r.2) ∧
    ∀ l it n, (w.hash i).d = some l → it.bucket < l.data.numBuckets →
      l.data.cell it.bucket = some n → it.pos < n.value.length →
      ∃ d' m_size' it' next, (w.hash i).erase calculateHash it = .ok (own d' m_size', it') ∧
        increment l.data it = .ok next ∧
        (element d' it' = element l.data next ↔ NextStays calculateHash l.data it) := by
  have hk := hrun.keeps i
  refine ⟨hk.bookkeeping, fun globalSeed c hc => ?_, fun l it n hd hb hc hpos => ?_⟩
  · exact (c.run_spec hk globalSeed hc).mono id fun r hr => hr.2.2
  · obtain ⟨d', it', next, herase, -, hinc, hiff⟩ := hk.erase hd hb hc hpos
    exact ⟨d', _, it', next, herase, hinc, hiff⟩

/-- Key 1 has bucket 11 as its home, and all others have bucket 10. -/
def overtakingHash (key _ : ℕ) : ℕ := if key = 1 then 11 else 10

theorem bookkeeping_of_run_overtaken : ∃ (w : World (Fin 1) ℕ ℕ) (logs : Fin 1 → List (ℕ × ℕ)),
    Run overtakingHash w logs ∧ logs 0 = [(2, 7), (1, 6), (0, 5)] ∧
      Bookkeeping overtakingHash (w.hash 0) (logs 0) := by
  have heval : (World.insertAll overtakingHash 0 (⟨Cow.Store.empty, fun _ => 0⟩ : World (Fin 1) ℕ ℕ)
      [(0, 5), (1, 6), (2, 7)]).isOk = true := by decide +kernel
  cases hw : World.insertAll overtakingHash 0 (⟨Cow.Store.empty, fun _ => 0⟩ : World (Fin 1) ℕ ℕ)
      [(0, 5), (1, 6), (2, 7)] with
  | error e => simp [hw, Except.isOk, Except.toBool] at heval
  | ok w =>
    have hrun := Run.start.insertAll 0 _ hw
    exact ⟨w, _, hrun, by simp, (bookkeeping_of_run hrun 0).1⟩

/-- Keys 0, 1 and 2 are in the buckets 10, 11 and 12. Erasing key 0 pulls key 2 back to bucket
10 and leaves key 1, which followed key 0, behind it. -/
theorem erase_overtaken : ∃ (w : World (Fin 1) ℕ ℕ) (logs : Fin 1 → List (ℕ × ℕ))
    (l : Cow.Local (Data ℕ (List ℕ))) (h' : QMultiHash ℕ ℕ) (it' : Option Iterator)
    (next : Option Iterator),
    Run overtakingHash w logs ∧ (w.hash 0).d = some l ∧ keyAt (w.hash 0) ⟨10, 0⟩ = some 0 ∧
      (w.hash 0).erase overtakingHash ⟨10, 0⟩ = .ok (h', it') ∧
      increment l.data ⟨10, 0⟩ = .ok next ∧
      (element l.data next).map Prod.fst = some 1 ∧ it'.bind h'.keyAt = some 2 := by
  have heval : (World.insertAll overtakingHash 0 (⟨Cow.Store.empty, fun _ => 0⟩ : World (Fin 1) ℕ ℕ)
      [(0, 5), (1, 6), (2, 7)] >>= fun w => match (w.hash 0).d with
        | none => .error .undefined
        | some l => increment l.data ⟨10, 0⟩ >>= fun next =>
          (w.hash 0).erase overtakingHash ⟨10, 0⟩ >>= fun r =>
            pure (keyAt (w.hash 0) ⟨10, 0⟩, (element l.data next).map Prod.fst, r.2.bind r.1.keyAt)) =
      .ok (some 0, some 1, some 2) := by
    decide +kernel
  obtain ⟨w, hw, heval⟩ := bind_eq_ok heval
  have hrun := Run.start.insertAll 0 _ hw
  cases hd : (w.hash 0).d with
  | none => simp [hd] at heval
  | some l =>
    simp only [hd] at heval
    obtain ⟨next, hnext, heval⟩ := bind_eq_ok heval
    obtain ⟨⟨h', it'⟩, herase, heval⟩ := bind_eq_ok heval
    simp only [pure_eq_ok, Except.ok.injEq, Prod.mk.injEq] at heval
    exact ⟨w, _, l, h', it', next, hrun, hd, heval.1, herase, hnext, heval.2⟩

end Runs

end QtBase.QMultiHash
