import QtBase.Tools.QCacheOps

/-! Whole runs of member calls on a `QCache`: it holds the last used objects whose costs add up to no
more than the greatest cost. -/
namespace QtBase.QCache

open QtBase.Lib QtBase.QHashPrivate LinearProbing List

variable {K T : Type}

/-- `index` is `operator[]`. -/
inductive Call (K T : Type) where
  | insert (key : K) (v : Value T)
  | object (key : K)
  | index (key : K)
  | contains (key : K)
  | remove (key : K)
  | take (key : K)
  | setMaxCost (m : ℤ)
  | clear

inductive Answer (T : Type) where
  | void
  | bool (b : Bool)
  | object (t : Option T)

namespace Call

/-- No cost is negative. -/
def Valid : Call K T → Prop
  | insert _ v => 0 ≤ v.cost
  | setMaxCost m => 0 ≤ m
  | _ => True

/-- The table cannot grow. -/
def Oom (c : QCache K T) : Call K T → Prop
  | insert _ _ => ∃ size ≤ c.table.d.size, TooLarge (size + 1)
  | _ => False

variable [DecidableEq K]

def run (calculateHash : K → ℕ → ℕ) (c : QCache K T) : Call K T → Exec (QCache K T × Answer T)
  | insert key v => do
    let (c, b) ← c.insert calculateHash key v.t v.cost
    pure (c, .bool b)
  | object key | index key => do
    let (c, t) ← c.object calculateHash key
    pure (c, .object t)
  | contains key => do
    let b ← c.contains calculateHash key
    pure (c, .bool b)
  | remove key => do
    let (c, b) ← c.remove calculateHash key
    pure (c, .bool b)
  | take key => do
    let (c, t) ← c.take calculateHash key
    pure (c, .object t)
  | setMaxCost m => do
    let c ← c.setMaxCost calculateHash m
    pure (c, .void)
  | clear => pure (c.clear, .void)

/-- What the call does to the entries, the last used one first. -/
def effect (mx : ℤ) (l : List (Entry K T)) : Call K T → List (Entry K T)
  | insert key v => inserted mx l key v
  | object key | index key => Lru.touch Node.key key l
  | contains _ => l
  | remove key | take key => Lru.without Node.key key l
  | setMaxCost m => Lru.evict nodeCost m l
  | clear => []

def answer (mx : ℤ) (l : List (Entry K T)) : Call K T → Answer T
  | insert _ v => .bool (decide (v.cost ≤ mx))
  | object key | index key | take key =>
    .object ((Lru.lookup Node.key key l).bind fun n => n.value.t)
  | contains key | remove key => .bool (Lru.lookup Node.key key l).isSome
  | setMaxCost _ | clear => .void

/-- The greatest cost after the call. -/
def newMaxCost (mx : ℤ) : Call K T → ℤ
  | setMaxCost m => m
  | _ => mx

/-- What the last of the calls that insert for a key inserts; the last call comes first. -/
def lastInserted (key : K) : List (Call K T) → Option (Value T)
  | [] => none
  | insert key' v :: calls => if key' = key then some v else lastInserted key calls
  | _ :: calls => lastInserted key calls

end Call

variable [DecidableEq K]

/-- The cache after some calls, and its entries as these calls have left them. -/
inductive Run (calculateHash : K → ℕ → ℕ) :
    QCache K T → List (Entry K T) → List (Call K T) → Prop
  | construct {globalSeed maxCost c} : 0 ≤ maxCost → construct globalSeed maxCost = .ok c →
      Run calculateHash c [] []
  | step {c l calls call c' answer} : Run calculateHash c l calls → call.Valid →
      call.run calculateHash c = .ok (c', answer) →
      Run calculateHash c' (call.effect c.maxCost l) (call :: calls)

omit [DecidableEq K] in
/-- The entries are the nodes of the table; the chain visits them in their order, and backwards in
the other; what they cost together is known and not too much. -/
structure Refines (c : QCache K T) (l : List (Entry K T)) : Prop where
  stored : ∀ n, Holds c.table.d.numBuckets c.table.d.cell n ↔ n ∈ l
  nodup : (l.map Node.key).Nodup
  forward : ∀ steps, l.length ≤ steps →
    (Links.walk c.table.links.next .chain steps (c.table.links.next .chain)).map c.table.node =
      l.map Except.ok
  backward : ∀ steps, l.length ≤ steps →
    (Links.walk c.table.links.prev .chain steps (c.table.links.prev .chain)).map c.table.node =
      l.reverse.map Except.ok
  total_eq : c.totalCost = Lru.total nodeCost l
  total_le : c.totalCost ≤ c.maxCost

/-- What every call keeps. -/
structure Sound (calculateHash : K → ℕ → ℕ) (c : QCache K T) (l : List (Entry K T)) : Prop
    extends Linked calculateHash c l where
  total_eq : c.total = Lru.total nodeCost l
  cost_nonneg : ∀ n ∈ l, 0 ≤ nodeCost n
  total_le : c.total ≤ c.mx
  mx_nonneg : 0 ≤ c.mx

namespace Sound

variable {calculateHash : K → ℕ → ℕ} {c : QCache K T} {l : List (Entry K T)}

omit [DecidableEq K] in
theorem refines (h : Sound calculateHash c l) : Refines c l := by
  obtain ⟨loc, hp⟩ := h.placed
  obtain ⟨hchain, _⟩ := nodup_cons.mp hp.ring.nodup
  have hlength : ((l.map Node.key).map loc).length = l.length := by
    rw [length_map, length_map]
  have hnode : ((l.map Node.key).map loc).map c.table.node = l.map .ok := by
    rw [map_map, map_map]
    apply map_congr_left
    intro n hn
    obtain ⟨b, hb, hbn⟩ := (h.holds n).mpr hn
    obtain ⟨_, hloc⟩ := hp.stored b hb n hbn
    show c.table.node (loc n.key) = _
    rw [hloc, Table.node_eq hp.toSeparate (h.inv hn).toStorage hb hbn]
  refine ⟨h.holds, h.nodup, ?_, ?_, h.total_eq, h.total_le⟩
  · intro steps hsteps
    rw [hp.ring.path.walk_next hchain steps (by rw [hlength]; exact hsteps), hnode]
  · intro steps hsteps
    rw [hp.ring.path.walk_prev hchain steps (by rw [hlength]; exact hsteps), map_reverse,
      hnode, map_reverse]

omit [DecidableEq K] in
theorem construct {globalSeed : ℕ} {maxCost : ℤ} (hmax : 0 ≤ maxCost)
    (h : QCache.construct globalSeed maxCost = .ok c) : Sound calculateHash c [] := by
  unfold QCache.construct at h
  obtain ⟨d, hd, h⟩ := bind_eq_ok h
  rw [pure_eq_ok, Except.ok.injEq] at h
  obtain ⟨herr, _⟩ | ⟨d', hd', hinv, _, _, hcell⟩ :=
    Data.new_spec (V := Value T) calculateHash globalSeed 0
  · rw [herr] at hd
    cases hd
  rw [hd', Except.ok.injEq] at hd
  rw [← h, ← hd]
  refine ⟨⟨.inr hinv, ⟨fun _ => .chain, ?_⟩, ?_⟩, rfl, fun n hn => absurd hn not_mem_nil,
    hmax, hmax⟩
  · refine ⟨⟨fun _ => Nat.zero_lt_one, fun s _ hne => absurd rfl hne, ?_⟩,
      Links.Ring.empty rfl rfl, ?_, fun k hk => absurd hk not_mem_nil,
      fun k hk => absurd hk not_mem_nil⟩
    · intro s _ hne
      change (d'.spans s).allocated ≠ 0 at hne
      unfold Data.new at hd'
      obtain ⟨spans, hspans, hd'⟩ := bind_eq_ok hd'
      rw [pure_eq_ok, Except.ok.injEq] at hd'
      unfold allocateSpans at hspans
      split at hspans
      · cases hspans
      · rw [Except.ok.injEq] at hspans
        rw [← hd', ← hspans] at hne
        exact absurd rfl hne
    · intro b _ n hn
      change d'.cell b = some n at hn
      rw [hcell] at hn
      cases hn
  · intro n
    constructor
    · rintro ⟨b, _, hb⟩
      change d'.cell b = some n at hb
      rw [hcell] at hb
      cases hb
    · exact fun hn => absurd hn not_mem_nil

theorem inserted (h : Sound calculateHash c l) (key : K) {v : Value T} (hv : 0 ≤ v.cost) :
    (∀ n ∈ inserted c.mx l key v, 0 ≤ nodeCost n) ∧
      Lru.total nodeCost (inserted c.mx l key v) ≤ c.mx := by
  unfold QCache.inserted
  by_cases hlarge : v.cost > c.mx
  · rw [if_pos hlarge]
    have hle := @Lru.total_without_le _ _ _ Node.key nodeCost key l h.cost_nonneg
    have heq := h.total_eq
    have hmax := h.total_le
    exact ⟨fun n hn => h.cost_nonneg n (Lru.mem_without.1 hn).1, by omega⟩
  · rw [if_neg hlarge]
    have hkept : ∀ n ∈ Lru.evict nodeCost (c.mx - v.cost) l, 0 ≤ nodeCost n :=
      fun n hn => h.cost_nonneg n (Lru.evict_isPrefix.subset hn)
    have hle := @Lru.total_without_le _ _ _ Node.key nodeCost key _ hkept
    have hroom := @Lru.total_evict_le _ nodeCost l (c.mx - v.cost) (by omega)
    constructor
    · intro n hn
      obtain rfl | hn := mem_cons.mp hn
      · exact hv
      · exact hkept n (Lru.mem_without.1 hn).1
    · rw [Lru.total_cons]
      show v.cost + _ ≤ _
      omega

theorem call (h : Sound calculateHash c l) (call : Call K T) (hvalid : call.Valid) :
    Ends (call.run calculateHash c) (call.Oom c) fun r =>
      r.2 = call.answer c.mx l ∧ r.1.mx = call.newMaxCost c.mx ∧
        Sound calculateHash r.1 (call.effect c.mx l) := by
  have htake : ∀ {c' : QCache K T} (key : K),
      Linked calculateHash c' (Lru.without Node.key key l) → c'.mx = c.mx →
      c'.total = c.total - (Lru.total nodeCost l -
        Lru.total nodeCost (Lru.without Node.key key l)) →
      Sound calculateHash c' (Lru.without Node.key key l) := by
    intro c' key hlinked hmx htotal
    have hle := @Lru.total_without_le _ _ _ Node.key nodeCost key l h.cost_nonneg
    have heq := h.total_eq
    have hmax := h.total_le
    exact ⟨hlinked, by omega, fun n hn => h.cost_nonneg n (Lru.mem_without.1 hn).1, by omega,
      hmx ▸ h.mx_nonneg⟩
  have htouch : ∀ {c' : QCache K T} (key : K), Linked calculateHash c' (Lru.touch Node.key key l) →
      c'.mx = c.mx → c'.total = c.total →
      Sound calculateHash c' (Lru.touch Node.key key l) := by
    intro c' key hlinked hmx htotal
    have heq := @Lru.total_touch _ _ _ Node.key nodeCost key l h.nodup
    exact ⟨hlinked, by rw [heq, htotal]; exact h.total_eq,
      fun n hn => h.cost_nonneg n ((Lru.mem_touch h.nodup).mp hn),
      by rw [htotal, hmx]; exact h.total_le, hmx ▸ h.mx_nonneg⟩
  cases call with
  | insert key v =>
    change 0 ≤ v.cost at hvalid
    apply (h.toLinked.insert h.total_eq key v).bind
    rintro ⟨c', b⟩ ⟨hb, hlinked, hmx, htotal⟩
    obtain ⟨hnonneg, hle⟩ := h.inserted key hvalid
    refine Ends.ok ⟨congrArg Answer.bool hb, hmx, hlinked, htotal, hnonneg, ?_, hmx ▸ h.mx_nonneg⟩
    rw [htotal, hmx]
    exact hle
  | object key =>
    obtain ⟨c', hrun, hlinked, hmx, htotal⟩ := h.toLinked.relink key
    show Ends (c.relink calculateHash key >>= _) _ _
    rw [hrun, ok_bind]
    exact Ends.ok ⟨rfl, hmx, htouch key hlinked hmx htotal⟩
  | index key =>
    obtain ⟨c', hrun, hlinked, hmx, htotal⟩ := h.toLinked.relink key
    show Ends (c.relink calculateHash key >>= _) _ _
    rw [hrun, ok_bind]
    exact Ends.ok ⟨rfl, hmx, htouch key hlinked hmx htotal⟩
  | contains key =>
    have hrun : c.contains calculateHash key = .ok (Lru.lookup Node.key key l).isSome := by
      unfold QCache.contains
      rw [h.toLinked.isEmpty_eq]
      cases hfind : Lru.lookup Node.key key l with
      | none =>
        split
        · rfl
        · next hne =>
          rw [h.toLinked.findNode_none (by rintro rfl; exact hne rfl) hfind]
          rfl
      | some n =>
        obtain ⟨b, _, _, hnode⟩ := h.toLinked.findNode_some hfind
        have hne : l.isEmpty = false := by
          cases l with
          | nil => cases hfind
          | cons => rfl
        rw [hne, if_neg (by decide), hnode]
        rfl
    show Ends (c.contains calculateHash key >>= _) _ _
    rw [hrun, ok_bind]
    exact Ends.ok ⟨rfl, rfl, h⟩
  | remove key =>
    obtain ⟨c', hrun, hlinked, hmx, htotal⟩ := h.toLinked.remove key
    show Ends (c.remove calculateHash key >>= _) _ _
    rw [hrun, ok_bind]
    exact Ends.ok ⟨rfl, hmx, htake key hlinked hmx htotal⟩
  | take key =>
    obtain ⟨c', hrun, hlinked, hmx, htotal⟩ := h.toLinked.take key
    show Ends (c.take calculateHash key >>= _) _ _
    rw [hrun, ok_bind]
    exact Ends.ok ⟨rfl, hmx, htake key hlinked hmx htotal⟩
  | setMaxCost m =>
    change 0 ≤ m at hvalid
    have hm : Linked calculateHash { c with mx := m } l := ⟨h.data, h.placed, h.holds⟩
    obtain ⟨c', hrun, hlinked, hmx, htotal, _⟩ :=
      hm.trimLoop m (c.table.d.size + 1) h.total_eq (Nat.lt_succ_self _)
    show Ends (QCache.trimLoop calculateHash m (c.table.d.size + 1) { c with mx := m } >>= _) _ _
    rw [hrun, ok_bind]
    have hle := @Lru.total_evict_le _ nodeCost l m hvalid
    refine Ends.ok ⟨rfl, hmx, hlinked, htotal, ?_, by rw [htotal, hmx]; exact hle, hmx ▸ hvalid⟩
    exact fun n hn => h.cost_nonneg n (Lru.evict_isPrefix.subset hn)
  | clear =>
    exact Ends.ok ⟨rfl, rfl, h.toLinked.clear, rfl, fun n hn => absurd hn not_mem_nil,
      h.mx_nonneg, h.mx_nonneg⟩

end Sound

variable {calculateHash : K → ℕ → ℕ} {c : QCache K T} {l : List (Entry K T)}
  {calls : List (Call K T)}

theorem Run.sound (h : Run calculateHash c l calls) : Sound calculateHash c l := by
  induction h with
  | construct hmax hrun => exact Sound.construct hmax hrun
  | step _ hvalid hrun ih => exact ((ih.call _ hvalid).of_ok hrun).2.2

theorem Run.lastInserted (h : Run calculateHash c l calls) :
    ∀ n ∈ l, Call.lastInserted n.key calls = some n.value := by
  induction h with
  | construct => exact fun n hn => absurd hn not_mem_nil
  | @step c l calls call c' answer hprev _ _ ih =>
    have hnodup := hprev.sound.nodup
    cases call with
    | insert key v =>
      have hold : ∀ l', (∀ n ∈ l', n ∈ l) → ∀ n ∈ Lru.without Node.key key l',
          Call.lastInserted n.key (.insert key v :: calls) = some n.value := by
        intro l' hl' n hn
        obtain ⟨hmem, hne⟩ := Lru.mem_without.1 hn
        exact (if_neg (Ne.symm hne)).trans (ih n (hl' n hmem))
      show ∀ n ∈ inserted c.maxCost l key v, _
      unfold inserted
      split
      · exact hold l fun n hn => hn
      · intro n hn
        obtain rfl | hn := mem_cons.mp hn
        · exact if_pos rfl
        · exact hold _ (fun m hm => Lru.evict_isPrefix.subset hm) n hn
    | object key => exact fun n hn => ih n ((Lru.mem_touch hnodup).mp hn)
    | index key => exact fun n hn => ih n ((Lru.mem_touch hnodup).mp hn)
    | contains key => exact ih
    | remove key => exact fun n hn => ih n (Lru.mem_without.1 hn).1
    | take key => exact fun n hn => ih n (Lru.mem_without.1 hn).1
    | setMaxCost m => exact fun n hn => ih n (Lru.evict_isPrefix.subset hn)
    | clear => exact fun n hn => absurd hn not_mem_nil

/-- After every run the chain visits the nodes of the table, the last used one first, and their costs
add up to no more than the greatest cost. A lookup finds the object that was inserted last for its
key, unless that was dropped or removed. Every further call does to the entries what a list in the
order of their last use has done to it, or throws because the table cannot grow. -/
theorem lru_of_run (calculateHash : K → ℕ → ℕ) (c : QCache K T) (l : List (Entry K T))
    (calls : List (Call K T)) (h : Run calculateHash c l calls) :
    Refines c l ∧ (∀ n ∈ l, Call.lastInserted n.key calls = some n.value) ∧
      ∀ call : Call K T, call.Valid → Ends (call.run calculateHash c) (call.Oom c) fun r =>
        r.2 = call.answer c.maxCost l ∧ r.1.maxCost = call.newMaxCost c.maxCost ∧
          Refines r.1 (call.effect c.maxCost l) := by
  refine ⟨h.sound.refines, h.lastInserted, fun call hvalid => ?_⟩
  refine (h.sound.call call hvalid).mono id ?_
  rintro r ⟨hanswer, hmax, hsound⟩
  exact ⟨hanswer, hmax, hsound.refines⟩

/-- An object in a new cache. -/
theorem lru_of_run_insert : ∃ c : QCache ℕ ℕ, Refines c [⟨5, ⟨some 7, 3⟩⟩] ∧ c.totalCost = 3 := by
  obtain ⟨c₀, hc₀, hsize⟩ : ∃ c, (QCache.construct 0 4 : Exec (QCache ℕ ℕ)) = .ok c ∧
      c.table.d.size = 0 := ⟨_, rfl, rfl⟩
  have h₀ : Run (fun key _ => key) c₀ [] [] := Run.construct (by decide) hc₀
  have hvalid : (Call.insert 5 ⟨some 7, 3⟩ : Call ℕ ℕ).Valid := show (0 : ℤ) ≤ 3 by decide
  obtain ⟨⟨c, a⟩, hc, _⟩ | ⟨_, size, hle, hlarge⟩ :=
    (lru_of_run _ _ _ _ h₀).2.2 (.insert 5 ⟨some 7, 3⟩) hvalid
  · obtain ⟨hrefines, _⟩ := lru_of_run _ _ _ _ (h₀.step hvalid hc)
    have hmax : c₀.maxCost = 4 := by
      obtain rfl := Except.ok.inj hc₀
      rfl
    rw [hmax] at hrefines
    exact ⟨c, hrefines, hrefines.total_eq⟩
  · rw [hsize] at hle
    rw [Nat.le_zero.mp hle] at hlarge
    unfold TooLarge at hlarge
    exact absurd hlarge (by decide)

end QtBase.QCache
