import QtBase.Lib.Lru
import QtBase.Tools.HashModel
import QtBase.Tools.QCacheMoves

/-! What each operation of a `QCache` does to the list of its nodes, the last used one first. -/
namespace QtBase.QCache

open QtBase.Lib QtBase.QHashPrivate LinearProbing List Function Nat Bucket

variable {K T : Type}

abbrev Entry (K T : Type) := Node K (Value T)

def nodeCost (n : Entry K T) : ℤ := n.value.cost

/-- The entries after `insert`; an object that costs more than all may is not taken. -/
def inserted [DecidableEq K] (mx : ℤ) (l : List (Entry K T)) (key : K) (v : Value T) :
    List (Entry K T) :=
  if v.cost > mx then Lru.without Node.key key l
  else ⟨key, v⟩ :: Lru.without Node.key key (Lru.evict nodeCost (mx - v.cost) l)

/-- The node of an address is the one whose bucket has it. -/
theorem Table.node_eq {V : Type} {t : Table K V} (h : t.Separate) (hs : t.d.Storage) {b : ℕ}
    (hb : b < t.d.numBuckets) {n : Node K V} (hc : t.d.cell b = some n) :
    t.node (t.address (ofIndex b)) = .ok n := by
  have hmod : b % 128 < NEntries := mod_lt _ (by decide)
  have hlt := Table.offset_lt_allocated hs hb hc
  have hspan := Table.span_lt hs hb
  have hne := h.allocated _ hspan (ne_zero_of_lt hlt)
  obtain ⟨m, -, hm⟩ := hs.exists_mul
  have hshift : t.d.numBuckets >>> SpanShift = t.d.numBuckets / 128 := by
    rw [SpanShift, shiftRight_eq_div_pow]
  obtain ⟨-, hentry⟩ := ((hs.span_inv hb).cell_eq_some hmod).mp hc
  rw [Table.address_ofIndex]
  unfold Table.node
  dsimp only
  rw [hshift]
  cases hfind : (List.range (t.d.numBuckets / 128)).find? fun s =>
      decide ((t.d.spans s).allocated ≠ 0 ∧ t.entries s = t.entries (b / 128)) with
  | none =>
    have hno := List.find?_eq_none.mp hfind (b / 128) (mem_range.mpr hspan)
    exact absurd (decide_eq_true ⟨ne_zero_of_lt hlt, rfl⟩) hno
  | some s =>
    have hs' := List.find?_some hfind
    obtain ⟨_, heq⟩ := of_decide_eq_true hs'
    have hsb := h.entries_inj _ _ hne heq.symm
    rw [← hsb]
    dsimp only
    rw [qAssert_pos hlt, ok_bind, hentry]
    rfl

/-- The nodes of the cache are the entries of `l`, linked in this order. -/
structure Linked (calculateHash : K → ℕ → ℕ) (c : QCache K T) (l : List (Entry K T)) : Prop where
  data : (c.table.d.numBuckets = 0 ∧ c.table.d.size = 0) ∨ c.table.d.Inv calculateHash
  placed : ∃ loc, c.table.Placed (l.map Node.key) loc
  holds : ∀ n, Holds c.table.d.numBuckets c.table.d.cell n ↔ n ∈ l

namespace Linked

variable {calculateHash : K → ℕ → ℕ} {c : QCache K T} {l : List (Entry K T)}

theorem nodup (h : Linked calculateHash c l) : (l.map Node.key).Nodup := by
  obtain ⟨loc, hp⟩ := h.placed
  exact (nodup_cons.mp hp.ring.nodup).2.of_map

variable {n : Entry K T}

theorem inv (h : Linked calculateHash c l) (hn : n ∈ l) :
    c.table.d.Inv calculateHash := by
  obtain ⟨hzero, _⟩ | hinv := h.data
  · obtain ⟨b, hb, _⟩ := (h.holds n).mpr hn
    omega
  · exact hinv

theorem isEmpty_eq (h : Linked calculateHash c l) : c.isEmpty = l.isEmpty := by
  unfold isEmpty
  cases l with
  | nil =>
    obtain ⟨_, hsize⟩ | hinv := h.data
    · rw [hsize]
      rfl
    · have hcard : (occupied c.table.d.numBuckets c.table.d.cell).card = 0 := by
        rw [Finset.card_eq_zero, Finset.eq_empty_iff_forall_notMem]
        intro b hb
        obtain ⟨hlt, n, hn⟩ := mem_occupied.1 hb
        exact absurd ((h.holds n).mp ⟨b, hlt, hn⟩) not_mem_nil
      rw [← hinv.size_eq, hcard]
      rfl
  | cons n l =>
    have hinv := h.inv mem_cons_self
    obtain ⟨b, hb, hn⟩ := (h.holds n).mpr mem_cons_self
    have hpos : 0 < (occupied c.table.d.numBuckets c.table.d.cell).card :=
      Finset.card_pos.mpr ⟨b, mem_occupied.2 ⟨hb, n, hn⟩⟩
    rw [hinv.size_eq] at hpos
    show decide (c.table.d.size = 0) = false
    exact decide_eq_false (by omega)

variable [DecidableEq K]

theorem findBucket (h : Linked calculateHash c l) (hn : n ∈ l) :
    ∃ b < c.table.d.numBuckets, c.table.d.cell b = some n ∧
      Data.findBucket calculateHash c.table.d n.key = .ok (ofIndex b) := by
  have hinv := h.inv hn
  obtain ⟨b, hb, hbn⟩ := (h.holds n).mpr hn
  obtain ⟨r, hr, hfind, -, ⟨v, hv⟩ | ⟨-, hnone⟩⟩ :=
    Data.findBucket_spec hinv.toStorage hinv.probed hinv.exists_empty n.key
  · have hrb := hinv.distinct r hr b hb _ n hv hbn rfl
    exact ⟨b, hb, hbn, hrb ▸ hfind⟩
  · exact absurd rfl (hnone b hb n hbn)

theorem findNode_some (h : Linked calculateHash c l) {key : K}
    (hn : Lru.lookup Node.key key l = some n) :
    ∃ b < c.table.d.numBuckets, c.table.d.cell b = some n ∧
      c.findNode calculateHash key = .ok (some (ofIndex b, n)) := by
  obtain ⟨hmem, rfl⟩ := Lru.mem_of_lookup hn
  obtain ⟨b, hb, hbn, hfind⟩ := h.findBucket hmem
  have hs := (h.inv hmem).toStorage
  have hused : c.table.d.isUnused (ofIndex b) = false := by
    rw [Bool.eq_false_iff, Ne, hs.isUnused_iff hb, hbn]
    exact Option.some_ne_none n
  refine ⟨b, hb, hbn, ?_⟩
  unfold findNode
  rw [hfind, ok_bind, hused, if_neg (by decide), hs.node_eq hb hbn]
  rfl

theorem findNode_none (h : Linked calculateHash c l) {key : K} (hne : l ≠ [])
    (hn : Lru.lookup Node.key key l = none) : c.findNode calculateHash key = .ok none := by
  obtain ⟨n, hmem⟩ := exists_mem_of_ne_nil l hne
  have hinv := h.inv hmem
  obtain ⟨r, hr, hfind, -, ⟨v, hv⟩ | ⟨hfree, -⟩⟩ :=
    Data.findBucket_spec hinv.toStorage hinv.probed hinv.exists_empty key
  · have hin := (h.holds ⟨key, v⟩).mp ⟨r, hr, hv⟩
    exact absurd (mem_map_of_mem hin) (Lru.lookup_eq_none.1 hn)
  · unfold findNode
    rw [hfind, ok_bind, (hinv.isUnused_iff hr).mpr hfree, if_pos rfl]
    rfl

/-! ## Taking nodes out -/

theorem unlink (h : Linked calculateHash c l) {b : ℕ} (hb : b < c.table.d.numBuckets)
    (hc : c.table.d.cell b = some n) :
    ∃ c', c.unlink calculateHash (c.table.address (ofIndex b)) = .ok c' ∧
      Linked calculateHash c' (Lru.without Node.key n.key l) ∧ c'.mx = c.mx ∧
      c'.total = c.total - n.value.cost ∧ c'.table.d.size + 1 = c.table.d.size := by
  have hmem := (h.holds n).mp ⟨b, hb, hc⟩
  have hinv := h.inv hmem
  obtain ⟨loc, hp⟩ := h.placed
  obtain ⟨b', hb', hc', hfind⟩ := h.findBucket hmem
  have heq := hinv.distinct b' hb' b hb n n hc' hc rfl
  rw [heq] at hfind
  obtain ⟨d', hole, herase, hinv', hnb, hsd, hsz, -, hholds⟩ := Data.erase_spec hinv hb hc
  obtain ⟨t', hrun, rfl⟩ := ok_of_map
    ((Table.erase_d calculateHash { c.table with
      links := c.table.links.unlink (c.table.address (ofIndex b)) }
      (ofIndex b)).trans herase)
  obtain ⟨loc', hp'⟩ := hp.erase hinv.toStorage hb hc hrun
  refine ⟨{ c with table := t', total := c.total - n.value.cost }, ?_,
    ⟨.inr hinv', ⟨loc', ?_⟩, ?_⟩, rfl, rfl, hsz⟩
  · unfold QCache.unlink
    rw [Table.node_eq hp.toSeparate hinv.toStorage hb hc, ok_bind, hfind, ok_bind, hrun, ok_bind]
    rfl
  · rw [Lru.map_without h.nodup]
    exact hp'
  · intro m
    rw [Lru.mem_without]
    show Holds t'.d.numBuckets t'.d.cell m ↔ _
    rw [hholds, h.holds]

/-- The entry of `key` is taken out. -/
theorem remove (h : Linked calculateHash c l) (key : K) :
    ∃ c', c.remove calculateHash key = .ok (c', (Lru.lookup Node.key key l).isSome) ∧
      Linked calculateHash c' (Lru.without Node.key key l) ∧ c'.mx = c.mx ∧
      c'.total = c.total - (Lru.total nodeCost l -
        Lru.total nodeCost (Lru.without Node.key key l)) := by
  unfold QCache.remove
  rw [h.isEmpty_eq]
  cases hfind : Lru.lookup Node.key key l with
  | none =>
    rw [Lru.without_of_notMem (Lru.lookup_eq_none.1 hfind)]
    refine ⟨c, ?_, h, rfl, by omega⟩
    split
    · rfl
    · next hne =>
      rw [h.findNode_none (by rintro rfl; exact hne rfl) hfind]
      rfl
  | some n =>
    obtain ⟨hmem, rfl⟩ := Lru.mem_of_lookup hfind
    obtain ⟨b, hb, hbn, hnode⟩ := h.findNode_some hfind
    obtain ⟨c', hrun, hlinked, hmx, htotal, -⟩ := h.unlink hb hbn
    have hne : l.isEmpty = false := by
      cases l with
      | nil => cases hmem
      | cons => rfl
    refine ⟨c', ?_, hlinked, hmx, ?_⟩
    · rw [hne, if_neg (by decide), hnode, ok_bind]
      simp [hrun]
    · rw [htotal, Lru.total_without h.nodup hmem]
      show c.total - n.value.cost = c.total - (_ - (_ - n.value.cost))
      omega

/-- Assigning to the value of a node leaves it where it is. -/
theorem assign (h : Linked calculateHash c l) {b : ℕ} (hb : b < c.table.d.numBuckets)
    {n : Entry K T} (hc : c.table.d.cell b = some n) (v : Value T) :
    Linked calculateHash { c with table := { c.table with
      d := c.table.d.construct (ofIndex b) ⟨n.key, v⟩ } }
      (Lru.replace Node.key n.key ⟨n.key, v⟩ l) ∧
      (c.table.d.construct (ofIndex b) ⟨n.key, v⟩).cell b = some ⟨n.key, v⟩ := by
  have hmem := (h.holds n).mp ⟨b, hb, hc⟩
  have hinv := h.inv hmem
  obtain ⟨loc, hp⟩ := h.placed
  obtain ⟨hinv', hcell⟩ := hinv.assign hb hc v
  have hself : (c.table.d.construct (ofIndex b) ⟨n.key, v⟩).cell b =
      some ⟨n.key, v⟩ := by
    rw [hcell, update_self]
  have hother : ∀ b', b' ≠ b → (c.table.d.construct (ofIndex b) ⟨n.key, v⟩).cell b' =
      c.table.d.cell b' := by
    intro b' hne
    rw [hcell, update_of_ne hne]
  have hmap : (Lru.replace Node.key n.key (⟨n.key, v⟩ : Entry K T) l).map Node.key =
      l.map Node.key := Lru.map_replace rfl
  refine ⟨⟨.inr hinv', ⟨loc, ⟨hp.entries_lt, hp.entries_inj, ?_⟩, ?_, ?_, ?_, ?_⟩, ?_⟩, hself⟩
  · intro s hs hne
    change ((c.table.d.construct (ofIndex b) ⟨n.key, v⟩).spans s).allocated ≠ 0 at hne
    rw [(Table.spans_construct _ _ _ _).2] at hne
    exact hp.allocated s hs hne
  · rw [hmap]
    exact hp.ring
  · intro b' hb' m hm
    have haddress : Table.address { c.table with
        d := c.table.d.construct (ofIndex b) ⟨n.key, v⟩ } (ofIndex b') =
        c.table.address (ofIndex b') := by
      rw [Table.address_ofIndex, Table.address_ofIndex]
      show Ptr.node _ (((c.table.d.construct (ofIndex b) ⟨n.key, v⟩).spans _).offsets _) = _
      rw [(Table.spans_construct _ _ _ _).1]
    rw [haddress, hmap]
    change (c.table.d.construct (ofIndex b) ⟨n.key, v⟩).cell b' = some m at hm
    by_cases hbb : b' = b
    · rw [hbb, hself, Option.some.injEq] at hm
      rw [← hm, hbb]
      exact hp.stored b hb n hc
    · rw [hother b' hbb] at hm
      exact hp.stored b' hb' m hm
  · rw [hmap]
    intro k hk
    obtain ⟨b', hb', m, hm, hmk⟩ | hout := hp.here k hk
    · left
      by_cases hbb : b' = b
      · refine ⟨b, hb, ⟨n.key, v⟩, hself, ?_⟩
        rw [hbb, hc, Option.some.injEq] at hm
        rw [← hmk, ← hm]
      · exact ⟨b', hb', m, (hother b' hbb).trans hm, hmk⟩
    · exact .inr hout
  · rw [hmap]
    exact hp.below
  · intro m
    show Holds c.table.d.numBuckets (c.table.d.construct (ofIndex b) ⟨n.key, v⟩).cell m ↔ _
    unfold Lru.replace
    rw [mem_map]
    constructor
    · rintro ⟨b', hb', hm⟩
      by_cases hbb : b' = b
      · rw [hbb, hself, Option.some.injEq] at hm
        exact ⟨n, hmem, (if_pos rfl).trans hm⟩
      · rw [hother b' hbb] at hm
        refine ⟨m, (h.holds m).mp ⟨b', hb', hm⟩, if_neg fun hk => hbb ?_⟩
        exact hinv.distinct b' hb' b hb m n hm hc hk
    · rintro ⟨m', hm', rfl⟩
      by_cases hk : m'.key = n.key
      · rw [if_pos hk]
        exact ⟨b, hb, hself⟩
      · rw [if_neg hk]
        obtain ⟨b', hb', hbm⟩ := (h.holds m').mpr hm'
        refine ⟨b', hb', (hother b' ?_).trans hbm⟩
        rintro rfl
        rw [hc, Option.some.injEq] at hbm
        exact hk (by rw [hbm])

/-- The entry of `key` is taken out, and its object is handed over. -/
theorem take (h : Linked calculateHash c l) (key : K) :
    ∃ c', c.take calculateHash key =
        .ok (c', (Lru.lookup Node.key key l).bind fun n => n.value.t) ∧
      Linked calculateHash c' (Lru.without Node.key key l) ∧ c'.mx = c.mx ∧
      c'.total = c.total - (Lru.total nodeCost l -
        Lru.total nodeCost (Lru.without Node.key key l)) := by
  unfold QCache.take
  rw [h.isEmpty_eq]
  cases hfind : Lru.lookup Node.key key l with
  | none =>
    rw [Lru.without_of_notMem (Lru.lookup_eq_none.1 hfind)]
    refine ⟨c, ?_, h, rfl, by omega⟩
    split
    · rfl
    · next hne =>
      rw [h.findNode_none (by rintro rfl; exact hne rfl) hfind]
      rfl
  | some n =>
    obtain ⟨hmem, rfl⟩ := Lru.mem_of_lookup hfind
    obtain ⟨b, hb, hbn, hnode⟩ := h.findNode_some hfind
    obtain ⟨hassign, hcell⟩ := h.assign hb hbn { n.value with t := none }
    obtain ⟨c', hrun, hlinked, hmx, htotal, -⟩ := hassign.unlink hb hcell
    have hne : l.isEmpty = false := by
      cases l with
      | nil => cases hmem
      | cons => rfl
    have hwithout : Lru.without Node.key n.key (Lru.replace Node.key n.key
        (⟨n.key, { n.value with t := none }⟩ : Entry K T) l) = Lru.without Node.key n.key l :=
      Lru.without_replace rfl
    rw [hwithout] at hlinked
    refine ⟨c', ?_, hlinked, hmx, ?_⟩
    · rw [hne, if_neg (by decide), hnode, ok_bind]
      simp [hrun]
    · rw [htotal, Lru.total_without h.nodup hmem]
      show c.total - n.value.cost = c.total - (_ - (_ - n.value.cost))
      omega

/-! ## Using nodes -/

theorem relink_links {links : Links Ptr} {n : Ptr} (hn : n ≠ .chain)
    (hfirst : links.next .chain ≠ n) :
    (let links := links.setNext n (links.next .chain)
      let links := links.setPrev (links.next .chain) n
      let links := links.setPrev n .chain
      links.setNext .chain n) = links.pushFront .chain n := by
  unfold Links.pushFront Links.setNext Links.setPrev
  dsimp only
  rw [update_of_ne hn.symm, update_comm hfirst]

/-- The entry of `key` is the last used one. -/
theorem relink (h : Linked calculateHash c l) (key : K) :
    ∃ c', c.relink calculateHash key =
        .ok (c', (Lru.lookup Node.key key l).bind fun n => n.value.t) ∧
      Linked calculateHash c' (Lru.touch Node.key key l) ∧ c'.mx = c.mx ∧
      c'.total = c.total := by
  unfold QCache.relink
  rw [h.isEmpty_eq]
  cases hfind : Lru.lookup Node.key key l with
  | none =>
    have htouch : Lru.touch Node.key key l = l := by
      unfold Lru.touch
      rw [hfind]
    rw [htouch]
    refine ⟨c, ?_, h, rfl, rfl⟩
    split
    · rfl
    · next hne =>
      rw [h.findNode_none (by rintro rfl; exact hne rfl) hfind]
      rfl
  | some n =>
    obtain ⟨hmem, rfl⟩ := Lru.mem_of_lookup hfind
    obtain ⟨b, hb, hbn, hnode⟩ := h.findNode_some hfind
    obtain ⟨loc, hp⟩ := h.placed
    obtain ⟨hkey, hloc⟩ := hp.stored b hb n hbn
    have hne : l.isEmpty = false := by
      cases l with
      | nil => cases hmem
      | cons => rfl
    have htouch : Lru.touch Node.key n.key l = n :: Lru.without Node.key n.key l := by
      unfold Lru.touch
      rw [hfind]
    rw [hne, if_neg (by decide), hnode, ok_bind]
    dsimp only
    by_cases hfirst : c.table.links.next .chain = c.table.address (ofIndex b)
    · rw [if_neg (not_not.mpr hfirst)]
      refine ⟨_, rfl, ?_, rfl, rfl⟩
      have hsame : Lru.touch Node.key n.key l = l := by
        rw [htouch]
        cases l with
        | nil => cases hmem
        | cons m rest =>
          have hring := hp.ring.path
          rw [← hloc] at hfirst
          have heq : loc m.key = loc n.key := hring.1.symm.trans hfirst
          have hmn := inj_on_of_nodup_map (nodup_cons.mp hp.ring.nodup).2
            mem_cons_self hkey heq
          have hnodup := h.nodup
          have hm := inj_on_of_nodup_map hnodup mem_cons_self hmem hmn
          rw [map_cons] at hnodup
          rw [← hm, Lru.without_cons_of_eq rfl,
            Lru.without_of_notMem (nodup_cons.mp hnodup).1]
      rw [hsame]
      exact h
    · rw [if_pos hfirst]
      refine ⟨_, rfl, ⟨h.data, ⟨loc, ?_⟩, ?_⟩, rfl, rfl⟩
      · have hplaced := hp.touch hkey
        have hunlinked := (hp.unlink hkey).path.next_mem
        obtain ⟨hchain, hnodup⟩ := nodup_cons.mp hplaced.ring.nodup
        have hne' : loc n.key ≠ .chain := by
          intro heq
          exact hchain (heq ▸ mem_cons_self)
        have hnot : (c.table.links.unlink (loc n.key)).next .chain ≠ loc n.key := by
          intro heq
          rw [heq] at hunlinked
          obtain hin | hin := mem_append.mp hunlinked
          · exact (nodup_cons.mp hnodup).1 hin
          · exact hne' (mem_singleton.mp hin)
        rw [htouch, map_cons, Lru.map_without h.nodup, ← hloc, relink_links hne' hnot]
        exact hplaced
      · intro m
        rw [Lru.mem_touch h.nodup]
        exact h.holds m

/-! ## Dropping nodes -/

theorem trimLoop (m : ℤ) (steps : ℕ) (h : Linked calculateHash c l)
    (htotal : c.total = Lru.total nodeCost l) (hsteps : c.table.d.size < steps) :
    ∃ c', trimLoop calculateHash m steps c = .ok c' ∧
      Linked calculateHash c' (Lru.evict nodeCost m l) ∧ c'.mx = c.mx ∧
      c'.total = Lru.total nodeCost (Lru.evict nodeCost m l) ∧
      c'.table.d.size ≤ c.table.d.size := by
  induction steps generalizing c l with
  | zero => exact absurd hsteps (not_lt_zero _)
  | succ steps ih =>
    obtain ⟨loc, hp⟩ := h.placed
    unfold QCache.trimLoop
    obtain rfl | ⟨rest, n, rfl⟩ : l = [] ∨ ∃ rest n, l = rest ++ [n] := eq_nil_or_concat' l
    · have hprev : c.table.links.prev .chain = .chain := hp.ring.path.2
      rw [if_neg (by rintro ⟨hne, _⟩; exact hne hprev)]
      exact ⟨c, rfl, h, rfl, htotal, le_refl _⟩
    · have hmem : n ∈ rest ++ [n] := mem_append_right _ (mem_singleton_self n)
      obtain ⟨b, hb, hbn⟩ := (h.holds n).mpr hmem
      obtain ⟨hkey, hloc⟩ := hp.stored b hb n hbn
      have hpath := hp.ring.path
      rw [map_append, map_append, map_singleton, map_singleton] at hpath
      have hprev : c.table.links.prev .chain = c.table.address (ofIndex b) := by
        rw [← hloc]
        exact (Links.path_append.1 hpath).2.2
      rw [Lru.evict_append]
      by_cases hlarge : Lru.total nodeCost (rest ++ [n]) > m
      · obtain ⟨c₁, hrun, hlinked, hmx, htotal₁, hsize⟩ := h.unlink hb hbn
        rw [Lru.without_append_self h.nodup] at hlinked
        have hcost : Lru.total nodeCost rest =
            Lru.total nodeCost (rest ++ [n]) - n.value.cost := by
          have hwithout := @Lru.total_without _ _ _ Node.key nodeCost _ _ h.nodup hmem
          rw [Lru.without_append_self h.nodup] at hwithout
          exact hwithout
        rw [← htotal, ← htotal₁] at hcost
        obtain ⟨c', hrun', hlinked', hmx', htotal', hsize'⟩ := ih hlinked hcost.symm (by omega)
        rw [if_pos ⟨by rw [hprev]; exact Ptr.noConfusion, by rw [htotal]; exact hlarge⟩,
          if_pos hlarge, hprev, hrun, ok_bind]
        exact ⟨c', hrun', hlinked', hmx'.trans hmx, htotal', by omega⟩
      · rw [if_neg (by rintro ⟨_, hgt⟩; rw [htotal] at hgt; exact hlarge hgt), if_neg hlarge]
        exact ⟨c, rfl, h, rfl, htotal, le_refl _⟩

omit [DecidableEq K] in
/-- `clear` leaves no node. -/
theorem clear (h : Linked calculateHash c l) : Linked calculateHash c.clear [] := by
  obtain ⟨loc, hp⟩ := h.placed
  refine ⟨.inl ⟨rfl, rfl⟩, ⟨loc, ⟨hp.entries_lt, hp.entries_inj, ?_⟩, ?_, ?_, ?_, ?_⟩, ?_⟩
  · intro s hs
    change s < 0 / 128 at hs
    exact absurd hs (not_lt_zero s)
  · apply Links.Ring.empty
    · show update c.table.links.next .chain .chain .chain = .chain
      exact update_self _ _ _
    · show update c.table.links.prev .chain .chain .chain = .chain
      exact update_self _ _ _
  · intro b hb
    exact absurd hb (not_lt_zero b)
  · exact fun k hk => absurd hk not_mem_nil
  · exact fun k hk => absurd hk not_mem_nil
  · intro n
    constructor
    · rintro ⟨b, hb, _⟩
      exact absurd hb (not_lt_zero b)
    · exact fun hn => absurd hn not_mem_nil

/-! ## Inserting -/

/-- A table without buckets, before its first insertion. -/
def unborn (t : Table K (Value T)) : Table K (Value T) :=
  { t with d := { t.d with numBuckets := 128, spans := fun _ => Span.new }, entries := fun _ => 0 }

omit [DecidableEq K] in
theorem inv_unborn (calculateHash : K → ℕ → ℕ) {t : Table K (Value T)} (hs : t.d.size = 0) :
    (unborn t).d.Inv calculateHash ∧ ∀ b, (unborn t).d.cell b = none := by
  have hcell : ∀ b, (unborn t).d.cell b = none := fun b => Span.cell_new _
  have hmax : 128 ≤ MaxBucketCount := by decide
  refine ⟨⟨⟨⟨0, rfl⟩, hmax, fun _ _ => Span.inv_new⟩, ?_, ?_, ?_, ?_⟩, hcell⟩
  · intro b _ n hn
    rw [hcell] at hn
    cases hn
  · intro b _ b' _ n n' hn
    rw [hcell] at hn
    cases hn
  · show _ = t.d.size
    rw [hs, Finset.card_eq_zero, Finset.eq_empty_iff_forall_notMem]
    intro b hb
    obtain ⟨_, n, hn⟩ := mem_occupied.1 hb
    rw [hcell] at hn
    cases hn
  · show 2 * t.d.size ≤ 128
    omega

theorem findOrInsert_unborn {t : Table K (Value T)} (hn : t.d.numBuckets = 0) (hs : t.d.size = 0)
    (key : K) : t.findOrInsert calculateHash key = (unborn t).findOrInsert calculateHash key := by
  obtain ⟨hinv, hcell⟩ := inv_unborn calculateHash hs
  obtain ⟨r, hr, hfind, -, hres⟩ :=
    Data.findBucket_spec hinv.toStorage hinv.probed hinv.exists_empty key
  have hunused : (unborn t).d.isUnused (ofIndex r) = true :=
    (hinv.isUnused_iff hr).mpr (hcell r)
  have hrehash : t.rehash calculateHash (t.d.size + 1) = .ok (unborn t) := by
    have hmax : ¬128 > MaxBucketCount := by decide
    unfold Table.rehash
    rw [hs, hn]
    show (allocateSpans K (Value T) 128 >>= fun spans => _) = _
    unfold allocateSpans
    rw [if_neg hmax, ok_bind]
    rfl
  have hgrow : t.d.shouldGrow = true := by
    unfold Data.shouldGrow
    rw [hs, hn]
    rfl
  have hsmall : (unborn t).d.shouldGrow = false := by
    show decide (t.d.size ≥ 128 >>> 1) = false
    rw [hs]
    rfl
  unfold Table.findOrInsert
  dsimp only
  rw [if_neg (by omega), if_pos hinv.numBuckets_pos, hfind]
  show Table.findOrInsert.place calculateHash key t none =
    (if (unborn t).d.isUnused (ofIndex r) = true then
      Table.findOrInsert.place calculateHash key (unborn t) (some (ofIndex r))
    else .ok (unborn t, ofIndex r, true))
  rw [if_pos hunused]
  unfold Table.findOrInsert.place
  dsimp only
  rw [if_pos hgrow, hsmall, if_neg (by decide), hrehash, ok_bind, hfind, ok_bind]

/-- The table always has buckets for an insertion. -/
theorem born (h : Linked calculateHash c l) : ∃ t : Table K (Value T),
    (∀ key, c.table.findOrInsert calculateHash key = t.findOrInsert calculateHash key) ∧
      Linked calculateHash { c with table := t } l ∧ t.d.Inv calculateHash ∧
      t.d.size = c.table.d.size := by
  obtain ⟨hn, hs⟩ | hinv := h.data
  · obtain ⟨loc, hp⟩ := h.placed
    have hnil : l = [] := by
      apply eq_nil_iff_forall_not_mem.mpr
      intro n hmem
      obtain ⟨b, hb, _⟩ := (h.holds n).mpr hmem
      omega
    obtain ⟨hinv, hcell⟩ := inv_unborn calculateHash hs
    refine ⟨unborn c.table, findOrInsert_unborn hn hs, ⟨.inr hinv, ⟨loc, ?_⟩, ?_⟩, hinv, rfl⟩
    · exact hp.fresh _ rfl
    · intro n
      rw [hnil]
      constructor
      · rintro ⟨b, _, hb⟩
        rw [hcell] at hb
        cases hb
      · exact fun hn => absurd hn not_mem_nil
  · exact ⟨c.table, fun _ => rfl, h, hinv, rfl⟩

theorem insertNew (h : Linked calculateHash c l) (hinv : c.table.d.Inv calculateHash) {key : K}
    (hkey : key ∉ l.map Node.key) {t : Table K (Value T)} {it : Bucket}
    (hrun : c.table.findOrInsert calculateHash key = .ok (t, it, false)) (v : Value T) :
    Linked calculateHash { c with table := { t with
      d := t.d.construct it ⟨key, v⟩
      links := t.links.pushFront .chain (t.address it) } } (⟨key, v⟩ :: l) := by
  obtain ⟨loc, hp⟩ := h.placed
  obtain ⟨b, loc', rfl, hbut⟩ := hp.findOrInsert hinv hkey hrun v
  have hplaced := hbut.pushFront hkey
  have haddress : Table.address { t with d := t.d.construct (ofIndex b) ⟨key, v⟩ }
      (ofIndex b) = t.address (ofIndex b) := by
    rw [Table.address_ofIndex, Table.address_ofIndex]
    show Ptr.node _ (((t.d.construct (ofIndex b) ⟨key, v⟩).spans _).offsets _) = _
    rw [(Table.spans_construct _ _ _ _).1]
  rw [haddress] at hplaced
  have hproj := Table.findOrInsert_d calculateHash c.table key
  rw [hrun] at hproj
  change Except.ok (t.d, ofIndex b, false) = _ at hproj
  obtain ⟨herr, _⟩ | ⟨b', _, v', hok, _⟩ | ⟨d₁, b', hok, hb', _, hcons⟩ :=
    Data.findOrInsert_spec hinv key
  · rw [herr] at hproj
    cases hproj
  · rw [hok, Except.ok.injEq, Prod.mk.injEq, Prod.mk.injEq] at hproj
    cases hproj.2.2
  · rw [hok, Except.ok.injEq, Prod.mk.injEq, Prod.mk.injEq, ofIndex_inj] at hproj
    obtain ⟨hd, hbb, _⟩ := hproj
    obtain ⟨d₂, heq, hinv₂, _, _, hnb, hholds⟩ := hcons v
    rw [← hd, ← hbb] at heq
    refine ⟨Or.inr (by rw [← heq]; exact hinv₂), ⟨_, hplaced⟩, ?_⟩
    intro n
    show Holds (t.d.construct (ofIndex b) ⟨key, v⟩).numBuckets
      (t.d.construct (ofIndex b) ⟨key, v⟩).cell n ↔ _
    rw [← heq, hholds, h.holds, List.mem_cons, or_comm]

theorem insert (h : Linked calculateHash c l) (htotal : c.total = Lru.total nodeCost l) (key : K)
    (v : Value T) : Ends (c.insert calculateHash key v.t v.cost)
      (∃ size ≤ c.table.d.size, TooLarge (size + 1)) fun r =>
        r.2 = decide (v.cost ≤ c.mx) ∧ Linked calculateHash r.1 (inserted c.mx l key v) ∧
          r.1.mx = c.mx ∧ r.1.total = Lru.total nodeCost (inserted c.mx l key v) := by
  unfold QCache.insert inserted
  by_cases hlarge : v.cost > c.mx
  · obtain ⟨c', hrun, hlinked, hmx, htotal'⟩ := h.remove key
    rw [if_pos hlarge, if_pos hlarge, hrun, decide_eq_false (Int.not_le.mpr hlarge)]
    refine Ends.ok ⟨rfl, hlinked, hmx, ?_⟩
    show c'.total = _
    omega
  rw [if_neg hlarge, if_neg hlarge, decide_eq_true (Int.not_lt.mp hlarge)]
  obtain ⟨c₁, hrun₁, h₁, hmx₁, htotal₁, hsize₁⟩ :=
    h.trimLoop (c.mx - v.cost) (c.table.d.size + 1) htotal (lt_succ_self _)
  unfold QCache.trim
  rw [hrun₁, ok_bind]
  generalize Lru.evict nodeCost (c.mx - v.cost) l = l₁ at h₁ htotal₁ ⊢
  obtain ⟨t, ht, hlinked, hinv, hsize⟩ := h₁.born
  rw [ht]
  have hproj := Table.findOrInsert_d calculateHash t key
  obtain ⟨herr, hmax, -⟩ | ⟨b, hb, v', hok, hcell⟩ | ⟨d₁, b, hok, hb, hnone, -⟩ :=
    Data.findOrInsert_spec hinv key
  · rw [herr] at hproj
    rw [error_of_map hproj]
    exact .inr ⟨rfl, t.d.size, by omega, hmax⟩
  · rw [hok] at hproj
    obtain ⟨⟨t', it, found⟩, hrun, heq⟩ := ok_of_map hproj
    rw [Prod.mk.injEq, Prod.mk.injEq] at heq
    obtain ⟨_, rfl, rfl⟩ := heq
    obtain rfl := Table.findOrInsert_old hrun
    have hmem : (⟨key, v'⟩ : Entry K T) ∈ l₁ := (hlinked.holds _).mp ⟨b, hb, hcell⟩
    obtain ⟨hassign, -⟩ := hlinked.assign hb hcell v
    obtain ⟨c', hrelink, hlinked', hmx', htotal'⟩ := hassign.relink key
    have hnode := hinv.toStorage.node_eq hb hcell
    have hlist : Lru.touch Node.key key (Lru.replace Node.key key (⟨key, v⟩ : Entry K T) l₁) =
        ⟨key, v⟩ :: Lru.without Node.key key l₁ := by
      have hfind := @Lru.lookup_replace _ _ _ Node.key key l₁ (⟨key, v⟩ : Entry K T) rfl
        h₁.nodup (mem_map_of_mem hmem)
      have hwithout := @Lru.without_replace _ _ _ Node.key key l₁ (⟨key, v⟩ : Entry K T) rfl
      unfold Lru.touch
      rw [hfind]
      show _ :: Lru.without Node.key key (Lru.replace Node.key key _ l₁) = _
      rw [hwithout]
    rw [hlist] at hlinked'
    rw [hrun, ok_bind]
    dsimp only
    rw [if_pos rfl, hnode, ok_bind]
    dsimp only
    rw [hrelink, ok_bind]
    refine Ends.ok ⟨rfl, ?_, hmx'.trans hmx₁, ?_⟩
    · exact ⟨hlinked'.data, hlinked'.placed, hlinked'.holds⟩
    · show c'.total + (v.cost - v'.cost) = _
      have hwithout := @Lru.total_without _ _ _ Node.key nodeCost _ _ h₁.nodup hmem
      rw [Lru.total_cons, hwithout, htotal']
      show c₁.total + (v.cost - v'.cost) = v.cost + (_ - v'.cost)
      omega
  · rw [hok] at hproj
    obtain ⟨⟨t', it, found⟩, hrun, heq⟩ := ok_of_map hproj
    rw [Prod.mk.injEq, Prod.mk.injEq] at heq
    obtain ⟨_, rfl, rfl⟩ := heq
    have hkey : key ∉ l₁.map Node.key := by
      intro hin
      obtain ⟨n, hn, hnk⟩ := mem_map.mp hin
      exact hnone n ((hlinked.holds n).mpr hn) hnk
    have hnew := hlinked.insertNew hinv hkey hrun v
    rw [Lru.without_of_notMem hkey, hrun, ok_bind]
    dsimp only
    rw [if_neg (by decide)]
    refine Ends.ok ⟨rfl, ⟨hnew.data, hnew.placed, hnew.holds⟩, hmx₁, ?_⟩
    show c₁.total + v.cost = _
    rw [Lru.total_cons]
    show _ = v.cost + _
    omega

end Linked

end QtBase.QCache
