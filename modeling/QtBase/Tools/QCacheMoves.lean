import QtBase.Tools.QCachePlaced

/-! The nodes of a `QCache` stay linked while its table inserts, moves and erases. -/
namespace QtBase.QCache

open QtBase.Lib QtBase.QHashPrivate LinearProbing List Function Nat Bucket

variable {K V : Type}

namespace Table

variable {t t' : Table K V} {order : List K} {loc : K → Ptr}

/-! ## A node that is not linked where it is -/

/-- All nodes but the one with key `k` in bucket `b` are where they are linked. -/
structure PlacedBut (t : Table K V) (b : ℕ) (k : K) (order : List K) (loc : K → Ptr) : Prop
    extends Separate t where
  storage : t.d.Storage
  lt : b < t.d.numBuckets
  node : ∃ n, t.d.cell b = some n ∧ n.key = k
  ring : t.links.Ring .chain (order.map loc)
  stored : ∀ c < t.d.numBuckets, c ≠ b → ∀ n, t.d.cell c = some n →
    n.key ∈ order ∧ n.key ≠ k ∧ loc n.key = t.address (Bucket.ofIndex c)
  here : ∀ k' ∈ order, k' ≠ k →
    (∃ c < t.d.numBuckets, ∃ n, t.d.cell c = some n ∧ n.key = k') ∨ t.Outside (loc k')
  below : ∀ k' ∈ order, ∃ e i, loc k' = .node e i ∧ e < t.unused
  moves : k ∈ order → loc k ≠ t.address (Bucket.ofIndex b)

namespace PlacedBut

variable {b : ℕ} {k : K}

theorem entries_ne_zero (h : PlacedBut t b k order loc) : t.entries (b / 128) ≠ 0 := by
  obtain ⟨n, hn, _⟩ := h.node
  have hlt := offset_lt_allocated h.storage h.lt hn
  exact h.allocated _ (span_lt h.storage h.lt) (by omega)

/-- Nothing is linked at the address of the bucket. -/
theorem notMem (h : PlacedBut t b k order loc) :
    t.address (ofIndex b) ∉ Ptr.chain :: order.map loc := by
  intro hmem
  obtain heq | hmem := mem_cons.mp hmem
  · rw [address_ofIndex] at heq
    cases heq
  · obtain ⟨k', hk', hloc⟩ := mem_map.mp hmem
    by_cases hkk : k' = k
    · rw [hkk] at hk' hloc
      exact h.moves hk' hloc
    · obtain ⟨c, hc, m, hm, hmk⟩ | hout := h.here k' hk' hkk
      · obtain ⟨n, hn, hnk⟩ := h.node
        have hcb : c ≠ b := by
          rintro rfl
          rw [hn, Option.some.injEq] at hm
          exact hkk (by rw [← hmk, ← hm, hnk])
        obtain ⟨_, _, hplace⟩ := h.stored c hc hcb m hm
        rw [hmk, hloc] at hplace
        exact hcb (h.address_inj h.storage h.lt hn hplace).symm
      · rw [address_ofIndex] at hloc
        exact hout _ _ h.entries_ne_zero hloc

variable [DecidableEq K]

theorem stored_update (h : PlacedBut t b k order loc) :
    ∀ c < t.d.numBuckets, ∀ n, t.d.cell c = some n → (n.key ∈ order ∨ n.key = k) ∧
      update loc k (t.address (ofIndex b)) n.key =
        t.address (ofIndex c) := by
  intro c hc n hn
  by_cases hcb : c = b
  · obtain ⟨m, hm, hmk⟩ := h.node
    rw [hcb, hm, Option.some.injEq] at hn
    rw [← hn, hmk, hcb, update_self]
    exact ⟨.inr rfl, rfl⟩
  · obtain ⟨hmem, hne, hloc⟩ := h.stored c hc hcb n hn
    rw [update_of_ne hne]
    exact ⟨.inl hmem, hloc⟩

theorem here_update (h : PlacedBut t b k order loc) : ∀ k', k' ∈ order ∨ k' = k →
    (∃ c < t.d.numBuckets, ∃ n, t.d.cell c = some n ∧ n.key = k') ∨
      t.Outside (update loc k (t.address (ofIndex b)) k') := by
  intro k' hk'
  by_cases hkk : k' = k
  · obtain ⟨n, hn, hnk⟩ := h.node
    exact .inl ⟨b, h.lt, n, hn, hnk.trans hkk.symm⟩
  · rw [update_of_ne hkk]
    exact h.here k' (hk'.resolve_right hkk) hkk

theorem below_update (h : PlacedBut t b k order loc) : ∀ k', k' ∈ order ∨ k' = k →
    ∃ e i, update loc k (t.address (ofIndex b)) k' = .node e i ∧
      e < t.unused := by
  intro k' hk'
  by_cases hkk : k' = k
  · rw [hkk, update_self, address_ofIndex]
    exact ⟨_, _, rfl, h.entries_lt _⟩
  · rw [update_of_ne hkk]
    exact h.below k' (hk'.resolve_right hkk)

theorem relocate (h : PlacedBut t b k order loc) (hk : k ∈ order) :
    Placed { t with links := t.links.relocate (loc k) (t.address (ofIndex b)) } order
      (update loc k (t.address (ofIndex b))) := by
  have hor : ∀ {k'}, k' ∈ order ∨ k' = k → k' ∈ order := by
    rintro k' (hk' | rfl)
    · exact hk'
    · exact hk
  refine ⟨⟨h.entries_lt, h.entries_inj, h.allocated⟩, ?_, ?_, ?_, ?_⟩
  · have hring := h.ring.map_relocate (mem_map_of_mem hk) h.notMem
    have hnodup := (nodup_cons.mp h.ring.nodup).2
    rw [map_map] at hring
    have hmap : order.map (update loc k (t.address (ofIndex b))) =
        order.map ((fun p => if p = loc k then t.address (ofIndex b) else p) ∘ loc) := by
      apply map_congr_left
      intro k' hk'
      by_cases hkk : k' = k
      · rw [hkk, update_self]
        exact (if_pos rfl).symm
      · rw [update_of_ne hkk]
        refine (if_neg fun heq => hkk ?_).symm
        exact inj_on_of_nodup_map hnodup hk' hk heq
    rw [hmap]
    exact hring
  · intro c hc n hn
    obtain ⟨hmem, hloc⟩ := h.stored_update c hc n hn
    exact ⟨hor hmem, hloc⟩
  · exact fun k' hk' => h.here_update k' (.inl hk')
  · exact fun k' hk' => h.below_update k' (.inl hk')

theorem pushFront (h : PlacedBut t b k order loc) (hk : k ∉ order) :
    Placed { t with links := t.links.pushFront .chain (t.address (ofIndex b)) } (k :: order)
      (update loc k (t.address (ofIndex b))) := by
  refine ⟨⟨h.entries_lt, h.entries_inj, h.allocated⟩, ?_, ?_, ?_, ?_⟩
  · have hring := h.ring.pushFront h.notMem
    have hmap : order.map (update loc k (t.address (ofIndex b))) =
        order.map loc := by
      apply map_congr_left
      intro k' hk'
      apply update_of_ne
      rintro rfl
      exact hk hk'
    simp [hmap, hring]
  · intro c hc n hn
    obtain ⟨hmem, hloc⟩ := h.stored_update c hc n hn
    exact ⟨mem_cons.mpr hmem.symm, hloc⟩
  · exact fun k' hk' => h.here_update k' (mem_cons.mp hk').symm
  · exact fun k' hk' => h.below_update k' (mem_cons.mp hk').symm

end PlacedBut

/-! ## A node in a free bucket -/

theorem insertAt_eq {b : ℕ} (h : t.insertAt (ofIndex b) = .ok t') :
    ∃ sp, (t.d.spans (b / 128)).insert (b % 128) = .ok sp ∧
      t' = { t.addStorage (b / 128) with d := t.d.setSpan (b / 128) sp } := by
  rw [ofIndex_eq] at h
  unfold insertAt Data.insertAt at h
  obtain ⟨d, hd, h⟩ := bind_eq_ok h
  obtain ⟨sp, hsp, hd⟩ := bind_eq_ok hd
  rw [pure_eq_ok, Except.ok.injEq] at h hd
  rw [← hd] at h
  exact ⟨sp, hsp, h.symm⟩

theorem spans_construct (d : Data K V) (b : ℕ) (n : Node K V) (s : ℕ) :
    ((d.construct (ofIndex b) n).spans s).offsets = (d.spans s).offsets ∧
      ((d.construct (ofIndex b) n).spans s).allocated = (d.spans s).allocated := by
  rw [ofIndex_eq]
  unfold Data.construct Data.setSpan
  by_cases hs : s = b / 128
  · rw [hs]
    show (update d.spans (b / 128) _ (b / 128)).offsets = _ ∧
      (update d.spans (b / 128) _ (b / 128)).allocated = _
    rw [update_self]
    exact ⟨rfl, rfl⟩
  · show (update d.spans (b / 128) _ s).offsets = _ ∧
      (update d.spans (b / 128) _ s).allocated = _
    rw [update_of_ne hs]
    exact ⟨rfl, rfl⟩

/-- A table whose nodes are where they are linked, but for the new node of bucket `b`. -/
theorem Placed.but (h : Placed t order loc) {d : Data K V} {b : ℕ} {n : Node K V}
    (hst : d.Storage) (hnb : d.numBuckets = t.d.numBuckets) (hb : b < d.numBuckets)
    (hn : d.cell b = some n)
    (hcell : ∀ c < d.numBuckets, c ≠ b → ∀ m, d.cell c = some m → t.d.cell c = some m ∧ m.key ≠ n.key ∧
      (d.spans (c / 128)).offsets (c % 128) = (t.d.spans (c / 128)).offsets (c % 128))
    (hkeep : ∀ c m, t.d.cell c = some m → m.key ≠ n.key → d.cell c = some m)
    (halloc : ∀ s < d.numBuckets / 128, (d.spans s).allocated ≠ 0 → t.entries s ≠ 0)
    (hmoves : n.key ∈ order →
      loc n.key ≠ .node (t.entries (b / 128)) ((d.spans (b / 128)).offsets (b % 128))) :
    PlacedBut { t with d := d } b n.key order loc := by
  refine ⟨⟨h.entries_lt, h.entries_inj, halloc⟩, hst, hb, ⟨n, hn, rfl⟩, h.ring, ?_, ?_, h.below, ?_⟩
  · intro c hc hcb m hm
    obtain ⟨hold, hne, hoff⟩ := hcell c hc hcb m hm
    obtain ⟨hmem, hloc⟩ := h.stored c (hnb ▸ hc) m hold
    refine ⟨hmem, hne, ?_⟩
    rw [hloc, address_ofIndex, address_ofIndex]
    show Ptr.node _ ((t.d.spans (c / 128)).offsets (c % 128)) =
      Ptr.node _ ((d.spans (c / 128)).offsets (c % 128))
    rw [hoff]
  · intro k hk hne
    obtain ⟨c, hc, m, hm, hmk⟩ | hout := h.here k hk
    · refine .inl ⟨c, hnb ▸ hc, m, hkeep c m hm ?_, hmk⟩
      rw [hmk]
      exact hne
    · exact .inr hout
  · rw [address_ofIndex]
    exact hmoves

/-- After `insertAt` and the construction of `n` there, `n` is the one node that is not linked where
it is. -/
theorem Placed.insertAt (h : Placed t order loc) (hs : t.d.Storage) {b : ℕ}
    (hb : b < t.d.numBuckets) (hfree : t.d.cell b = none)
    (hins : t.insertAt (ofIndex b) = .ok t') (n : Node K V)
    (hout : n.key ∈ order → t.Outside (loc n.key)) :
    ∃ loc', PlacedBut { t' with d := t'.d.construct (ofIndex b) n } b n.key order loc' ∧
      ∀ k ∈ order, t.Outside (loc k) → loc' k = loc k := by
  obtain ⟨sp, hsp, rfl⟩ := insertAt_eq hins
  obtain ⟨⟨loc', h', hframe⟩, hgrown⟩ := h.addStorage hs (span_lt hs hb)
  obtain ⟨hoffsets, halloc⟩ := Span.insert_frame hsp
  obtain ⟨d₁, hd₁, hnb, -, -, hcons⟩ := Data.insertAt_spec hs hb hfree
  have hd : d₁ = t.d.setSpan (b / 128) sp := by
    rw [ofIndex_eq] at hd₁
    unfold Data.insertAt at hd₁
    rw [hsp, ok_bind, pure_eq_ok, Except.ok.injEq] at hd₁
    exact hd₁.symm
  obtain ⟨hst, hcell⟩ := hcons n
  rw [hd] at hst hcell hnb
  refine ⟨loc', ?_, hframe⟩
  have hdata := t.addStorage_d (b / 128)
  have hspan : ∀ s, s ≠ b / 128 → (t.d.setSpan (b / 128) sp).spans s = t.d.spans s :=
    fun s hne => update_of_ne hne _ _
  have hself : (t.d.setSpan (b / 128) sp).spans (b / 128) = sp := update_self _ _ _
  have hentries : ∀ s < t.d.numBuckets / 128,
      (((t.d.setSpan (b / 128) sp).construct (ofIndex b) n).spans s).allocated ≠ 0 →
        (t.addStorage (b / 128)).entries s ≠ 0 := by
    intro s hs' hne
    rw [(spans_construct _ b n _).2] at hne
    by_cases hdiv : s = b / 128
    · subst hdiv
      rw [hself] at hne
      by_cases hfull : (t.d.spans (b / 128)).nextFree = (t.d.spans (b / 128)).allocated
      · exact hgrown hfull
      · rw [halloc hfull] at hne
        rw [Table.addStorage, if_neg hfull]
        exact h.allocated _ hs' hne
    · rw [hspan _ hdiv] at hne
      rw [addStorage_entries_of_ne hdiv]
      exact h.allocated _ hs' hne
  refine @Placed.but K V _ order loc' h' ((t.d.setSpan (b / 128) sp).construct (ofIndex b) n)
    b n hst (by rw [hdata]; exact hnb) hb (by rw [hcell, update_self]) ?_ ?_ ?_ ?_
  · intro c hc hcb m hm
    rw [hcell, update_of_ne hcb] at hm
    change c < t.d.numBuckets at hc
    rw [hdata]
    refine ⟨hm, ?_, ?_⟩
    · intro hkey
      obtain ⟨hmem, hloc⟩ := h.stored c hc m hm
      rw [hkey] at hmem hloc
      have hlt := offset_lt_allocated hs hc hm
      have hne := h.allocated _ (span_lt hs hc) (by omega)
      rw [address_ofIndex] at hloc
      exact hout hmem _ _ hne hloc
    · rw [(spans_construct _ b n _).1]
      by_cases hdiv : c / 128 = b / 128
      · rw [hdiv, hself]
        exact hoffsets _ (by omega)
      · rw [hspan _ hdiv]
  · intro c m hm _
    rw [hdata] at hm
    rw [hcell, update_of_ne]
    · exact hm
    · rintro rfl
      rw [hfree] at hm
      cases hm
  · exact hentries
  · intro hmem
    rw [hframe _ hmem (hout hmem)]
    have hstay := (hout hmem).addStorage (h.below _ hmem) (b / 128)
    apply hstay
    have hlt := @offset_lt_allocated K V
      { t with d := (t.d.setSpan (b / 128) sp).construct (ofIndex b) n } hst b hb n
      (by rw [hcell, update_self])
    exact hentries _ (span_lt hs hb) (ne_zero_of_lt hlt)

/-! ## Erasing -/

variable {n : Node K V}

/-- No key is stored twice. -/
theorem Placed.key_inj (h : Placed t order loc) (hs : t.d.Storage) {b c : ℕ}
    (hb : b < t.d.numBuckets) (hc : c < t.d.numBuckets) {m : Node K V} (hn : t.d.cell b = some n)
    (hm : t.d.cell c = some m) (hkey : n.key = m.key) : b = c := by
  obtain ⟨_, hloc⟩ := h.stored b hb n hn
  obtain ⟨_, hloc'⟩ := h.stored c hc m hm
  rw [hkey, hloc'] at hloc
  exact h.address_inj hs hb hn hloc.symm

theorem Placed.moveLocal (h : Placed t order loc) {nxt hole : ℕ} (hn : nxt < t.d.numBuckets)
    (hcn : t.d.cell nxt = some n) (hne : nxt ≠ hole) (hspan : nxt / 128 = hole / 128)
    {sp : Span (Node K V)}
    (hsp : (t.d.spans (hole / 128)).moveLocal (nxt % 128) (hole % 128) = .ok sp)
    (hcell : (t.d.setSpan (hole / 128) sp).cell = move t.d.cell nxt hole)
    (hh : hole < t.d.numBuckets) (hch : t.d.cell hole = none) :
    Placed { t with d := t.d.setSpan (hole / 128) sp } order loc := by
  obtain ⟨hother, hmoved, halloc⟩ := Span.moveLocal_frame hsp
  have hself : (t.d.setSpan (hole / 128) sp).spans (hole / 128) = sp := update_self _ _ _
  have hspans : ∀ s, s ≠ hole / 128 → (t.d.setSpan (hole / 128) sp).spans s = t.d.spans s :=
    fun s hs => update_of_ne hs _ _
  refine ⟨⟨h.entries_lt, h.entries_inj, ?_⟩, h.ring, ?_, ?_, h.below⟩
  · intro s hs hne'
    change ((t.d.setSpan (hole / 128) sp).spans s).allocated ≠ 0 at hne'
    by_cases hdiv : s = hole / 128
    · rw [hdiv, hself, halloc, ← hdiv] at hne'
      exact h.allocated s hs hne'
    · rw [hspans s hdiv] at hne'
      exact h.allocated s hs hne'
  · intro c hc m hm
    change (t.d.setSpan (hole / 128) sp).cell c = some m at hm
    rw [hcell, move_apply] at hm
    rw [address_ofIndex]
    show _ ∧ loc m.key = Ptr.node (t.entries (c / 128))
      (((t.d.setSpan (hole / 128) sp).spans (c / 128)).offsets (c % 128))
    by_cases hcn' : c = nxt
    · rw [if_pos hcn'] at hm
      cases hm
    · rw [if_neg hcn'] at hm
      by_cases hch : c = hole
      · rw [if_pos hch, hcn, Option.some.injEq] at hm
        obtain ⟨hmem, hloc⟩ := h.stored nxt hn n hcn
        rw [← hm, hch, hself, hmoved (by omega), hloc, address_ofIndex, hspan]
        exact ⟨hmem, rfl⟩
      · rw [if_neg hch] at hm
        obtain ⟨hmem, hloc⟩ := h.stored c hc m hm
        refine ⟨hmem, ?_⟩
        rw [hloc, address_ofIndex]
        by_cases hdiv : c / 128 = hole / 128
        · rw [hdiv, hself, hother _ (by omega) (by omega)]
        · rw [hspans _ hdiv]
  · intro k hk
    obtain ⟨c, hc, m, hm, hmk⟩ | hout := h.here k hk
    · left
      show ∃ b < t.d.numBuckets, ∃ n, (t.d.setSpan (hole / 128) sp).cell b = some n ∧ n.key = k
      rw [hcell]
      by_cases hcn' : c = nxt
      · refine ⟨hole, hh, m, ?_, hmk⟩
        rw [move_apply, if_neg (Ne.symm hne), if_pos rfl, ← hcn', hm]
      · refine ⟨c, hc, m, ?_, hmk⟩
        rw [move_apply, if_neg hcn', if_neg]
        · exact hm
        · rintro rfl
          rw [hch] at hm
          cases hm
    · exact .inr hout

theorem Placed.moveNode [DecidableEq K] (h : Placed t order loc) (hs : t.d.Storage) {nxt hole : ℕ}
    (hn : nxt < t.d.numBuckets) (hh : hole < t.d.numBuckets) (hcn : t.d.cell nxt = some n)
    (hch : t.d.cell hole = none)
    (hmv : t.moveNode (ofIndex nxt) (ofIndex hole) = .ok t') :
    ∃ loc', Placed t' order loc' := by
  have hne : nxt ≠ hole := by
    rintro rfl
    rw [hcn] at hch
    cases hch
  obtain ⟨d, hd, hst, hcell, hnb, -, -⟩ := Data.moveNode_spec hs hn hh hcn hch
  unfold Table.moveNode at hmv
  rw [hd, ok_bind] at hmv
  have hmove := hd
  unfold Data.moveNode at hmove
  rw [ofIndex_eq, ofIndex_eq] at hmv hmove
  dsimp only at hmv hmove
  by_cases hspan : nxt / 128 = hole / 128
  · rw [if_pos hspan, pure_eq_ok, Except.ok.injEq] at hmv
    rw [if_pos hspan] at hmove
    obtain ⟨sp, hsp, hmove⟩ := bind_eq_ok hmove
    rw [pure_eq_ok, Except.ok.injEq] at hmove
    rw [← hmv, ← hmove]
    rw [← hmove] at hcell
    exact ⟨loc, h.moveLocal hn hcn hne hspan hsp hcell hh hch⟩
  · rw [if_neg hspan, pure_eq_ok, Except.ok.injEq] at hmv
    rw [if_neg hspan] at hmove
    obtain ⟨⟨sp, nsp⟩, hsp, hmove⟩ := bind_eq_ok hmove
    rw [pure_eq_ok, Except.ok.injEq] at hmove
    obtain ⟨hto, halloc, hfrom, hfalloc⟩ := Span.moveFromSpan_frame hsp
    obtain ⟨⟨loc', h', -⟩, hgrown⟩ := h.addStorage hs (span_lt hs hh)
    have hdata := t.addStorage_d (hole / 128)
    have hspans : ∀ s, d.spans s = if s = nxt / 128 then nsp else if s = hole / 128 then sp
        else t.d.spans s := by
      intro s
      rw [← hmove]
      show update (update t.d.spans (hole / 128) sp) (nxt / 128) nsp s = _
      rw [update_apply, update_apply]
    have hentries : ∀ s < d.numBuckets / 128, (d.spans s).allocated ≠ 0 →
        (t.addStorage (hole / 128)).entries s ≠ 0 := by
      intro s hs' hne'
      rw [hnb] at hs'
      rw [hspans] at hne'
      by_cases hsn : s = nxt / 128
      · rw [if_pos hsn, hfalloc, ← hsn] at hne'
        rw [addStorage_entries_of_ne (by omega)]
        exact h.allocated s hs' hne'
      · rw [if_neg hsn] at hne'
        by_cases hsh : s = hole / 128
        · subst hsh
          rw [if_pos rfl] at hne'
          by_cases hfull : (t.d.spans (hole / 128)).nextFree = (t.d.spans (hole / 128)).allocated
          · exact hgrown hfull
          · rw [halloc hfull] at hne'
            rw [Table.addStorage, if_neg hfull]
            exact h.allocated _ hs' hne'
        · rw [if_neg hsh] at hne'
          rw [addStorage_entries_of_ne hsh]
          exact h.allocated s hs' hne'
    have hhole : d.cell hole = some n := by
      rw [hcell, move_apply, if_neg (Ne.symm hne), if_pos rfl, hcn]
    obtain ⟨hmem, hloc⟩ := h'.stored nxt (by rw [hdata]; exact hn) n (by rw [hdata]; exact hcn)
    have hsrc : loc' n.key = t.address ⟨nxt / 128, nxt % 128⟩ := by
      rw [hloc, address_ofIndex, hdata, addStorage_entries_of_ne hspan]
      rfl
    have hbut : PlacedBut { t.addStorage (hole / 128) with d := d } hole n.key order loc' := by
      apply h'.but hst (by rw [hdata]; exact hnb) (by rw [hnb]; exact hh) hhole
      · intro c hc hch' m hm
        rw [hnb] at hc
        rw [hcell, move_apply] at hm
        rw [hdata]
        by_cases hcn' : c = nxt
        · rw [if_pos hcn'] at hm
          cases hm
        · rw [if_neg hcn', if_neg hch'] at hm
          refine ⟨hm, fun hkey => hcn' (h.key_inj hs hc hn hm hcn hkey), ?_⟩
          rw [hspans]
          by_cases hsn : c / 128 = nxt / 128
          · rw [if_pos hsn, hfrom _ (by omega), hsn]
          · rw [if_neg hsn]
            by_cases hsh : c / 128 = hole / 128
            · rw [if_pos hsh, hto _ (by omega), hsh]
            · rw [if_neg hsh]
      · intro c m hm hkey
        rw [hdata] at hm
        rw [hcell, move_apply, if_neg, if_neg]
        · exact hm
        · rintro rfl
          rw [hch] at hm
          cases hm
        · rintro rfl
          rw [hcn, Option.some.injEq] at hm
          exact hkey (by rw [hm])
      · exact hentries
      · intro _
        rw [hsrc]
        show Ptr.node (t.entries (nxt / 128)) _ ≠ _
        rw [Ne, Ptr.node.injEq]
        rintro ⟨heq, _⟩
        rw [← addStorage_entries_of_ne hspan] at heq
        have hlt := offset_lt_allocated hs hn hcn
        have hne' := h.allocated _ (span_lt hs hn) (ne_zero_of_lt hlt)
        rw [← addStorage_entries_of_ne (s := hole / 128) hspan] at hne'
        exact hspan (h'.entries_inj _ _ hne' heq)
    have hplaced := hbut.relocate hmem
    rw [hsrc, ofIndex_eq] at hplaced
    rw [← hmv]
    exact ⟨_, hplaced⟩

variable [DecidableEq K] {calculateHash : K → ℕ → ℕ}

theorem Placed.closeHole (k : ℕ) (h : Placed t order loc) (hs : t.d.Storage) {hole nxt : ℕ}
    (hh : hole < t.d.numBuckets) (hn : nxt < t.d.numBuckets) (hemp : t.d.cell hole = none)
    (hrun : t.closeHole calculateHash k (ofIndex hole) (ofIndex nxt) = .ok t') :
    ∃ loc', Placed t' order loc' := by
  induction k generalizing t loc hole nxt with
  | zero => cases hrun
  | succ k ih =>
    have hn' := succ_lt hn
    unfold Table.closeHole at hrun
    dsimp only at hrun
    rw [hs.advance hn] at hrun
    cases hc : t.d.cell (succ t.d.numBuckets nxt) with
    | none =>
      rw [if_pos ((hs.offset_eq_unused hn').mpr hc), Except.ok.injEq] at hrun
      rw [← hrun]
      exact ⟨loc, h⟩
    | some n =>
      have hused : ¬(t.d.spans (ofIndex (succ t.d.numBuckets nxt)).span).offset
          (ofIndex (succ t.d.numBuckets nxt)).index = UnusedEntry := by
        rw [hs.offset_eq_unused hn', hc]
        exact Option.some_ne_none n
      rw [if_neg hused, hs.atOffset_eq hn' hc, ok_bind] at hrun
      obtain ⟨meets, _, hrun⟩ := bind_eq_ok hrun
      cases meets with
      | false => exact ih h hs hh hn' hemp hrun
      | true =>
        obtain ⟨t₁, hmv, hrun⟩ := bind_eq_ok hrun
        obtain ⟨loc₁, h₁⟩ := h.moveNode hs hn' hh hc hemp hmv
        obtain ⟨d, hd, hst, hcl, hnb, -, -⟩ := Data.moveNode_spec hs hn' hh hc hemp
        have hproj := moveNode_d t (ofIndex (succ t.d.numBuckets nxt)) (ofIndex hole)
        rw [hmv, hd] at hproj
        have hd₁ : t₁.d = d := Except.ok.inj hproj
        have hemp₁ : t₁.d.cell (succ t.d.numBuckets nxt) = none := by
          rw [hd₁, hcl, move_apply, if_pos rfl]
        have hlt₁ : succ t.d.numBuckets nxt < t₁.d.numBuckets := by
          simp [hd₁, hnb, hn']
        exact ih h₁ (hd₁ ▸ hst) hlt₁ hlt₁ hemp₁ hrun

/-- The links without one of the nodes. -/
theorem Placed.unlink (h : Placed t order loc) {k : K} (hk : k ∈ order) :
    (t.links.unlink (loc k)).Ring .chain ((order.erase k).map loc) := by
  have hnodup : order.Nodup := (nodup_cons.mp h.ring.nodup).2.of_map
  have hring := h.ring
  obtain ⟨A, B, rfl⟩ := append_of_mem hk
  have hkA : k ∉ A := by
    intro hA
    exact (nodup_append.mp hnodup).2.2 _ hA _ mem_cons_self rfl
  rw [map_append, map_cons] at hring
  rw [erase_append_right _ hkA, erase_cons_head, map_append]
  exact hring.unlink

/-- A node becomes the first one. -/
theorem Placed.touch (h : Placed t order loc) {k : K} (hk : k ∈ order) :
    Placed { t with links := (t.links.unlink (loc k)).pushFront .chain (loc k) }
      (k :: order.erase k) loc := by
  have hnodup : order.Nodup := (nodup_cons.mp h.ring.nodup).2.of_map
  have hmem : ∀ k', k' ∈ k :: order.erase k ↔ k' ∈ order := by
    intro k'
    rw [mem_cons, hnodup.mem_erase_iff]
    constructor
    · rintro (rfl | ⟨_, hk'⟩)
      · exact hk
      · exact hk'
    · intro hk'
      by_cases hkk : k' = k
      · exact .inl hkk
      · exact .inr ⟨hkk, hk'⟩
  have hnew : loc k ∉ Ptr.chain :: (order.erase k).map loc := by
    intro hin
    obtain heq | hin := mem_cons.mp hin
    · exact (nodup_cons.mp h.ring.nodup).1 (heq ▸ mem_map_of_mem hk)
    · obtain ⟨k', hk', hloc⟩ := mem_map.mp hin
      obtain ⟨hne, hk'⟩ := hnodup.mem_erase_iff.mp hk'
      exact hne (inj_on_of_nodup_map (nodup_cons.mp h.ring.nodup).2 hk' hk hloc)
  refine ⟨⟨h.entries_lt, h.entries_inj, h.allocated⟩, (h.unlink hk).pushFront hnew, ?_, ?_, ?_⟩
  · intro b hb n hn
    obtain ⟨hin, hloc⟩ := h.stored b hb n hn
    exact ⟨(hmem _).mpr hin, hloc⟩
  · exact fun k' hk' => h.here k' ((hmem k').mp hk')
  · exact fun k' hk' => h.below k' ((hmem k').mp hk')

/-- A node that is unlinked and then erased is gone from both. -/
theorem Placed.erase (h : Placed t order loc) (hs : t.d.Storage) {b : ℕ} (hb : b < t.d.numBuckets)
    (hc : t.d.cell b = some n)
    (hrun : ({ t with links := t.links.unlink (t.address (ofIndex b)) } : Table K V).erase calculateHash (ofIndex b) = .ok t') :
    ∃ loc', Placed t' (order.erase n.key) loc' := by
  have hmod : b % 128 < NEntries := mod_lt _ (by decide)
  obtain ⟨sp, hsp, hinv, hcells⟩ := (hs.span_inv hb).erase hmod hc
  obtain ⟨hoff, halloc⟩ := Span.erase_frame hsp
  unfold Table.erase at hrun
  obtain ⟨_, _, hrun⟩ := bind_eq_ok hrun
  obtain ⟨sp', hsp', hrun⟩ := bind_eq_ok hrun
  rw [ofIndex_eq] at hsp'
  change (t.d.spans (b / 128)).erase (b % 128) = .ok sp' at hsp'
  rw [hsp, Except.ok.injEq] at hsp'
  rw [← hsp'] at hrun
  have hspan : (ofIndex b).span = b / 128 := by rw [ofIndex_eq]
  rw [hspan] at hrun
  have hst := hs.setSpan hinv (s := b / 128)
  have hcell : (t.d.setSpan (b / 128) sp).cell = update t.d.cell b none :=
    Data.cell_setSpan_update hcells
  have hself : (t.d.setSpan (b / 128) sp).spans (b / 128) = sp := update_self _ _ _
  have hspans : ∀ s, s ≠ b / 128 → (t.d.setSpan (b / 128) sp).spans s = t.d.spans s :=
    fun s hs => update_of_ne hs _ _
  obtain ⟨hmem, hloc⟩ := h.stored b hb n hc
  have hnodup : order.Nodup := (nodup_cons.mp h.ring.nodup).2.of_map
  refine @Placed.closeHole K V
    { t with
      d := { t.d.setSpan (b / 128) sp with size := t.d.size - 1 }
      links := t.links.unlink (t.address (ofIndex b)) } t' (order.erase n.key) loc _
    calculateHash _ ?_ ⟨hst.pow, hst.le_max, hst.spans⟩ b b hb hb ?_ hrun
  · refine ⟨⟨h.entries_lt, h.entries_inj, ?_⟩, ?_, ?_, ?_, ?_⟩
    · intro s hs' hne
      change ((t.d.setSpan (b / 128) sp).spans s).allocated ≠ 0 at hne
      by_cases hdiv : s = b / 128
      · rw [hdiv, hself, halloc, ← hdiv] at hne
        exact h.allocated s hs' hne
      · rw [hspans s hdiv] at hne
        exact h.allocated s hs' hne
    · rw [← hloc]
      exact h.unlink hmem
    · intro c hc' m hm
      change (t.d.setSpan (b / 128) sp).cell c = some m at hm
      rw [hcell] at hm
      by_cases hcb : c = b
      · rw [hcb, update_self] at hm
        cases hm
      · rw [update_of_ne hcb] at hm
        obtain ⟨hmem', hloc'⟩ := h.stored c hc' m hm
        constructor
        · refine (mem_erase_of_ne fun hkey => hcb ?_).mpr hmem'
          exact h.key_inj hs hc' hb hm hc hkey
        · rw [hloc', address_ofIndex, address_ofIndex]
          show Ptr.node _ _ =
            Ptr.node _ (((t.d.setSpan (b / 128) sp).spans (c / 128)).offsets (c % 128))
          by_cases hdiv : c / 128 = b / 128
          · rw [hdiv, hself, hoff _ (by omega)]
          · rw [hspans _ hdiv]
    · intro k hk
      obtain ⟨hne, hk'⟩ := (List.Nodup.mem_erase_iff hnodup).mp hk
      obtain ⟨c, hc', m, hm, hmk⟩ | hout := h.here k hk'
      · refine .inl ⟨c, hc', m, ?_, hmk⟩
        show (t.d.setSpan (b / 128) sp).cell c = some m
        rw [hcell, update_of_ne]
        · exact hm
        · rintro rfl
          rw [hc, Option.some.injEq] at hm
          exact hne (by rw [← hmk, hm])
      · exact .inr hout
    · intro k hk
      exact h.below k (mem_of_mem_erase hk)
  · show (t.d.setSpan (b / 128) sp).cell b = none
    rw [hcell, update_self]

/-! ## Growing -/

/-- The new table after the nodes of the first `b` old buckets have been moved over: the other nodes
are where they were in the old one. -/
structure Rehashed (calculateHash : K → ℕ → ℕ) (old : Table K V) (order : List K) (numBuckets b : ℕ)
    (t : Table K V) (loc : K → Ptr) : Prop extends Placed t order loc where
  moved : Data.Moved calculateHash old.d numBuckets b t.d
  unused_le : old.unused ≤ t.unused
  entries_le : ∀ s, t.entries s ≠ 0 → old.unused ≤ t.entries s
  left : ∀ c < old.d.numBuckets, b ≤ c → ∀ n, old.d.cell c = some n →
    n.key ∈ order ∧ loc n.key = old.address (Bucket.ofIndex c)

theorem findBucketFrom_lt {d : Data K V} (hs : d.Storage) (key : K) (k : ℕ) {b : ℕ}
    (hb : b < d.numBuckets) {it : Bucket}
    (h : Data.findBucketFrom d key k (ofIndex b) = .ok it) :
    ∃ r < d.numBuckets, it = ofIndex r := by
  induction k generalizing b with
  | zero => cases h
  | succ k ih =>
    unfold Data.findBucketFrom at h
    dsimp only at h
    split at h
    · rw [Except.ok.injEq] at h
      exact ⟨b, hb, h.symm⟩
    · obtain ⟨n, _, h⟩ := bind_eq_ok h
      split at h
      · rw [Except.ok.injEq] at h
        exact ⟨b, hb, h.symm⟩
      · rw [hs.advance hb] at h
        exact ih (succ_lt hb) h

theorem findBucket_lt {d : Data K V} (hs : d.Storage) {key : K} {it : Bucket}
    (h : Data.findBucket calculateHash d key = .ok it) :
    ∃ r < d.numBuckets, it = ofIndex r := by
  unfold Data.findBucket at h
  obtain ⟨_, _, h⟩ := bind_eq_ok h
  have hlt : GrowthPolicy.bucketForHash d.numBuckets (calculateHash key d.seed) <
      d.numBuckets := by
    obtain ⟨k, hk⟩ := hs.pow
    rw [Data.bucketForHash_eq hk]
    exact mod_lt _ hs.numBuckets_pos
  exact findBucketFrom_lt hs key _ hlt h

omit [DecidableEq K] in
theorem insertAt_unused {b : Bucket} (h : t.insertAt b = .ok t') : t.unused ≤ t'.unused ∧
    ∀ s, t'.entries s = t.entries s ∨ t'.entries s = t.unused := by
  unfold Table.insertAt at h
  obtain ⟨d, _, h⟩ := bind_eq_ok h
  rw [pure_eq_ok, Except.ok.injEq] at h
  rw [← h]
  exact ⟨t.le_addStorage_unused _, fun s => t.addStorage_entries _ s⟩

theorem Rehashed.reinsert {old : Table K V} (h : old.d.Inv calculateHash)
    (hsep : old.Separate) {s index numBuckets : ℕ} (hidx : index < NEntries)
    (hb : s * 128 + index < old.d.numBuckets) (hroom : old.d.size < numBuckets)
    (hr : Rehashed calculateHash old order numBuckets (s * 128 + index) t loc) :
    ∃ t', Table.reinsert calculateHash old s t index = .ok t' ∧
      ∃ loc', Rehashed calculateHash old order numBuckets (s * 128 + (index + 1)) t' loc' := by
  obtain ⟨d', hd', hmoved⟩ := Data.reinsert_spec h hidx hb hroom hr.moved
  obtain ⟨t', hrun, rfl⟩ := ok_of_map ((reinsert_d calculateHash old s t index).trans hd')
  refine ⟨t', hrun, ?_⟩
  rw [nEntries_eq] at hidx
  have hdiv : (s * 128 + index) / 128 = s := by omega
  have hmod : (s * 128 + index) % 128 = index := by omega
  have hsp := h.span_inv hb
  rw [hdiv] at hsp
  have hcell : old.d.cell (s * 128 + index) = (old.d.spans s).cell index := by
    rw [Data.cell, nEntries_eq, hdiv, hmod]
  unfold Table.reinsert at hrun
  cases hc : (old.d.spans s).cell index with
  | none =>
    have hu := (hsp.cell_eq_none hidx).mp hc
    have hno : (old.d.spans s).hasNode index = false := by
      rw [Span.hasNode, hu]
      rfl
    rw [hno, if_neg (by decide), pure_eq_ok, Except.ok.injEq] at hrun
    subst hrun
    exact ⟨loc, hr.toPlaced, hmoved, hr.unused_le, hr.entries_le,
      fun c hc' hle => hr.left c hc' (by omega)⟩
  | some n =>
    have hu := ((hsp.cell_eq_some hidx).mp hc).1
    have hyes : (old.d.spans s).hasNode index = true := by
      rw [Span.hasNode, bne_iff_ne]
      exact hu
    have hsome : old.d.cell (s * 128 + index) = some n := by rw [hcell, hc]
    obtain ⟨hmem, hloc⟩ := hr.left _ hb (le_refl _) n hsome
    have hout : ∀ c, t.Outside (old.address c) := by
      intro c s' i hne heq
      have hle := hr.entries_le s' hne
      have hlt := hsep.entries_lt c.span
      rw [Table.address, Ptr.node.injEq] at heq
      omega
    rw [if_pos hyes, hsp.at_eq hidx hc, ok_bind] at hrun
    obtain ⟨it, hit, hrun⟩ := bind_eq_ok hrun
    obtain ⟨_, hassert, hrun⟩ := bind_eq_ok hrun
    obtain ⟨t₁, hins, hrun⟩ := bind_eq_ok hrun
    rw [pure_eq_ok, Except.ok.injEq] at hrun
    obtain ⟨r, hr', rfl⟩ := findBucket_lt hr.moved.toStorage hit
    have hfree : t.d.cell r = none := by
      by_contra hne
      rw [← hr.moved.isUnused_iff hr'] at hne
      rw [qAssert_neg hne] at hassert
      cases hassert
    obtain ⟨loc₁, hbut, hframe⟩ := hr.toPlaced.insertAt hr.moved.toStorage hr' hfree hins n
      fun _ => by rw [hloc]; exact hout _
    have hsrc : loc₁ n.key = old.address ⟨s, index⟩ := by
      rw [hframe _ hmem (by rw [hloc]; exact hout _), hloc, ofIndex_eq, hdiv, hmod]
    have hplaced := hbut.relocate hmem
    rw [hsrc] at hplaced
    subst hrun
    obtain ⟨hunused, hentries⟩ := insertAt_unused hins
    refine ⟨_, hplaced, hmoved, le_trans hr.unused_le hunused, ?_, ?_⟩
    · intro s' hne
      change t₁.entries s' ≠ 0 at hne
      show old.unused ≤ t₁.entries s'
      obtain heq | heq := hentries s'
      · rw [heq] at hne ⊢
        exact hr.entries_le s' hne
      · rw [heq]
        exact hr.unused_le
    · intro c hc' hle m hm
      obtain ⟨hmem', hloc'⟩ := hr.left c hc' (by omega) m hm
      have hne : m.key ≠ n.key := by
        intro hkey
        have heq := h.distinct c hc' _ hb m n hm hsome hkey
        omega
      refine ⟨hmem', ?_⟩
      rw [update_of_ne hne, hframe _ hmem' (by rw [hloc']; exact hout _), hloc']

omit [DecidableEq K] in
/-- Spans without storage hold no node, and nothing is linked inside them. -/
theorem Placed.fresh (h : Placed t order loc) (d : Data K V) (hd : d.spans = fun _ => Span.new) :
    Placed { t with d := d, entries := fun _ => 0 } order loc := by
  have hpos := h.entries_lt 0
  refine ⟨⟨fun _ => ?_, fun s s' hne => absurd rfl hne, fun s _ hne => ?_⟩, h.ring, ?_, ?_, h.below⟩
  · show 0 < t.unused
    omega
  · change (d.spans s).allocated ≠ 0 at hne
    rw [hd] at hne
    exact absurd rfl hne
  · intro b _ n hn
    change d.cell b = some n at hn
    rw [Data.cell, hd, Span.cell_new] at hn
    cases hn
  · exact fun k _ => .inr fun s i hne => absurd rfl hne

/-- Growing moves all nodes, which stay linked in their order. -/
theorem Placed.rehash (h : Placed t order loc) (hinv : t.d.Inv calculateHash) {sizeHint : ℕ}
    (hhint : t.d.size ≤ if sizeHint = 0 then t.d.size else sizeHint)
    (hrun : t.rehash calculateHash sizeHint = .ok t') :
    (∃ loc', Placed t' order loc') ∧ t'.d.Storage := by
  unfold Table.rehash at hrun
  dsimp only at hrun
  generalize hcap : GrowthPolicy.bucketsForCapacity (if sizeHint = 0 then t.d.size else sizeHint) =
    numBuckets at hrun
  obtain ⟨spans, hspans, hrun⟩ := bind_eq_ok hrun
  unfold allocateSpans at hspans
  by_cases hmax : numBuckets > MaxBucketCount
  · rw [if_pos hmax] at hspans
    cases hspans
  · rw [if_neg hmax, Except.ok.injEq] at hspans
    rw [← hspans] at hrun
    obtain ⟨k, hk, hle⟩ := Data.two_pow_bucketsForCapacity
      (c := if sizeHint = 0 then t.d.size else sizeHint) (by rw [hcap]; exact not_lt.mp hmax)
    rw [hcap] at hk
    have hroom : t.d.size < numBuckets := by
      have hpow : 0 < 2 ^ (k + 7) := Nat.two_pow_pos _
      omega
    obtain ⟨m, -, hm⟩ := hinv.exists_mul
    have hshift : t.d.numBuckets >>> SpanShift = m := by
      rw [SpanShift, Nat.shiftRight_eq_div_pow, hm]
      exact Nat.mul_div_cancel_left m (by decide)
    rw [hshift] at hrun
    have hstart : Rehashed calculateHash t order numBuckets (0 * 128)
        { t with
          d := { t.d with numBuckets := numBuckets, spans := fun _ => Span.new }
          entries := fun _ => 0 } loc := by
      refine ⟨h.fresh _ rfl, ?_, Nat.le_refl _, fun s hne => absurd rfl hne, ?_⟩
      · rw [Nat.zero_mul]
        exact Data.moved_zero ⟨k, hk⟩ (not_lt.mp hmax)
      · exact fun c hc _ n hn => h.stored c hc n hn
    obtain ⟨t'', hrun', loc', hdone⟩ := foldlM_range
      (fun s t' => ∃ loc', Rehashed calculateHash t order numBuckets (s * 128) t' loc')
      (f := fun t' s => (List.range NEntries).foldlM (Table.reinsert calculateHash t s) t') (n := m)
      ⟨loc, hstart⟩ fun s hs t₁ ht₁ => by
        obtain ⟨loc₁, ht₁⟩ := ht₁
        obtain ⟨t₂, hrun₂, loc₂, ht₂⟩ := foldlM_range
          (fun i t' => ∃ loc', Rehashed calculateHash t order numBuckets (s * 128 + i) t' loc')
          (f := Table.reinsert calculateHash t s) (n := NEntries) (s := t₁)
          ⟨loc₁, by rwa [Nat.add_zero]⟩ fun i hi t₃ ht₃ => by
            obtain ⟨loc₃, ht₃⟩ := ht₃
            have hi' := hi
            rw [nEntries_eq] at hi'
            exact ht₃.reinsert hinv h.toSeparate hi (by omega) hroom
        refine ⟨t₂, hrun₂, loc₂, ?_⟩
        have hnext : (s + 1) * 128 = s * 128 + NEntries := by
          rw [nEntries_eq, Nat.add_mul, Nat.one_mul]
        rw [hnext]
        exact ht₂
    rw [hrun', Except.ok.injEq] at hrun
    rw [← hrun]
    exact ⟨⟨loc', hdone.toPlaced⟩, hdone.moved.toStorage⟩

omit [DecidableEq K] in
theorem PlacedBut.resize {b : ℕ} {k : K} {v : V} {size : ℕ}
    (h : PlacedBut { t with d := t.d.construct (ofIndex b) ⟨k, v⟩ } b k order loc) :
    PlacedBut { t with
      d := ({ t.d with size := size } : Data K V).construct (ofIndex b) ⟨k, v⟩ }
      b k order loc :=
  ⟨⟨h.entries_lt, h.entries_inj, h.allocated⟩, ⟨h.storage.pow, h.storage.le_max, h.storage.spans⟩,
    h.lt, h.node, h.ring, h.stored, h.here, h.below, h.moves⟩

theorem Placed.findOrInsert (h : Placed t order loc) (hinv : t.d.Inv calculateHash) {key : K}
    (hkey : key ∉ order) {it : Bucket}
    (hrun : t.findOrInsert calculateHash key = .ok (t', it, false)) (v : V) :
    ∃ b loc', it = ofIndex b ∧
      PlacedBut { t' with d := t'.d.construct it ⟨key, v⟩ } b key order loc' := by
  have hput : ∀ {t : Table K V} {loc : K → Ptr} {r : Bucket}, Placed t order loc → t.d.Storage →
      Data.findBucket calculateHash t.d key = .ok r →
      (do
        qAssert (t.d.isUnused r = true)
        let t ← t.insertAt r
        pure (({ t with d := { t.d with size := t.d.size + 1 } } : Table K V), r, false)) =
        .ok (t', it, false) →
      ∃ b loc', it = ofIndex b ∧
        PlacedBut { t' with d := t'.d.construct it ⟨key, v⟩ } b key order loc' := by
    intro t loc r h hs hr hrun
    obtain ⟨_, hassert, hrun⟩ := bind_eq_ok hrun
    obtain ⟨t₁, hins, hrun⟩ := bind_eq_ok hrun
    rw [pure_eq_ok, Except.ok.injEq, Prod.mk.injEq, Prod.mk.injEq] at hrun
    obtain ⟨ht, hit, _⟩ := hrun
    obtain ⟨b, hb, rfl⟩ := findBucket_lt hs hr
    have hfree : t.d.cell b = none := by
      by_contra hne
      rw [← hs.isUnused_iff hb] at hne
      rw [qAssert_neg hne] at hassert
      cases hassert
    obtain ⟨loc', hbut, _⟩ := h.insertAt hs hb hfree hins ⟨key, v⟩ fun hmem => absurd hmem hkey
    refine ⟨b, loc', hit.symm, ?_⟩
    rw [← ht, ← hit]
    exact hbut.resize
  have hplace : ∀ {r : Bucket}, Data.findBucket calculateHash t.d key = .ok r →
      findOrInsert.place calculateHash key t (some r) = .ok (t', it, false) →
      ∃ b loc', it = ofIndex b ∧
        PlacedBut { t' with d := t'.d.construct it ⟨key, v⟩ } b key order loc' := by
    intro r hr hrun
    unfold findOrInsert.place at hrun
    dsimp only at hrun
    split at hrun
    · obtain ⟨t₁, hgrow, hrun⟩ := bind_eq_ok hrun
      obtain ⟨r', hr', hrun⟩ := bind_eq_ok hrun
      obtain ⟨⟨loc', h'⟩, hs'⟩ := h.rehash hinv
        (by rw [if_neg (succ_ne_zero _)]; exact le_succ _) hgrow
      exact hput h' hs' hr' hrun
    · exact hput h hinv.toStorage hr hrun
  unfold Table.findOrInsert at hrun
  dsimp only at hrun
  rw [if_pos hinv.numBuckets_pos] at hrun
  obtain ⟨r, hr, hrun⟩ := bind_eq_ok hrun
  obtain ⟨r', hr', rfl⟩ := ok_of_map hr
  dsimp only at hrun
  split at hrun
  · exact hplace hr' hrun
  · rw [pure_eq_ok, Except.ok.injEq, Prod.mk.injEq, Prod.mk.injEq] at hrun
    cases hrun.2.2

theorem findOrInsert_old {key : K} {it : Bucket}
    (hrun : t.findOrInsert calculateHash key = .ok (t', it, true)) : t' = t := by
  have hplace : ∀ r, findOrInsert.place calculateHash key t r ≠ .ok (t', it, true) := by
    intro r hrun
    have hput : ∀ (t : Table K V) (r : Bucket), (do
        qAssert (t.d.isUnused r = true)
        let t ← t.insertAt r
        pure (({ t with d := { t.d with size := t.d.size + 1 } } : Table K V), r, false)) ≠
        Except.ok (t', it, true) := by
      intro t r hrun
      obtain ⟨_, _, hrun⟩ := bind_eq_ok hrun
      obtain ⟨t₁, _, hrun⟩ := bind_eq_ok hrun
      rw [pure_eq_ok, Except.ok.injEq, Prod.mk.injEq, Prod.mk.injEq] at hrun
      cases hrun.2.2
    unfold findOrInsert.place at hrun
    dsimp only at hrun
    split at hrun
    · obtain ⟨t₁, _, hrun⟩ := bind_eq_ok hrun
      obtain ⟨r', _, hrun⟩ := bind_eq_ok hrun
      exact hput t₁ r' hrun
    · cases r with
      | none => cases hrun
      | some r => exact hput t r hrun
  unfold Table.findOrInsert at hrun
  dsimp only at hrun
  split at hrun
  · obtain ⟨r, _, hrun⟩ := bind_eq_ok hrun
    cases r with
    | none => exact absurd hrun (hplace none)
    | some r =>
      dsimp only at hrun
      split at hrun
      · exact absurd hrun (hplace _)
      · rw [pure_eq_ok, Except.ok.injEq, Prod.mk.injEq] at hrun
        exact hrun.1.symm
  · exact absurd hrun (hplace none)

end Table

end QtBase.QCache
