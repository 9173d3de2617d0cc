import QtBase.Tools.QCacheTable

/-! Where the nodes of a `QCache` are: the links follow every node that the hash table moves. -/
namespace QtBase.QHashPrivate.Span

open Function

variable {N : Type} {s s' u u' : Span N} {i j : ℕ}

/-! ## What the operations of a span leave as it was -/

theorem reserve_frame (h : s.reserve = .ok s') :
    s'.offsets = s.offsets ∧ (s.nextFree ≠ s.allocated → s'.allocated = s.allocated) := by
  unfold reserve at h
  by_cases hfull : s.nextFree = s.allocated
  · rw [if_pos hfull] at h
    unfold addStorage at h
    obtain ⟨_, _, h⟩ := bind_eq_ok h
    obtain ⟨_, _, h⟩ := bind_eq_ok h
    rw [pure_eq_ok, Except.ok.injEq] at h
    rw [← h]
    exact ⟨rfl, fun hne => absurd hfull hne⟩
  · rw [if_neg hfull, pure_eq_ok, Except.ok.injEq] at h
    rw [← h]
    exact ⟨rfl, fun _ => rfl⟩

theorem insert_frame (h : s.insert i = .ok s') :
    (∀ j, j ≠ i → s'.offsets j = s.offsets j) ∧
      (s.nextFree ≠ s.allocated → s'.allocated = s.allocated) := by
  unfold Span.insert at h
  obtain ⟨_, _, h⟩ := bind_eq_ok h
  obtain ⟨_, _, h⟩ := bind_eq_ok h
  obtain ⟨r, hr, h⟩ := bind_eq_ok h
  obtain ⟨hoff, halloc⟩ := reserve_frame hr
  obtain ⟨_, _, h⟩ := bind_eq_ok h
  obtain ⟨next, _, h⟩ := bind_eq_ok h
  rw [pure_eq_ok, Except.ok.injEq] at h
  rw [← h]
  refine ⟨fun j hj => ?_, halloc⟩
  show update r.offsets i r.nextFree j = _
  rw [update_of_ne hj, hoff]

theorem erase_frame (h : s.erase i = .ok s') :
    (∀ j, j ≠ i → s'.offsets j = s.offsets j) ∧ s'.allocated = s.allocated := by
  unfold Span.erase at h
  obtain ⟨_, _, h⟩ := bind_eq_ok h
  obtain ⟨_, _, h⟩ := bind_eq_ok h
  obtain ⟨_, _, h⟩ := bind_eq_ok h
  rw [pure_eq_ok, Except.ok.injEq] at h
  rw [← h]
  exact ⟨fun j hj => update_of_ne hj _ _, rfl⟩

theorem moveLocal_frame (h : s.moveLocal i j = .ok s') :
    (∀ k, k ≠ i → k ≠ j → s'.offsets k = s.offsets k) ∧ (i ≠ j → s'.offsets j = s.offsets i) ∧
      s'.allocated = s.allocated := by
  unfold moveLocal at h
  obtain ⟨_, _, h⟩ := bind_eq_ok h
  obtain ⟨_, _, h⟩ := bind_eq_ok h
  rw [pure_eq_ok, Except.ok.injEq] at h
  rw [← h]
  refine ⟨fun k hi hj => ?_, fun hij => ?_, rfl⟩
  · show update (update s.offsets j (s.offsets i)) i UnusedEntry k = _
    rw [update_of_ne hi, update_of_ne hj]
  · show update (update s.offsets j (s.offsets i)) i UnusedEntry j = _
    rw [update_of_ne hij.symm, update_self]

theorem moveFromSpan_frame (h : s.moveFromSpan u i j = .ok (s', u')) :
    (∀ k, k ≠ j → s'.offsets k = s.offsets k) ∧
      (s.nextFree ≠ s.allocated → s'.allocated = s.allocated) ∧
      (∀ k, k ≠ i → u'.offsets k = u.offsets k) ∧ u'.allocated = u.allocated := by
  unfold moveFromSpan at h
  obtain ⟨_, _, h⟩ := bind_eq_ok h
  obtain ⟨_, _, h⟩ := bind_eq_ok h
  obtain ⟨_, _, h⟩ := bind_eq_ok h
  obtain ⟨_, _, h⟩ := bind_eq_ok h
  obtain ⟨r, hr, h⟩ := bind_eq_ok h
  obtain ⟨hoff, halloc⟩ := reserve_frame hr
  obtain ⟨_, _, h⟩ := bind_eq_ok h
  obtain ⟨next, _, h⟩ := bind_eq_ok h
  obtain ⟨n, _, h⟩ := bind_eq_ok h
  rw [pure_eq_ok, Except.ok.injEq, Prod.mk.injEq] at h
  obtain ⟨h1, h2⟩ := h
  rw [← h1, ← h2]
  refine ⟨fun k hk => ?_, halloc, fun k hk => update_of_ne hk _ _, rfl⟩
  show update r.offsets j r.nextFree k = _
  rw [update_of_ne hk, hoff]

theorem Inv.exists_bucket (h : s.Inv) (hfull : s.nextFree = s.allocated) (hj : j < s.allocated) :
    ∃ b < NEntries, s.offsets b = j ∧ s.offsets b ≠ UnusedEntry := by
  obtain ⟨fl, hc, -, hm⟩ := h.free
  have hnil : fl = [] := by
    cases fl with
    | nil => rfl
    | cons k fl =>
      obtain ⟨hk, -⟩ := (hm k).mp List.mem_cons_self
      have hhead := hc.1
      omega
  by_contra hnone
  have hmem : j ∈ fl := by
    refine (hm j).mpr ⟨hj, fun b hb hbj => hnone ⟨b, hb, hbj, ?_⟩⟩
    rw [hbj]
    show j ≠ 255
    have hsizes := h.sizes
    omega
  rw [hnil] at hmem
  cases hmem

end QtBase.QHashPrivate.Span

namespace QtBase.QCache

open QtBase.Lib QtBase.QHashPrivate

variable {K V : Type}

namespace Table

/-- Not among the entries of the spans. -/
def Outside (t : Table K V) (p : Ptr) : Prop :=
  ∀ s i, t.entries s ≠ 0 → p ≠ .node (t.entries s) i

/-- The spans have their entries at different addresses, 0 if they have none. -/
structure Separate (t : Table K V) : Prop where
  entries_lt : ∀ s, t.entries s < t.unused
  entries_inj : ∀ s s', t.entries s ≠ 0 → t.entries s = t.entries s' → s = s'
  allocated : ∀ s < t.d.numBuckets / 128, (t.d.spans s).allocated ≠ 0 → t.entries s ≠ 0

/-- The nodes of `order` are linked in this order, the node with key `k` at `loc k`; the nodes of
the table are among them, and others are not inside its spans. -/
structure Placed (t : Table K V) (order : List K) (loc : K → Ptr) : Prop extends Separate t where
  ring : t.links.Ring .chain (order.map loc)
  stored : ∀ b < t.d.numBuckets, ∀ n, t.d.cell b = some n →
    n.key ∈ order ∧ loc n.key = t.address (Bucket.ofIndex b)
  here : ∀ k ∈ order,
    (∃ b < t.d.numBuckets, ∃ n, t.d.cell b = some n ∧ n.key = k) ∨ t.Outside (loc k)
  below : ∀ k ∈ order, ∃ e i, loc k = .node e i ∧ e < t.unused

end Table

/-! ## More storage for a span -/

/-- Where the first `m` entries went. -/
def shift (e e' m : ℕ) : Ptr → Ptr
  | .chain => .chain
  | .node x i => if x = e ∧ i < m then .node e' i else .node x i

theorem shift_node (e e' m x i : ℕ) : shift e e' m (.node x i) =
    if x = e ∧ i < m then .node e' i else .node x i := rfl

theorem shift_of_ne {e e' m : ℕ} {p : Ptr} (h : ∀ i, i < m → p ≠ .node e i) :
    shift e e' m p = p := by
  cases p with
  | chain => rfl
  | node x i =>
    rw [shift_node, if_neg]
    rintro ⟨rfl, hi⟩
    exact h i hi rfl

theorem relocate_range {l : Links Ptr} {L : List Ptr} {e e' : ℕ} (h : l.Ring .chain L) (m : ℕ)
    (hsrc : ∀ i, i < m → Ptr.node e i ∈ L) (hdst : ∀ i, Ptr.node e' i ∉ L) :
    ((List.range m).foldl (fun l i => l.relocate (.node e i) (.node e' i)) l).Ring .chain
      (L.map (shift e e' m)) := by
  induction m with
  | zero =>
    have hid : L.map (shift e e' 0) = L := by
      refine (List.map_congr_left fun p _ => ?_).trans (List.map_id L)
      exact shift_of_ne fun i hi => absurd hi (Nat.not_lt_zero i)
    rw [hid]
    exact h
  | succ m ih =>
    have hm := ih fun i hi => hsrc i (Nat.lt_succ_of_lt hi)
    rw [List.range_succ, List.foldl_append]
    have hne : e ≠ e' := by
      rintro rfl
      exact hdst 0 (hsrc 0 (Nat.succ_pos m))
    have hsrc' : Ptr.node e m ∈ L.map (shift e e' m) := by
      refine List.mem_map.mpr ⟨.node e m, hsrc m (Nat.lt_succ_self m), shift_of_ne ?_⟩
      rintro i hi heq
      rw [Ptr.node.injEq] at heq
      omega
    have hdst' : Ptr.node e' m ∉ Ptr.chain :: L.map (shift e e' m) := by
      intro hmem
      obtain heq | hmem := List.mem_cons.mp hmem
      · cases heq
      · obtain ⟨p, hp, heq⟩ := List.mem_map.mp hmem
        cases p with
        | chain => cases heq
        | node x i =>
          rw [shift_node] at heq
          split at heq
          · rw [Ptr.node.injEq] at heq
            omega
          · rw [heq] at hp
            exact hdst m hp
    have hstep := hm.map_relocate hsrc' hdst'
    rw [List.map_map] at hstep
    have hshift : (fun p => if p = Ptr.node e m then Ptr.node e' m else p) ∘ shift e e' m =
        shift e e' (m + 1) := by
      funext p
      cases p with
      | chain => rfl
      | node x i =>
        show (if shift e e' m (.node x i) = Ptr.node e m then Ptr.node e' m
          else shift e e' m (.node x i)) = shift e e' (m + 1) (.node x i)
        have hself : Ptr.node e i = Ptr.node e m ↔ i = m := by
          rw [Ptr.node.injEq]
          exact and_iff_right rfl
        by_cases hx : x = e
        · subst hx
          obtain hi | rfl | hi := Nat.lt_trichotomy i m
          · have hold : shift x e' m (.node x i) = .node e' i := if_pos ⟨rfl, hi⟩
            have hother : Ptr.node e' i ≠ Ptr.node x m := by
              rw [Ne, Ptr.node.injEq]
              exact fun heq => hne heq.1.symm
            rw [hold, if_neg hother, shift_node, if_pos ⟨rfl, Nat.lt_succ_of_lt hi⟩]
          · have hold : shift x e' i (.node x i) = .node x i :=
              if_neg fun hlt => Nat.lt_irrefl i hlt.2
            rw [hold, if_pos rfl, shift_node, if_pos ⟨rfl, Nat.lt_succ_self i⟩]
          · have hold : shift x e' m (.node x i) = .node x i :=
              if_neg fun hlt => Nat.lt_asymm hi hlt.2
            rw [hold, if_neg fun heq => Nat.ne_of_gt hi (hself.mp heq), shift_node,
              if_neg fun hlt => absurd hlt.2 (by omega)]
        · have hold : shift e e' m (.node x i) = .node x i := if_neg fun heq => hx heq.1
          have hother : Ptr.node x i ≠ Ptr.node e m := by
            rw [Ne, Ptr.node.injEq]
            exact fun heq => hx heq.1
          rw [hold, if_neg hother, shift_node, if_neg fun heq => hx heq.1]
    rw [hshift] at hstep
    exact hstep

namespace Table

variable {t : Table K V} {order : List K} {loc : K → Ptr}

theorem address_ofIndex (t : Table K V) (b : ℕ) : t.address (Bucket.ofIndex b) =
    .node (t.entries (b / 128)) ((t.d.spans (b / 128)).offsets (b % 128)) := by
  rw [Bucket.ofIndex_eq]
  rfl

theorem offset_lt_allocated (hs : t.d.Storage) {b : ℕ} (hb : b < t.d.numBuckets) {n : Node K V}
    (hc : t.d.cell b = some n) :
    (t.d.spans (b / 128)).offsets (b % 128) < (t.d.spans (b / 128)).allocated := by
  have hmod : b % 128 < NEntries := Nat.mod_lt _ (by decide)
  obtain ⟨hu, -⟩ := ((hs.span_inv hb).cell_eq_some hmod).mp hc
  exact ((hs.span_inv hb).used _ hmod hu).1

theorem span_lt (hs : t.d.Storage) {b : ℕ} (hb : b < t.d.numBuckets) :
    b / 128 < t.d.numBuckets / 128 := by
  obtain ⟨m, -, hm⟩ := hs.exists_mul
  omega

theorem Separate.address_inj (h : t.Separate) (hs : t.d.Storage) {b c : ℕ}
    (hb : b < t.d.numBuckets) {n : Node K V} (hbn : t.d.cell b = some n)
    (heq : t.address (Bucket.ofIndex b) = t.address (Bucket.ofIndex c)) : b = c := by
  have hmod : ∀ x, x % 128 < NEntries := fun x => Nat.mod_lt _ (by decide)
  have hlt := offset_lt_allocated hs hb hbn
  rw [address_ofIndex, address_ofIndex, Ptr.node.injEq] at heq
  obtain ⟨he, ho⟩ := heq
  have hne := h.allocated (b / 128) (span_lt hs hb) (by omega)
  have hspan := h.entries_inj _ _ hne he
  rw [← hspan] at ho
  obtain ⟨hu, -⟩ := ((hs.span_inv hb).cell_eq_some (hmod b)).mp hbn
  have hidx := (hs.span_inv hb).inj _ (hmod b) _ (hmod c) hu ho
  omega

theorem addStorage_entries_of_ne {s s' : ℕ} (h : s' ≠ s) :
    (t.addStorage s).entries s' = t.entries s' := by
  unfold addStorage
  split
  · exact Function.update_of_ne h _ _
  · rfl

theorem addStorage_entries (t : Table K V) (s s' : ℕ) :
    (t.addStorage s).entries s' = t.entries s' ∨ (t.addStorage s).entries s' = t.unused := by
  by_cases hs : s' = s
  · unfold addStorage
    split
    · right
      rw [hs]
      exact Function.update_self _ _ _
    · exact Or.inl rfl
  · exact Or.inl (addStorage_entries_of_ne hs)

theorem le_addStorage_unused (t : Table K V) (s : ℕ) : t.unused ≤ (t.addStorage s).unused := by
  unfold addStorage
  split
  · exact Nat.le_succ _
  · exact Nat.le_refl _

theorem Outside.addStorage {p : Ptr} (h : t.Outside p) (hp : ∃ e i, p = .node e i ∧ e < t.unused)
    (s : ℕ) : (t.addStorage s).Outside p := by
  obtain ⟨e, i, rfl, hlt⟩ := hp
  intro s' j hne
  obtain heq | heq := t.addStorage_entries s s'
  · rw [heq] at hne ⊢
    exact h s' j hne
  · rw [heq, Ne, Ptr.node.injEq]
    omega

theorem Placed.addStorage (h : Placed t order loc) (hs : t.d.Storage) {s : ℕ}
    (hlt : s < t.d.numBuckets / 128) :
    (∃ loc', Placed (t.addStorage s) order loc' ∧ ∀ k ∈ order, t.Outside (loc k) →
      loc' k = loc k) ∧
      ((t.d.spans s).nextFree = (t.d.spans s).allocated → (t.addStorage s).entries s ≠ 0) := by
  have hmod : ∀ x, x % 128 < NEntries := fun x => Nat.mod_lt _ (by decide)
  unfold Table.addStorage
  by_cases hfull : (t.d.spans s).nextFree = (t.d.spans s).allocated
  · rw [if_pos hfull]
    have hunused := h.entries_lt s
    have hother : ∀ {s' : ℕ}, s' ≠ s → Function.update t.entries s t.unused s' = t.entries s' :=
      fun hne => Function.update_of_ne hne _ _
    have hself : Function.update t.entries s t.unused s = t.unused := Function.update_self _ _ _
    have hsrc : ∀ i, i < (t.d.spans s).allocated → Ptr.node (t.entries s) i ∈ order.map loc := by
      intro i hi
      obtain ⟨b, hb, hoff, hu⟩ := (hs.spans s hlt).exists_bucket hfull hi
      rw [nEntries_eq] at hb
      obtain ⟨-, n, hn⟩ := (hs.spans s hlt).used b hb hu
      have hdiv : (s * 128 + b) / 128 = s := by omega
      have hmodb : (s * 128 + b) % 128 = b := by omega
      have hcell : t.d.cell (s * 128 + b) = some n := by
        rw [Data.cell, nEntries_eq, hdiv, hmodb]
        exact ((hs.spans s hlt).cell_eq_some hb).mpr ⟨hu, hn⟩
      obtain ⟨hmem, hloc⟩ := h.stored (s * 128 + b) (by omega) n hcell
      rw [address_ofIndex, hdiv, hmodb, hoff] at hloc
      exact List.mem_map.mpr ⟨n.key, hmem, hloc⟩
    have hdst : ∀ i, Ptr.node t.unused i ∉ order.map loc := by
      intro i hmem
      obtain ⟨k, hk, hloc⟩ := List.mem_map.mp hmem
      obtain ⟨e, j, hej, hlt'⟩ := h.below k hk
      rw [hej, Ptr.node.injEq] at hloc
      omega
    have hring := relocate_range h.ring (t.d.spans s).allocated hsrc hdst
    have hout : ∀ p, t.Outside p → shift (t.entries s) t.unused (t.d.spans s).allocated p = p := by
      intro p hp
      apply shift_of_ne
      rintro i hi heq
      exact hp s i (h.allocated s hlt (by omega)) heq
    refine ⟨⟨fun k => shift (t.entries s) t.unused (t.d.spans s).allocated (loc k), ⟨⟨?_, ?_, ?_⟩,
      ?_, ?_, ?_, ?_⟩, fun k _ hk => hout _ hk⟩, fun _ => ?_⟩
    · intro s'
      by_cases hne : s' = s
      · show Function.update t.entries s t.unused s' < t.unused + 1
        simp [hne, hself]
      · show Function.update t.entries s t.unused s' < t.unused + 1
        rw [hother hne]
        exact Nat.lt_succ_of_lt (h.entries_lt s')
    · intro a b ha hab
      change Function.update t.entries s t.unused a ≠ 0 at ha
      change Function.update t.entries s t.unused a = Function.update t.entries s t.unused b at hab
      have hla := h.entries_lt a
      have hlb := h.entries_lt b
      by_cases has : a = s <;> by_cases hbs : b = s
      · rw [has, hbs]
      · rw [has, hself, hother hbs] at hab
        omega
      · rw [hbs, hself, hother has] at hab
        omega
      · rw [hother has] at ha
        rw [hother has, hother hbs] at hab
        exact h.entries_inj a b ha hab
    · intro s' hs' halloc
      show Function.update t.entries s t.unused s' ≠ 0
      by_cases hne : s' = s
      · rw [hne, hself]
        omega
      · rw [hother hne]
        exact h.allocated s' hs' halloc
    · rw [List.map_map] at hring
      exact hring
    · intro b hb n hn
      obtain ⟨hmem, hloc⟩ := h.stored b hb n hn
      refine ⟨hmem, ?_⟩
      have hoff := offset_lt_allocated hs hb hn
      have hb128 := span_lt hs hb
      rw [address_ofIndex] at hloc ⊢
      show shift _ _ _ (loc n.key) = Ptr.node (Function.update t.entries s t.unused (b / 128)) _
      rw [hloc]
      by_cases hne : b / 128 = s
      · rw [hne] at hoff ⊢
        rw [hself, shift_node, if_pos ⟨rfl, hoff⟩]
      · rw [hother hne, shift_node, if_neg]
        rintro ⟨he, _⟩
        exact hne (h.entries_inj _ _ (h.allocated _ hb128 (by omega)) he)
    · intro k hk
      obtain hin | hout' := h.here k hk
      · exact Or.inl hin
      · right
        have hgrown := hout'.addStorage (h.below k hk) s
        unfold Table.addStorage at hgrown
        rw [if_pos hfull] at hgrown
        rw [hout _ hout']
        exact hgrown
    · intro k hk
      obtain ⟨e, i, hei, hlt'⟩ := h.below k hk
      show ∃ e i, shift _ _ _ (loc k) = Ptr.node e i ∧ e < t.unused + 1
      rw [hei, shift_node]
      split
      · exact ⟨_, _, rfl, Nat.lt_succ_self _⟩
      · exact ⟨_, _, rfl, Nat.lt_succ_of_lt hlt'⟩
    · show Function.update t.entries s t.unused s ≠ 0
      omega
  · rw [if_neg hfull]
    exact ⟨⟨loc, h, fun k _ _ => rfl⟩, fun heq => absurd heq hfull⟩

end Table

end QtBase.QCache
