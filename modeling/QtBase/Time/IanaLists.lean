import QtBase.Core.Exec
import Mathlib.Data.List.Sort
import Mathlib.Data.List.Basic

/-! Searching and splitting a space-joined list of zone IDs. -/
namespace QtBase.Time

open List

/-! ## The loops -/

/-- `QByteArrayView::indexOf` -/
def indexOf (ch : UInt8) (view : List UInt8) : Option ℕ := view.findIdx? (· == ch)

/-- The loop runs once for each unit of `fuel`; that `sliced(cut)` keeps the separator is as in the
source. -/
def isEntryInIanaList (id : List UInt8) : ℕ → List UInt8 → Exec Bool
  | 0, _ => .error .diverge
  | fuel + 1, ianaIds =>
    match indexOf 0x20 ianaIds with
    | some cut =>
      if id = ianaIds.take cut then .ok true else isEntryInIanaList id fuel (ianaIds.drop cut)
    | none => .ok (decide (id = ianaIds))

namespace QUtcTimeZonePrivate

structure QUtcData where
  /-- Space-joined list of IANA IDs -/
  id : List UInt8
  offsetFromUtc : ℤ

/-- The loop of both `availableTimeZoneIds`, for one entry of `utcDataTable`. -/
def splitId : ℕ → List (List UInt8) → List UInt8 → Exec (List (List UInt8))
  | 0, _, _ => .error .diverge
  | fuel + 1, result, id =>
    match indexOf 0x20 id with
    | some cut => splitId fuel (result ++ [id.take cut]) (id.drop cut)
    | none => .ok (result ++ [id])

/-- `std::sort` of byte arrays. -/
def sorted (result : List (List UInt8)) : List (List UInt8) :=
  result.mergeSort fun a b => decide (a ≤ b)

def availableTimeZoneIds (fuel : ℕ) (utcDataTable : List QUtcData) :
    Exec (List (List UInt8)) := do
  let result ← utcDataTable.foldlM (fun result data => splitId fuel result data.id) []
  pure (sorted result)

/-- The overload for an offset. -/
def availableTimeZoneIdsAt (fuel : ℕ) (utcDataTable : List QUtcData) (offsetSeconds : ℤ) :
    Exec (List (List UInt8)) := do
  let result ← utcDataTable.foldlM (fun result data =>
    if data.offsetFromUtc = offsetSeconds then splitId fuel result data.id else pure result) []
  pure (sorted result)

end QUtcTimeZonePrivate

/-! ## Joined IDs -/

/-- One or more IDs that a space may separate. -/
structure ZoneIds (ids : List (List UInt8)) : Prop where
  ne_nil : ids ≠ []
  id_ne_nil : ∀ id ∈ ids, id ≠ []
  no_space : ∀ id ∈ ids, 0x20 ∉ id

def joined (ids : List (List UInt8)) : List UInt8 := [0x20].intercalate ids

theorem joined_singleton (id : List UInt8) : joined [id] = id := by
  simp [joined]

theorem joined_cons_cons (id next : List UInt8) (ids : List (List UInt8)) :
    joined (id :: next :: ids) = id ++ 0x20 :: joined (next :: ids) := by
  simp [joined, List.intercalate, List.intersperse]

theorem indexOf_of_notMem {ch : UInt8} {view : List UInt8} (h : ch ∉ view) :
    indexOf ch view = none := by
  unfold indexOf
  rw [findIdx?_eq_none_iff]
  intro c hc
  exact beq_false_of_ne fun heq => h (heq ▸ hc)

theorem indexOf_append {ch : UInt8} {view : List UInt8} (h : ch ∉ view) (rest : List UInt8) :
    indexOf ch (view ++ ch :: rest) = some view.length := by
  have hview := indexOf_of_notMem h
  unfold indexOf at hview ⊢
  rw [findIdx?_append, hview, findIdx?_cons, if_pos (beq_self_eq_true ch)]
  simp

theorem indexOf_self (ch : UInt8) (rest : List UInt8) : indexOf ch (ch :: rest) = some 0 :=
  indexOf_append not_mem_nil rest

/-! ## Membership -/

theorem isEntry_at_space {id : List UInt8} (hid : id ≠ []) (fuel : ℕ) (rest : List UInt8) :
    isEntryInIanaList id fuel (0x20 :: rest) = .error .diverge := by
  induction fuel with
  | zero => rfl
  | succ fuel ih =>
    rw [isEntryInIanaList, indexOf_self]
    exact (if_neg hid).trans ih

theorem isEntry_singleton {id only : List UInt8} (h : 0x20 ∉ only) (fuel : ℕ) :
    isEntryInIanaList id (fuel + 1) (joined [only]) = .ok (decide (id = only)) := by
  rw [joined_singleton, isEntryInIanaList, indexOf_of_notMem h]

variable {ids : List (List UInt8)}

theorem isEntry_several {id first next : List UInt8} (h : 0x20 ∉ first) (fuel : ℕ) :
    isEntryInIanaList id (fuel + 1) (joined (first :: next :: ids)) = if id = first then .ok true
      else isEntryInIanaList id fuel (0x20 :: joined (next :: ids)) := by
  rw [joined_cons_cons, isEntryInIanaList, indexOf_append h]
  simp

theorem isEntry_iff (h : ZoneIds ids) (id : List UInt8) :
    (∃ fuel, isEntryInIanaList id fuel (joined ids) = .ok (decide (id ∈ ids))) ↔
      ids.length = 1 ∨ ids.head? = some id := by
  cases ids with
  | nil => exact absurd rfl h.ne_nil
  | cons first rest =>
    have hspace := h.no_space first mem_cons_self
    cases rest with
    | nil =>
      refine ⟨fun _ => .inl rfl, fun _ => ⟨1, ?_⟩⟩
      rw [isEntry_singleton hspace]
      simp only [mem_singleton]
    | cons next rest =>
      have hhead : (first :: next :: rest).head? = some id ↔ id = first := by
        rw [head?_cons, Option.some.injEq, eq_comm]
      have hlength : (first :: next :: rest).length ≠ 1 := by
        simp
      rw [hhead, or_iff_right hlength]
      constructor
      · rintro ⟨fuel, hrun⟩
        by_contra hne
        cases fuel with
        | zero => cases hrun
        | succ fuel =>
          rw [isEntry_several hspace, if_neg hne] at hrun
          by_cases hnil : id = []
          · -- the empty text before the separator is taken for an ID
            have hmem : id ∉ first :: next :: rest := fun hin => h.id_ne_nil id hin hnil
            subst hnil
            cases fuel with
            | zero => cases hrun
            | succ fuel =>
              rw [isEntryInIanaList, indexOf_self, decide_eq_false hmem] at hrun
              cases hrun
          · rw [isEntry_at_space hnil] at hrun
            cases hrun
      · intro heq
        refine ⟨1, ?_⟩
        rw [isEntry_several hspace, if_pos heq, heq, decide_eq_true mem_cons_self]

/-! ## Splitting -/

namespace QUtcTimeZonePrivate

theorem splitId_at_space (fuel : ℕ) (result : List (List UInt8)) (rest : List UInt8) :
    splitId fuel result (0x20 :: rest) = .error .diverge := by
  induction fuel generalizing result with
  | zero => rfl
  | succ fuel ih =>
    rw [splitId, indexOf_self]
    exact ih _

theorem splitId_singleton {only : List UInt8} (h : 0x20 ∉ only) (fuel : ℕ)
    (result : List (List UInt8)) :
    splitId (fuel + 1) result (joined [only]) = .ok (result ++ [only]) := by
  rw [joined_singleton, splitId, indexOf_of_notMem h]

theorem splitId_several {first next : List UInt8} (h : 0x20 ∉ first) (fuel : ℕ)
    (result : List (List UInt8)) :
    splitId fuel result (joined (first :: next :: ids)) = .error .diverge := by
  cases fuel with
  | zero => rfl
  | succ fuel =>
    rw [joined_cons_cons, splitId, indexOf_append h]
    dsimp only
    rw [drop_left]
    exact splitId_at_space _ _ _

theorem of_splitId (h : ZoneIds ids) {fuel : ℕ} {result found : List (List UInt8)}
    (hrun : splitId fuel result (joined ids) = .ok found) :
    ids.length = 1 := by
  cases ids with
  | nil => exact absurd rfl h.ne_nil
  | cons first rest =>
    cases rest with
    | nil => rfl
    | cons next rest =>
      rw [splitId_several (h.no_space first mem_cons_self)] at hrun
      cases hrun

theorem splitId_one (h : ZoneIds ids) (hone : ids.length = 1) (fuel : ℕ)
    (result : List (List UInt8)) :
    splitId (fuel + 1) result (joined ids) = .ok (result ++ ids) := by
  obtain ⟨only, rfl⟩ := length_eq_one_iff.1 hone
  exact splitId_singleton (h.no_space only mem_cons_self) fuel result

/-- An entry of the table, with its IDs apart. -/
def entryOf (ids : List (List UInt8) × ℤ) : QUtcData :=
  { id := joined ids.1, offsetFromUtc := ids.2 }

section Table

variable (p : QUtcData → Prop) [DecidablePred p] {table : List (List (List UInt8) × ℤ)}

/-- Both loops over the table; `p` tells which entries are looked at. -/
def splitTable (fuel : ℕ) (utcDataTable : List QUtcData) : Exec (List (List UInt8)) :=
  utcDataTable.foldlM (fun result data =>
    if p data then splitId fuel result data.id else pure result) []

theorem of_splitTable (h : ∀ ids ∈ table, ZoneIds ids.1) {fuel : ℕ}
    {result found : List (List UInt8)} (hrun : (table.map entryOf).foldlM (fun result data =>
      if p data then splitId fuel result data.id else pure result) result = .ok found) :
    ∀ ids ∈ table, p (entryOf ids) → ids.1.length = 1 := by
  induction table generalizing result with
  | nil => exact fun ids hids => absurd hids not_mem_nil
  | cons ids table ih =>
    rw [map_cons, foldlM_cons] at hrun
    obtain ⟨next, hnext, hrun⟩ := bind_eq_ok hrun
    rw [forall_mem_cons]
    constructor
    · intro hp
      rw [if_pos hp] at hnext
      exact of_splitId (h ids mem_cons_self) hnext
    · exact ih (fun e he => h e (mem_cons_of_mem _ he)) hrun

theorem splitTable_eq (h : ∀ ids ∈ table, ZoneIds ids.1)
    (hone : ∀ ids ∈ table, p (entryOf ids) → ids.1.length = 1) (fuel : ℕ)
    (result : List (List UInt8)) : (table.map entryOf).foldlM (fun result data =>
      if p data then splitId (fuel + 1) result data.id else pure result) result =
        .ok (result ++ (table.filter fun ids => p (entryOf ids)).flatMap Prod.fst) := by
  induction table generalizing result with
  | nil => exact congrArg Except.ok (List.append_nil result).symm
  | cons ids table ih =>
    have ih := ih (fun e he => h e (List.mem_cons_of_mem _ he))
      fun e he => hone e (List.mem_cons_of_mem _ he)
    rw [List.map_cons, List.foldlM_cons]
    by_cases hp : p (entryOf ids)
    · have hsplit : splitId (fuel + 1) result (entryOf ids).id = .ok (result ++ ids.1) :=
        splitId_one (h ids List.mem_cons_self) (hone ids List.mem_cons_self hp) fuel result
      rw [if_pos hp, hsplit, ok_bind, ih, List.append_assoc, List.filter_cons, decide_eq_true hp]
      rfl
    · rw [if_neg hp, pure_bind, ih, List.filter_cons, decide_eq_false hp]
      rfl

theorem sorted_perm (result : List (List UInt8)) : (sorted result).Perm result :=
  mergeSort_perm _ _

theorem splitTable_returns_iff (h : ∀ ids ∈ table, ZoneIds ids.1) :
    (∃ fuel result, (do
      let result ← splitTable p fuel (table.map entryOf)
      pure (sorted result)) = .ok result ∧
        result.Perm ((table.filter fun ids => p (entryOf ids)).flatMap Prod.fst)) ↔
      ∀ ids ∈ table, p (entryOf ids) → ids.1.length = 1 := by
  constructor
  · rintro ⟨fuel, result, hrun, -⟩
    obtain ⟨found, hfound, -⟩ := bind_eq_ok hrun
    exact of_splitTable p h hfound
  · intro hone
    have hrun := splitTable_eq p h hone 0 []
    refine ⟨1, sorted ((table.filter fun ids => p (entryOf ids)).flatMap Prod.fst), ?_,
      sorted_perm _⟩
    unfold splitTable
    rw [hrun]
    rfl

end Table

end QUtcTimeZonePrivate

open QUtcTimeZonePrivate

/-- Searching and splitting end, with the right results, for one ID or (searching only) for the
first of several. -/
theorem iana_lists_iff {ids : List (List UInt8)} (h : ZoneIds ids) (id : List UInt8)
    {table : List (List (List UInt8) × ℤ)} (htable : ∀ ids ∈ table, ZoneIds ids.1)
    (offsetSeconds : ℤ) :
    ((∃ fuel, isEntryInIanaList id fuel (joined ids) = .ok (decide (id ∈ ids))) ↔
        ids.length = 1 ∨ ids.head? = some id) ∧
      ((∃ fuel result, availableTimeZoneIds fuel (table.map entryOf) = .ok result ∧
        result.Perm (table.flatMap Prod.fst)) ↔ ∀ ids ∈ table, ids.1.length = 1) ∧
      ((∃ fuel result, availableTimeZoneIdsAt fuel (table.map entryOf) offsetSeconds = .ok result ∧
        result.Perm ((table.filter fun ids => ids.2 = offsetSeconds).flatMap Prod.fst)) ↔
          ∀ ids ∈ table, ids.2 = offsetSeconds → ids.1.length = 1) := by
  refine ⟨isEntry_iff h id, ?_, splitTable_returns_iff (fun data =>
    data.offsetFromUtc = offsetSeconds) htable⟩
  have hall := splitTable_returns_iff (fun _ => True) htable
  simpa [splitTable, availableTimeZoneIds] using hall

theorem zoneIds_letters : ZoneIds [[0x41], [0x42]] where
  ne_nil := cons_ne_nil _ _
  id_ne_nil := by decide
  no_space := by decide

/-- Searching for `A` in `A B`, which is the table's only entry. -/
theorem iana_lists_iff_letters :
    ((∃ fuel, isEntryInIanaList [0x41] fuel (joined [[0x41], [0x42]]) =
        .ok (decide ([0x41] ∈ ([[0x41], [0x42]] : List (List UInt8))))) ↔
      ([[0x41], [0x42]] : List (List UInt8)).length = 1 ∨
        ([[0x41], [0x42]] : List (List UInt8)).head? = some [0x41]) ∧
    ((∃ fuel result, availableTimeZoneIds fuel ([([[0x41], [0x42]], 0)].map entryOf) =
        .ok result ∧ result.Perm ([([[0x41], [0x42]], (0 : ℤ))].flatMap Prod.fst)) ↔
      ∀ ids ∈ [(([[0x41], [0x42]] : List (List UInt8)), (0 : ℤ))], ids.1.length = 1) ∧
    ((∃ fuel result, availableTimeZoneIdsAt fuel ([([[0x41], [0x42]], 0)].map entryOf) 3600 =
        .ok result ∧ result.Perm (([([[0x41], [0x42]], (0 : ℤ))].filter fun ids =>
          ids.2 = 3600).flatMap Prod.fst)) ↔
      ∀ ids ∈ [(([[0x41], [0x42]] : List (List UInt8)), (0 : ℤ))], ids.2 = 3600 →
        ids.1.length = 1) :=
  iana_lists_iff zoneIds_letters [0x41]
    (fun _ hids => by rw [mem_singleton.1 hids]; exact zoneIds_letters) 3600

/-- The second of two IDs is searched for without end. -/
theorem isEntry_second_diverges : ¬∃ fuel, isEntryInIanaList [0x42] fuel (joined [[0x41], [0x42]]) =
    .ok (decide ([0x42] ∈ ([[0x41], [0x42]] : List (List UInt8)))) := by
  rintro ⟨fuel, hrun⟩
  cases fuel with
  | zero => cases hrun
  | succ fuel =>
    rw [isEntry_several (by decide), if_neg (by decide), isEntry_at_space (by decide)] at hrun
    cases hrun

end QtBase.Time
