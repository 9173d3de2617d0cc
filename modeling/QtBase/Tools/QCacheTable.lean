import QtBase.Tools.QCache

/-! The hash table of a `QCache` does what every hash table does, and moves its nodes besides. -/
namespace QtBase.QCache

open QtBase.Lib QtBase.QHashPrivate

/-! ## The table without its links -/

theorem map_bind {α β γ : Type} (x : Exec α) (f : α → Exec β) (g : β → γ) :
    Except.map g (x >>= f) = x >>= fun a => Except.map g (f a) := by
  cases x <;> rfl

theorem bind_map {α β γ : Type} (x : Exec α) (f : α → β) (g : β → Exec γ) :
    (Except.map f x >>= g) = x >>= fun a => g (f a) := by
  cases x <;> rfl

theorem ok_of_map {α β : Type} {x : Exec α} {f : α → β} {b : β} (h : Except.map f x = .ok b) :
    ∃ a, x = .ok a ∧ f a = b := by
  cases x with
  | error e => cases h
  | ok a =>
    rw [Except.map, Except.ok.injEq] at h
    exact ⟨a, rfl, h⟩

theorem error_of_map {α β : Type} {x : Exec α} {f : α → β} {e : Stop}
    (h : Except.map f x = .error e) : x = .error e := by
  cases x with
  | error e' =>
    rw [Except.map, Except.error.injEq] at h
    rw [h]
  | ok a => cases h

theorem map_foldlM {α β ι : Type} {f : α → ι → Exec α} {g : β → ι → Exec β} {p : α → β}
    (h : ∀ a i, Except.map p (f a i) = g (p a) i) (l : List ι) (a : α) :
    Except.map p (l.foldlM f a) = l.foldlM g (p a) := by
  induction l generalizing a with
  | nil => rfl
  | cons i l ih =>
    rw [List.foldlM_cons, List.foldlM_cons, map_bind, ← h, bind_map]
    congr 1
    funext a'
    exact ih a'

namespace Table

variable {K V : Type}

theorem addStorage_d (t : Table K V) (s : ℕ) : (t.addStorage s).d = t.d := by
  unfold addStorage
  split <;> rfl

theorem insertAt_d (t : Table K V) (b : Bucket) :
    Except.map Table.d (t.insertAt b) = t.d.insertAt b := by
  unfold insertAt
  cases t.d.insertAt b <;> rfl

theorem moveNode_d (t : Table K V) (next bucket : Bucket) :
    Except.map Table.d (t.moveNode next bucket) = t.d.moveNode next bucket := by
  unfold moveNode
  cases t.d.moveNode next bucket with
  | error e => rfl
  | ok d =>
    rw [ok_bind]
    split <;> rfl

section Hash

variable (calculateHash : K → ℕ → ℕ)

theorem closeHole_d (k : ℕ) (t : Table K V) (bucket next : Bucket) :
    Except.map Table.d (t.closeHole calculateHash k bucket next) =
      t.d.closeHole calculateHash k bucket next := by
  induction k generalizing t bucket next with
  | zero => rfl
  | succ k ih =>
    unfold closeHole Data.closeHole
    dsimp only
    split
    · rfl
    · rw [map_bind]
      congr 1
      funext n
      rw [map_bind]
      congr 1
      funext meets
      cases meets with
      | false => exact ih t bucket _
      | true =>
        show Except.map Table.d (t.moveNode _ bucket >>= _) = (t.d.moveNode _ bucket >>= _)
        rw [map_bind, ← moveNode_d, bind_map]
        congr 1
        funext t'
        exact ih t' _ _

theorem erase_d (t : Table K V) (bucket : Bucket) :
    Except.map Table.d (t.erase calculateHash bucket) = t.d.erase calculateHash bucket := by
  unfold erase Data.erase
  rw [map_bind]
  congr 1
  funext _
  rw [map_bind]
  congr 1
  funext sp
  exact closeHole_d calculateHash _ _ _ _

variable [DecidableEq K]

theorem reinsert_d (old : Table K V) (s : ℕ) (t : Table K V) (index : ℕ) :
    Except.map Table.d (reinsert calculateHash old s t index) =
      Data.reinsert calculateHash old.d.spans true s t.d index := by
  unfold reinsert Data.reinsert
  split
  · rw [map_bind]
    congr 1
    funext n
    rw [if_pos rfl, map_bind]
    congr 1
    funext it
    rw [map_bind]
    congr 1
    funext _
    rw [map_bind, ← insertAt_d, bind_map]
    rfl
  · rfl

theorem rehash_d (t : Table K V) (sizeHint : ℕ) :
    Except.map Table.d (t.rehash calculateHash sizeHint) = t.d.rehash calculateHash sizeHint := by
  unfold rehash Data.rehash Data.reallocationHelper
  dsimp only
  rw [map_bind]
  congr 1
  funext spans
  apply map_foldlM
  intro t' s
  apply map_foldlM
  intro t'' index
  exact reinsert_d calculateHash t s t'' index

theorem findOrInsert_d (t : Table K V) (key : K) :
    Except.map (fun r : Table K V × Bucket × Bool => (r.1.d, r.2))
      (t.findOrInsert calculateHash key) = t.d.findOrInsert calculateHash key := by
  have hplace : ∀ it, Except.map (fun r : Table K V × Bucket × Bool => (r.1.d, r.2))
      (findOrInsert.place calculateHash key t it) =
      Data.findOrInsert.place calculateHash key t.d it := by
    intro it
    unfold findOrInsert.place Data.findOrInsert.place
    have hput : ∀ (t : Table K V) (it : Bucket),
        Except.map (fun r : Table K V × Bucket × Bool => (r.1.d, r.2)) (do
          qAssert (t.d.isUnused it = true)
          let t ← t.insertAt it
          pure ({ t with d := { t.d with size := t.d.size + 1 } }, it, false)) = (do
        qAssert (t.d.isUnused it = true)
        let d ← t.d.insertAt it
        pure ({ d with size := d.size + 1 }, it, false)) := by
      intro t it
      rw [map_bind]
      congr 1
      funext _
      rw [map_bind, ← insertAt_d, bind_map]
      rfl
    split
    · dsimp only
      rw [map_bind, ← rehash_d, bind_map]
      congr 1
      funext t'
      rw [map_bind]
      congr 1
      funext it'
      exact hput t' it'
    · cases it with
      | none => rfl
      | some it => exact hput t it
  unfold findOrInsert Data.findOrInsert
  dsimp only
  split
  · rw [map_bind]
    congr 1
    funext it
    cases it with
    | none => exact hplace none
    | some it =>
      dsimp only
      split
      · exact hplace (some it)
      · rfl
  · exact hplace none

end Hash

end Table

end QtBase.QCache
