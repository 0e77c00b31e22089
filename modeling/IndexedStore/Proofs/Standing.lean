import IndexedStore.Proofs.Commuting
import IndexedStore.Proofs.Isolation
import IndexedStore.Proofs.Lifetime
import IndexedStore.Proofs.Strokes

/-! # Steps inside a transaction

Whatever the library does to entries, trees and indexes it does inside a transaction. A step there
counts no end of a transaction, and a transaction that writes goes on writing.
-/
namespace IndexedStore
open Attempt

/-- Makes a step that has no cursor. -/
def Cursor.beside (x : Attempt Scope Unit) : Attempt (Cursor × Scope) Unit := fun (c, s) =>
  let (r, s) := x s
  (r, c, s)

namespace Database

/-- What the deletion of a tree does in its transaction. -/
def clearTree (name : String) : Attempt Scope Unit := do
  let store ← Scope.writable
  .require (store.table? name).isSome (.treeMissing name)
  let store ← .ofExcept
    ((indexTablesOf store name).foldlM (fun s n => s.dropPairs n) store)
  Scope.put store
  Catalog.removeAll name
  let store ← Scope.writable
  let store ← .ofExcept (store.dropTable name)
  Scope.put store

theorem dropTree_eq (allocated : Nat) (name : String) :
    dropTree allocated name =
      (do .ofExcept (checkTreeName name); write allocated (clearTree name)) := rfl

end Database

namespace Tree

/-- What populating an index does in its transaction. -/
def fillIndex (t : Tree) (i : Index) : Attempt Scope Unit := do
  let table ← Scope.openTable t.name
  let pairs ← Scope.openPairsToWrite (t.indexTable i)
  let pairs ← .ofExcept (i.populated table.toList pairs)
  Scope.putPairs (t.indexTable i) pairs

theorem populate_eq (t : Tree) (allocated : Nat) (name : String) :
    t.populate allocated name = (do
      let i ← .ofExcept (t.attached name)
      Database.write allocated (t.fillIndex i)) := rfl

/-- What dropping an index does in its transaction. -/
def clearIndex (t : Tree) (i : Index) (name : String) : Attempt Scope Unit := do
  let store ← Scope.writable
  let store ← .ofExcept (store.dropPairs (t.indexTable i))
  Scope.put store
  Catalog.remove t.name name

theorem dropIndex_eq (t : Tree) (allocated : Nat) (name : String) :
    t.dropIndex allocated name = (do
      let i ← .ofExcept (t.attached name)
      Database.write allocated (t.clearIndex i name)
      pure (t.detach name)) := rfl

end Tree

/-- A step of the library inside a transaction. What asks for a free slot knows the database. -/
inductive Inside
  | call (t : Tree) (x : CursorCall)
  | createTree (d : Database) (name : String)
  | clearTree (name : String)
  | createIndex (d : Database) (t : Tree) (i : Index)
  | fillIndex (t : Tree) (i : Index)
  | clearIndex (t : Tree) (i : Index) (name : String)
  | saveIndex (t : Tree) (i : Index)

def Inside.step : Inside → Attempt (Cursor × Scope) Unit
  | call t x => x.step t
  | createTree d name => Cursor.beside (d.createTree name)
  | clearTree name => Cursor.beside (Database.clearTree name)
  | createIndex d t i => Cursor.beside (t.createIndex d i)
  | fillIndex t i => Cursor.beside (t.fillIndex i)
  | clearIndex t i name => Cursor.beside (t.clearIndex i name)
  | saveIndex t i => Cursor.beside (Catalog.save t.name i)

/-! ## What a step leaves to the end of its transaction -/

namespace Scope
variable {α β : Type} {x : Attempt Scope α} {s s' : Scope}

/-- Whether the transaction reads, and how often commits and aborts have been counted. -/
def standing (s : Scope) : Bool × UInt64 × UInt64 :=
  (s.txn.isReader, s.statistics.commits, s.statistics.aborts)

theorem standing_on (s : Scope) (S : Store) :
    (s.on S).standing = (false, s.statistics.commits, s.statistics.aborts) := rfl

theorem standing_bumped_on (s : Scope) (n : Int64) (S S' : Store) :
    (s.on S).standing = ((s.bumped n).on S').standing := rfl

/-- The entry count is none of it, nor is what is counted of entries. -/
theorem standing_bumped_counted_on {f : Statistics → Statistics}
    (h : ∀ c, ((f c).commits, (f c).aborts) = (c.commits, c.aborts)) (s : Scope) (n : Int64)
    (S S' : Store) : (s.on S).standing = (((s.bumped n).counted f).on S').standing :=
  congrArg (false, ·) (h s.statistics).symm

/-- The step counts no end, and a transaction that writes goes on writing. -/
abbrev Stays (x : Attempt Scope α) : Prop := x.Respects (Order.Preimage standing (· = ·))

theorem isReader_of_plain {x x' : Txn} (h : x.view.plain = x'.view.plain) :
    x.isReader = x'.isReader := by
  unfold Txn.isReader
  generalize x.view = v at h ⊢
  generalize x'.view = v' at h ⊢
  cases v <;> cases v' <;> first | rfl | exact absurd h nofun

theorem standing_of_account (h : s.account = s'.account) : s.standing = s'.standing := by
  have htotals : s.statistics.totals = s'.statistics.totals := congrArg (·.2.2) h
  have hcommits : s.statistics.commits = s'.statistics.commits := congrArg Totals.commits htotals
  have haborts : s.statistics.aborts = s'.statistics.aborts := congrArg Totals.aborts htotals
  rw [standing, standing, isReader_of_plain (congrArg Prod.fst h), hcommits, haborts]

theorem Aside.stays (hx : Aside x) : Stays x := fun s => standing_of_account (hx s)

theorem stays_putTable (n : String) (T : Table) : Stays (putTable n T) :=
  respects_writable_bind fun _ _ => rfl

theorem storeOnly_ofExcept (r : Except Failure α) : StoreOnly (ofExcept r) :=
  fun S => ⟨r, S, fun _ => rfl⟩

theorem storeOnly_require (holds : Bool) (e : Failure) : StoreOnly (require holds e) :=
  fun S => ⟨if holds then .ok () else .error e, S, fun _ => run_require ..⟩

theorem storeOnly_writable : StoreOnly writable := fun S => ⟨.ok S, S, fun _ => rfl⟩

theorem storeOnly_put (S : Store) : StoreOnly (put S) := fun _ => ⟨.ok (), S, fun _ => rfl⟩

/-- A step that puts a whole store is made in a write transaction or not at all. -/
theorem stays_writable_bind {f : Store → Attempt Scope α} (h : ∀ S, StoreOnly (f S)) :
    Stays (writable >>= f) := by
  refine respects_writable_bind fun s S => ?_
  obtain ⟨r, S', hrun⟩ := h S S
  have hstate : ((f S).run (s.on S)).2 = s.on S' := congrArg Prod.snd (hrun s)
  rw [Order.Preimage, hstate, standing_on, standing_on]

end Scope

open Scope

namespace Catalog

theorem stays_save (tree : String) (i : Index) : Stays (save tree i) :=
  aside_writable.stays.bind fun _ => (respects_ofExcept _).bind fun _ => stays_putTable _ _

theorem storeOnly_remove (tree index : String) : StoreOnly (remove tree index) :=
  fun S => ⟨.ok (), _, fun s => run_remove tree index s S⟩

theorem storeOnly_removeAll (tree : String) : StoreOnly (removeAll tree) :=
  fun S => ⟨.ok (), _, fun s => run_removeAll tree s S⟩

end Catalog

namespace Database

theorem stays_createTree (d : Database) (name : String) : Stays (d.createTree name) := by
  refine aside_writable.stays.bind fun S => ?_
  split
  · exact (respects_ofExcept _).bind fun _ => (respects_ofExcept _).bind fun _ => stays_putTable _ _
  · exact respects_pure _

theorem stays_clearTree (name : String) : Stays (clearTree name) :=
  stays_writable_bind fun _ => (storeOnly_require _ _).bind fun _ =>
    (storeOnly_ofExcept _).bind fun S => (storeOnly_put S).bind fun _ =>
      (Catalog.storeOnly_removeAll name).bind fun _ => storeOnly_writable.bind fun _ =>
        (storeOnly_ofExcept _).bind fun S' => storeOnly_put S'

end Database

namespace Tree
variable {t : Tree} {s s' : Scope}

/-- What is created for an index is paired, apart from its record. -/
theorem respects_createIndex {R : Scope → Scope → Prop} [IsPreorder Scope R] {i : Index}
    (aside : ∀ {s s' : Scope}, s.account = s'.account → R s s')
    (save : (Catalog.save t.name i).Respects R) (d : Database) :
    (t.createIndex d i).Respects R := by
  have hwritable : writable.Respects R := fun s => aside (aside_writable s)
  have hrecord : (do
      let store ← writable
      if (store.table? recordTable).isNone then .ofExcept (d.requireSlot store)
      Catalog.save t.name i : Attempt Scope Unit).Respects R := by
    refine hwritable.bind fun S => ?_
    split
    · exact (respects_ofExcept _).bind fun _ => save
    · exact save
  refine hwritable.bind fun S => ?_
  split
  · have hopen : (openPairsToWrite (t.indexTable i)).Respects R :=
      fun s => aside (aside_openPairsToWrite _ s)
    exact (respects_ofExcept _).bind fun _ => hopen.discard.bind fun _ => hrecord
  · exact hrecord

theorem stays_createIndex (d : Database) (i : Index) : Stays (t.createIndex d i) :=
  respects_createIndex standing_of_account (Catalog.stays_save t.name i) d

theorem aside_fillIndex (i : Index) : Aside (t.fillIndex i) :=
  (aside_openTable _).bind fun _ => (aside_openPairsToWrite _).bind fun _ =>
    (respects_ofExcept _).bind fun _ => aside_putPairs _ _

theorem stays_clearIndex (i : Index) (name : String) : Stays (t.clearIndex i name) :=
  stays_writable_bind fun _ => (storeOnly_ofExcept _).bind fun S => (storeOnly_put S).bind fun _ =>
    Catalog.storeOnly_remove t.name name

theorem Stroke.standing_eq (h : t.Stroke s s') : s.standing = s'.standing := by
  cases h with
  | aside same => exact standing_of_account same
  | added => exact standing_bumped_counted_on (fun _ => rfl) _ 1 _ _
  | replaced => rfl
  | removed => exact standing_bumped_counted_on (fun _ => rfl) _ (-1) _ _

theorem standing_of_strokes (h : t.Strokes s s') : s.standing = s'.standing := by
  induction h with
  | refl => rfl
  | tail _ hstroke ih => exact ih.trans hstroke.standing_eq

end Tree

theorem CursorCall.standing_step (t : Tree) (x : CursorCall) (c : Cursor) (s : Scope) :
    s.standing = ((x.step t).run (c, s)).2.2.standing := by
  by_cases hx : x = .delete
  · subst hx
    obtain ⟨s₁, s₂, hbefore, hcut, hafter⟩ := Cursor.cut_delete (t := t) c s
    have hstanding : s₁.standing = s₂.standing := by
      obtain rfl | hcut := hcut
      · rfl
      · cases hcut
        exact standing_bumped_on _ (-1) _ _
    exact (standing_of_account hbefore).trans (hstanding.trans (standing_of_account hafter))
  · exact Tree.standing_of_strokes (strokes_step hx c s)

theorem Inside.standing_step (x : Inside) (c : Cursor) (s : Scope) :
    s.standing = (x.step.run (c, s)).2.2.standing := by
  cases x with
  | call t x => exact x.standing_step t c s
  | createTree d name => exact d.stays_createTree name s
  | clearTree name => exact Database.stays_clearTree name s
  | createIndex d t i => exact t.stays_createIndex d i s
  | fillIndex t i => exact (t.aside_fillIndex i).stays s
  | clearIndex t i name => exact t.stays_clearIndex i name s
  | saveIndex t i => exact Catalog.stays_save t.name i s

end IndexedStore
