import IndexedStore.Attempt
import IndexedStore.Statistics
import IndexedStore.Store
import IndexedStore.Text.Quoted

/-! # Transactions

A read transaction sees the store as it was when the transaction began, a write transaction sees its
own changes. Steps inside a transaction work on a scope: the transaction itself, the entry count of
the handle they were called through, and the counters of the database.

Only plain tables have to exist before they are used. A paired table that is missing comes into
being, empty, as soon as a write transaction opens it, even for reading.
-/
namespace IndexedStore

inductive View
  /-- a reader's unchanging store -/
  | snapshot (s : Store)
  /-- a reader that gave its store back -/
  | released
  /-- a writer's store with its changes so far -/
  | working (s : Store)

/-- A transaction on the database at a path. Databases that are open together lie in different
directories, so the path tells them apart. -/
structure Txn where
  database : String
  view : View

namespace Txn

def isReader (x : Txn) : Bool :=
  match x.view with
  | .working _ => false
  | _ => true

/-- Gives a reader's store back; the transaction can be renewed. -/
def reset (x : Txn) : Except Failure Txn :=
  if x.isReader then .ok { x with view := .released } else .error .resetOfWriter

/-- Lets a reader see the store as it is now. -/
def renew (x : Txn) (now : Store) : Except Failure Txn :=
  if x.isReader then .ok { x with view := .snapshot now } else .error .renewalOfWriter

def describe (x : Txn) : String :=
  let state := match x.view with
    | .snapshot _ => "read"
    | .released => "read (reset)"
    | .working _ => "write"
  Text.described "Txn" [("db", Text.quoted x.database), ("state", Text.quoted state)]

end Txn

structure Scope where
  txn : Txn
  /-- entries seen by the handle that the step was called through -/
  entryCount : Int64
  statistics : Statistics

namespace Scope

def count (f : Statistics → Statistics) : Attempt Scope Unit :=
  .update fun s => { s with statistics := f s.statistics }

def bump (delta : Int64) : Attempt Scope Unit :=
  .update fun s => { s with entryCount := s.entryCount + delta }

def observed {α : Type} (x : Attempt Scope α) : Attempt Scope α := fun s =>
  match x s with
  | (.ok a, s) => (.ok a, s)
  | (.error e, s) => (.error e, { s with statistics := s.statistics.recordError e.code })

def writable : Attempt Scope Store := fun s =>
  match s.txn.view with
  | .working store => (.ok store, s)
  | _ => (.error .writeRequired, s)

def put (store : Store) : Attempt Scope Unit :=
  .update fun s => { s with txn := { s.txn with view := .working store } }

def openTable (name : String) : Attempt Scope Table := fun s =>
  match s.txn.view with
  | .working store =>
    match store.table? name with
    | some t => (.ok t, s)
    | none => (.error (.tableMissing name), s)
  | .snapshot store => (store.readTable name, s)
  | .released => (.error .transactionReset, s)

/-- A plain table for writing. It has to exist: a handle to a deleted tree must not bring the tree
back. -/
def openTableToWrite (name : String) : Attempt Scope Table := do
  let store ← writable
  match store.table? name with
  | some t => pure t
  | none => .fail (.tableMissing name)

def putTable (name : String) (t : Table) : Attempt Scope Unit := do
  let store ← writable
  put (store.putTable name t)

/-- A paired table for writing, which comes into being here if it is missing. -/
def openPairsToWrite (name : String) : Attempt Scope PairTable := do
  let store ← writable
  let t ← .ofExcept (store.openPairs name)
  put (store.putPairs name t)
  pure t

/-- A paired table for reading; in a write transaction it comes into being if it is missing. -/
def openPairs (name : String) : Attempt Scope PairTable := fun s =>
  match s.txn.view with
  | .working _ => openPairsToWrite name s
  | .snapshot store => (store.readPairs name, s)
  | .released => (.error .transactionReset, s)

def putPairs (name : String) (t : PairTable) : Attempt Scope Unit := do
  let store ← writable
  put (store.putPairs name t)

end Scope
end IndexedStore
