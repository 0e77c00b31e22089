import IndexedStore.Index.Upkeep

/-! # Single entries

Reading, writing and removing one entry inside a transaction. Writes keep every attached index in
step. A step that succeeds is counted as what it was, one that fails is counted by its code.
-/
namespace IndexedStore.Tree
open Scope (observed)

def requireKey (key : Bytes) : Attempt Scope Unit := .require (!key.isEmpty) .emptyKey

def get (t : Tree) (key : Bytes) : Attempt Scope Bytes := observed do
  t.requireOwn
  let table ← Scope.openTable t.name
  match table.get? key with
  | none => .fail .keyAbsent
  | some value =>
    Scope.count (·.recordGet 0)
    pure value

def insertEntry (t : Tree) (key value : Bytes) : Attempt Scope Unit := do
  requireKey key
  let table ← Scope.openTableToWrite t.name
  .require (!table.contains key) .keyPresent
  let keys ← t.preparedKeys key value
  t.addPairs key keys
  Scope.putTable t.name (table.insert key value)
  Scope.bump 1

/-- Writes an entry, new or not, and its pairs; answers whether it replaced one. -/
def replaceEntry (t : Tree) (key value : Bytes) : Attempt Scope Bool := do
  requireKey key
  let table ← Scope.openTableToWrite t.name
  let keys ← t.preparedKeys key value
  match table.get? key with
  | some old =>
    t.removePairs key old
    t.addPairs key keys
    Scope.putTable t.name (table.insert key value)
    pure true
  | none =>
    t.addPairs key keys
    Scope.putTable t.name (table.insert key value)
    Scope.bump 1
    pure false

/-- Writes an entry; a merge function combines its value with the stored one. -/
def mergeEntry (t : Tree) (key value : Bytes) : Attempt Scope Bool :=
  match t.merge? with
  | none => t.replaceEntry key value
  | some merge => do
    let table ← Scope.openTable t.name
    match table.get? key with
    | none => t.replaceEntry key value
    | some old =>
      match merge old value with
      | none => .fail .nothingMerged
      | some merged => t.replaceEntry key merged

def removeEntry (t : Tree) (key : Bytes) : Attempt Scope Bool := do
  let table ← Scope.openTableToWrite t.name
  match table.get? key with
  | none => pure false
  | some old =>
    t.removePairs key old
    Scope.putTable t.name (table.erase key)
    Scope.bump (-1)
    pure true

def insert (t : Tree) (key value : Bytes) : Attempt Scope Unit := observed do
  t.requireOwn
  t.insertEntry key value
  Scope.count (·.recordInsert 0 false)

/-- Writes an entry in place of the one under its key, if there is one. -/
def update (t : Tree) (key value : Bytes) : Attempt Scope Unit := observed do
  t.requireOwn
  let replaced ← t.replaceEntry key value
  Scope.count (·.recordInsert 0 replaced)

def upsert (t : Tree) (key value : Bytes) : Attempt Scope Unit := observed do
  t.requireOwn
  let replaced ← t.mergeEntry key value
  Scope.count fun s => s.recordUpsert.recordInsert 0 replaced

/-- Removes an entry; that there was none is no failure. -/
def delete (t : Tree) (key : Bytes) : Attempt Scope Bool := observed do
  t.requireOwn
  let removed ← t.removeEntry key
  if removed then Scope.count (·.recordDelete 0)
  pure removed

/-- The value under a key, for a step that may change it. -/
def current (t : Tree) (key : Bytes) : Attempt Scope (Option Bytes) := do
  t.requireOwn
  let _ ← Scope.writable
  let table ← Scope.openTable t.name
  pure (table.get? key)

/-- Replaces an entry by what a function makes of its value: a value is written, none removes the
entry. -/
def modify (t : Tree) (key : Bytes) (f : Option Bytes → Option Bytes) : Attempt Scope Unit := do
  let old? ← t.current key
  match f old? with
  | some value => t.update key value
  | none => if old?.isSome then discard (t.delete key) else pure ()

/-- Whether a key is present; a failure reads as absence. -/
def contains (t : Tree) (key : Bytes) : Attempt Scope Bool := fun s =>
  match (do t.requireOwn; Scope.openTable t.name : Attempt Scope Table) s with
  | (.ok table, s) => (.ok (table.contains key), s)
  | (.error _, s) => (.ok false, s)

/-- Inserts entries in order up to the first failure. -/
def insertMany (t : Tree) (items : List (Bytes × Bytes)) : Attempt Scope Unit :=
  items.forM fun e => t.insert e.1 e.2

def upsertMany (t : Tree) (items : List (Bytes × Bytes)) : Attempt Scope Unit :=
  items.forM fun e => t.upsert e.1 e.2

def getMany (t : Tree) (keys : List Bytes) : Attempt Scope (List (Option Bytes)) := do
  t.requireOwn
  let table ← Scope.openTable t.name
  pure (keys.map table.get?)

def containsMany (t : Tree) (keys : List Bytes) : Attempt Scope (List Bool) := do
  t.requireOwn
  let table ← Scope.openTable t.name
  pure (keys.map table.contains)

end IndexedStore.Tree
