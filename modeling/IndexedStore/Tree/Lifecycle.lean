import IndexedStore.Index.Lifecycle

/-! # Opening and deleting trees

A tree comes into being when it is first opened for creation, and opening it attaches the indexes
recorded for it. Deleting a tree removes its table, its index tables and their records in one
transaction; handles that stay open cannot bring the table back.
-/
namespace IndexedStore.Database

def hasTree (d : Database) (name : String) : Bool := (d.store.table? name).isSome

def createTree (d : Database) (name : String) : Attempt Scope Unit := do
  let store ← Scope.writable
  if (store.table? name).isNone then
    .ofExcept (d.requireSlot store)
    let t ← .ofExcept (store.openTable name)
    Scope.putTable name t

/-- Opens a tree, creating it if that is asked for and the database can be written. -/
def openTree (allocated : Nat) (name : String) (create : Bool) : Attempt Database Tree := do
  .ofExcept (checkTreeName name)
  let d ← .state
  if !d.hasTree name then
    .require (create && !d.flags.readOnly) (.treeMissing name)
    write allocated (d.createTree name)
  let d ← .state
  pure ((Tree.bare d.path name).loadRecorded d)

/-- Index tables of a tree, attached to some handle or not. -/
def indexTablesOf (s : Store) (name : String) : List String :=
  s.paired.keys.filter fun n => (indexTableName name "").toList.isPrefixOf n.toList

def dropTree (allocated : Nat) (name : String) : Attempt Database Unit := do
  .ofExcept (checkTreeName name)
  write allocated do
    let store ← Scope.writable
    .require (store.table? name).isSome (.treeMissing name)
    let store ← .ofExcept
      ((indexTablesOf store name).foldlM (fun s n => s.dropPairs n) store)
    Scope.put store
    Catalog.removeAll name
    let store ← Scope.writable
    let store ← .ofExcept (store.dropTable name)
    Scope.put store

end IndexedStore.Database
