import IndexedStore.Tree.Basic

/-! # The catalog of indexes

One reserved table holds a record for each index of every tree, under the key `tree:index`. The
records of a tree lie together, so its indexes are found by the start of their keys.
-/
namespace IndexedStore.Catalog

def key (tree index : String) : Bytes := Bytes.ofText (tree ++ ":" ++ index)

/-- How the record keys of a tree begin. -/
def stem (tree : String) : Bytes := Bytes.ofText (tree ++ ":")

/-- The record stored for an index. A store without the reserved table has no records. -/
def read (s : Store) (tree index : String) : Except Failure (Option IndexRecord) :=
  match (s.table? recordTable).bind fun t => t.get? (key tree index) with
  | none => .ok none
  | some raw => (IndexRecord.decode raw).map some

/-- What follows `stem` in the keys that begin with it. -/
def suffixes (stem : Bytes) (t : Table) : List Bytes :=
  ((t.keys.filter fun k => (Bytes.cmp stem k).isLE).takeWhile fun k => stem.isPrefixOf k).map
    fun k => k.drop stem.length

/-- Names of the indexes recorded for a tree, in the order of their keys. -/
def names (s : Store) (tree : String) : List String :=
  match s.table? recordTable with
  | none => []
  | some t => (suffixes (stem tree) t).map Bytes.toText

def save (tree : String) (i : Index) : Attempt Scope Unit := do
  let store ← Scope.writable
  let t ← .ofExcept (store.openTable recordTable)
  Scope.putTable recordTable (t.insert (key tree i.name) i.record.encode)

def remove (tree index : String) : Attempt Scope Unit := do
  let store ← Scope.writable
  match store.table? recordTable with
  | none => pure ()
  | some t => Scope.putTable recordTable (t.erase (key tree index))

def removeAll (tree : String) : Attempt Scope Unit := do
  let store ← Scope.writable
  match store.table? recordTable with
  | none => pure ()
  | some t =>
    let stale := (suffixes (stem tree) t).map fun k => stem tree ++ k
    Scope.putTable recordTable (stale.foldl (fun t k => t.erase k) t)

end IndexedStore.Catalog
