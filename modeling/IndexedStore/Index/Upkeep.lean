import IndexedStore.Tree.Basic

/-! # Keeping indexes in step

A write of an entry first derives the index keys of the new value and checks the unique indexes, so
that a violation is found before anything is written. Only then are the pairs of the old value
removed and the new pairs added.
-/
namespace IndexedStore.Tree

/-- Whether an index may map a key to the entry `key`: a unique index must not map it to another
entry. -/
def admits (table : PairTable) (key indexKey : Bytes) : Bool :=
  (table.primaryKeys indexKey).all fun pk => pk == key

/-- The index key of a value in one index, checked against the entries of a unique index. -/
def preparedKey (t : Tree) (key value : Bytes) (i : Index) : Attempt Scope (Option Bytes) :=
  match i.extract value with
  | none => pure none
  | some indexKey => do
    if i.unique then
      let table ← Scope.openPairs (t.indexTable i)
      .require (admits table key indexKey) (.duplicateKey i.name)
    pure (some indexKey)

def preparedKeys (t : Tree) (key value : Bytes) : Attempt Scope (List (Option Bytes)) :=
  t.indexes.mapM (t.preparedKey key value)

def addPair (t : Tree) (key : Bytes) (i : Index) (indexKey : Bytes) : Attempt Scope Unit := do
  let table ← Scope.openPairsToWrite (t.indexTable i)
  Scope.putPairs (t.indexTable i) (table.insert (indexKey, key) ())

def removePair (t : Tree) (key : Bytes) (i : Index) (indexKey : Bytes) : Attempt Scope Unit := do
  let table ← Scope.openPairsToWrite (t.indexTable i)
  Scope.putPairs (t.indexTable i) (table.erase (indexKey, key))

def addPairs (t : Tree) (key : Bytes) (keys : List (Option Bytes)) : Attempt Scope Unit :=
  (t.indexes.zip keys).forM fun (i, indexKey?) =>
    match indexKey? with
    | none => pure ()
    | some indexKey => t.addPair key i indexKey

/-- Removes the pairs that a stored value gave rise to. -/
def removePairs (t : Tree) (key value : Bytes) : Attempt Scope Unit :=
  t.indexes.forM fun i =>
    match i.extract value with
    | none => pure ()
    | some indexKey => t.removePair key i indexKey

end IndexedStore.Tree
