import IndexedStore.Tree.Basic

/-! # Verifying indexes

A store is consistent for a tree when the table of every attached index holds exactly the pairs that
the entries of the tree give rise to, and a unique index holds each index key once. Verification
reads the committed store and reports the first inconsistency it meets.
-/
namespace IndexedStore
namespace Index

/-- Whether the pair that an entry gives rise to is in the table. -/
def coversEntry (i : Index) (pairs : PairTable) (e : Bytes × Bytes) : Bool :=
  match i.extract e.2 with
  | none => true
  | some indexKey => pairs.contains (indexKey, e.1)

def checkPair (i : Index) (table : Table) (p : Pair) : Except Failure Unit :=
  match table.get? p.2 with
  | none => .error (.orphanedPair i.name)
  | some value =>
    if i.extract value = some p.1 then .ok () else .error (.stalePair i.name)

/-- Checks pairs in order; `previous` is the index key of the pair before. -/
def checkPairs (i : Index) (table : Table) : Option Bytes → List Pair → Except Failure Unit
  | _, [] => .ok ()
  | previous, p :: rest => do
    checkPair i table p
    if i.unique && previous == some p.1 then .error (.repeatedKey i.name)
    checkPairs i table (some p.1) rest

def check (i : Index) (table : Table) (pairs : PairTable) : Except Failure Unit := do
  if !table.toList.all (i.coversEntry pairs) then .error (.missingPair i.name)
  i.checkPairs table none pairs.pairs

end Index

namespace Tree

def verify (t : Tree) (s : Store) : Except Failure Unit :=
  if t.indexes.isEmpty then .ok ()
  else do
    let table ← s.readTable t.name
    t.indexes.forM fun i => do
      let pairs ← s.readPairs (t.indexTable i)
      i.check table pairs

end Tree
end IndexedStore
