import IndexedStore.Database
import IndexedStore.Index.Basic

/-! # Trees

A tree is a named ordered collection with its attached indexes. The handle also carries a merge
function for upserts, a comparator for range ends and exact lookups, and a running count of the
entries it has seen come and go.
-/
namespace IndexedStore

abbrev Merge := Bytes → Bytes → Option Bytes

/-- An open tree. No two of its indexes share a name. -/
structure Tree where
  /-- path of the database that holds the tree -/
  database : String
  name : String
  /-- attached indexes in the order they are maintained -/
  indexes : List Index
  merge? : Option Merge
  compare? : Option Comparator
  distinct : (indexes.map Index.name).Nodup

/-- The table that holds a record for each index of every tree. -/
def recordTable : String := "__wtree3_index_meta__"

/-- How the names of index tables begin. -/
def indexTableStem : String := "idx:"

def indexTableName (tree index : String) : String := indexTableStem ++ tree ++ ":" ++ index

/-- Checks a name for a tree. Colons separate the parts of index table names and record keys, so no
tree has one in its name. -/
def checkTreeName (name : String) : Except Failure Unit :=
  if name == "" then .error .emptyTreeName
  else if name == recordTable || indexTableStem.toList.isPrefixOf name.toList then
    .error (.reservedTreeName name)
  else if name.toList.contains ':' then .error (.colonInTreeName name)
  else .ok ()

namespace Tree

def indexTable (t : Tree) (i : Index) : String := indexTableName t.name i.name

def index? (t : Tree) (name : String) : Option Index := t.indexes.find? fun i => i.name == name

def hasIndex (t : Tree) (name : String) : Bool := (t.index? name).isSome

def indexNames (t : Tree) : List String := t.indexes.map Index.name

def bare (database name : String) : Tree := ⟨database, name, [], none, none, .nil⟩

theorem name_ne_of_hasIndex {t : Tree} {name : String} (free : t.hasIndex name = false) {i : Index}
    (hi : i ∈ t.indexes) : i.name ≠ name := by
  simp only [hasIndex, index?, Option.isSome_eq_false_iff, Option.isNone_iff_eq_none,
    List.find?_eq_none] at free
  simpa using free i hi

def attach (t : Tree) (i : Index) (free : t.hasIndex i.name = false) : Tree :=
  { t with
    indexes := t.indexes ++ [i]
    distinct := by
      rw [List.map_append, List.nodup_append]
      refine ⟨t.distinct, by simp, fun a ha b hb => ?_⟩
      obtain ⟨j, hj, rfl⟩ := List.mem_map.mp ha
      obtain rfl : b = i.name := by simpa using hb
      exact name_ne_of_hasIndex free hj }

def detach (t : Tree) (name : String) : Tree :=
  { t with
    indexes := t.indexes.filter fun i => i.name != name
    distinct := t.distinct.sublist (List.filter_sublist.map _) }

/-- The tree's order of keys: its comparator, or byte order. -/
def compareKeys (t : Tree) : Comparator := t.compare?.getD Bytes.cmp

def setCompare (t : Tree) (c : Comparator) : Tree := { t with compare? := some c }

def setMerge (t : Tree) (m : Merge) : Tree := { t with merge? := some m }

/-- Fails if the transaction is of another database. -/
def requireOwn (t : Tree) : Attempt Scope Unit := fun s =>
  if s.txn.database == t.database then (.ok (), s) else (.error .foreignTransaction, s)

end Tree

/-- The entries a handle reports: never below zero. -/
def reportedCount (entryCount : Int64) : Nat := entryCount.toInt.toNat

/-- The entry count of a new handle: the caller's hint, as far as it can be counted. -/
def seededCount (hint : Nat) : Int64 := .ofNat (min hint 9223372036854775807)

def Tree.describe (t : Tree) (entryCount : Int64) : String :=
  Text.described "Tree" [("name", Text.quoted t.name),
    ("indexes", Text.bracketed (t.indexNames.map Text.quoted)),
    ("merge_fn", toString t.merge?.isSome), ("compare", toString t.compare?.isSome),
    ("entry_count", toString (reportedCount entryCount))]

end IndexedStore
