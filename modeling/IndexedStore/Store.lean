import IndexedStore.Bytes
import IndexedStore.Failure

/-! # Stores

A store is all that a database holds at one moment: named tables of two kinds under one set of
names. A plain table maps keys to values. A paired table is a set of pairs of an index key and a
primary key. A table is of the kind it was created with, and opening it as the other kind fails.
-/
namespace IndexedStore

abbrev Table := OrderedMap Bytes.cmp Bytes

abbrev PairTable := OrderedMap Pair.cmp Unit

namespace PairTable

abbrev pairs (t : PairTable) : List Pair := t.keys

/-- The primary keys under an index key, in order. -/
def primaryKeys (t : PairTable) (indexKey : Bytes) : List Bytes :=
  (t.pairs.filter fun p => p.1 == indexKey).map Prod.snd

end PairTable

/-- The named tables of a database. -/
structure Store where
  plain : OrderedMap nameCmp Table
  paired : OrderedMap nameCmp PairTable
deriving DecidableEq

namespace Store

def empty : Store := ⟨.empty, .empty⟩

instance : Inhabited Store := ⟨empty⟩

def tableCount (s : Store) : Nat := s.plain.size + s.paired.size

def table? (s : Store) (name : String) : Option Table := s.plain.get? name

def pairs? (s : Store) (name : String) : Option PairTable := s.paired.get? name

def putTable (s : Store) (name : String) (t : Table) : Store :=
  { s with plain := s.plain.insert name t }

def putPairs (s : Store) (name : String) (t : PairTable) : Store :=
  { s with paired := s.paired.insert name t }

/-- The contents of a plain table that must exist. -/
def readTable (s : Store) (name : String) : Except Failure Table :=
  match s.table? name with
  | some t => .ok t
  | none => .error (if s.paired.contains name then .tableIsPaired name else .tableMissing name)

def readPairs (s : Store) (name : String) : Except Failure PairTable :=
  match s.pairs? name with
  | some t => .ok t
  | none => .error (if s.plain.contains name then .tableIsPlain name else .tableMissing name)

/-- The contents of a plain table, empty before it is first written. -/
def openTable (s : Store) (name : String) : Except Failure Table :=
  match s.table? name with
  | some t => .ok t
  | none => if s.paired.contains name then .error (.tableIsPaired name) else .ok .empty

def openPairs (s : Store) (name : String) : Except Failure PairTable :=
  match s.pairs? name with
  | some t => .ok t
  | none => if s.plain.contains name then .error (.tableIsPlain name) else .ok .empty

/-- Removes a plain table, if there is one of that name. -/
def dropTable (s : Store) (name : String) : Except Failure Store :=
  if s.paired.contains name then .error (.tableIsPaired name)
  else .ok { s with plain := s.plain.erase name }

def dropPairs (s : Store) (name : String) : Except Failure Store :=
  if s.plain.contains name then .error (.tableIsPlain name)
  else .ok { s with paired := s.paired.erase name }

end Store
end IndexedStore
