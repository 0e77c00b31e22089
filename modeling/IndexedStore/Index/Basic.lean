import IndexedStore.Extractor
import IndexedStore.Failure
import IndexedStore.Index.Record

/-! # Secondary indexes

An index maps keys derived from values to the primary keys of the entries that hold them. A unique
index holds each index key once. The comparator of an index decides what a lookup counts as equal;
its table stays in byte order.
-/
namespace IndexedStore

abbrev Comparator := Bytes → Bytes → Ordering

structure IndexConfig where
  name : String
  userData : Option Bytes := none
  unique : Bool := false
  sparse : Bool := false
  compare? : Option Comparator := none

namespace IndexConfig

def flags (c : IndexConfig) : UInt32 := indexFlags c.unique c.sparse

def describe (c : IndexConfig) : String :=
  let data := match c.userData with
    | none => "None"
    | some d => "Some(" ++ Text.bracketed (d.map toString) ++ ")"
  Text.described "IndexConfig" [("name", Text.quoted c.name), ("user_data", data),
    ("unique", toString c.unique), ("sparse", toString c.sparse),
    ("compare", toString c.compare?.isSome)]

end IndexConfig

structure Index where
  name : String
  extractorId : UInt64
  extractor : Extractor
  userData : Option Bytes
  unique : Bool
  sparse : Bool
  compare? : Option Comparator

namespace Index

/-- The index key of a value; none when the value is left out. -/
def extract (i : Index) (value : Bytes) : Option Bytes := i.extractor value i.userData

/-- What is kept of the index between openings. -/
def record (i : Index) : IndexRecord :=
  ⟨i.extractorId, indexFlags i.unique i.sparse, i.userData⟩

/-- Names that can stand in the name of an index table. -/
def validName (name : String) : Bool := name != "" && !name.toList.contains ':'

end Index
end IndexedStore
