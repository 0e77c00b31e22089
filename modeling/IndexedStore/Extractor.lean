import IndexedStore.Bytes
import IndexedStore.Text.Quoted

/-! # Key extractors

An extractor derives an index key from a stored value. Extractors are functions and cannot be
stored, so each is registered under an id made of a schema version and the flags of the indexes it
serves; a persisted index finds its extractor again by that id.
-/
namespace IndexedStore

/-- A `major.minor` schema version in one word, the major part in the high half. -/
def schemaVersion (major minor : UInt16) : UInt32 := (major.toUInt32 <<< 16) ||| minor.toUInt32

/-- The flag of indexes that hold each key once. -/
def uniqueFlag : UInt32 := 1

/-- The flag of indexes that leave some values out. -/
def sparseFlag : UInt32 := 2

def indexFlags (unique sparse : Bool) : UInt32 :=
  (if unique then uniqueFlag else 0) ||| (if sparse then sparseFlag else 0)

/-- The id of an extractor: the version in the high half, the flags in the low half. -/
def extractorId (version flags : UInt32) : UInt64 := (version.toUInt64 <<< 32) ||| flags.toUInt64

/-- Derives an index key from a value and the index's own data, or leaves the value out. -/
abbrev Extractor := Bytes → Option Bytes → Option Bytes

def idCmp : UInt64 → UInt64 → Ordering := compare

instance : Std.TransCmp idCmp :=
  inferInstanceAs (Std.TransCmp (compare : UInt64 → UInt64 → Ordering))

instance : Std.LawfulEqCmp idCmp :=
  inferInstanceAs (Std.LawfulEqCmp (compare : UInt64 → UInt64 → Ordering))

abbrev Registry := OrderedMap idCmp Extractor

namespace Registry

/-- Binds an extractor to a version and flags, in place of an earlier one. -/
def register (r : Registry) (version flags : UInt32) (x : Extractor) : Registry :=
  r.insert (extractorId version flags) x

def describe (r : Registry) : String :=
  Text.described "ExtractorRegistry"
    [("extractor_ids", Text.bracketed (r.keys.map toString))]

end Registry
end IndexedStore
