import IndexedStore.Text.Cut

/-! # Failures

Every way in which a step can fail is a cause of its own. A cause fixes the code and the wording of
the error record that callers see; the record bounds its texts.
-/
namespace IndexedStore

/-- The kinds of failure that callers can tell apart. -/
inductive ErrorCode
  | ok | generic | invalidArg | outOfMemory | keyExists | notFound | mapFull | txnFull
  | indexError | unsupported
deriving DecidableEq

namespace ErrorCode

def all : List ErrorCode :=
  [ok, generic, invalidArg, outOfMemory, keyExists, notFound, mapFull, txnFull, indexError,
    unsupported]

def number : ErrorCode → Int
  | ok => 0
  | generic => -3000
  | invalidArg => -3001
  | outOfMemory => -3002
  | keyExists => -3003
  | notFound => -3004
  | mapFull => -3005
  | txnFull => -3006
  | indexError => -3007
  | unsupported => -3008

def ofNumber? (n : Int) : Option ErrorCode := all.find? fun c => c.number == n

def name : ErrorCode → String
  | ok => "Ok"
  | generic => "Generic"
  | invalidArg => "InvalidArg"
  | outOfMemory => "OutOfMemory"
  | keyExists => "KeyExists"
  | notFound => "NotFound"
  | mapFull => "MapFull"
  | txnFull => "TxnFull"
  | indexError => "IndexError"
  | unsupported => "Unsupported"

def text : ErrorCode → String
  | ok => "Success"
  | generic => "Generic error"
  | invalidArg => "Invalid argument"
  | outOfMemory => "Out of memory"
  | keyExists => "Key already exists"
  | notFound => "Key not found"
  | mapFull => "Database map is full, resize needed"
  | txnFull => "Transaction is full"
  | indexError => "Index operation failed"
  | unsupported => "Not supported on this platform"

/-- A full map is the one failure a caller can mend: resize, then try again. -/
def recoverable (c : ErrorCode) : Bool := c == mapFull

def textOfNumber (n : Int) : String :=
  match ofNumber? n with
  | some c => c.text
  | none => "Unknown error"

def numberRecoverable (n : Int) : Bool := (ofNumber? n).any recoverable

end ErrorCode

/-- What a caller learns of a failure. -/
structure ErrorRecord where
  code : ErrorCode
  label : String
  message : String
deriving DecidableEq

namespace ErrorRecord

def labelLimit : Nat := 63

def messageLimit : Nat := 255

/-- A record with both texts cut to their limits. -/
def labelled (label : String) (code : ErrorCode) (message : String) : ErrorRecord where
  code := code
  label := Text.cut labelLimit label
  message := Text.cut messageLimit message

def display (e : ErrorRecord) : String := e.label ++ ": " ++ e.message

end ErrorRecord

/-- The part of the library that reports a failure. -/
inductive Source
  | store | queue | worker
deriving DecidableEq

def Source.label : Source → String
  | store => "wtree3"
  | queue => "wtq"
  | worker => "wtc"

/-- What the operating system says of a failed file operation. -/
inductive FileFault
  | absent | outOfMemory | unsupported | other
deriving DecidableEq

inductive Failure
  -- databases
  | notDirectory (path : String)
  | noDatabase (path : String)
  | databaseInUse
  /-- a directory lies where the data file should be -/
  | dataFileIsDirectory
  /-- the data file holds no store -/
  | dataFileInvalid
  | zeroMapSize
  | readOnlyDatabase
  | tableLimit (limit : Nat)
  | mapFull (used limit : Nat)
  | beyondFile
  | file (fault : FileFault) (text : String)
  -- transactions and tables
  | foreignTransaction
  | writeRequired
  | transactionReset
  | resetOfWriter
  | renewalOfWriter
  | tableMissing (table : String)
  | tableIsPaired (table : String)
  | tableIsPlain (table : String)
  | valueTooLarge (bytes : Nat)
  | corrupted (text : String)
  -- trees and entries
  | emptyTreeName
  | reservedTreeName (tree : String)
  | colonInTreeName (tree : String)
  | treeMissing (tree : String)
  | emptyKey
  | keyPresent
  | keyAbsent
  | nothingMerged
  -- indexes
  | badIndexName (index : String)
  | indexAttached (index : String)
  | indexLoaded (index : String)
  | indexMissing (index : String)
  | noExtractor (id : UInt64) (index : String)
  | noRecord (index : String)
  | indexTableMissing (table : String)
  | duplicateKey (index : String)
  | missingPair (index : String)
  | orphanedPair (index : String)
  | stalePair (index : String)
  | repeatedKey (index : String)
  | recordTooShort (bytes : Nat)
  | recordTruncated (needed present : Nat)
  -- cursors
  | notPositioned
  | deletionNeedsWriter
  -- queue and worker
  | zeroCapacity
  | alreadyStarted
  -- raised by a caller
  | custom (label : String) (code : ErrorCode) (text : String)
deriving DecidableEq

namespace Failure

/-- A number as 16 hexadecimal digits after `0x`. -/
def hexId (id : UInt64) : String :=
  let digits := Nat.toDigits 16 id.toNat
  "0x" ++ String.ofList (List.replicate (16 - digits.length) '0' ++ digits)

def code : Failure → ErrorCode
  | notDirectory _ | zeroMapSize | readOnlyDatabase | beyondFile | foreignTransaction
  | writeRequired | transactionReset | resetOfWriter | renewalOfWriter | emptyTreeName
  | reservedTreeName _ | colonInTreeName _ | emptyKey | badIndexName _ | noExtractor _ _
  | recordTooShort _ | recordTruncated _ _ | notPositioned | deletionNeedsWriter | zeroCapacity
  | alreadyStarted => .invalidArg
  | noDatabase _ | tableMissing _ | treeMissing _ | keyAbsent | indexMissing _ | noRecord _
  | indexTableMissing _ => .notFound
  | keyPresent | indexAttached _ | indexLoaded _ => .keyExists
  | duplicateKey _ | missingPair _ | orphanedPair _ | stalePair _ | repeatedKey _ => .indexError
  | databaseInUse | dataFileIsDirectory | dataFileInvalid | tableLimit _ | tableIsPaired _
  | tableIsPlain _ | corrupted _ | nothingMerged => .generic
  | mapFull _ _ => .mapFull
  | valueTooLarge _ => .txnFull
  | file fault _ =>
    match fault with
    | .absent => .notFound
    | .outOfMemory => .outOfMemory
    | .unsupported => .unsupported
    | .other => .generic
  | custom _ code _ => code

def label : Failure → String
  | zeroCapacity => Source.queue.label
  | alreadyStarted => Source.worker.label
  | custom label _ _ => label
  | _ => Source.store.label

def text : Failure → String
  | notDirectory path => s!"Path is not a directory: {path}"
  | noDatabase path => s!"No database in {path}"
  | databaseInUse => "Database already open. Cannot acquire lock."
  | dataFileIsDirectory => "I/O error: Is a directory (os error 21)"
  | dataFileInvalid => "I/O error: invalid data"
  | zeroMapSize => "Map size must be greater than zero"
  | readOnlyDatabase => "Database is opened read-only"
  | tableLimit limit => s!"Maximum number of named tables ({limit}) reached"
  | mapFull used limit =>
    s!"Database map is full ({used} bytes allocated, limit {limit} bytes)"
  | beyondFile => "Offset beyond map size"
  | file _ text => text
  | foreignTransaction => "Transaction belongs to a different database"
  | writeRequired => "Write operation requires write transaction"
  | transactionReset => "Transaction has been reset; renew it before use"
  | resetOfWriter => "Only read-only transactions can be reset"
  | renewalOfWriter => "Only read-only transactions can be renewed"
  | tableMissing table => s!"Table '{table}' does not exist"
  | tableIsPaired table => s!"{table} is a multimap table"
  | tableIsPlain table => s!"{table} is not a multimap table"
  | valueTooLarge bytes => s!"Value of {bytes} bytes exceeds engine limits"
  | corrupted text => s!"DB corrupted: {text}"
  | emptyTreeName => "Tree name cannot be empty"
  | reservedTreeName tree => s!"Tree name '{tree}' is reserved"
  | colonInTreeName tree => s!"Tree name '{tree}' cannot contain ':'"
  | treeMissing tree => s!"Tree '{tree}' does not exist"
  | emptyKey => "Key cannot be empty"
  | keyPresent => "Key already exists"
  | keyAbsent => "Key not found"
  | nothingMerged => "Merge callback returned no value"
  | badIndexName index =>
    s!"Invalid index name '{index}': must be non-empty and contain no ':'"
  | indexAttached index => s!"Index '{index}' already exists"
  | indexLoaded index => s!"Index '{index}' already loaded"
  | indexMissing index => s!"Index '{index}' not found"
  | noExtractor id index =>
    "No key extractor registered for id " ++ hexId id ++ s!" (index '{index}')"
  | noRecord index => s!"No metadata for index '{index}'"
  | indexTableMissing table => s!"Index table '{table}' does not exist"
  | duplicateKey index => s!"Duplicate key for unique index '{index}'"
  | missingPair index => s!"Index '{index}': missing entry for main tree key"
  | orphanedPair index => s!"Index '{index}': orphaned entry points to a missing primary key"
  | stalePair index => s!"Index '{index}': stale entry does not match the stored value"
  | repeatedKey index => s!"Index '{index}': duplicate entries for a unique key"
  | recordTooShort bytes => s!"Index metadata too short: {bytes} bytes"
  | recordTruncated needed present =>
    s!"Index metadata truncated: user_data needs {needed} bytes, {present} present"
  | notPositioned => "Iterator not positioned on valid entry"
  | deletionNeedsWriter =>
    "Delete requires write transaction; create the iterator with a write transaction"
  | zeroCapacity => "Queue capacity must be greater than zero"
  | alreadyStarted => "Consumer already started"
  | custom _ _ text => text

def record (f : Failure) : ErrorRecord := .labelled f.label f.code f.text

/-- A failure of the store in a caller's own words. -/
def worded (code : ErrorCode) (text : String) : Failure := .custom Source.store.label code text

end Failure
end IndexedStore
