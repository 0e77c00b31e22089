import IndexedStore.Extractor
import IndexedStore.Txn

/-! # Databases

A database is an open directory: its settings, its counters, its registered extractors and the
committed store. Transactions begin from the committed store, and a write transaction replaces it
when it commits. The size limit is checked at that moment and only then, against the bytes that the
engine has allocated by then. How many those are is decided outside and an input here.
-/
namespace IndexedStore

structure OpenFlags where
  readOnly : Bool := false
  /-- commit without waiting for stable storage -/
  noSync : Bool := false
deriving DecidableEq

def OpenFlags.describe (f : OpenFlags) : String :=
  Text.described "OpenFlags"
    [("read_only", toString f.readOnly), ("no_sync", toString f.noSync)]

/-- The size limit of a database that is opened without one: one gibibyte. -/
def defaultMapSize : Nat := 1073741824

def defaultMaxTables : Nat := 128

/-- How to open a database. A zero size or table limit stands for the default. -/
structure Settings where
  mapSize : Nat := defaultMapSize
  maxTables : Nat := defaultMaxTables
  version : UInt32 := schemaVersion 1 0
  flags : OpenFlags := ⟨false, false⟩

/-- What is found at a path. -/
inductive Directory
  | absent
  | vacant
  /-- a directory whose data file holds a store -/
  | closed (s : Store)
  /-- a directory whose data file an open database holds -/
  | inUse
  /-- a directory with another directory in place of its data file -/
  | blocked
  /-- a directory whose data file holds something else -/
  | foreign

structure Database where
  path : String
  mapSize : Nat
  maxTables : Nat
  version : UInt32
  flags : OpenFlags
  registry : Registry
  statistics : Statistics
  /-- the committed store -/
  store : Store

namespace Database

/-- Opens the database at a path, given what is found there. -/
def openAt (path : String) (found : Directory) (settings : Settings) : Except Failure Database :=
  let opened (s : Store) : Database := {
    path := path
    mapSize := if settings.mapSize = 0 then defaultMapSize else settings.mapSize
    maxTables := if settings.maxTables = 0 then defaultMaxTables else settings.maxTables
    version := settings.version
    flags := settings.flags
    registry := .empty
    statistics := {}
    store := s }
  match found with
  | .absent => .error (.notDirectory path)
  | .vacant => if settings.flags.readOnly then .error (.noDatabase path) else .ok (opened .empty)
  | .closed s => .ok (opened s)
  | .inUse => .error .databaseInUse
  | .blocked => .error .dataFileIsDirectory
  | .foreign => .error .dataFileInvalid

def describe (d : Database) : String :=
  Text.described "Db" [("path", Text.quoted d.path), ("map_size", toString d.mapSize),
    ("max_tables", toString d.maxTables), ("version", toString d.version),
    ("flags", d.flags.describe), ("registry", d.registry.describe)]

def register (version flags : UInt32) (x : Extractor) : Attempt Database UInt64 := fun d =>
  (.ok (extractorId version flags),
    { d with registry := d.registry.register version flags x })

def resize (size : Nat) : Attempt Database Nat := do
  .require (size != 0) .zeroMapSize
  .update fun d => { d with mapSize := size }
  pure size

/-- Asks for bytes of a data file of `length` bytes ahead of use. -/
def prefetch (length offset : Nat) : Except Failure Unit :=
  if length ≤ offset then .error .beyondFile else .ok ()

def beginRead (d : Database) : Txn := ⟨d.path, .snapshot d.store⟩

def beginWrite (d : Database) : Except Failure Txn :=
  if d.flags.readOnly then .error .readOnlyDatabase else .ok ⟨d.path, .working d.store⟩

def begin (d : Database) (write : Bool) : Except Failure Txn :=
  if write then d.beginWrite else .ok d.beginRead

def count (f : Statistics → Statistics) (d : Database) : Database :=
  { d with statistics := f d.statistics }

/-- Ends a transaction and makes its changes visible. A writer is aborted instead if what the engine
has allocated exceeds the size limit. -/
def commit (allocated : Nat) (x : Txn) : Attempt Database Unit := fun d =>
  match x.view with
  | .working s =>
    if d.mapSize < allocated then
      (.error (.mapFull allocated d.mapSize),
        (d.count (·.recordError .mapFull)).count (·.recordAbort))
    else (.ok (), { d with store := s }.count (·.recordCommit))
  | _ => (.ok (), d)

/-- Ends a transaction without its changes. Only writers are counted. -/
def abort (x : Txn) (d : Database) : Database :=
  if x.isReader then d else d.count (·.recordAbort)

/-- Ends a transaction as its steps ended: commits after success, aborts after a failure. -/
def settle {α : Type} (allocated : Nat) (x : Txn) (result : Except Failure α) :
    Attempt Database α := fun d =>
  match result with
  | .ok a =>
    match commit allocated x d with
    | (.ok (), d) => (.ok a, d)
    | (.error e, d) => (.error e, d)
  | .error e => (.error e, d.abort x)

def scope (d : Database) (x : Txn) (entryCount : Int64) : Scope := ⟨x, entryCount, d.statistics⟩

def requireSlot (d : Database) (s : Store) : Except Failure Unit :=
  if s.tableCount < d.maxTables then .ok () else .error (.tableLimit d.maxTables)

end Database

/-- A database together with the entry count of the handle that is in use. -/
structure Session where
  database : Database
  entryCount : Int64

namespace Session
variable {α : Type}

/-- Runs a step in a write transaction of its own. -/
def write (allocated : Nat) (step : Attempt Scope α) : Attempt Session α := fun s =>
  match s.database.beginWrite with
  | .error e => (.error e, s)
  | .ok x =>
    let (result, scope) := step (s.database.scope x s.entryCount)
    let (result, d) := Database.settle allocated scope.txn result
      { s.database with statistics := scope.statistics }
    (result, ⟨d, scope.entryCount⟩)

def read (step : Attempt Scope α) : Attempt Session α := fun s =>
  let (result, scope) := step (s.database.scope s.database.beginRead s.entryCount)
  (result, ⟨{ s.database with statistics := scope.statistics }, scope.entryCount⟩)

end Session

/-- Runs a step that counts no entries in a write transaction of its own. -/
def Database.write {α : Type} (allocated : Nat) (step : Attempt Scope α) :
    Attempt Database α := fun d =>
  let (result, s) := Session.write allocated step ⟨d, 0⟩
  (result, s.database)

end IndexedStore
