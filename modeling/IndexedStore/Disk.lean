import IndexedStore.Database

/-! # Disks

A disk holds directories and plain files below a root. Each directory has room for one database,
whose data file lies in it under a fixed name. Paths are followed name by name, so different paths
can lead to one directory; the root is its own parent. Nothing is ever removed.
-/
namespace IndexedStore

/-- A place on a disk: the names that lead to it from the root, innermost first. -/
abbrev Location := List String

/-- What lies at a location. -/
inductive Disk.Node
  | directory
  /-- a file that no database wrote -/
  | plain
  /-- the data file of a database that nobody has open -/
  | data (s : Store)
  /-- the data file that the database opened at a path holds -/
  | held (path : String)

structure Disk where
  /-- what precedes the names of every path -/
  root : String
  nodes : List (Location × Disk.Node)

def dataFileName : String := "data.redb"

namespace Disk

/-- The directory a path starts from, or itself, by name. -/
def hereName : String := "."

def aboveName : String := ".."

def nameLimit : Nat := 255

/-- The character at which the system ends a path, so that no path contains it. -/
def terminator : Char := '\x00'

/-- The names between the slashes of a path that lead somewhere. -/
def names (path : String) : List String :=
  (path.splitOn "/").filter fun n => n != "" && n != hereName

def node? (d : Disk) (l : Location) : Option Node := d.nodes.lookup l

def put (l : Location) (n : Node) (d : Disk) : Disk :=
  { d with nodes := (l, n) :: d.nodes.filter fun e => e.1 != l }

def isName (n : String) : Bool :=
  n.utf8ByteSize ≤ nameLimit && !n.toList.contains terminator

def follow (d : Disk) : Location → List String → Option Location
  | l, [] => some l
  | l, n :: rest =>
    if n == aboveName then d.follow l.tail rest
    else match d.node? (n :: l) with
      | some .directory => d.follow (n :: l) rest
      | _ => none

/-- Follows names from a directory, making the directories that are missing. Answers whether all of
them are there; those made before a name that leads nowhere stay. -/
def make (l : Location) : List String → Disk → Bool × Disk
  | [], d => (true, d)
  | n :: rest, d =>
    if n == aboveName then make l.tail rest d
    else match d.node? (n :: l) with
      | some .directory => make (n :: l) rest d
      | some _ => (false, d)
      | none => if isName n then make (n :: l) rest (d.put (n :: l) .directory) else (false, d)

/-- Whether a path ends by naming the directory it has reached. -/
def endsHere (path : String) : Bool :=
  ((path.splitOn "/").filter fun n => n != "").getLast? == some hereName

/-- Makes the directory at a path with those above it. A path that ends by naming the directory it
has reached makes only those above. -/
def makeDirectory (path : String) (d : Disk) : Bool × Disk :=
  if path.toList.contains terminator then (false, d)
  else if endsHere path then
    let (made, d) := make [] (names path).dropLast d
    (made && (d.follow [] (names path)).isSome, d)
  else make [] (names path) d

/-- Writes a plain file at a path, over any file that is there. -/
def writeFile (path : String) (d : Disk) : Bool × Disk :=
  let parts := path.splitOn "/"
  let name := parts.getLastD ""
  match d.follow [] (names ("/".intercalate parts.dropLast)) with
  | none => (false, d)
  | some l =>
    if name == "" || name == hereName || name == aboveName then (false, d)
    else match d.node? (name :: l) with
      | some .directory => (false, d)
      | some (.held _) => (true, d)
      | some _ => (true, d.put (name :: l) .plain)
      | none => if isName name then (true, d.put (name :: l) .plain) else (false, d)

def dataFile (path : String) (d : Disk) : Option Location :=
  (d.follow [] (names path)).map fun l => dataFileName :: l

def directory (path : String) (d : Disk) : Directory :=
  match d.dataFile path with
  | none => .absent
  | some l =>
    match d.node? l with
    | none => .vacant
    | some .directory => .blocked
    | some .plain => .foreign
    | some (.data s) => .closed s
    | some (.held _) => .inUse

/-- Opens the database in the directory at a path. Its data file is held until it closes. -/
def openDatabase (path : String) (settings : Settings) : Attempt Disk Database := fun d =>
  let full := d.root ++ "/" ++ path
  match Database.openAt full (d.directory path) settings, d.dataFile path with
  | .ok db, some l => (.ok db, d.put l (.held full))
  | r, _ => (r, d)

/-- What becomes of a node when a database closes: its data file keeps the committed store. -/
def Node.afterClose (db : Database) : Node → Node
  | .held path => if path == db.path then .data db.store else .held path
  | n => n

/-- Closes a database. Its data file keeps the committed store and nothing else. -/
def closeDatabase (db : Database) (d : Disk) : Disk :=
  { d with nodes := d.nodes.map fun e => (e.1, e.2.afterClose db) }

end Disk
end IndexedStore
