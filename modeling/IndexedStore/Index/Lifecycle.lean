import IndexedStore.Index.Catalog
import IndexedStore.Index.Upkeep

/-! # The life of an index

An index is added empty, populated from the entries that are already there, saved, dropped, and
found again when its tree is next opened. Each step that writes is one transaction, and a handle
lists an index only after that transaction has committed.
-/
namespace IndexedStore

/-- Creates the table of a new index and stores its record. Both may need a free table slot. -/
def Tree.createIndex (t : Tree) (d : Database) (i : Index) : Attempt Scope Unit := do
  let store ← Scope.writable
  if (store.pairs? (t.indexTable i)).isNone then
    .ofExcept (d.requireSlot store)
    discard (Scope.openPairsToWrite (t.indexTable i))
  let store ← Scope.writable
  if (store.table? recordTable).isNone then
    .ofExcept (d.requireSlot store)
  Catalog.save t.name i

namespace Index

/-- An index with a comparator in place of its own, if it has the name. -/
def comparing (name : String) (c : Comparator) (i : Index) : Index :=
  if i.name == name then { i with compare? := some c } else i

theorem comparing_name (name : String) (c : Comparator) (i : Index) :
    (comparing name c i).name = i.name := by
  rw [comparing]
  split <;> rfl

end Index

/-- The pairs of an index after every entry has been indexed in turn. -/
def Index.populated (i : Index) : List (Bytes × Bytes) → PairTable → Except Failure PairTable
  | [], pairs => .ok pairs
  | (key, value) :: rest, pairs =>
    match i.extract value with
    | none => populated i rest pairs
    | some indexKey =>
      if i.unique && !Tree.admits pairs key indexKey then .error (.duplicateKey i.name)
      else populated i rest (pairs.insert (indexKey, key) ())

namespace Tree

def attached (t : Tree) (name : String) : Except Failure Index :=
  match t.index? name with
  | some i => .ok i
  | none => .error (.indexMissing name)

/-- Adds an index. Entries that are already there are not indexed until the index is populated. -/
def addIndex (t : Tree) (allocated : Nat) (c : IndexConfig) : Attempt Database Tree := do
  .require (Index.validName c.name) (.badIndexName c.name)
  match free : t.hasIndex c.name with
  | true => .fail (.indexAttached c.name)
  | false =>
    let d ← .state
    let id := extractorId d.version c.flags
    match d.registry.get? id with
    | none => .fail (.noExtractor id c.name)
    | some extractor =>
      let i : Index := ⟨c.name, id, extractor, c.userData, c.unique, c.sparse, c.compare?⟩
      Database.write allocated (t.createIndex d i)
      pure (t.attach i free)

def populate (t : Tree) (allocated : Nat) (name : String) : Attempt Database Unit := do
  let i ← .ofExcept (t.attached name)
  Database.write allocated do
    let table ← Scope.openTable t.name
    let pairs ← Scope.openPairsToWrite (t.indexTable i)
    let pairs ← .ofExcept (i.populated table.toList pairs)
    Scope.putPairs (t.indexTable i) pairs

def dropIndex (t : Tree) (allocated : Nat) (name : String) : Attempt Database Tree := do
  let i ← .ofExcept (t.attached name)
  Database.write allocated do
    let store ← Scope.writable
    let store ← .ofExcept (store.dropPairs (t.indexTable i))
    Scope.put store
    Catalog.remove t.name name
  pure (t.detach name)

def setIndexCompare (t : Tree) (name : String) (c : Comparator) : Except Failure Tree := do
  let _ ← t.attached name
  .ok { t with
    indexes := t.indexes.map (Index.comparing name c)
    distinct := by
      rw [List.map_map]
      exact (List.map_congr_left fun i _ => Index.comparing_name name c i) ▸ t.distinct }

def saveIndex (t : Tree) (allocated : Nat) (name : String) : Attempt Database Unit := do
  let i ← .ofExcept (t.attached name)
  Database.write allocated (Catalog.save t.name i)

/-- Attaches a recorded index. Without a registered extractor for its id nothing is attached, which
is no failure. -/
def loadIndex (t : Tree) (d : Database) (name : String) : Except Failure (Option Tree) := do
  if !Index.validName name then .error (.badIndexName name)
  match free : t.hasIndex name with
  | true => .error (.indexLoaded name)
  | false =>
    match ← Catalog.read d.store t.name name with
    | none => .error (.noRecord name)
    | some r =>
      match d.registry.get? r.extractorId with
      | none => .ok none
      | some extractor =>
        let table := indexTableName t.name name
        if (d.store.pairs? table).isNone then .error (.indexTableMissing table)
        let i : Index :=
          ⟨name, r.extractorId, extractor, r.userData, r.isUnique, r.isSparse, none⟩
        .ok (some (t.attach i free))

/-- Attaches every recorded index that can be attached. -/
def loadRecorded (t : Tree) (d : Database) : Tree :=
  (Catalog.names d.store t.name).foldl (fun t name =>
    match t.loadIndex d name with
    | .ok (some t) => t
    | _ => t) t

/-- The extractor id of an index, attached or only recorded. -/
def indexExtractorId (t : Tree) (d : Database) (name : String) : Except Failure UInt64 :=
  match t.index? name with
  | some i => .ok i.extractorId
  | none =>
    match Catalog.read d.store t.name name with
    | .error e => .error e
    | .ok none => .error (.indexMissing name)
    | .ok (some r) => .ok r.extractorId

end Tree
end IndexedStore
