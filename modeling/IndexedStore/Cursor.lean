import IndexedStore.Index.Lifecycle
import IndexedStore.Tree.Scan

/-! # Cursors

A cursor stands on an entry of a tree or on a pair of one of its indexes, or nowhere. It remembers a
copy of what it stands on and moves relative to that copy, so the entry may be changed or removed
under it. A move that fails leaves it nowhere.
-/
namespace IndexedStore

inductive Place
  | first
  | last
  | after (e : Entry)
  | before (e : Entry)
  | exactly (key : Bytes)
  /-- the first entry whose key is not below this one -/
  | notBelow (key : Bytes)

/-- The entry at a place; entries are told apart by their keys. -/
def Table.entryAt (t : Table) : Place → Option Entry
  | .first => t.first?
  | .last => t.last?
  | .after e => t.firstWhere fun k => Bytes.cmp e.1 k == .lt
  | .before e => t.lastWhere fun k => Bytes.cmp k e.1 == .lt
  | .exactly key => (t.get? key).map fun value => (key, value)
  | .notBelow key => t.firstWhere fun k => (Bytes.cmp key k).isLE

namespace PairTable

/-- The first pair whose index key satisfies a condition. -/
def firstFrom (t : PairTable) (lower : Bytes → Bool) : Option Pair :=
  t.pairs.find? fun q => lower q.1

def lastUntil (t : PairTable) (upper : Bytes → Bool) : Option Pair :=
  t.pairs.reverse.find? fun q => upper q.1

/-- The pair at a place; a key alone stands before every pair under it. The neighbours of a pair
are sought under its index key first and under the other index keys then. -/
def pairAt (t : PairTable) : Place → Option Pair
  | .first => t.firstFrom fun _ => true
  | .last => t.lastUntil fun _ => true
  | .after e =>
    match (t.primaryKeys e.1).find? fun k => Bytes.cmp e.2 k == .lt with
    | some k => some (e.1, k)
    | none => t.firstFrom fun k => Bytes.cmp e.1 k == .lt
  | .before e =>
    match (t.primaryKeys e.1).reverse.find? fun k => Bytes.cmp k e.2 == .lt with
    | some k => some (e.1, k)
    | none => t.lastUntil fun k => Bytes.cmp k e.1 == .lt
  | .exactly key => (t.primaryKeys key).head?.map fun k => (key, k)
  | .notBelow key => t.firstFrom fun k => (Bytes.cmp key k).isLE

end PairTable

/-- A position in a tree, or in one of its indexes. -/
structure Cursor where
  index? : Option Index
  position : Option Entry

namespace Cursor

def overTree (t : Tree) : Attempt Scope Cursor := do
  t.requireOwn
  pure ⟨none, none⟩

def overIndex (t : Tree) (name : String) : Attempt Scope Cursor := do
  t.requireOwn
  let i ← .ofExcept (t.attached name)
  pure ⟨some i, none⟩

def isValid (c : Cursor) : Bool := c.position.isSome

def isIndex (c : Cursor) : Bool := c.index?.isSome

def key (c : Cursor) : Option Bytes := c.position.map Prod.fst

/-- The value of an entry, or the primary key of a pair. -/
def value (c : Cursor) : Option Bytes := c.position.map Prod.snd

def mainKey (c : Cursor) : Option Bytes := if c.isIndex then c.value else none

def describe (t : Tree) (ownsTxn : Bool) (c : Cursor) : String :=
  let index := match c.index? with
    | none => "None"
    | some i => "Some(" ++ Text.quoted i.name ++ ")"
  Text.described "TreeIterator" [("tree", Text.quoted t.name), ("index", index),
    ("owns_txn", toString ownsTxn), ("valid", toString c.isValid)]

/-- What lies at a place of the sequence that the cursor runs over. -/
def look (t : Tree) (c : Cursor) (p : Place) : Attempt Scope (Option Entry) :=
  match c.index? with
  | none => do
    let table ← Scope.openTable t.name
    pure (table.entryAt p)
  | some i => do
    let pairs ← Scope.openPairs (t.indexTable i)
    pure (pairs.pairAt p)

/-- The comparator that decides what counts as the key sought. -/
def compare? (t : Tree) (c : Cursor) : Option Comparator :=
  match c.index? with
  | none => t.compare?
  | some i => i.compare?

/-- Where a move lands. Under a comparator a key is found if the first entry not below it compares
equal. -/
def landing (t : Tree) (c : Cursor) (p : Place) : Attempt Scope (Option Entry) :=
  match p, c.compare? t with
  | .exactly key, some compare => do
    let e? ← c.look t (.notBelow key)
    pure (e?.filter fun e => compare e.1 key == .eq)
  | _, _ => c.look t p

def moveTo (t : Tree) (p : Place) : Attempt (Cursor × Scope) Bool := fun (c, s) =>
  match c.landing t p s with
  | (.ok e?, s) => (.ok e?.isSome, { c with position := e? }, s)
  | (.error e, s) => (.error e, { c with position := none }, s)

/-- Moves to the next entry; a cursor that stands nowhere stays there. -/
def next (t : Tree) : Attempt (Cursor × Scope) Bool := fun (c, s) =>
  match c.position with
  | none => (.ok false, c, s)
  | some e => moveTo t (.after e) (c, s)

/-- Moves to the previous entry; a cursor that stands nowhere stays there. -/
def prev (t : Tree) : Attempt (Cursor × Scope) Bool := fun (c, s) =>
  match c.position with
  | none => (.ok false, c, s)
  | some e => moveTo t (.before e) (c, s)

/-- Removes what the cursor remembers: an entry with its pairs, or a single pair. -/
def remove (t : Tree) (c : Cursor) (e : Entry) : Attempt Scope Unit :=
  match c.index? with
  | some i => do
    let pairs ← Scope.openPairsToWrite (t.indexTable i)
    Scope.putPairs (t.indexTable i) (pairs.erase e)
  | none => do
    t.removePairs e.1 e.2
    let table ← Scope.openTableToWrite t.name
    Scope.putTable t.name (table.erase e.1)
    Scope.bump (-1)

/-- Deletes the entry under the cursor and moves to the one after it. -/
def delete (t : Tree) : Attempt (Cursor × Scope) Unit := fun (c, s) =>
  match c.position with
  | none => (.error .notPositioned, c, s)
  | some e =>
    if s.txn.isReader then (.error .deletionNeedsWriter, c, s)
    else match c.remove t e s with
      | (.error f, s) => (.error f, c, s)
      | (.ok (), s) => (discard (moveTo t (.after e))) (c, s)

/-- A cursor over an index, placed on a key. An empty key places it nowhere. -/
def seekIndex (t : Tree) (name : String) (key : Bytes) (p : Bytes → Place) :
    Attempt Scope Cursor := do
  let i ← .ofExcept (t.attached name)
  let c : Cursor := ⟨some i, none⟩
  if key.isEmpty then pure c
  else fun s =>
    match moveTo t (p key) (c, s) with
    | (.ok _, c, s) => (.ok c, s)
    | (.error e, _, s) => (.error e, s)

end Cursor
end IndexedStore
