import IndexedStore.Tree.Entries

/-! # Scans and ranges

Entries lie in byte order. A range has optional ends, both included: where a scan begins is decided
by byte order, where it ends by the tree's comparator. A visitor sees the entries of the window one
by one, carries a state along and says whether to go on.
-/
namespace IndexedStore

abbrev Entry := Bytes × Bytes

/-- Sees an entry; answers the next state and whether to go on. -/
abbrev Visitor (σ : Type) := σ → Entry → σ × Bool

def visitAll {σ : Type} (visit : Visitor σ) : σ → List Entry → σ
  | a, [] => a
  | a, e :: rest =>
    match visit a e with
    | (a, true) => visitAll visit a rest
    | (a, false) => a

/-- A condition on entries that may depend on what it has seen. -/
abbrev Condition (σ : Type) := σ → Entry → Bool × σ

/-- The entries that satisfy a condition, in order: the first `left` of them, or all if `left` is
zero. The condition is not asked beyond the last one wanted, and what it has become comes along. -/
def pick {σ : Type} (holds : Condition σ) : Nat → σ → List Entry → List Entry × σ
  | _, a, [] => ([], a)
  | left, a, e :: rest =>
    match holds a e with
    | (true, a) =>
      if left = 1 then ([e], a)
      else
        let (chosen, a) := pick holds (left - 1) a rest
        (e :: chosen, a)
    | (false, a) => pick holds left a rest

namespace Tree
open Scope (observed)

/-- The entries from `low` up to `high` in ascending order. -/
def ascending (t : Tree) (low high : Option Bytes) (table : Table) : List Entry :=
  (table.toList.filter fun e => low.all fun k => (Bytes.cmp k e.1).isLE).takeWhile fun e =>
    high.all fun k => t.compareKeys e.1 k != .gt

def descending (t : Tree) (high low : Option Bytes) (table : Table) : List Entry :=
  ((table.toList.reverse.filter fun e => high.all fun k => (Bytes.cmp e.1 k).isLE).filter fun e =>
    high.all fun k => t.compareKeys e.1 k != .gt).takeWhile fun e =>
      low.all fun k => t.compareKeys e.1 k != .lt

/-- The entries whose keys begin with `stem`, in ascending order. -/
def extending (stem : Bytes) (table : Table) : List Entry :=
  (table.toList.filter fun e => (Bytes.cmp stem e.1).isLE).takeWhile fun e =>
    stem.isPrefixOf e.1

/-- Runs a step that reads a window of the tree. The scan is counted whether it fails or not. -/
def scanned {α : Type} (t : Tree) (step : Attempt Scope α) : Attempt Scope α := do
  t.requireOwn
  observed fun s =>
    let (result, s) := step s
    (result, { s with statistics := s.statistics.recordScan })

def scanRange {σ : Type} (t : Tree) (low high : Option Bytes) (visit : Visitor σ) (a : σ) :
    Attempt Scope σ := t.scanned do
  let table ← Scope.openTable t.name
  pure (visitAll visit a (t.ascending low high table))

def scanReverse {σ : Type} (t : Tree) (high low : Option Bytes) (visit : Visitor σ) (a : σ) :
    Attempt Scope σ := t.scanned do
  let table ← Scope.openTable t.name
  pure (visitAll visit a (t.descending high low table))

def scanExtending {σ : Type} (t : Tree) (stem : Bytes) (visit : Visitor σ) (a : σ) :
    Attempt Scope σ := t.scanned do
  let table ← Scope.openTable t.name
  pure (visitAll visit a (extending stem table))

def matching {σ : Type} (t : Tree) (low high : Option Bytes) (holds : Condition σ) (a : σ)
    (max : Nat) : Attempt Scope (List Entry × σ) := do
  let table ← Scope.openTable t.name
  pure (pick holds max a (t.ascending low high table))

/-- Collects the entries of a range that satisfy a condition, all of them if `max` is zero. What the
condition has become is answered as well. -/
def collecting {σ : Type} (t : Tree) (low high : Option Bytes) (holds : Condition σ) (a : σ)
    (max : Nat) : Attempt Scope (List Entry × σ) := t.scanned (t.matching low high holds a max)

def collectRange {σ : Type} (t : Tree) (low high : Option Bytes) (holds : Condition σ) (a : σ)
    (max : Nat) : Attempt Scope (List Entry) := Prod.fst <$> t.collecting low high holds a max

/-- Removes an entry that is known to be present, with its pairs. -/
def removeMatch (t : Tree) (e : Entry) : Attempt Scope Unit := do
  t.removePairs e.1 e.2
  let table ← Scope.openTableToWrite t.name
  Scope.putTable t.name (table.erase e.1)
  Scope.bump (-1)
  Scope.count (·.recordDelete 0)

/-- Removes the entries of a range that satisfy a condition; answers how many, and what the
condition has become. All of them are chosen before the first is removed. -/
def deleting {σ : Type} (t : Tree) (low high : Option Bytes) (holds : Condition σ) (a : σ) :
    Attempt Scope (Nat × σ) := t.scanned do
  let _ ← Scope.writable
  let (chosen, a) ← t.matching low high holds a 0
  chosen.forM t.removeMatch
  pure (chosen.length, a)

def deleteIf {σ : Type} (t : Tree) (low high : Option Bytes) (holds : Condition σ) (a : σ) :
    Attempt Scope Nat := Prod.fst <$> t.deleting low high holds a

end Tree
end IndexedStore
