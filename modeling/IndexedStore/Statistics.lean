import IndexedStore.Failure
import IndexedStore.Text.Latency

/-! # Operation counters

A database counts what is done on it. Counters are 64-bit words and wrap. A snapshot adds the totals
and averages that a report shows.
-/
namespace IndexedStore

structure Statistics where
  gets : UInt64 := 0
  inserts : UInt64 := 0
  updates : UInt64 := 0
  upserts : UInt64 := 0
  deletes : UInt64 := 0
  scans : UInt64 := 0
  /-- nanoseconds spent in counted gets -/
  getTime : UInt64 := 0
  /-- nanoseconds spent in counted inserts, updates and deletes -/
  writeTime : UInt64 := 0
  commits : UInt64 := 0
  aborts : UInt64 := 0
  notFound : UInt64 := 0
  keyExists : UInt64 := 0
  indexViolations : UInt64 := 0
  mapFull : UInt64 := 0
deriving DecidableEq

namespace Statistics

def recordGet (time : UInt64) (s : Statistics) : Statistics :=
  { s with gets := s.gets + 1, getTime := s.getTime + time }

/-- Counts a write of one entry: an update when a value was replaced, an insert otherwise. -/
def recordInsert (time : UInt64) (replaced : Bool) (s : Statistics) : Statistics :=
  let s := { s with writeTime := s.writeTime + time }
  if replaced then { s with updates := s.updates + 1 } else { s with inserts := s.inserts + 1 }

def recordUpsert (s : Statistics) : Statistics := { s with upserts := s.upserts + 1 }

def recordDelete (time : UInt64) (s : Statistics) : Statistics :=
  { s with deletes := s.deletes + 1, writeTime := s.writeTime + time }

def recordScan (s : Statistics) : Statistics := { s with scans := s.scans + 1 }

def recordCommit (s : Statistics) : Statistics := { s with commits := s.commits + 1 }

def recordAbort (s : Statistics) : Statistics := { s with aborts := s.aborts + 1 }

/-- Counts a failure, if its code is one of the four that are counted. -/
def recordError (code : ErrorCode) (s : Statistics) : Statistics :=
  match code with
  | .notFound => { s with notFound := s.notFound + 1 }
  | .keyExists => { s with keyExists := s.keyExists + 1 }
  | .indexError => { s with indexViolations := s.indexViolations + 1 }
  | .mapFull => { s with mapFull := s.mapFull + 1 }
  | _ => s

def writes (s : Statistics) : UInt64 := s.inserts + s.updates + s.deletes

def operations (s : Statistics) : UInt64 := s.gets + s.writes

/-- The average time of a get, zero when there was none. -/
def averageGet (s : Statistics) : UInt64 := s.getTime / s.gets

def averageWrite (s : Statistics) : UInt64 := s.writeTime / s.writes

def report (s : Statistics) : String :=
  s!"=== wtree Statistics ===\nOperations:\n- Total: {s.operations}\n" ++
  s!"- Gets: {s.gets} (avg latency: {Text.microseconds s.averageGet.toNat}μs)\n" ++
  s!"- Inserts: {s.inserts}\n- Updates: {s.updates}\n- Upserts: {s.upserts}\n" ++
  s!"- Deletes: {s.deletes}\n" ++
  s!"- Write latency (avg): {Text.microseconds s.averageWrite.toNat}μs\n" ++
  s!"- Scans: {s.scans}\n\nTransactions:\n- Commits: {s.commits}\n- Aborts: {s.aborts}\n\n" ++
  s!"Errors:\n- Not Found: {s.notFound}\n- Key Exists: {s.keyExists}\n" ++
  s!"- Index Violations: {s.indexViolations}\n- Map Full: {s.mapFull}"

end Statistics
end IndexedStore
