import IndexedStore.Pipeline.Worker
import IndexedStore.Tree.Entries

/-! # Writing a buffer

A buffer is written in one transaction, or in several when the settings cut it. Items are upserted
in order; they are released only after their transaction has committed. An item that cannot be
written leaves the transaction open and is dealt with by strategy; a transaction that cannot begin
or commit takes everything unwritten down with it.

Whether the engine refuses a transaction, how much it has allocated when one is to be committed, and
how long one has been open, is decided outside. All of these are inputs here, one set for each
transaction.
-/
namespace IndexedStore

/-- What is decided outside for one transaction of a buffer. -/
structure Surroundings where
  beginFault : Option Failure
  commitFault : Option Failure
  /-- bytes allocated by the engine when it is to be committed -/
  allocated : Nat
  /-- how long it has been open after so many attempted items, in nanoseconds -/
  openFor : Nat → Nat
  /-- how long it took in all, in milliseconds -/
  latency : Nat

/-- A queue, the worker that empties it, and the database and handle it writes through. -/
structure Ingest where
  queue : Queue
  worker : Worker
  session : Session

namespace Ingest

def withWorker (f : Worker → Worker) (s : Ingest) : Ingest := { s with worker := f s.worker }

def withQueue (f : Queue → Queue) (s : Ingest) : Ingest := { s with queue := f s.queue }

def withDatabase (d : Database) (s : Ingest) : Ingest :=
  { s with session := { s.session with database := d } }

def say (level : LogLevel) (message : String) : Ingest → Ingest :=
  withWorker (·.say level message)

/-- An open transaction of the worker and the items written in it. -/
structure Batch where
  ingest : Ingest
  txn : Txn
  written : Array Item

inductive Fate
  | written
  /-- kept as a dead letter or dropped -/
  | handled
  /-- the batch has to be given up -/
  | fatal (f : Failure)

def Batch.on (f : Ingest → Ingest) (b : Batch) : Batch := { b with ingest := f b.ingest }

def Batch.upsert (t : Tree) (i : Item) (b : Batch) : Except Failure Unit × Batch :=
  let s := b.ingest.session
  let (result, scope) := t.upsert i.key i.value (s.database.scope b.txn s.entryCount)
  let s := ⟨{ s.database with statistics := scope.statistics }, scope.entryCount⟩
  (result, { b with ingest := { b.ingest with session := s }, txn := scope.txn })

/-- Notes a failed write: the `attempt`-th repetition of it. -/
def failedWrite (e : Failure) (attempt : UInt32) (w : Worker) : Worker :=
  { w with errors := w.errors + 1, consecutive := w.consecutive + 1 }.say .error
    s!"Write failed: {e.record.display} (retry {attempt}/{w.config.maxRetries})"

/-- Writes an item, with up to `left` further attempts. Their number is a word and wraps. -/
def Batch.write (t : Tree) (i : Item) (left : Nat) (b : Batch) : Fate × Batch :=
  match b.upsert t i with
  | (.ok (), b) => (.written, b.on (withWorker fun w => { w with consecutive := 0 }))
  | (.error e, b) =>
    let config := b.ingest.worker.config
    let attempt := config.maxRetries - .ofNat left
    let b := b.on (withWorker (failedWrite e attempt))
    match config.strategy with
    | .failFast => (.fatal e, b.on (say .fatal "Consumer stopping due to error (FAIL_FAST)"))
    | .retry =>
      match left with
      | left + 1 =>
        (b.on (say .warn
          s!"Retrying after {config.pause attempt / 1000000}ms backoff")).write t i left
      | 0 =>
        (.handled, b.on (withWorker fun w =>
          (w.say .error "Max retries exceeded, moving to dead letter queue").bury
            ⟨i, attempt + 1, e⟩))
    | .deadLetter =>
      (.handled, b.on (withWorker fun w =>
        (w.bury ⟨i, attempt + 1, e⟩).say .warn "Item moved to dead letter queue"))
    | .logContinue =>
      (.handled, (b.on (withWorker fun w =>
        let w := w.say .warn "Skipping failed item (data loss)"
        { w with discarded := w.discarded + 1 })).on (withQueue (·.release i)))

/-- Whether the transaction takes another item after so many attempts. It always takes one. -/
def takesMore (c : WorkerConfig) (around : Surroundings) (attempted : Nat) : Bool :=
  attempted == 0 ||
    ((c.maxBatch == 0 || attempted < c.maxBatch) && !c.intervalElapsed (around.openFor attempted))

/-- How the writing of a batch ended, and the items it did not get to. -/
structure Filled where
  fatal : Option Failure
  rest : List Item
  batch : Batch

/-- Writes items into the open transaction until it is due or the batch has to be given up. -/
def fill (t : Tree) (around : Surroundings) : Nat → List Item → Batch → Filled
  | _, [], b => ⟨none, [], b⟩
  | attempted, i :: rest, b =>
    if takesMore b.ingest.worker.config around attempted then
      match b.write t i b.ingest.worker.config.maxRetries.toNat with
      | (.written, b) => fill t around (attempted + 1) rest { b with written := b.written.push i }
      | (.handled, b) => fill t around (attempted + 1) rest b
      | (.fatal f, b) => ⟨some f, rest, { b with written := b.written.push i }⟩
    else ⟨none, i :: rest, b⟩

theorem fill_rest_le (t : Tree) (around : Surroundings) (attempted : Nat) (items : List Item)
    (b : Batch) : (fill t around attempted items b).rest.length ≤ items.length := by
  induction items generalizing attempted b with
  | nil => simp [fill]
  | cons i rest ih =>
    rw [fill]
    split
    · split
      · exact Nat.le_succ_of_le (ih _ _)
      · exact Nat.le_succ_of_le (ih _ _)
      · exact Nat.le_succ _
    · exact Nat.le_refl _

/-- A transaction gets at least one item off the list. -/
theorem fill_rest_lt (t : Tree) (around : Surroundings) (i : Item) (rest : List Item) (b : Batch) :
    (fill t around 0 (i :: rest) b).rest.length < (i :: rest).length := by
  rw [fill, if_pos (by simp [takesMore])]
  split
  · exact Nat.lt_succ_of_le (fill_rest_le ..)
  · exact Nat.lt_succ_of_le (fill_rest_le ..)
  · exact Nat.lt_succ_self _

def beginBatch (around : Surroundings) (s : Ingest) : Except Failure Batch :=
  match around.beginFault with
  | some e => .error e
  | none =>
    match s.session.database.beginWrite with
    | .error e => .error e
    | .ok x => .ok ⟨s, x, #[]⟩

/-- Commits the worker's transaction. If the engine refuses, the database stays as it was. -/
def commitBatch (around : Surroundings) (b : Batch) : Except Failure Unit × Ingest :=
  match Database.commit around.allocated b.txn b.ingest.session.database, around.commitFault with
  | (.error e, d), _ => (.error e, b.ingest.withDatabase d)
  | (.ok (), _), some e => (.error e, b.ingest)
  | (.ok (), d), none => (.ok (), b.ingest.withDatabase d)

/-- Releases the items of a committed transaction and counts it. -/
def finishBatch (written : List Item) (latency : Nat) (s : Ingest) : Ingest :=
  let processed := UInt64.ofNat written.length
  (s.withQueue fun q => (q.releaseAll written).notify .batchFlushed).withWorker fun w =>
    { w with processed := w.processed + processed, batches := w.batches + 1 }.say .info
      s!"Batch processed: {processed} items in {latency}ms"

/-- Writes items in transactions, of which the first is the `n`-th of its buffer. Answers whether
the worker can go on; if it cannot, every item without a commit has become a dead letter. -/
def writeItems (t : Tree) (around : Nat → Surroundings) (n : Nat) (items : List Item)
    (s : Ingest) : Bool × Ingest :=
  match items with
  | [] => (true, s)
  | i :: rest =>
    match beginBatch (around n) s with
    | .error e =>
      (false, (s.say .error s!"Failed to begin transaction: {e.record.display}").withWorker
        (·.park (i :: rest) e))
    | .ok b =>
      let filled := fill t (around n) 0 (i :: rest) b
      let written := filled.batch.written.toList
      match filled.fatal with
      | some e =>
        let s := filled.batch.ingest
        (false, (s.withDatabase (s.session.database.abort filled.batch.txn)).withWorker
          (·.park (written ++ filled.rest) e))
      | none =>
        match commitBatch (around n) filled.batch with
        | (.error e, s) =>
          (false, (s.say .error s!"Failed to commit transaction: {e.record.display}").withWorker
            (·.park (written ++ filled.rest) e))
        | (.ok (), s) =>
          writeItems t around (n + 1) filled.rest (s.finishBatch written (around n).latency)
termination_by items.length
decreasing_by exact fill_rest_lt ..

def writeBuffer (t : Tree) (around : Nat → Surroundings) (b : Buffer) (s : Ingest) :
    Bool × Ingest := writeItems t around 0 b.rest s

end Ingest
end IndexedStore
