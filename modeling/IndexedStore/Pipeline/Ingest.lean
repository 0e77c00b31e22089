import IndexedStore.Pipeline.Batch

/-! # The worker's life

The worker waits for items, takes all of them, writes them and waits again. It ends when the queue
is flushed and empty, or when a buffer fails for good; what is queued by then stays queued. One turn
of its loop is one step here, so producers and the owner can act between any two turns.
-/
namespace IndexedStore.Ingest

def start : Attempt Ingest Unit := fun s =>
  if s.worker.state = .created then
    (.ok (), s.withWorker fun w =>
      { w with state := .running, running := true, joinable := true, phase := .waiting }.say .info
        "Consumer thread started")
  else (.error .alreadyStarted, s)

def finish (s : Ingest) : Ingest :=
  s.withWorker fun w =>
    { w with
      running := false
      state := .stopped
      phase := .ended
      gauge := ⟨s.queue.depth, s.queue.capacity⟩ }.say .info "Consumer thread stopped"

/-- The waiting worker takes what is queued, or ends if nothing more can come. -/
def wake (s : Ingest) : Ingest :=
  match s.queue.awaited with
  | none => s
  | some true =>
    let (b, q) := s.queue.swap 0
    { s with queue := q, worker := { s.worker with phase := .holding b } }
  | some false =>
    (if s.worker.shouldStop then s.say .info "Queue flushed, consumer exiting" else s).finish

def writeHeld (t : Tree) (around : Nat → Surroundings) (b : Buffer) (s : Ingest) : Ingest :=
  match s.writeBuffer t around b with
  | (true, s) => s.withWorker fun w => { w with phase := .waiting }
  | (false, s) => (s.say .fatal "Consumer stopping due to fatal error").finish

/-- One turn of the loop. While another writer is active the worker cannot write. -/
def step (t : Tree) (around : Nat → Surroundings) (busy : Bool) (s : Ingest) : Ingest :=
  match s.worker.phase with
  | .waiting => s.wake
  | .holding b => if busy then s else s.writeHeld t around b
  | _ => s

/-- Lets the worker run until it waits for something or has ended. Without producers that takes at
most four turns: write what is held, take what is queued, write it, and end. -/
def catchUp (t : Tree) (around : Nat → Surroundings) (busy : Bool) (s : Ingest) : Ingest :=
  let turn := step t around busy
  turn (turn (turn (turn s)))

/-- Asks the worker to end. The queue refuses items from here on. -/
def requestStop (s : Ingest) : Ingest :=
  (s.withWorker fun w =>
    let w := w.say .info "Stopping consumer..."
    { w with
      shouldStop := true
      state := if w.state = .running then .stopping else w.state }).withQueue Queue.flush

def confirmStop (s : Ingest) : Ingest :=
  s.withWorker fun w =>
    { w with joinable := false, state := .stopped }.say .info "Consumer stopped gracefully"

/-- Stops the worker after it has written what is queued. -/
def stop (t : Tree) (around : Nat → Surroundings) (s : Ingest) : Ingest :=
  (s.requestStop.catchUp t around false).confirmStop

def destroy (t : Tree) (around : Nat → Surroundings) (s : Ingest) : Ingest :=
  let s := if s.worker.joinable then s.stop t around else s
  let (letters, w) := s.worker.takeDeadLetters
  { s with queue := s.queue.releaseAll (letters.map DeadLetter.item), worker := w }

end IndexedStore.Ingest
