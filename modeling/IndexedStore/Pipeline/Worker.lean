import IndexedStore.Pipeline.Queue
import IndexedStore.Text.Duration
import IndexedStore.Tree.Basic

/-! # The worker's settings and records

A worker moves items from a queue into a tree. Its settings say how large its transactions grow and
what becomes of an item that cannot be written. It keeps counters, a log, and the items it gave up
on as dead letters.
-/
namespace IndexedStore

/-- What becomes of an item whose write fails. -/
inductive Strategy
  | failFast
  /-- tries again, then keeps the item as a dead letter -/
  | retry
  | deadLetter
  /-- drops the item -/
  | logContinue
deriving DecidableEq

def Strategy.name : Strategy → String
  | failFast => "FailFast"
  | retry => "Retry"
  | deadLetter => "DeadLetter"
  | logContinue => "LogContinue"

inductive LogLevel
  | debug | info | warn | error | fatal
deriving DecidableEq

namespace LogLevel

def text : LogLevel → String
  | debug => "DEBUG"
  | info => "INFO"
  | warn => "WARN"
  | error => "ERROR"
  | fatal => "FATAL"

def rank : LogLevel → Nat
  | debug => 0
  | info => 1
  | warn => 2
  | error => 3
  | fatal => 4

end LogLevel

/-- Times are in nanoseconds. -/
structure WorkerConfig where
  strategy : Strategy := .retry
  /-- attempts after the first -/
  maxRetries : UInt32 := 3
  /-- pause before the first retry; each further pause is twice as long -/
  backoff : Nat := 100000000
  /-- no limit if zero -/
  maxBatch : Nat := 0
  /-- a transaction open for longer is committed early, never if zero -/
  commitInterval : Nat := 1000000000
  trackLatency : Bool := true
  metricsInterval : Nat := 1000000000
  /-- whether log lines are kept -/
  keepsLog : Bool := false
deriving DecidableEq

namespace WorkerConfig

def maxDoublings : Nat := 16

def pause (c : WorkerConfig) (attempt : UInt32) : Nat :=
  c.backoff <<< min attempt.toNat maxDoublings

def intervalElapsed (c : WorkerConfig) (time : Nat) : Bool :=
  c.commitInterval != 0 && c.commitInterval ≤ time

def describe (c : WorkerConfig) : String :=
  Text.described "ConsumerConfig" [("error_strategy", c.strategy.name),
    ("max_retries", toString c.maxRetries), ("retry_backoff", Text.duration c.backoff),
    ("max_batch_size", toString c.maxBatch),
    ("commit_interval", Text.duration c.commitInterval),
    ("enable_latency_tracking", toString c.trackLatency),
    ("metrics_update_interval", Text.duration c.metricsInterval),
    ("log_fn", toString c.keepsLog)]

end WorkerConfig

inductive WorkerState
  | created | running | stopping | stopped
deriving DecidableEq

def WorkerState.name : WorkerState → String
  | created => "Created"
  | running => "Running"
  | stopping => "Stopping"
  | stopped => "Stopped"

inductive Phase
  | unstarted
  | waiting
  /-- about to write a buffer it has taken -/
  | holding (b : Buffer)
  | ended
deriving DecidableEq

structure DeadLetter where
  item : Item
  /-- writes tried before it was given up; none if it went down with its batch -/
  attempts : UInt32
  failure : Failure
deriving DecidableEq

structure Gauge where
  depth : Nat
  capacity : Nat
deriving DecidableEq

structure Worker where
  config : WorkerConfig
  state : WorkerState
  running : Bool
  shouldStop : Bool
  /-- started and not yet stopped by its owner -/
  joinable : Bool
  phase : Phase
  processed : UInt64
  batches : UInt64
  /-- failed writes, retries counted -/
  errors : UInt64
  /-- failed writes since the last that succeeded -/
  consecutive : UInt64
  discarded : UInt64
  /-- oldest first -/
  deadLetters : Array DeadLetter
  /-- the queue when the worker ended -/
  gauge : Gauge
  log : Array (LogLevel × String)
deriving DecidableEq

namespace Worker

def create (config : WorkerConfig) : Worker :=
  ⟨config, .created, false, false, false, .unstarted, 0, 0, 0, 0, 0, #[], ⟨0, 1⟩, #[]⟩

def unhealthyStreak : UInt64 := 10

def isSteady (w : Worker) : Bool := w.consecutive < unhealthyStreak

def isHealthy (w : Worker) : Bool := w.running && w.isSteady

def isAlive (w : Worker) : Bool :=
  match w.phase with
  | .waiting | .holding _ => true
  | _ => false

def say (level : LogLevel) (message : String) (w : Worker) : Worker :=
  if w.config.keepsLog then { w with log := w.log.push (level, message) } else w

def takeLog (w : Worker) : List (LogLevel × String) × Worker :=
  (w.log.toList, { w with log := #[] })

def takeDeadLetters (w : Worker) : List DeadLetter × Worker :=
  (w.deadLetters.toList, { w with deadLetters := #[] })

def bury (l : DeadLetter) (w : Worker) : Worker :=
  { w with deadLetters := w.deadLetters.push l }

/-- Gives up items that did not reach a commit. -/
def park (items : List Item) (f : Failure) (w : Worker) : Worker :=
  let w := items.foldl (fun w i => w.bury ⟨i, 0, f⟩) w
  if items.isEmpty then w
  else w.say .warn s!"{items.length} uncommitted items moved to dead letter queue"

def describe (tree : String) (w : Worker) : String :=
  Text.described "Consumer" [("tree", Text.quoted tree), ("state", w.state.name),
    ("config", w.config.describe)]

end Worker
end IndexedStore
