import IndexedStore.Proofs.Outcomes

/-! # The tries of an item

The worker tries to write an item until it is written or its strategy has enough. What the worker
notes down depends on the answers alone: each refusal is an error and makes the streak longer, a
success ends the streak, and the last answer decides what becomes of the item.
-/
namespace IndexedStore

/-- How often a failed write is tried again. -/
def WorkerConfig.repetitions (c : WorkerConfig) : Nat :=
  if c.strategy = .retry then c.maxRetries.toNat else 0

namespace Worker

/-- Everything a worker keeps but its log. -/
def books (w : Worker) : Worker := { w with log := #[] }

theorem books_say (level : LogLevel) (message : String) (w : Worker) :
    (w.say level message).books = w.books := by
  unfold say
  split <;> rfl

def hear (w : Worker) : Except Failure Unit → Worker
  | .ok () => { w with consecutive := 0 }
  | .error _ => { w with errors := w.errors + 1, consecutive := w.consecutive + 1 }

/-- What becomes of an item after so many tries, of which this was the last answer. -/
def conclude (i : Item) (tries : UInt32) (w : Worker) : Except Failure Unit → Worker
  | .ok () => w
  | .error e =>
    match w.config.strategy with
    | .failFast => w
    | .logContinue => { w with discarded := w.discarded + 1 }
    | _ => w.bury ⟨i, tries, e⟩

section Conclude
variable {w : Worker} {i : Item} {tries : UInt32} {e : Failure}

theorem conclude_failFast (h : w.config.strategy = .failFast) :
    w.conclude i tries (.error e) = w := by
  rw [conclude, h]

theorem conclude_logContinue (h : w.config.strategy = .logContinue) :
    w.conclude i tries (.error e) = { w with discarded := w.discarded + 1 } := by
  rw [conclude, h]

theorem conclude_retry (h : w.config.strategy = .retry) :
    w.conclude i tries (.error e) = w.bury ⟨i, tries, e⟩ := by
  rw [conclude, h]

theorem conclude_deadLetter (h : w.config.strategy = .deadLetter) :
    w.conclude i tries (.error e) = w.bury ⟨i, tries, e⟩ := by
  rw [conclude, h]

end Conclude

end Worker

namespace Ingest
open Worker

def Batch.scope (b : Batch) : Scope :=
  b.ingest.session.database.scope b.txn b.ingest.session.entryCount

/-- The answers to the writes that are tried for an item, with up to `more` after the first. -/
def Batch.answers (t : Tree) (i : Item) (more : Nat) (b : Batch) : List (Except Failure Unit) :=
  match b.upsert t i, more with
  | (.ok (), _), _ => [.ok ()]
  | (.error e, _), 0 => [.error e]
  | (.error e, b), more + 1 => .error e :: b.answers t i more

variable {t : Tree} {i : Item} {b b' : Batch}

theorem worker_upsert {r : Except Failure Unit} (h : b.upsert t i = (r, b')) :
    b'.ingest.worker = b.ingest.worker := by
  obtain ⟨-, rfl⟩ := Prod.mk.inj h
  rfl

theorem upsert_withWorker (f : Worker → Worker) (t : Tree) (i : Item) (b : Batch) :
    (b.on (withWorker f)).upsert t i = ((b.upsert t i).1, (b.upsert t i).2.on (withWorker f)) := rfl

theorem answers_of_ok (h : b.upsert t i = (.ok (), b')) (more : Nat) :
    b.answers t i more = [.ok ()] := by
  rw [Batch.answers.eq_def, h]

theorem answers_last {e : Failure} (h : b.upsert t i = (.error e, b')) :
    b.answers t i 0 = [.error e] := by
  rw [Batch.answers.eq_def, h]

theorem answers_again {e : Failure} (h : b.upsert t i = (.error e, b')) (more : Nat) :
    b.answers t i (more + 1) = .error e :: b'.answers t i more := by
  rw [Batch.answers.eq_def, h]

/-- The worker has no say in the answers. -/
theorem answers_withWorker (f : Worker → Worker) (t : Tree) (i : Item) (more : Nat) (b : Batch) :
    (b.on (withWorker f)).answers t i more = b.answers t i more := by
  induction more generalizing b with
  | zero =>
    rw [Batch.answers.eq_def, Batch.answers.eq_def, upsert_withWorker]
    rcases b.upsert t i with ⟨_ | _, b'⟩ <;> rfl
  | succ more ih =>
    rw [Batch.answers.eq_def, Batch.answers.eq_def t i (more + 1) b, upsert_withWorker]
    rcases b.upsert t i with ⟨e | _, b'⟩
    · exact congrArg (Except.error e :: ·) (ih b')
    · rfl

theorem books_failedWrite (e : Failure) (attempt : UInt32) (w : Worker) :
    (failedWrite e attempt w).books = w.books.hear (.error e) := books_say ..

theorem write_of_ok (h : b.upsert t i = (.ok (), b')) (left : Nat) :
    b.write t i left = (.written, b'.on (withWorker (hear · (.ok ())))) := by
  rw [Batch.write.eq_def, h]
  rfl

theorem books_write_last {e : Failure} {left : Nat} (h : b.upsert t i = (.error e, b'))
    (hlast : b.ingest.worker.config.strategy = .retry → left = 0) :
    (b.write t i left).2.ingest.worker.books =
      (b.ingest.worker.books.hear (.error e)).conclude i
        (b.ingest.worker.config.maxRetries - .ofNat left + 1) (.error e) := by
  rw [← worker_upsert h] at hlast ⊢
  have hheard := books_failedWrite e (b'.ingest.worker.config.maxRetries - .ofNat left)
    b'.ingest.worker
  have hw := Batch.write.eq_def t i left b
  rw [h] at hw
  generalize hconfig : b'.ingest.worker.config = config at hlast hheard hw ⊢
  have hafter : (b'.ingest.worker.books.hear (.error e)).config = config := hconfig
  cases hs : config.strategy with
  | failFast =>
    simp only [hs, hconfig] at hw
    rw [conclude_failFast (hafter ▸ hs), ← hheard, hw]
    exact books_say ..
  | retry =>
    obtain rfl := hlast hs
    simp only [hs, hconfig] at hw
    rw [conclude_retry (hafter ▸ hs), ← hheard, hw]
    exact congrArg (Worker.bury _) (books_say ..)
  | deadLetter =>
    simp only [hs, hconfig] at hw
    rw [conclude_deadLetter (hafter ▸ hs), ← hheard, hw]
    exact books_say ..
  | logContinue =>
    simp only [hs, hconfig] at hw
    rw [conclude_logContinue (hafter ▸ hs), ← hheard, hw]
    exact congrArg (fun w => { w with discarded := w.discarded + 1 }) (books_say ..)

theorem write_again {e : Failure} (h : b.upsert t i = (.error e, b'))
    (hs : b.ingest.worker.config.strategy = .retry) (left : Nat) :
    ∃ f : Worker → Worker, (f b.ingest.worker).books = b.ingest.worker.books.hear (.error e) ∧
      b.write t i (left + 1) = (b'.on (withWorker f)).write t i left := by
  rw [← worker_upsert h] at hs ⊢
  have hw := Batch.write.eq_def t i (left + 1) b
  rw [h] at hw
  simp only [hs] at hw
  generalize b'.ingest.worker.config.maxRetries - .ofNat (left + 1) = attempt at hw
  refine ⟨fun w => (failedWrite e attempt w).say .warn _, ?_, hw⟩
  exact (books_say ..).trans (books_failedWrite ..)

/-- A try that was made is one less to come. -/
theorem attempts_again (retries : UInt32) (left made : Nat) :
    retries - .ofNat (left + 1) + .ofNat (made + 1) = retries - .ofNat left + .ofNat made := by
  rw [UInt32.ofNat_add, UInt32.ofNat_add]
  grind

/-- What the worker keeps of an item: it hears the answers and concludes with the last of them. -/
theorem books_write (t : Tree) (i : Item) (left : Nat) (b : Batch) {config : WorkerConfig}
    (hconfig : b.ingest.worker.config = config) :
    let answers := b.answers t i (if config.strategy = .retry then left else 0)
    ∃ last, answers.getLast? = some last ∧
      (b.write t i left).2.ingest.worker.books =
        (answers.foldl hear b.ingest.worker.books).conclude i
          (config.maxRetries - .ofNat left + .ofNat answers.length) last := by
  subst hconfig
  induction left generalizing b with
  | zero =>
    rw [ite_self]
    rcases hu : b.upsert t i with ⟨e | _, b'⟩
    · rw [answers_last hu]
      exact ⟨.error e, rfl, books_write_last hu fun _ => rfl⟩
    · rw [answers_of_ok hu, write_of_ok hu, ← worker_upsert hu]
      exact ⟨.ok (), rfl, rfl⟩
  | succ left ih =>
    rcases hu : b.upsert t i with ⟨e | _, b'⟩
    · by_cases hs : b.ingest.worker.config.strategy = .retry
      · obtain ⟨f, hf, hwrite⟩ := write_again hu hs left
        have hworker : (b'.on (withWorker f)).ingest.worker = f b.ingest.worker :=
          congrArg f (worker_upsert hu)
        have hconfig : (f b.ingest.worker).config = b.ingest.worker.config :=
          (congrArg Worker.config hf :)
        have hlater := ih (b'.on (withWorker f))
        rw [hworker, hconfig, if_pos hs, answers_withWorker, hf, ← hwrite] at hlater
        obtain ⟨last, hlast, hbooks⟩ := hlater
        rw [if_pos hs, answers_again hu]
        refine ⟨last, ?_, ?_⟩
        · rw [List.getLast?_cons, hlast]
          rfl
        · rw [List.foldl_cons, List.length_cons, attempts_again]
          exact hbooks
      · rw [if_neg hs, answers_last hu]
        exact ⟨.error e, rfl, books_write_last hu fun h => absurd h hs⟩
    · rw [answers_of_ok hu, write_of_ok hu, ← worker_upsert hu]
      exact ⟨.ok (), rfl, rfl⟩

/-- The turn of one item in an open transaction. It stays in hand unless it was settled. -/
def Batch.attempt (t : Tree) (b : Batch) (i : Item) : Batch :=
  match b.write t i b.ingest.worker.config.maxRetries.toNat with
  | (.handled, b) => b
  | (_, b) => { b with written := b.written.push i }

theorem ingest_attempt (t : Tree) (b : Batch) (i : Item) :
    (b.attempt t i).ingest = (b.write t i b.ingest.worker.config.maxRetries.toNat).2.ingest := by
  unfold Batch.attempt
  split
  · rename_i hw
    rw [hw]
  · rename_i hw
    rw [hw]

/-- What the worker keeps of an item after its turn. -/
theorem books_attempt (t : Tree) (b : Batch) (i : Item) :
    let answers := b.answers t i b.ingest.worker.config.repetitions
    ∃ last, answers.getLast? = some last ∧ (b.attempt t i).ingest.worker.books =
      (answers.foldl hear b.ingest.worker.books).conclude i (.ofNat answers.length) last := by
  have h := books_write t i b.ingest.worker.config.maxRetries.toNat b rfl
  rw [UInt32.ofNat_toNat, UInt32.sub_self] at h
  simp only [UInt32.zero_add] at h
  rw [ingest_attempt]
  exact h

theorem config_attempt (t : Tree) (b : Batch) (i : Item) :
    (b.attempt t i).ingest.worker.config = b.ingest.worker.config := by
  obtain ⟨o, -, hone, -⟩ := progress_write t i b.ingest.worker.config.maxRetries.toNat b
  rw [ingest_attempt]
  exact hone.config

end Ingest
end IndexedStore
