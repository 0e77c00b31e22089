import IndexedStore.Pipeline.Batch
import IndexedStore.Proofs.Queue

/-! # What becomes of the items of a batch

Every item that the worker takes from a buffer has one outcome. Inside an open transaction an item
that was written is in hand: it is processed if the transaction commits and parked if it does not.
The others are settled for good, as dead letters or dropped, whatever comes of the transaction.
-/
namespace IndexedStore

theorem add_ofNat_succ (a : UInt64) (n : Nat) : a + .ofNat (n + 1) = a + 1 + .ofNat n := by
  rw [Nat.add_comm, UInt64.ofNat_add, UInt64.add_assoc]
  rfl

/-- Where an item of a buffer ends up. -/
inductive Outcome
  /-- written in a transaction that committed, and released -/
  | processed
  /-- a dead letter by itself, after so many writes -/
  | buried (attempts : UInt32) (f : Failure)
  /-- a dead letter with the rest of its batch -/
  | parked (f : Failure)
  /-- released without having been written -/
  | dropped
deriving DecidableEq

namespace Outcome

/-- An item in hand when the batch is given up. -/
def givenUp (e : Failure) : Outcome → Outcome
  | processed => parked e
  | o => o

/-- A strategy that lets an item end so: items are dropped under one strategy and buried under the
others. -/
def AllowedBy (strategy : Strategy) : Outcome → Prop
  | dropped => strategy = .logContinue
  | buried _ _ => strategy ≠ .logContinue
  | _ => True

section Shares
variable (l m : List (Item × Outcome))

def processedOf : List Item :=
  l.filterMap fun e => match e.2 with | processed => some e.1 | _ => none

def droppedOf : List Item :=
  l.filterMap fun e => match e.2 with | dropped => some e.1 | _ => none

def buriedOf : List DeadLetter :=
  l.filterMap fun e => match e.2 with | buried n f => some ⟨e.1, n, f⟩ | _ => none

def parkedOf : List DeadLetter :=
  l.filterMap fun e => match e.2 with | parked f => some ⟨e.1, 0, f⟩ | _ => none

@[simp] theorem processedOf_append : processedOf (l ++ m) = processedOf l ++ processedOf m :=
  List.filterMap_append

@[simp] theorem droppedOf_append : droppedOf (l ++ m) = droppedOf l ++ droppedOf m :=
  List.filterMap_append

@[simp] theorem buriedOf_append : buriedOf (l ++ m) = buriedOf l ++ buriedOf m :=
  List.filterMap_append

@[simp] theorem parkedOf_append : parkedOf (l ++ m) = parkedOf l ++ parkedOf m :=
  List.filterMap_append

/-- The four kinds of outcome share the items out. -/
theorem length_shares : (processedOf l).length + (buriedOf l).length + (parkedOf l).length +
    (droppedOf l).length = l.length := by
  induction l with
  | nil => rfl
  | cons e rest ih =>
    rcases e with ⟨i, o⟩
    cases o <;> simp only [processedOf, buriedOf, parkedOf, droppedOf, List.filterMap_cons,
      List.length_cons] at ih ⊢ <;> omega

end Shares

variable {strategy : Strategy} {l : List (Item × Outcome)}

end Outcome

namespace Worker

/-- The same in all that is accounted for: the log, the streak and the error count may differ. -/
structure Same (w w' : Worker) : Prop where
  config : w'.config = w.config
  processed : w'.processed = w.processed
  discarded : w'.discarded = w.discarded
  deadLetters : w'.deadLetters = w.deadLetters

theorem same_say (level : LogLevel) (message : String) (w : Worker) :
    Same w (w.say level message) := by
  unfold say
  split <;> exact ⟨rfl, rfl, rfl, rfl⟩

theorem phase_say (level : LogLevel) (message : String) (w : Worker) :
    (w.say level message).phase = w.phase := by
  unfold say
  split <;> rfl

theorem Same.trans {w w' w'' : Worker} (h : Same w w') (h' : Same w' w'') : Same w w'' :=
  ⟨h'.config.trans h.config, h'.processed.trans h.processed, h'.discarded.trans h.discarded,
    h'.deadLetters.trans h.deadLetters⟩

theorem Same.bury {w w' : Worker} (h : Same w w') (l : DeadLetter) : Same (w.bury l) (w'.bury l) :=
  ⟨h.config, h.processed, h.discarded, congrArg (·.push l) h.deadLetters⟩

theorem Same.discard {w w' : Worker} (h : Same w w') :
    Same { w with discarded := w.discarded + 1 } { w' with discarded := w'.discarded + 1 } :=
  ⟨h.config, h.processed, congrArg (· + 1) h.discarded, h.deadLetters⟩

end Worker

namespace Ingest
open Outcome

/-- Items got their outcomes in an open transaction: those settled are accounted for, those in hand
are not yet. -/
structure Progress (l : List (Item × Outcome)) (s s' : Ingest) : Prop where
  queue : s'.queue = s.queue.releaseAll (droppedOf l)
  config : s'.worker.config = s.worker.config
  processed : s'.worker.processed = s.worker.processed
  discarded : s'.worker.discarded = s.worker.discarded + .ofNat (droppedOf l).length
  letters : s'.worker.deadLetters.toList = s.worker.deadLetters.toList ++ buriedOf l
  database : s'.session.database =
    { s.session.database with statistics := s'.session.database.statistics }
  allowed : ∀ e ∈ l, e.2.AllowedBy s.worker.config.strategy

variable {l m : List (Item × Outcome)} {s s' s'' : Ingest}

theorem Progress.refl (s : Ingest) : Progress [] s s :=
  ⟨rfl, rfl, rfl, (UInt64.add_zero _).symm, (List.append_nil _).symm, rfl, by simp⟩

theorem Progress.trans (h : Progress l s s') (h' : Progress m s' s'') :
    Progress (l ++ m) s s'' where
  queue := by rw [h'.queue, h.queue, droppedOf_append, Queue.releaseAll_append]
  config := h'.config.trans h.config
  processed := h'.processed.trans h.processed
  discarded := by
    rw [h'.discarded, h.discarded, droppedOf_append, List.length_append, UInt64.ofNat_add,
      UInt64.add_assoc]
  letters := by rw [h'.letters, h.letters, buriedOf_append, List.append_assoc]
  database := by rw [h'.database, h.database]
  allowed := List.forall_mem_append.mpr ⟨h.allowed, h.config ▸ h'.allowed⟩

/-- An item in hand is accounted for later. -/
theorem Progress.inHand (h : Progress [] s s') (i : Item) : Progress [(i, .processed)] s s' :=
  ⟨h.queue, h.config, h.processed, h.discarded, h.letters, h.database, by simp [AllowedBy]⟩

theorem Progress.quiet (hq : s'.queue = s.queue)
    (hd : s'.session.database =
      { s.session.database with statistics := s'.session.database.statistics })
    (h : Worker.Same s.worker s'.worker) : Progress [] s s' :=
  ⟨hq, h.config, h.processed, h.discarded.trans (UInt64.add_zero _).symm,
    by simp [h.deadLetters, buriedOf], hd, by simp⟩

theorem progress_say (level : LogLevel) (message : String) (s : Ingest) :
    Progress [] s (s.say level message) := .quiet rfl rfl (Worker.same_say ..)

theorem config_failedWrite (e : Failure) (attempt : UInt32) (w : Worker) :
    (failedWrite e attempt w).config = w.config := (Worker.same_say ..).config

theorem progress_failedWrite (e : Failure) (attempt : UInt32) (s : Ingest) :
    Progress [] s (s.withWorker (failedWrite e attempt)) :=
  have h := Worker.same_say .error _
    { s.worker with errors := s.worker.errors + 1, consecutive := s.worker.consecutive + 1 }
  .quiet rfl rfl ⟨h.config, h.processed, h.discarded, h.deadLetters⟩

theorem Progress.bury {i : Item} {n : UInt32} {e : Failure} (hq : s'.queue = s.queue)
    (hs : s'.session = s.session) (h : Worker.Same (s.worker.bury ⟨i, n, e⟩) s'.worker)
    (hstrategy : s.worker.config.strategy ≠ .logContinue) : Progress [(i, .buried n e)] s s' :=
  ⟨hq, h.config, h.processed, h.discarded.trans (UInt64.add_zero _).symm,
    by simp [h.deadLetters, Worker.bury, buriedOf], by rw [hs],
    by simpa [AllowedBy] using hstrategy⟩

theorem Progress.drop {i : Item} (hq : s'.queue = s.queue.release i) (hs : s'.session = s.session)
    (h : Worker.Same { s.worker with discarded := s.worker.discarded + 1 } s'.worker)
    (hstrategy : s.worker.config.strategy = .logContinue) : Progress [(i, .dropped)] s s' :=
  ⟨hq, h.config, h.processed, h.discarded, by simp [h.deadLetters, buriedOf], by rw [hs],
    by simpa [AllowedBy] using hstrategy⟩

theorem progress_upsert {t : Tree} {i : Item} {b b' : Batch} {r : Except Failure Unit}
    (hu : b.upsert t i = (r, b')) : Progress [] b.ingest b'.ingest ∧ b'.written = b.written := by
  obtain ⟨rfl, rfl⟩ := Prod.mk.inj hu
  exact ⟨⟨rfl, rfl, rfl, (UInt64.add_zero _).symm, (List.append_nil _).symm, rfl, by simp⟩, rfl⟩

/-- The outcome of an item as far as its own write decides it. -/
def Fate.decides : Fate → Outcome → Prop
  | .handled, .buried _ _ => True
  | .handled, .dropped => True
  | .written, .processed => True
  | .fatal _, .processed => True
  | _, _ => False

/-- However often it is tried, an item is settled once or still in hand. -/
theorem progress_write (t : Tree) (i : Item) (left : Nat) (b : Batch) :
    ∃ o, (b.write t i left).1.decides o ∧
      Progress [(i, o)] b.ingest (b.write t i left).2.ingest ∧
      (b.write t i left).2.written = b.written := by
  fun_induction Batch.write t i left b with
  | case1 left b b' hu =>
    obtain ⟨hup, hw⟩ := progress_upsert hu
    refine ⟨.processed, trivial, Progress.inHand (hup.trans ?_) i, hw⟩
    exact .quiet rfl rfl ⟨rfl, rfl, rfl, rfl⟩
  | case2 left b e b' hu config attempt =>
    obtain ⟨hup, hw⟩ := progress_upsert hu
    have hfail := hup.trans (progress_failedWrite e attempt b'.ingest)
    exact ⟨.processed, trivial, (hfail.trans (progress_say ..)).inHand i, hw⟩
  | case3 b e b' hu config _ left attempt _ ih =>
    obtain ⟨hup, hw⟩ := progress_upsert hu
    have hfail := hup.trans (progress_failedWrite e attempt b'.ingest)
    obtain ⟨o, hfate, hlater, hw'⟩ := ih
    exact ⟨o, hfate, (hfail.trans (progress_say ..)).trans hlater, hw'.trans hw⟩
  | case4 b e b' hu config hs attempt =>
    obtain ⟨hup, hw⟩ := progress_upsert hu
    have hfail := progress_failedWrite e attempt b'.ingest
    have hstrategy : (failedWrite e attempt b'.ingest.worker).config.strategy ≠ .logContinue := by
      rw [config_failedWrite]
      exact fun h => nomatch hs.symm.trans h
    exact ⟨.buried (attempt + 1) e, trivial,
      (hup.trans hfail).trans (.bury rfl rfl ((Worker.same_say ..).bury _) hstrategy), hw⟩
  | case5 left b e b' hu config attempt _ hs =>
    obtain ⟨hup, hw⟩ := progress_upsert hu
    have hfail := progress_failedWrite e attempt b'.ingest
    have hstrategy : (failedWrite e attempt b'.ingest.worker).config.strategy ≠ .logContinue := by
      rw [config_failedWrite]
      exact fun h => nomatch hs.symm.trans h
    exact ⟨.buried (attempt + 1) e, trivial,
      (hup.trans hfail).trans (.bury rfl rfl (Worker.same_say ..) hstrategy), hw⟩
  | case6 left b e b' hu config attempt _ hs =>
    obtain ⟨hup, hw⟩ := progress_upsert hu
    have hfail := progress_failedWrite e attempt b'.ingest
    exact ⟨.dropped, trivial, (hup.trans hfail).trans
      (.drop rfl rfl (Worker.same_say ..).discard (hfail.config ▸ hs)), hw⟩

end Ingest
end IndexedStore
