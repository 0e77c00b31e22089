import IndexedStore.Proofs.Pipeline

/-! # Turns of the worker

One turn of the worker's loop does one of five things: nothing, take what is queued, write what was
taken, or leave the loop, which the worker does when nothing more can come or when it gives up. Once
the queue is flushed, and if nobody comes between, it leaves within four turns. What is queued while
a buffer is written plays no part in the writing.
-/
namespace IndexedStore

namespace Queue

theorem flushed_notify (n : Notice) (q : Queue) : (q.notify n).flushed = q.flushed := by
  rw [notify_eq]

theorem flushed_of_releases {released : List Item} {q q' : Queue} (h : Releases released q q') :
    q'.flushed = q.flushed := by
  induction h with
  | done => rfl
  | release _ ih => rw [ih, release_eq]
  | flushed _ ih => rw [ih, flushed_notify]

end Queue

namespace Ingest
open Outcome
variable {s s' : Ingest} {busy : Bool}

theorem inFlight_holding {b : Buffer} (h : s.worker.phase = .holding b) :
    s.inFlight = b.rest ++ s.queue.items.toList := by
  rw [inFlight, held, h]

theorem inFlight_waiting (h : s.worker.phase = .waiting) :
    s.inFlight = s.queue.items.toList := by
  rw [inFlight, held, h]
  rfl

theorem inFlight_ended (h : s.worker.phase = .ended) : s.inFlight = s.queue.items.toList := by
  rw [inFlight, held, h]
  rfl

/-- What one turn of the worker's loop can come to. -/
inductive Turned (busy : Bool) (s : Ingest) : Ingest → Prop
  | idle (waits : s.worker.phase = .waiting → s.queue.flushed = false)
    (writes : ∀ b, s.worker.phase = .holding b → busy = true) : Turned busy s s
  | took (waiting : s.worker.phase = .waiting) (queued : 0 < s.queue.depth) :
    Turned busy s { s with
      queue := (s.queue.swap 0).2
      worker := { s.worker with phase := .holding (s.queue.swap 0).1 } }
  | left {s' : Ingest} (waiting : s.worker.phase = .waiting) (flushed : s.queue.flushed = true)
    (empty : s.queue.items = #[]) (same : Worker.Same s.worker s'.worker)
    (ended : s'.worker.phase = .ended) (queue : s'.queue = s.queue)
    (session : s'.session = s.session) : Turned busy s s'
  | wrote {s' : Ingest} {b : Buffer} {fates : List (Item × Outcome)}
    (holding : s.worker.phase = .holding b) (items : b.rest = fates.map Prod.fst)
    (counted : Counted fates s s') (parked : parkedOf fates = [])
    (waiting : s'.worker.phase = .waiting) (queue : s'.queue.items = s.queue.items)
    (flushed : s'.queue.flushed = s.queue.flushed) : Turned busy s s'
  | gaveUp {s' : Ingest} {b : Buffer} {fates : List (Item × Outcome)}
    (holding : s.worker.phase = .holding b) (items : b.rest = fates.map Prod.fst)
    (counted : Counted fates s s') (ended : s'.worker.phase = .ended)
    (queue : s'.queue.items = s.queue.items) (flushed : s'.queue.flushed = s.queue.flushed) :
    Turned busy s s'

theorem turned_wake (busy : Bool) (h : s.worker.phase = .waiting) : Turned busy s s.wake := by
  unfold Ingest.wake Queue.awaited
  by_cases hdepth : 0 < s.queue.depth
  · simp only [hdepth, if_true]
    exact .took h hdepth
  · simp only [hdepth, if_false]
    have hempty : s.queue.items = #[] := Array.size_eq_zero_iff.mp (Nat.eq_zero_of_not_pos hdepth)
    cases hflushed : s.queue.flushed with
    | false => exact .idle (fun _ => hflushed) fun b hb => absurd (h.symm.trans hb) nofun
    | true =>
      simp only [if_true]
      split
      · obtain ⟨hsame, hended, hqueue, hsession⟩ :=
          finish_spec (s.say .info "Queue flushed, consumer exiting")
        have hsay := Worker.same_say .info "Queue flushed, consumer exiting" s.worker
        exact .left h hflushed hempty (hsay.trans hsame) hended hqueue hsession
      · obtain ⟨hsame, hended, hqueue, hsession⟩ := finish_spec s
        exact .left h hflushed hempty hsame hended hqueue hsession

theorem turned_writeHeld (t : Tree) (around : Nat → Surroundings) (busy : Bool) {b : Buffer}
    (h : s.worker.phase = .holding b) : Turned busy s (s.writeHeld t around b) := by
  obtain ⟨early, late, hitems, hacc, hearly, -, hend, -⟩ := writeItems_settled t around 0 b.rest s
  unfold Ingest.writeHeld writeBuffer
  cases hr : writeItems t around 0 b.rest s with
  | mk goes s₁ =>
    rw [hr] at hacc hend
    obtain ⟨released, hreleased, -⟩ := hacc.released
    have hqueue := Queue.items_of_releases hreleased
    have hflushed := Queue.flushed_of_releases hreleased
    cases goes with
    | true =>
      obtain rfl := hend rfl
      rw [List.append_nil] at hitems hacc
      exact .wrote h hitems.symm (hacc.toCounted.same ⟨rfl, rfl, rfl, rfl⟩ rfl) hearly rfl hqueue
        hflushed
    | false =>
      -- what was parked is counted already; leaving the loop changes no count
      have hsay := Worker.same_say .fatal "Consumer stopping due to fatal error" s₁.worker
      obtain ⟨hsame, hended, hqueue', hsession⟩ :=
        finish_spec (s₁.say .fatal "Consumer stopping due to fatal error")
      have hcount := hacc.toCounted.same (hsay.trans hsame)
        (congrArg (fun x => x.database.path) hsession)
      exact .gaveUp h hitems.symm hcount hended (hqueue' ▸ hqueue) (hqueue' ▸ hflushed)

theorem turned_step (t : Tree) (around : Nat → Surroundings) (busy : Bool) (s : Ingest) :
    Turned busy s (s.step t around busy) := by
  unfold Ingest.step
  cases hphase : s.worker.phase with
  | waiting => exact turned_wake busy hphase
  | holding b =>
    cases busy with
    | true => exact .idle (fun h => absurd (hphase.symm.trans h) nofun) fun _ _ => rfl
    | false => exact turned_writeHeld t around false hphase
  | unstarted =>
    exact .idle (fun h => absurd (hphase.symm.trans h) nofun)
      fun b h => absurd (hphase.symm.trans h) nofun
  | ended =>
    exact .idle (fun h => absurd (hphase.symm.trans h) nofun)
      fun b h => absurd (hphase.symm.trans h) nofun

theorem Turned.flushed (h : Turned busy s s') : s'.queue.flushed = s.queue.flushed := by
  cases h with
  | idle => rfl
  | took => rfl
  | left _ _ _ _ _ queue => rw [queue]
  | wrote _ _ _ _ _ _ flushed => exact flushed
  | gaveUp _ _ _ _ _ flushed => exact flushed

theorem Turned.started (h : Turned busy s s') (hs : s.worker.phase ≠ .unstarted) :
    s'.worker.phase ≠ .unstarted := by
  cases h with
  | idle => exact hs
  | took => exact nofun
  | left _ _ _ _ ended => exact ended ▸ nofun
  | wrote _ _ _ _ waiting => exact waiting ▸ nofun
  | gaveUp _ _ _ ended => exact ended ▸ nofun

/-- A worker that has left does nothing any more. -/
theorem Turned.eq_of_ended (h : Turned busy s s') (hs : s.worker.phase = .ended) : s' = s := by
  cases h with
  | idle => rfl
  | took waiting => exact absurd (hs.symm.trans waiting) nofun
  | left waiting => exact absurd (hs.symm.trans waiting) nofun
  | wrote holding => exact absurd (hs.symm.trans holding) nofun
  | gaveUp holding => exact absurd (hs.symm.trans holding) nofun

/-! ## The worker ends when it is asked to -/

/-- The turns it takes until the worker ends, if the queue is flushed and nobody comes between. -/
def turnsLeft (s : Ingest) : Nat :=
  match s.worker.phase with
  | .waiting => if s.queue.items = #[] then 1 else 3
  | .holding _ => if s.queue.items = #[] then 2 else 4
  | _ => 0

theorem turnsLeft_ended (h : s.worker.phase = .ended) : s.turnsLeft = 0 := by
  rw [turnsLeft, h]

theorem turnsLeft_le (s : Ingest) : s.turnsLeft ≤ 4 := by
  unfold turnsLeft
  split
  · split <;> omega
  · split <;> omega
  · exact Nat.zero_le 4

/-- A turn that nothing prevents brings the end nearer. -/
theorem Turned.turnsLeft_le_pred (h : Turned false s s') (hflushed : s.queue.flushed = true) :
    s'.turnsLeft ≤ s.turnsLeft - 1 := by
  cases h with
  | idle waits writes =>
    unfold turnsLeft
    cases hphase : s.worker.phase with
    | waiting => exact absurd (hflushed.symm.trans (waits hphase)) nofun
    | holding b => exact absurd (writes b hphase) nofun
    | unstarted => exact Nat.le_refl 0
    | ended => exact Nat.le_refl 0
  | took waiting queued =>
    have hsome : s.queue.items ≠ #[] := by
      intro h
      simp [Queue.depth, h] at queued
    simp only [turnsLeft, waiting, if_neg hsome, Queue.swap, if_true]
    exact Nat.le_refl 2
  | left _ _ _ _ ended => exact turnsLeft_ended ended ▸ Nat.zero_le _
  | wrote holding _ _ _ waiting queue =>
    simp only [turnsLeft, holding, waiting, queue]
    split <;> exact Nat.le_refl _
  | gaveUp _ _ _ ended => exact turnsLeft_ended ended ▸ Nat.zero_le _

/-- The worker will have ended after so many turns if nobody comes between. -/
structure EndsWithin (n : Nat) (s : Ingest) : Prop where
  started : s.worker.phase ≠ .unstarted
  flushed : s.queue.flushed = true
  turns : s.turnsLeft ≤ n

theorem EndsWithin.step {n : Nat} (h : EndsWithin (n + 1) s) (t : Tree)
    (around : Nat → Surroundings) : EndsWithin n (s.step t around false) := by
  have hturn := turned_step t around false s
  refine ⟨hturn.started h.started, hturn.flushed.trans h.flushed, ?_⟩
  exact Nat.le_trans (hturn.turnsLeft_le_pred h.flushed) (Nat.sub_le_of_le_add h.turns)

theorem EndsWithin.ended (h : EndsWithin 0 s) : s.worker.phase = .ended := by
  have hturns := h.turns
  unfold turnsLeft at hturns
  cases hphase : s.worker.phase with
  | ended => rfl
  | unstarted => exact absurd hphase h.started
  | waiting =>
    simp only [hphase] at hturns
    split at hturns <;> omega
  | holding b =>
    simp only [hphase] at hturns
    split at hturns <;> omega

theorem ended_catchUp (t : Tree) (around : Nat → Surroundings) (hs : s.worker.phase ≠ .unstarted)
    (hflushed : s.queue.flushed = true) : (s.catchUp t around false).worker.phase = .ended := by
  have hfour : EndsWithin 4 s := ⟨hs, hflushed, turnsLeft_le s⟩
  exact ((((hfour.step t around).step t around).step t around).step t around).ended

/-- Items, counts and phase stay as they are, and a flushed queue stays flushed. -/
structure Quiet (s s' : Ingest) : Prop where
  worker : Worker.Same s.worker s'.worker
  phase : s'.worker.phase = s.worker.phase
  items : s'.queue.items = s.queue.items
  flushed : s.queue.flushed = true → s'.queue.flushed = true

theorem Quiet.inFlight (h : Quiet s s') : s'.inFlight = s.inFlight := by
  rw [Ingest.inFlight, Ingest.inFlight, held_of_phase h.phase, h.items]

theorem quiet_requestStop (s : Ingest) : Quiet s s.requestStop := by
  obtain ⟨hsame, hphase, hitems, -⟩ := requestStop_spec s
  exact ⟨hsame, hphase, hitems, fun _ => rfl⟩

theorem quiet_confirmStop (s : Ingest) : Quiet s s.confirmStop := by
  have hsame := Worker.same_say .info "Consumer stopped gracefully"
    { s.worker with joinable := false, state := .stopped }
  exact ⟨⟨hsame.config, hsame.processed, hsame.discarded, hsame.deadLetters⟩, Worker.phase_say ..,
    rfl, id⟩

end Ingest

/-! ## Items that come while others are written -/

namespace Queue

/-- The queue with other items in it. -/
def holding (items : Array Item) (q : Queue) : Queue := { q with items := items }

variable (items : Array Item)

theorem notify_holding (n : Notice) (q : Queue) :
    (q.holding items).notify n = (q.notify n).holding items := by
  rw [notify_eq, notify_eq]
  rfl

theorem release_holding (i : Item) (q : Queue) :
    (q.holding items).release i = (q.release i).holding items := by
  rw [release_eq, release_eq]
  rfl

theorem releaseAll_holding (l : List Item) (q : Queue) :
    (q.holding items).releaseAll l = (q.releaseAll l).holding items := by
  rw [releaseAll_eq, releaseAll_eq]
  rfl

end Queue

namespace Ingest
variable (items : Array Item)

def queuing (s : Ingest) : Ingest := s.withQueue (Queue.holding items)

theorem write_queuing (t : Tree) (i : Item) (left : Nat) (b : Batch) :
    (b.on (queuing items)).write t i left =
      ((b.write t i left).1, (b.write t i left).2.on (queuing items)) := by
  have hupsert : ∀ b : Batch, (b.on (queuing items)).upsert t i =
      ((b.upsert t i).1, (b.upsert t i).2.on (queuing items)) := fun _ => rfl
  fun_induction Batch.write t i left b with
  | case1 left b b' hu =>
    rw [Batch.write, hupsert, hu]
    rfl
  | case2 left b e b' hu config attempt b'' hs =>
    have hstrategy : (b'.on (queuing items)).ingest.worker.config.strategy = .failFast := hs
    rw [Batch.write, hupsert, hu]
    simp only [hstrategy]
    rfl
  | case3 b e b' hu config hs left attempt b'' ih =>
    have hstrategy : (b'.on (queuing items)).ingest.worker.config.strategy = .retry := hs
    rw [Batch.write, hupsert, hu]
    simp only [hstrategy]
    exact ih
  | case4 b e b' hu config hs attempt =>
    have hstrategy : (b'.on (queuing items)).ingest.worker.config.strategy = .retry := hs
    rw [Batch.write, hupsert, hu]
    simp only [hstrategy]
    rfl
  | case5 left b e b' hu config attempt _ hs =>
    have hstrategy : (b'.on (queuing items)).ingest.worker.config.strategy = .deadLetter := hs
    rw [Batch.write, hupsert, hu]
    simp only [hstrategy]
    rfl
  | case6 left b e b' hu config attempt _ hs =>
    have hstrategy : (b'.on (queuing items)).ingest.worker.config.strategy = .logContinue := hs
    rw [Batch.write, hupsert, hu]
    simp only [hstrategy]
    have hrelease := Queue.release_holding items i b'.ingest.queue
    simp only [Batch.on, withQueue, queuing, withWorker] at hrelease ⊢
    rw [hrelease]
    rfl

theorem fill_queuing (t : Tree) (around : Surroundings) (attempted : Nat) (l : List Item)
    (b : Batch) :
    fill t around attempted l (b.on (queuing items)) =
      let r := fill t around attempted l b
      { r with batch := r.batch.on (queuing items) } := by
  induction l generalizing attempted b with
  | nil => rfl
  | cons i rest ih =>
    have hwrite := write_queuing items t i b.ingest.worker.config.maxRetries.toNat b
    change (b.on (queuing items)).write t i
      (b.on (queuing items)).ingest.worker.config.maxRetries.toNat = _ at hwrite
    have hmore : takesMore (b.on (queuing items)).ingest.worker.config around attempted =
        takesMore b.ingest.worker.config around attempted := rfl
    rw [fill, fill, hmore, hwrite]
    split
    · rcases b.write t i b.ingest.worker.config.maxRetries.toNat with ⟨fate, b'⟩
      cases fate with
      | written => exact ih (attempted + 1) { b' with written := b'.written.push i }
      | handled => exact ih (attempted + 1) b'
      | fatal f => rfl
    · rfl

theorem commitBatch_queuing (around : Surroundings) (b : Batch) :
    commitBatch around (b.on (queuing items)) =
      ((commitBatch around b).1, (commitBatch around b).2.queuing items) := by
  have hcommit : Database.commit around.allocated (b.on (queuing items)).txn
      (b.on (queuing items)).ingest.session.database =
        Database.commit around.allocated b.txn b.ingest.session.database := rfl
  unfold commitBatch
  rw [hcommit]
  rcases Database.commit around.allocated b.txn b.ingest.session.database with ⟨result, d⟩
  cases result with
  | error e => rfl
  | ok _ => cases around.commitFault <;> rfl

theorem beginBatch_queuing (around : Surroundings) (s : Ingest) :
    beginBatch around (s.queuing items) = (beginBatch around s).map (Batch.on (queuing items)) := by
  unfold beginBatch
  cases around.beginFault with
  | some e => rfl
  | none =>
    have hbegin : (s.queuing items).session.database.beginWrite =
        s.session.database.beginWrite := rfl
    rw [hbegin]
    cases s.session.database.beginWrite <;> rfl

theorem finishBatch_queuing (written : List Item) (latency : Nat) (s : Ingest) :
    (s.queuing items).finishBatch written latency =
      (s.finishBatch written latency).queuing items := by
  have hqueue : ((s.queue.holding items).releaseAll written).notify .batchFlushed =
      ((s.queue.releaseAll written).notify .batchFlushed).holding items := by
    rw [Queue.releaseAll_holding, Queue.notify_holding]
  exact congrArg (fun q => ({ s.finishBatch written latency with queue := q } : Ingest)) hqueue

/-- What is queued while items are written plays no part in the writing. -/
theorem writeItems_queuing (t : Tree) (around : Nat → Surroundings) (n : Nat) (l : List Item)
    (s : Ingest) :
    writeItems t around n l (s.queuing items) =
      ((writeItems t around n l s).1, (writeItems t around n l s).2.queuing items) := by
  fun_induction writeItems t around n l s with
  | case1 n s => rw [writeItems]
  | case2 n s i rest e hb =>
    rw [writeItems, beginBatch_queuing, hb]
    rfl
  | case3 n s i rest b hb filled written e hfatal s₁ =>
    rw [writeItems, beginBatch_queuing, hb]
    simp only [Except.map, fill_queuing, filled, hfatal]
    rfl
  | case4 n s i rest b hb filled written hfatal e s₁ hc =>
    change (fill t (around n) 0 (i :: rest) b).fatal = none at hfatal
    change commitBatch (around n) (fill t (around n) 0 (i :: rest) b).batch = _ at hc
    rw [writeItems, beginBatch_queuing, hb]
    simp only [Except.map, fill_queuing, hfatal, commitBatch_queuing, hc]
    rfl
  | case5 n s i rest b hb filled written hfatal s₁ hc ih =>
    change (fill t (around n) 0 (i :: rest) b).fatal = none at hfatal
    change commitBatch (around n) (fill t (around n) 0 (i :: rest) b).batch = _ at hc
    rw [writeItems, beginBatch_queuing, hb]
    simp only [Except.map, fill_queuing, hfatal, commitBatch_queuing, hc, finishBatch_queuing]
    exact ih

/-- An item that comes while others are written might as well have come before. -/
theorem writeItems_push (t : Tree) (around : Nat → Surroundings) (n : Nat) (l : List Item)
    (s : Ingest) (i : Item) :
    writeItems t around n l (s.withQueue fun q => { q with items := q.items.push i }) =
      ((writeItems t around n l s).1,
        (writeItems t around n l s).2.withQueue fun q => { q with items := q.items.push i }) := by
  obtain ⟨early, late, -, hacc, -⟩ := writeItems_settled t around n l s
  obtain ⟨released, hreleased, -⟩ := hacc.released
  have hitems := Queue.items_of_releases hreleased
  refine (writeItems_queuing (s.queue.items.push i) t around n l s).trans ?_
  rw [queuing, withQueue, withQueue, Queue.holding, hitems]

end Ingest
end IndexedStore
