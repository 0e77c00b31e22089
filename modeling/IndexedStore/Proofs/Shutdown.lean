import IndexedStore.Proofs.Turns
import Mathlib.Data.List.Perm.Subperm

/-! # What a stopped worker leaves behind

A producer finds the queue open, and only then waits for the queue and puts its item in. The worker
takes turns until it ends, and its owner asks for that end and waits for it. All of this happens in
any order.

An accepted item has its outcome or is in flight, and once the worker has ended, what is in flight
is what it left in the queue and what came later. A worker that ends because the queue was flushed
leaves nothing, and nothing comes later but from producers that the flush overtook. A worker that
gives up leaves whatever is queued, and the queue stays open for items that nobody will write.
-/
namespace IndexedStore

namespace Queue

/-- Puts an item in once the queue was found open, flushed or not by now. -/
def letIn (i : Item) (q : Queue) : Except (Rejection × Item) Unit × Queue :=
  if q.capacity ≤ q.depth then (.error (.full, i), q.notify .full)
  else (.ok (), { q with items := q.items.push i })

theorem enqueue_eq_letIn (i : Item) (q : Queue) :
    q.enqueue i = if q.flushed then (.error (.flushed, i), q) else q.letIn i := rfl

theorem letIn_cases (i : Item) (q : Queue) :
    q.letIn i = (.error (.full, i), q.notify .full) ∨
      q.letIn i = (.ok (), { q with items := q.items.push i }) := by
  unfold letIn
  split
  · exact .inl rfl
  · exact .inr rfl

end Queue

/-! ## Shifts -/

structure Departure where
  /-- a buffer failed for good -/
  gaveUp : Bool
  queued : List Item
  /-- items whose producers had found the queue open -/
  entering : List Item
deriving DecidableEq

/-- The time from a worker's start until its owner is done with it. -/
structure Shift where
  ingest : Ingest
  /-- items whose producers found the queue open and have yet to put them in -/
  entering : List Item
  accepted : List Item
  /-- dead letters that the owner took away, in order -/
  collected : List DeadLetter
  departure : Option Departure
  /-- items accepted since the worker left -/
  late : List Item
  asked : Bool
  /-- the owner was told that the worker has ended -/
  returned : Bool

namespace Shift
open Outcome Ingest

/-- A turn of the worker counts as one event, since an item that comes while others are written
might as well have come before. -/
inductive Event
  /-- a producer looks whether the queue is open -/
  | enter (i : Item)
  /-- one of the producers that found it open gets to put its item in -/
  | letIn (producer : Nat)
  | flush
  | turn (t : Tree) (around : Nat → Surroundings) (busy : Bool)
  | collect
  /-- the database or the handle is used by others -/
  | elsewhere (session : Session)
  | requestStop
  | confirmStop

def act (w : Shift) : Event → Shift
  | .enter i => if w.ingest.queue.flushed then w else { w with entering := w.entering ++ [i] }
  | .letIn producer =>
    match w.entering[producer]? with
    | none => w
    | some i =>
      let w := { w with entering := w.entering.eraseIdx producer }
      match w.ingest.queue.letIn i with
      | (.error _, q) => { w with ingest := w.ingest.withQueue fun _ => q }
      | (.ok (), q) =>
        { w with
          ingest := w.ingest.withQueue fun _ => q
          accepted := w.accepted ++ [i]
          late := if w.departure.isSome then w.late ++ [i] else w.late }
  | .flush => { w with ingest := w.ingest.withQueue Queue.flush }
  | .turn t around busy =>
    let s := w.ingest.step t around busy
    { w with
      ingest := s
      departure := if s.worker.phase = .ended then
          some (w.departure.getD
            ⟨w.ingest.worker.phase ≠ .waiting, s.queue.items.toList, w.entering⟩)
        else w.departure }
  | .collect =>
    { w with
      ingest := w.ingest.withWorker fun worker => worker.takeDeadLetters.2
      collected := w.collected ++ w.ingest.worker.takeDeadLetters.1 }
  | .elsewhere session => { w with ingest := { w.ingest with session := session } }
  | .requestStop => { w with ingest := w.ingest.requestStop, asked := true }
  | .confirmStop =>
    if w.asked ∧ w.ingest.worker.phase = .ended then
      { w with ingest := w.ingest.confirmStop, returned := true }
    else w

def run (w : Shift) (events : List Event) : Shift := events.foldl act w

/-- A worker is started on a queue. It finds the items that were accepted before, and producers that
are about to put theirs in. -/
def opened (q : Queue) (entering : List Item) (config : WorkerConfig) (session : Session) :
    Shift :=
  ⟨(Ingest.start ⟨q, .create config, session⟩).2, entering, q.items.toList, [], none, [], false,
    false⟩

def undisturbedStop (t : Tree) (around : Nat → Surroundings) : List Event :=
  .requestStop :: (List.replicate 4 (.turn t around false) ++ [.confirmStop])

def settled (w : Shift) : UInt64 :=
  w.ingest.worker.processed + .ofNat (w.collected.length + w.ingest.worker.deadLetters.size) +
    w.ingest.worker.discarded

theorem run_enter_letIn (w : Shift) (i : Item) :
    w.run [.enter i, .letIn w.entering.length] =
      match w.ingest.queue.enqueue i with
      | (.error _, q) => { w with ingest := w.ingest.withQueue fun _ => q }
      | (.ok (), q) =>
        { w with
          ingest := w.ingest.withQueue fun _ => q
          accepted := w.accepted ++ [i]
          late := if w.departure.isSome then w.late ++ [i] else w.late } := by
  rw [Queue.enqueue_eq_letIn]
  cases hflushed : w.ingest.queue.flushed with
  | true => simp [run, act, hflushed, withQueue]
  | false =>
    obtain hq | hq := Queue.letIn_cases i w.ingest.queue
    · simp [run, act, hflushed, hq, List.eraseIdx_append_of_length_le]
    · simp [run, act, hflushed, hq, List.eraseIdx_append_of_length_le]

variable {config : WorkerConfig} {w w' : Shift} {fates more : List (Item × Outcome)} {s : Ingest}

/-- Everything accepted has its outcome or is in flight, and the outcomes are counted. -/
structure Booked (config : WorkerConfig) (w : Shift) (fates : List (Item × Outcome)) : Prop where
  settings : w.ingest.worker.config = config
  accepted : w.accepted = fates.map Prod.fst ++ w.ingest.inFlight
  processed : w.ingest.worker.processed = .ofNat (processedOf fates).length
  discarded : w.ingest.worker.discarded = .ofNat (droppedOf fates).length
  letters : w.collected ++ w.ingest.worker.deadLetters.toList = buriedOf fates ++ parkedOf fates
  allowed : ∀ e ∈ fates, e.2.AllowedBy config.strategy

theorem Booked.settled (h : Booked config w fates) : w.settled = .ofNat fates.length := by
  have hletters := congrArg List.length h.letters
  have hshares := length_shares fates
  simp only [List.length_append, Array.length_toList] at hletters
  rw [Shift.settled, h.processed, h.discarded, hletters, ← UInt64.ofNat_add, ← UInt64.ofNat_add,
    ← Nat.add_assoc, hshares]

theorem Booked.move (h : Booked config w fates) (items : List Item)
    (hworker : Worker.Same w.ingest.worker w'.ingest.worker)
    (hcollected : w'.collected = w.collected) (haccepted : w'.accepted = w.accepted ++ items)
    (hitems : w'.ingest.inFlight = w.ingest.inFlight ++ items) : Booked config w' fates where
  settings := hworker.config.trans h.settings
  accepted := by rw [haccepted, hitems, h.accepted, List.append_assoc]
  processed := hworker.processed.trans h.processed
  discarded := hworker.discarded.trans h.discarded
  letters := by rw [hcollected, hworker.deadLetters, h.letters]
  allowed := h.allowed

theorem Booked.quiet (h : Booked config w fates) (hs : Quiet w.ingest w'.ingest)
    (hcollected : w'.collected = w.collected) (haccepted : w'.accepted = w.accepted) :
    Booked config w' fates :=
  h.move [] hs.worker hcollected (by simp [haccepted]) (by simp [hs.inFlight])

theorem Booked.collect (h : Booked config w fates) : Booked config (w.act .collect) fates where
  settings := h.settings
  accepted := h.accepted
  processed := h.processed
  discarded := h.discarded
  letters := (List.append_nil _).trans h.letters
  allowed := h.allowed

theorem Booked.turn (h : Booked config w fates) (hparked : parkedOf fates = [])
    (hcount : Counted more w.ingest s)
    (hitems : w.ingest.inFlight = more.map Prod.fst ++ s.inFlight) (departure : Option Departure) :
    Booked config { w with ingest := s, departure := departure } (fates ++ more) where
  settings := hcount.config.trans h.settings
  accepted := by
    rw [List.map_append, List.append_assoc, ← hitems]
    exact h.accepted
  processed := by
    rw [processedOf_append, List.length_append, UInt64.ofNat_add, ← h.processed]
    exact hcount.processed
  discarded := by
    rw [droppedOf_append, List.length_append, UInt64.ofNat_add, ← h.discarded]
    exact hcount.discarded
  letters := by
    have hletters := h.letters
    rw [hparked, List.append_nil] at hletters
    change w.collected ++ s.worker.deadLetters.toList = _
    rw [hcount.letters, ← List.append_assoc, hletters, buriedOf_append, parkedOf_append, hparked]
    simp only [List.nil_append, List.append_assoc]
  allowed := List.forall_mem_append.mpr ⟨h.allowed, h.settings ▸ hcount.allowed⟩

/-- What holds at all times of a shift. -/
structure Orderly (config : WorkerConfig) (w : Shift) : Prop where
  booked : ∃ fates, Booked config w fates ∧ (w.departure = none → parkedOf fates = [])
  started : w.ingest.worker.phase ≠ .unstarted
  working : w.departure = none → w.ingest.worker.phase ≠ .ended ∧ w.late = [] ∧ w.returned = false
  gone : ∀ d, w.departure = some d → w.ingest.worker.phase = .ended ∧
    w.ingest.queue.items.toList = d.queued ++ w.late
  /-- once it has left because the queue was flushed -/
  overtaken : ∀ d, w.departure = some d → d.gaveUp = false → d.queued = [] ∧
    w.ingest.queue.flushed = true ∧ (w.late ++ w.entering).Subperm d.entering

theorem orderly_opened (q : Queue) (entering : List Item) (config : WorkerConfig)
    (session : Session) : Orderly config (opened q entering config session) := by
  have hsame := Worker.same_say .info "Consumer thread started"
    { Worker.create config with
      state := .running, running := true, joinable := true, phase := .waiting }
  have hphase : (opened q entering config session).ingest.worker.phase = .waiting :=
    Worker.phase_say ..
  have hbooked : Booked config (opened q entering config session) [] := by
    refine ⟨hsame.config, ?_, hsame.processed, hsame.discarded, ?_, by simp⟩
    · exact (inFlight_waiting hphase).symm
    · exact congrArg Array.toList hsame.deadLetters
  constructor
  case booked => exact ⟨[], hbooked, fun _ => rfl⟩
  case started =>
    rw [hphase]
    decide
  case working =>
    intro _
    rw [hphase]
    exact ⟨by decide, rfl, rfl⟩
  case gone =>
    intro d hd
    cases hd
  case overtaken =>
    intro d hd
    cases hd

theorem Orderly.quiet (h : Orderly config w) (hs : Quiet w.ingest s) (asked : Bool)
    {returned : Bool} (hreturned : returned = true → w.departure ≠ none) :
    Orderly config { w with ingest := s, asked := asked, returned := returned } where
  booked := by
    obtain ⟨fates, hbooked, hparked⟩ := h.booked
    exact ⟨fates, hbooked.quiet hs rfl rfl, hparked⟩
  started := hs.phase ▸ h.started
  working hd := by
    obtain ⟨hphase, hlate, -⟩ := h.working hd
    refine ⟨hs.phase ▸ hphase, hlate, ?_⟩
    exact Bool.eq_false_iff.mpr fun hr => hreturned hr hd
  gone d hd := by
    obtain ⟨hphase, hitems⟩ := h.gone d hd
    exact ⟨hs.phase.trans hphase, (congrArg Array.toList hs.items).trans hitems⟩
  overtaken d hd hgave := by
    obtain ⟨hqueued, hflushed, hlate⟩ := h.overtaken d hd hgave
    exact ⟨hqueued, hs.flushed hflushed, hlate⟩

theorem Orderly.returned (h : Orderly config w) (hr : w.returned = true) : w.departure ≠ none :=
  fun hd => nomatch hr.symm.trans (h.working hd).2.2

theorem Orderly.enter (h : Orderly config w) (i : Item) : Orderly config (w.act (.enter i)) := by
  unfold Shift.act
  cases hflushed : w.ingest.queue.flushed with
  | true => exact h
  | false =>
    refine ⟨?_, h.started, h.working, h.gone, fun d hd hgave => ?_⟩
    · obtain ⟨fates, hbooked, hparked⟩ := h.booked
      exact ⟨fates, hbooked.quiet ⟨⟨rfl, rfl, rfl, rfl⟩, rfl, rfl, id⟩ rfl rfl, hparked⟩
    -- a worker that left and did not give up had seen the flush
    · exact absurd (hflushed.symm.trans (h.overtaken d hd hgave).2.1) nofun

theorem act_letIn_cases (w : Shift) (producer : Nat) :
    w.act (.letIn producer) = w ∨ ∃ i, w.entering[producer]? = some i ∧
      (w.act (.letIn producer) = { w with
          entering := w.entering.eraseIdx producer
          ingest := w.ingest.withQueue (Queue.notify .full) } ∨
        w.act (.letIn producer) = { w with
          entering := w.entering.eraseIdx producer
          ingest := w.ingest.withQueue fun q => { q with items := q.items.push i }
          accepted := w.accepted ++ [i]
          late := if w.departure.isSome then w.late ++ [i] else w.late }) := by
  cases hi : w.entering[producer]? with
  | none => exact .inl (by simp only [act, hi])
  | some i =>
    refine .inr ⟨i, rfl, ?_⟩
    obtain hq | hq := Queue.letIn_cases i w.ingest.queue
    · exact .inl (by simp only [act, hi, hq]; rfl)
    · exact .inr (by simp only [act, hi, hq]; rfl)

theorem Orderly.letIn (h : Orderly config w) (producer : Nat) :
    Orderly config (w.act (.letIn producer)) := by
  obtain ⟨fates, hbooked, hparked⟩ := h.booked
  obtain hw | ⟨i, hi, hw | hw⟩ := act_letIn_cases w producer <;> rw [hw]
  · exact h
  · have hquiet : Quiet w.ingest (w.ingest.withQueue (Queue.notify .full)) :=
      ⟨⟨rfl, rfl, rfl, rfl⟩, rfl, Queue.items_notify .., (Queue.flushed_notify ..).trans⟩
    have hsame := h.quiet hquiet w.asked h.returned
    refine ⟨⟨fates, hbooked.quiet hquiet rfl rfl, hparked⟩, hsame.started, hsame.working,
      hsame.gone, fun d hd hgave => ?_⟩
    obtain ⟨hqueued, hflushed, hlate⟩ := hsame.overtaken d hd hgave
    refine ⟨hqueued, hflushed, List.Subperm.trans ?_ hlate⟩
    exact ((List.eraseIdx_sublist ..).append_left _).subperm
  · refine ⟨⟨fates, hbooked.move [i] ⟨rfl, rfl, rfl, rfl⟩ rfl rfl ?_, hparked⟩,
      h.started, fun (hd : w.departure = none) => ?_, fun d (hd : w.departure = some d) => ?_,
      fun d (hd : w.departure = some d) hgave => ?_⟩
    · change w.ingest.held ++ (w.ingest.queue.items.push i).toList = _
      rw [Array.toList_push, inFlight, List.append_assoc]
    · obtain ⟨hphase, hlate, hreturned⟩ := h.working hd
      exact ⟨hphase, by simp [hd, hlate], hreturned⟩
    · obtain ⟨hphase, hitems⟩ := h.gone d hd
      refine ⟨hphase, ?_⟩
      change (w.ingest.queue.items.push i).toList = _
      simp [hd, hitems]
    · obtain ⟨hqueued, hflushed, hlate⟩ := h.overtaken d hd hgave
      refine ⟨hqueued, hflushed, List.Subperm.trans (List.Perm.subperm ?_) hlate⟩
      obtain ⟨hn, rfl⟩ := List.getElem?_eq_some_iff.mp hi
      -- the item only changes sides
      simp only [hd, Option.isSome_some, if_true, List.append_assoc]
      exact (List.getElem_cons_eraseIdx_perm hn).append_left _

theorem Orderly.goesOn (h : Orderly config w) (hd : w.departure = none)
    (hbooked : ∃ fates, Booked config { w with ingest := s } fates ∧ parkedOf fates = [])
    (hstarted : s.worker.phase ≠ .unstarted) (hphase : s.worker.phase ≠ .ended) :
    Orderly config { w with ingest := s } where
  booked := by
    obtain ⟨fates, hbooked, hparked⟩ := hbooked
    exact ⟨fates, hbooked, fun _ => hparked⟩
  started := hstarted
  working _ := ⟨hphase, (h.working hd).2⟩
  gone d hd' := nomatch hd.symm.trans hd'
  overtaken d hd' := nomatch hd.symm.trans hd'

theorem Orderly.leaves (h : Orderly config w) (hd : w.departure = none)
    (hbooked : ∃ fates, Booked config { w with ingest := s } fates)
    (hended : s.worker.phase = .ended) {gaveUp : Bool}
    (hgave : gaveUp = false → s.queue.items = #[] ∧ s.queue.flushed = true) :
    Orderly config { w with
      ingest := s, departure := some ⟨gaveUp, s.queue.items.toList, w.entering⟩ } where
  booked := by
    obtain ⟨fates, hbooked⟩ := hbooked
    exact ⟨fates, hbooked.quiet ⟨⟨rfl, rfl, rfl, rfl⟩, rfl, rfl, id⟩ rfl rfl, nofun⟩
  started := hended ▸ nofun
  working := nofun
  gone d hd' := by
    obtain rfl := Option.some.inj hd'
    refine ⟨hended, ?_⟩
    rw [(h.working hd).2.1, List.append_nil]
  overtaken d hd' hfalse := by
    obtain rfl := Option.some.inj hd'
    obtain ⟨hempty, hflushed⟩ := hgave hfalse
    refine ⟨congrArg Array.toList hempty, hflushed, ?_⟩
    rw [(h.working hd).2.1]
    exact .refl _

theorem Orderly.turn (h : Orderly config w) (t : Tree) (around : Nat → Surroundings) (busy : Bool) :
    Orderly config (w.act (.turn t around busy)) := by
  have hturn := turned_step t around busy w.ingest
  have hstarted := hturn.started h.started
  simp only [act]
  generalize w.ingest.step t around busy = s at hturn hstarted
  cases hd : w.departure with
  | some d =>
    obtain ⟨hphase, -⟩ := h.gone d hd
    obtain rfl := hturn.eq_of_ended hphase
    rw [if_pos hphase, Option.getD_some, ← hd]
    exact h
  | none =>
    obtain ⟨hphase, hlate, hreturned⟩ := h.working hd
    obtain ⟨fates, hbooked, hparked⟩ := h.booked
    have hparked := hparked hd
    rw [Option.getD_none, ← hd]
    -- nothing is parked but by the turn with which the worker leaves, so outcomes go on in order
    cases hturn with
    | idle =>
      rw [if_neg hphase]
      exact h
    | took waiting queued =>
      rw [if_neg nofun]
      refine h.goesOn hd ⟨fates, ?_, hparked⟩ nofun nofun
      refine hbooked.move [] ⟨rfl, rfl, rfl, rfl⟩ rfl (List.append_nil _).symm ?_
      rw [inFlight_waiting waiting, List.append_nil]
      exact List.append_nil _
    | left waiting flushed empty same ended queue session =>
      rw [if_pos ended]
      refine h.leaves hd ⟨fates, ?_⟩ ended fun _ => queue ▸ ⟨empty, flushed⟩
      refine hbooked.move [] same rfl (List.append_nil _).symm ?_
      rw [inFlight_waiting waiting, inFlight_ended ended, queue, List.append_nil]
    | @wrote s b more holding items counted parked waiting queue flushed =>
      rw [if_neg (waiting ▸ nofun)]
      refine h.goesOn hd ⟨fates ++ more, ?_, ?_⟩ hstarted (waiting ▸ nofun)
      · refine hbooked.turn hparked counted ?_ _
        rw [inFlight_holding holding, inFlight_waiting waiting, queue, items]
      · rw [parkedOf_append, hparked, parked, List.append_nil]
    | @gaveUp s b more holding items counted ended queue flushed =>
      rw [if_pos ended]
      refine h.leaves hd ⟨fates ++ more, ?_⟩ ended fun hfalse => ?_
      · refine hbooked.turn hparked counted ?_ _
        rw [inFlight_holding holding, inFlight_ended ended, queue, items]
      · simp [holding] at hfalse

theorem Orderly.act (h : Orderly config w) (e : Event) : Orderly config (w.act e) := by
  cases e with
  | enter i => exact h.enter i
  | letIn producer => exact h.letIn producer
  | turn t around busy => exact h.turn t around busy
  | flush =>
    have hs : Quiet w.ingest (w.ingest.withQueue Queue.flush) :=
      ⟨⟨rfl, rfl, rfl, rfl⟩, rfl, rfl, fun _ => rfl⟩
    exact h.quiet hs w.asked h.returned
  | elsewhere session =>
    have hs : Quiet w.ingest { w.ingest with session := session } :=
      ⟨⟨rfl, rfl, rfl, rfl⟩, rfl, rfl, id⟩
    exact h.quiet hs w.asked h.returned
  | requestStop => exact h.quiet (quiet_requestStop _) true h.returned
  | confirmStop =>
    simp only [Shift.act]
    split
    · rename_i hended
      exact h.quiet (quiet_confirmStop _) w.asked fun _ hd => (h.working hd).1 hended.2
    · exact h
  | collect =>
    obtain ⟨fates, hbooked, hparked⟩ := h.booked
    exact ⟨⟨fates, hbooked.collect, hparked⟩, h.started, h.working, h.gone, h.overtaken⟩

theorem Orderly.run (h : Orderly config w) (events : List Event) :
    Orderly config (w.run events) := by
  induction events generalizing w with
  | nil => exact h
  | cons e rest ih => exact ih (h.act e)

theorem run_undisturbedStop (hs : w.ingest.worker.phase ≠ .unstarted) (t : Tree)
    (around : Nat → Surroundings) :
    (w.run (undisturbedStop t around)).returned = true ∧
      (w.run (undisturbedStop t around)).ingest = w.ingest.stop t around := by
  have hquiet := quiet_requestStop w.ingest
  have hended : (w.ingest.requestStop.catchUp t around false).worker.phase = .ended :=
    ended_catchUp t around (hquiet.phase ▸ hs) rfl
  let turned := (w.act .requestStop).run (List.replicate 4 (.turn t around false))
  have hrun : w.run (undisturbedStop t around) =
      { turned with ingest := turned.ingest.confirmStop, returned := true } :=
    if_pos ⟨rfl, hended⟩
  rw [hrun]
  exact ⟨rfl, rfl⟩

/-- Whatever happens in whatever order, a call that stops the worker comes back once the worker gets
its turns. From then on every accepted item has one outcome that the strategy allows, and is
counted, or stays in the queue; what stays is what the worker left there and what came later. A
worker that did not give up left nothing, and nothing comes later but what producers were about to
put in when it left. -/
theorem stop_accounts_for_accepted (q : Queue) (entering : List Item) (config : WorkerConfig)
    (session : Session) (events : List Event) :
    let w := (opened q entering config session).run events
    (∀ t around, (w.run (undisturbedStop t around)).returned = true ∧
      (w.run (undisturbedStop t around)).ingest = w.ingest.stop t around) ∧
    (w.returned = true → ∃ d, w.departure = some d ∧
      w.ingest.queue.items.toList = d.queued ++ w.late ∧
      (∃ fates, Booked config w fates ∧
        w.accepted = fates.map Prod.fst ++ (d.queued ++ w.late)) ∧
      w.settled + .ofNat (d.queued ++ w.late).length = .ofNat w.accepted.length ∧
      (w.settled = .ofNat w.accepted.length ∧ w.ingest.queue.items = #[] ↔
        d.queued = [] ∧ w.late = []) ∧
      (d.gaveUp = false → d.queued = [] ∧ w.late.Subperm d.entering)) := by
  intro w
  have h : Orderly config w := (orderly_opened q entering config session).run events
  refine ⟨run_undisturbedStop h.started, fun hreturned => ?_⟩
  obtain ⟨d, hd⟩ := Option.ne_none_iff_exists'.mp (h.returned hreturned)
  obtain ⟨hended, hitems⟩ := h.gone d hd
  obtain ⟨fates, hbooked, -⟩ := h.booked
  have haccepted := hbooked.accepted
  rw [inFlight_ended hended, hitems] at haccepted
  have hlength : w.settled + .ofNat (d.queued ++ w.late).length = .ofNat w.accepted.length := by
    rw [hbooked.settled, haccepted, @List.length_append _ (fates.map _), List.length_map,
      UInt64.ofNat_add]
  refine ⟨d, hd, hitems, ⟨fates, hbooked, haccepted⟩, hlength, ?_, fun hgave => ?_⟩
  · rw [← List.append_eq_nil_iff, ← hitems, Array.toList_eq_nil_iff, and_iff_right_iff_imp]
    intro hempty
    rw [← hlength, ← hitems, hempty]
    exact (UInt64.add_zero _).symm
  · obtain ⟨hqueued, -, hlate⟩ := h.overtaken d hd hgave
    exact ⟨hqueued, (List.sublist_append_left ..).subperm.trans hlate⟩

def oneQueued : Queue := { (bench .retry fullyFurnished).queue with items := #[⟨[2], [5]⟩] }

/-- The item is written, and so is one that comes while it is. A third producer finds the queue open
just before the owner asks for the end, and puts its item in when the worker has left. -/
def overtakenProducer : List Event :=
  [.turn twiceIndexed atEase false, .enter ⟨[3], [6]⟩, .letIn 0, .turn twiceIndexed atEase false,
    .enter ⟨[4], [7]⟩, .requestStop, .enter ⟨[5], [8]⟩, .turn twiceIndexed atEase false,
    .turn twiceIndexed atEase false, .turn twiceIndexed atEase false, .letIn 0, .confirmStop]

theorem stop_accounts_for_accepted_overtakenProducer :
    let w := (opened oneQueued [] {} (bench .retry fullyFurnished).session).run overtakenProducer
    w.returned = true ∧ w.ingest.worker.processed = 2 ∧ w.settled + 1 = .ofNat w.accepted.length ∧
      ∃ d, w.departure = some d ∧ d.gaveUp = false ∧
        w.ingest.queue.items.toList = d.queued ++ w.late ∧ w.late.Subperm [⟨[4], [7]⟩] := by
  intro w
  have hreturned : w.returned = true := by decide +kernel
  have hprocessed : w.ingest.worker.processed = 2 := by decide +kernel
  have hlate : w.late = [⟨[4], [7]⟩] := by decide +kernel
  have hdeparture : w.departure = some ⟨false, [], [⟨[4], [7]⟩]⟩ := by decide +kernel
  obtain ⟨-, hstop⟩ := stop_accounts_for_accepted oneQueued [] {}
    (bench .retry fullyFurnished).session overtakenProducer
  obtain ⟨d, hd, hitems, -, hsettled, -, hleft⟩ := hstop hreturned
  obtain rfl := Option.some.inj (hdeparture.symm.trans hd)
  refine ⟨hreturned, hprocessed, ?_, _, hd, rfl, hitems, (hleft rfl).2⟩
  rw [← hsettled]
  exact congrArg (w.settled + .ofNat ·) (congrArg List.length hlate).symm

def cramped : Session :=
  ⟨{ (bench .retry fullyFurnished).session.database with mapSize := 1 }, 0⟩

/-- The commit of the first item is refused while a second is queued, a third is accepted although
the worker has given up, and the owner stops the worker. Only the first is a dead letter; the others
stay in the queue. -/
theorem giving_up_strands_queued_items :
    ¬ ∀ (q : Queue) (config : WorkerConfig) (session : Session) (events : List Event),
      let w := (opened q [] config session).run events
      w.returned = true → w.settled = .ofNat w.accepted.length ∧ w.ingest.queue.items = #[] := by
  intro h
  have hleft := h oneQueued {} cramped
    ([.turn twiceIndexed atEase false, .enter ⟨[3], [6]⟩, .letIn 0,
      .turn twiceIndexed atEase false, .enter ⟨[4], [7]⟩, .letIn 0] ++
        undisturbedStop twiceIndexed atEase) (by decide +kernel)
  revert hleft
  decide +kernel

end Shift
end IndexedStore
