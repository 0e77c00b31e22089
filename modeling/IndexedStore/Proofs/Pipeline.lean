import IndexedStore.Pipeline.Ingest
import IndexedStore.Proofs.Buffer

/-! # The pipeline writes items one by one

How the worker's swaps cut the accepted items into buffers, and how limits and clocks cut a buffer
into transactions, leaves no mark. Once nothing is queued or held, the committed store, the dead
letters and the counts are those of a plain writer that upserts the accepted items one after another
and sets aside those that fail. As for a single buffer, the store is exact if every attached index
has its table.
-/
namespace IndexedStore

/-- What a plain writer has come to. -/
structure Tally where
  store : Store
  processed : Nat
  /-- items whose upsert failed, in order -/
  refused : List Item

/-- Upserts one item, or sets it aside. -/
def Tally.upsert (t : Tree) (database : String) (T : Tally) (i : Item) : Tally :=
  match t.upserting database T.store i with
  | .ok S => { T with store := S, processed := T.processed + 1 }
  | .error _ => { T with refused := T.refused ++ [i] }

def Tree.oneByOne (t : Tree) (database : String) (S : Store) (items : List Item) : Tally :=
  items.foldl (Tally.upsert t database) ⟨S, 0, []⟩

namespace Outcome
variable {l : List (Item × Outcome)}

end Outcome

namespace Ingest
open Outcome
variable {t : Tree} {s s' s'' : Ingest} {l fates : List (Item × Outcome)}

/-- No transaction is refused while items are written. -/
inductive Unrefused (t : Tree) (around : Nat → Surroundings) : Nat → List Item → Ingest → Prop
  | nil {n : Nat} {s : Ingest} : Unrefused t around n [] s
  | round {n : Nat} {i : Item} {rest : List Item} {s s' : Ingest} {b : Batch}
    (begun : beginBatch (around n) s = .ok b)
    (committed : commitBatch (around n) (fill t (around n) 0 (i :: rest) b).batch = (.ok (), s'))
    (later : Unrefused t around (n + 1) (fill t (around n) 0 (i :: rest) b).rest
      (s'.finishBatch (fill t (around n) 0 (i :: rest) b).batch.written.toList
        (around n).latency)) :
    Unrefused t around n (i :: rest) s

theorem strategy_of_fatal_write {i : Item} {left : Nat} {b : Batch} {f : Failure}
    (h : (b.write t i left).1 = .fatal f) : b.ingest.worker.config.strategy = .failFast := by
  fun_induction Batch.write t i left b with
  | case2 left b e b' hu config attempt _ hs => exact (progress_upsert hu).1.config ▸ hs
  | case3 b e b' hu config _ left attempt _ ih =>
    have hfail := (progress_upsert hu).1.trans (progress_failedWrite e attempt b'.ingest)
    have hsay := progress_say .warn s!"Retrying after {config.pause attempt / 1000000}ms backoff"
      (b'.ingest.withWorker (failedWrite e attempt))
    exact (hfail.trans hsay).config ▸ ih h
  | _ => cases h

theorem strategy_of_fatal_fill {around : Surroundings} {attempted : Nat} {items : List Item}
    {b : Batch} {f : Failure} (h : (fill t around attempted items b).fatal = some f) :
    b.ingest.worker.config.strategy = .failFast := by
  fun_induction fill t around attempted items b with
  | case2 attempted i rest b hmore b' hw ih =>
    obtain ⟨o, -, hone, -⟩ := progress_write t i b.ingest.worker.config.maxRetries.toNat b
    rw [hw] at hone
    exact hone.config ▸ ih h
  | case3 attempted i rest b hmore b' hw ih =>
    obtain ⟨o, -, hone, -⟩ := progress_write t i b.ingest.worker.config.maxRetries.toNat b
    rw [hw] at hone
    exact hone.config ▸ ih h
  | case4 attempted i rest b hmore f b' hw => exact strategy_of_fatal_write (congrArg Prod.fst hw)
  | _ => cases h

/-- If the worker does not fail fast, only a refused transaction stops it. -/
theorem Unrefused.goes_on {around : Nat → Surroundings} {n : Nat} {items : List Item}
    (h : Unrefused t around n items s) (hs : s.worker.config.strategy ≠ .failFast) :
    (writeItems t around n items s).1 = true := by
  induction h with
  | nil => rw [writeItems]
  | @round n i rest s s' b begun committed later ih =>
    obtain ⟨done, -, hp, hwritten, hparked, -⟩ := fill_spec t (around n) 0 (i :: rest) b
    obtain rfl := beginBatch_ok begun
    obtain ⟨hw, hq, hpath, -⟩ := commitBatch_ok committed
    have hconfig := (hp.finish hparked hq hw hpath (around n).latency).config
    rw [writeItems]
    simp only [begun]
    split
    · rename_i e hfatal
      exact absurd (strategy_of_fatal_fill hfatal) hs
    · simp only [committed]
      refine ih ?_
      rw [hwritten]
      exact hconfig ▸ hs

theorem unrefused_of_goes_on {around : Nat → Surroundings} {n : Nat} {items : List Item}
    (h : (writeItems t around n items s).1 = true) : Unrefused t around n items s := by
  fun_induction writeItems t around n items s with
  | case1 n s => exact .nil
  | case5 n s i rest b hb filled written hfatal s₁ hc ih => exact .round hb hc (ih h)
  | _ => cases h

/-! ## Runs -/

def held (s : Ingest) : List Item :=
  match s.worker.phase with
  | .holding b => b.rest
  | _ => []

/-- Items that were accepted and have no outcome yet, in order. -/
def inFlight (s : Ingest) : List Item := s.held ++ s.queue.items.toList

/-- The outcomes so far: they make up what was accepted, together with what is in flight. -/
def Tracked (t : Tree) (s : Ingest) (accepted : List Item) (s' : Ingest) : Prop :=
  ∃ fates, accepted = fates.map Prod.fst ++ s'.inFlight ∧ Counted fates s s' ∧
    parkedOf fates = [] ∧ t.Retains s.session.database.store s'.session.database.store ∧
    Replayed t s.session.database.path (t.furnish s.session.database.store) fates
      (t.furnish s'.session.database.store)

variable {items : List Item}

theorem Tracked.move {accepted : List Item} (h : Tracked t s items s')
    (hw : Worker.Same s'.worker s''.worker) (hd : s''.session = s'.session)
    (hitems : s''.inFlight = s'.inFlight ++ accepted) :
    Tracked t s (items ++ accepted) s'' := by
  obtain ⟨fates, rfl, hcount, hparked, hkeep, hreplay⟩ := h
  refine ⟨fates, ?_, hcount.same hw (by rw [hd]), hparked, by rwa [hd], by rwa [hd]⟩
  rw [hitems, List.append_assoc]

theorem Tracked.stay (h : Tracked t s items s') (hw : Worker.Same s'.worker s''.worker)
    (hd : s''.session = s'.session) (hitems : s''.inFlight = s'.inFlight) :
    Tracked t s items s'' := by
  have hmove := h.move hw hd (hitems.trans (List.append_nil _).symm)
  rwa [List.append_nil] at hmove

theorem finish_spec (s : Ingest) : Worker.Same s.worker s.finish.worker ∧
    s.finish.worker.phase = .ended ∧ s.finish.queue = s.queue ∧ s.finish.session = s.session := by
  have h := Worker.same_say .info "Consumer thread stopped"
    { s.worker with
      running := false
      state := .stopped
      phase := .ended
      gauge := ⟨s.queue.depth, s.queue.capacity⟩ }
  exact ⟨⟨h.config, h.processed, h.discarded, h.deadLetters⟩, Worker.phase_say .., rfl, rfl⟩

theorem Tracked.finish (h : Tracked t s items s') (hheld : s'.held = []) :
    Tracked t s items s'.finish := by
  obtain ⟨hsame, hphase, hqueue, hsession⟩ := finish_spec s'
  refine h.stay hsame hsession ?_
  rw [inFlight, inFlight, held, hphase, hqueue, hheld]

theorem held_of_phase (h : s'.worker.phase = s.worker.phase) : s'.held = s.held := by
  rw [held, held, h]

theorem held_say (level : LogLevel) (message : String) (s : Ingest) :
    (s.say level message).held = s.held := held_of_phase (Worker.phase_say ..)

theorem requestStop_spec (s : Ingest) : Worker.Same s.worker s.requestStop.worker ∧
    s.requestStop.worker.phase = s.worker.phase ∧ s.requestStop.queue.items = s.queue.items ∧
    s.requestStop.session = s.session := by
  have h := Worker.same_say .info "Stopping consumer..." s.worker
  exact ⟨⟨h.config, h.processed, h.discarded, h.deadLetters⟩, Worker.phase_say .., rfl, rfl⟩

theorem Tracked.say (h : Tracked t s items s') (level : LogLevel) (message : String) :
    Tracked t s items (s'.say level message) := by
  refine h.stay (Worker.same_say ..) rfl ?_
  rw [inFlight, held_say]
  rfl

theorem Tracked.wake (h : Tracked t s items s') (hphase : s'.worker.phase = .waiting) :
    Tracked t s items s'.wake := by
  have hheld : s'.held = [] := by rw [held, hphase]
  unfold Ingest.wake Queue.awaited
  by_cases hdepth : 0 < s'.queue.depth
  · simp only [hdepth, if_true]
    refine h.stay ⟨rfl, rfl, rfl, rfl⟩ rfl ?_
    rw [inFlight, inFlight, hheld]
    exact List.append_nil _
  · simp only [hdepth, if_false]
    cases s'.queue.flushed with
    | false => exact h
    | true =>
      simp only [if_true]
      split
      · exact (h.say ..).finish ((held_say ..).trans hheld)
      · exact h.finish hheld

theorem Tracked.writeHeld {around : Nat → Surroundings} {b : Buffer} (h : Tracked t s items s')
    (hs : s.worker.config.strategy ≠ .failFast) (hS : t.Openable s.session.database.store)
    (hphase : s'.worker.phase = .holding b) (calm : Unrefused t around 0 b.rest s') :
    Tracked t s items (s'.writeHeld t around b) := by
  obtain ⟨fates, rfl, hcount, hparked, hkeep, hreplay⟩ := h
  obtain ⟨early, late, hitems, hacc, hearly, -, hend, hlater⟩ :=
    writeItems_settled t around 0 b.rest s'
  have hgoes := calm.goes_on (hcount.config ▸ hs)
  unfold Ingest.writeHeld writeBuffer
  cases hr : writeItems t around 0 b.rest s' with
  | mk goes s₁ =>
    rw [hr] at hgoes hacc hend hlater
    obtain rfl : goes = true := hgoes
    obtain rfl := hend rfl
    rw [List.append_nil] at hitems hacc
    obtain ⟨hkeep', hthen⟩ := hlater (hkeep.openable hS)
    have hcount' : Counted early s' (s₁.withWorker fun w => { w with phase := .waiting }) :=
      hacc.toCounted.same ⟨rfl, rfl, rfl, rfl⟩ rfl
    have hparked' : parkedOf (fates ++ early) = [] := by
      rw [parkedOf_append, hparked, hearly, List.append_nil]
    refine ⟨fates ++ early, ?_, hcount.trans hparked hcount', hparked', hkeep.trans hkeep',
      hreplay.append (hcount.path ▸ hthen)⟩
    obtain ⟨released, hreleased, -⟩ := hacc.released
    change _ = _ ++ ([] ++ s₁.queue.items.toList)
    rw [Queue.items_of_releases hreleased, inFlight, held, hphase, List.map_append, hitems,
      List.append_assoc, List.nil_append]

/-- Supplying index tables beforehand makes no difference to a plain writer but in the store. -/
theorem foldl_tally_furnish {S : Store} (hS : t.Openable S) (database : String)
    (items : List Item) (n : Nat) (refused : List Item) :
    items.foldl (Tally.upsert t database) ⟨t.furnish S, n, refused⟩ =
      let T := items.foldl (Tally.upsert t database) ⟨S, n, refused⟩
      { T with store := t.furnish T.store } := by
  induction items generalizing S n refused with
  | nil => rfl
  | cons i rest ih =>
    obtain ⟨hnow, hkeep⟩ := Tree.upserting_furnish hS database i
    simp only [List.foldl_cons, Tally.upsert, hnow]
    cases hu : t.upserting database S i with
    | error e => exact ih hS n (refused ++ [i])
    | ok S' => exact ih ((hkeep S' hu).openable hS) (n + 1) refused

/-- Where no index table is missing, none is supplied by a plain writer. -/
theorem furnish_oneByOne {S : Store} (hS : t.Furnished S) (database : String) (items : List Item) :
    t.furnish (t.oneByOne database S items).store = (t.oneByOne database S items).store := by
  have hown := foldl_tally_furnish hS.openable database items 0 []
  rw [hS.furnish] at hown
  exact (congrArg Tally.store hown).symm

end Ingest
end IndexedStore
