import IndexedStore.Proofs.Pipeline
import IndexedStore.Proofs.Standing
import IndexedStore.Proofs.Tries

/-! # Where a buffer is cut

A buffer is written in rounds. A round is a transaction that attempts items from the front of what
is left; failed ones count. It attempts at least one item and no more than the limit, whatever the
clock says, so a buffer has no more rounds than items. If the clock never says that a transaction is
due, a round ends only at the limit or at the end of the buffer. After each commit, and not earlier,
the items in hand are released, and then the owner is told that a batch is done.
-/
namespace IndexedStore

namespace Ingest
open Outcome
variable {t : Tree} {s s' : Ingest}

/-- How many items a transaction attempts, by its limit and its clock, and what it leaves. -/
structure Cut (config : WorkerConfig) (around : Surroundings) (size : Nat) (rest : List Item) :
    Prop where
  some : 0 < size
  few : 0 < config.maxBatch → size ≤ config.maxBatch
  full : (∀ m, config.intervalElapsed (around.openFor m) = false) → rest ≠ [] →
    size = config.maxBatch

/-- A round: a transaction attempts items, each with its outcome, and commits. -/
inductive Round (t : Tree) (around : Surroundings) (done : List (Item × Outcome)) (s : Ingest) :
    Ingest → Prop
  | mk {b b' : Batch} {s' : Ingest} (begun : beginBatch around s = .ok b)
    (attempted : (done.map Prod.fst).foldl (Batch.attempt t) b = b')
    (progress : Progress done s b'.ingest) (hand : b'.written.toList = processedOf done)
    (unparked : parkedOf done = []) (committed : commitBatch around b' = (.ok (), s')) :
    Round t around done s (s'.finishBatch (processedOf done) around.latency)

/-- Rounds of which the first is the `n`-th of its buffer, from the items that are left before to
those that are left after. -/
inductive Rounds (t : Tree) (around : Nat → Surroundings) :
    Nat → List Item → Ingest → List (List (Item × Outcome)) → List Item → Ingest → Prop
  | none {n : Nat} {items : List Item} {s : Ingest} : Rounds t around n items s [] items s
  | round {n : Nat} {done : List (Item × Outcome)} {rest left : List Item} {s s' s'' : Ingest}
    {rounds : List (List (Item × Outcome))}
    (cut : Cut s.worker.config (around n) done.length rest) (now : Round t (around n) done s s')
    (later : Rounds t around (n + 1) rest s' rounds left s'') :
    Rounds t around n (done.map Prod.fst ++ rest) s (done :: rounds) left s''

/-- How the writing of a buffer ends after its last round: nothing is left, or the next transaction
is refused or given up. -/
inductive Ending (t : Tree) (around : Surroundings) (s : Ingest) :
    List Item → Bool × Ingest → Prop
  | complete : Ending t around s [] (true, s)
  | unbegun {left : List Item} {e : Failure} (message : String)
    (refused : beginBatch around s = .error e) :
    Ending t around s left (false, (s.say .error message).withWorker (·.park left e))
  | uncommitted {items rest : List Item} {b : Batch} {e : Failure} {s' : Ingest}
    (message : String) (begun : beginBatch around s = .ok b)
    (cut : Cut s.worker.config around items.length rest)
    (refused : commitBatch around (items.foldl (Batch.attempt t) b) = (.error e, s')) :
    Ending t around s (items ++ rest) (false, (s'.say .error message).withWorker
      (·.park ((items.foldl (Batch.attempt t) b).written.toList ++ rest) e))
  | stopped {items rest : List Item} {b : Batch} {r : Ingest}
    (begun : beginBatch around s = .ok b)
    (some : 0 < items.length)
    (few : 0 < s.worker.config.maxBatch → items.length ≤ s.worker.config.maxBatch)
    (strict : s.worker.config.strategy = .failFast) :
    Ending t around s (items ++ rest) (false, r)

/-! ## One transaction -/

theorem takesMore_spec {config : WorkerConfig} {around : Surroundings} {attempted : Nat}
    (h : takesMore config around attempted = true) (hlimit : 0 < config.maxBatch)
    (hle : attempted ≤ config.maxBatch) : attempted + 1 ≤ config.maxBatch := by
  unfold takesMore at h
  by_cases hzero : attempted = 0
  · omega
  · have hlt : attempted < config.maxBatch := by
      by_contra hge
      have hne : config.maxBatch ≠ 0 := Nat.ne_of_gt hlimit
      simp [hzero, hge, hne] at h
    exact hlt

theorem not_takesMore_spec {config : WorkerConfig} {around : Surroundings} {attempted : Nat}
    (h : ¬ takesMore config around attempted = true)
    (hcalm : ∀ m, config.intervalElapsed (around.openFor m) = false) :
    0 < config.maxBatch ∧ config.maxBatch ≤ attempted := by
  unfold takesMore at h
  rw [hcalm] at h
  simp only [Bool.not_false, Bool.and_true, Bool.or_eq_true, beq_iff_eq, decide_eq_true_eq,
    not_or] at h
  omega

theorem fill_more {around : Surroundings} {attempted : Nat} {i : Item} {b : Batch}
    (hmore : takesMore b.ingest.worker.config around attempted = true) (rest : List Item) :
    (∃ f, fill t around attempted (i :: rest) b = ⟨some f, rest, b.attempt t i⟩) ∨
      fill t around attempted (i :: rest) b =
        fill t around (attempted + 1) rest (b.attempt t i) := by
  rw [fill, if_pos hmore, Batch.attempt]
  rcases b.write t i b.ingest.worker.config.maxRetries.toNat with ⟨_ | _ | f, b'⟩
  · exact .inr rfl
  · exact .inr rfl
  · exact .inl ⟨f, rfl⟩

/-- The items that a transaction takes get one turn each, in order. -/
theorem fill_cut (t : Tree) (around : Surroundings) {config : WorkerConfig} (attempted : Nat)
    (items : List Item) (b : Batch) (hb : b.ingest.worker.config = config) :
    let F := fill t around attempted items b
    ∃ l, items = l ++ F.rest ∧ F.batch = l.foldl (Batch.attempt t) b ∧
      (attempted = 0 → items ≠ [] → 0 < l.length) ∧
      (0 < config.maxBatch → attempted ≤ config.maxBatch →
        attempted + l.length ≤ config.maxBatch) ∧
      ((∀ m, config.intervalElapsed (around.openFor m) = false) → F.fatal = none → F.rest ≠ [] →
        0 < config.maxBatch ∧ config.maxBatch ≤ attempted + l.length) := by
  induction items generalizing attempted b with
  | nil =>
    exact ⟨[], rfl, rfl, fun _ h => absurd rfl h, fun _ h => h, fun _ _ h => absurd rfl h⟩
  | cons i rest ih =>
    by_cases hmore : takesMore b.ingest.worker.config around attempted = true
    · obtain ⟨f, hfatal⟩ | hon := fill_more (t := t) (i := i) hmore rest
      · rw [hfatal]
        exact ⟨[i], rfl, rfl, fun _ _ => Nat.one_pos, takesMore_spec (hb ▸ hmore),
          fun _ h => nomatch h⟩
      · obtain ⟨l, hitems, hbatch, -, hfew, hfull⟩ :=
          ih (attempted + 1) (b.attempt t i) ((config_attempt t b i).trans hb)
        rw [hon]
        refine ⟨i :: l, congrArg (i :: ·) hitems, hbatch, fun _ _ => Nat.succ_pos _,
          fun hlimit hle => ?_, fun hcalm hfatal hrest => ?_⟩
        · have hle' := hfew hlimit (takesMore_spec (hb ▸ hmore) hlimit hle)
          rw [List.length_cons]
          omega
        · have hge := hfull hcalm hfatal hrest
          rw [List.length_cons]
          omega
    · have hstop : fill t around attempted (i :: rest) b = ⟨none, i :: rest, b⟩ := by
        rw [fill, if_neg hmore]
      rw [hstop]
      refine ⟨[], rfl, rfl, fun hzero => ?_, fun _ h => h, fun hcalm _ _ =>
        not_takesMore_spec (hb ▸ hmore) hcalm⟩
      exact absurd (by simp [takesMore, hzero]) hmore

theorem ingest_of_begin {around : Surroundings} {b : Batch} (h : beginBatch around s = .ok b) :
    b.ingest = s ∧ b.written = #[] := by
  rw [beginBatch_ok h]
  exact ⟨rfl, rfl⟩

/-- What a transaction takes from a list that is not empty, as far as nothing makes it give up. -/
theorem cut_of_fill {around : Surroundings} {b : Batch} (hb : beginBatch around s = .ok b)
    (i : Item) (rest : List Item) :
    let F := fill t around 0 (i :: rest) b
    ∃ done, i :: rest = done.map Prod.fst ++ F.rest ∧
      (done.map Prod.fst).foldl (Batch.attempt t) b = F.batch ∧
      Progress done s F.batch.ingest ∧ F.batch.written.toList = processedOf done ∧
      parkedOf done = [] ∧ 0 < done.length ∧
      (0 < s.worker.config.maxBatch → done.length ≤ s.worker.config.maxBatch) ∧
      (F.fatal = none → Cut s.worker.config around done.length F.rest) := by
  intro F
  obtain ⟨hs, hnone⟩ := ingest_of_begin hb
  obtain ⟨done, hitems, hp, hwritten, hparked, -⟩ := fill_spec t around 0 (i :: rest) b
  obtain ⟨l, hitems', hbatch, hsome, hfew, hfull⟩ :=
    fill_cut t around 0 (i :: rest) b (congrArg (·.worker.config) hs)
  obtain rfl : done.map Prod.fst = l := List.append_cancel_right (hitems.symm.trans hitems')
  rw [hs] at hp
  rw [hnone] at hwritten
  rw [Nat.zero_add] at hfew
  rw [List.length_map] at hsome hfew hfull
  have hle := fun h => hfew h (Nat.zero_le _)
  refine ⟨done, hitems, hbatch.symm, hp, hwritten, hparked, hsome rfl nofun, hle, fun hgoes =>
    ⟨hsome rfl nofun, hle, fun hcalm hrest => ?_⟩⟩
  obtain ⟨hlimit, hge⟩ := hfull hcalm hgoes hrest
  exact Nat.le_antisymm (hle hlimit) (Nat.zero_add done.length ▸ hge)

/-! ## All of a buffer -/

/-- A buffer is written in rounds, and the writing ends in one of four ways. -/
theorem writeItems_rounds (t : Tree) (around : Nat → Surroundings) (n : Nat) (items : List Item)
    (s : Ingest) :
    ∃ rounds left s', Rounds t around n items s rounds left s' ∧
      Ending t (around (n + rounds.length)) s' left (writeItems t around n items s) := by
  fun_induction writeItems t around n items s with
  | case1 n s => exact ⟨[], [], s, .none, .complete⟩
  | case2 n s i rest e hb => exact ⟨[], i :: rest, s, .none, .unbegun _ hb⟩
  | case3 n s i rest b hb filled written e hfatal s₁ =>
    obtain ⟨done, hitems, -, -, -, -, hsome, hfew, -⟩ := cut_of_fill (t := t) hb i rest
    rw [← List.length_map Prod.fst] at hsome hfew
    have hstrict := strategy_of_fatal_fill hfatal
    rw [(ingest_of_begin hb).1] at hstrict
    refine ⟨[], i :: rest, s, .none, ?_⟩
    rw [hitems]
    exact .stopped hb hsome hfew hstrict
  | case4 n s i rest b hb filled written hfatal e s₁ hc =>
    obtain ⟨done, hitems, hbatch, -, -, -, -, -, hcut⟩ := cut_of_fill (t := t) hb i rest
    have hcut' := hcut hfatal
    rw [← List.length_map Prod.fst] at hcut'
    refine ⟨[], i :: rest, s, .none, ?_⟩
    rw [hitems]
    have hend := Ending.uncommitted s!"Failed to commit transaction: {e.record.display}" hb hcut'
      (hbatch ▸ hc)
    rw [hbatch] at hend
    exact hend
  | case5 n s i rest b hb filled written hfatal s₁ hc ih =>
    obtain ⟨done, hitems, hbatch, hp, hhand, hparked, -, -, hcut⟩ := cut_of_fill (t := t) hb i rest
    have hround : Round t (around n) done s (s₁.finishBatch written (around n).latency) := by
      rw [show written = processedOf done from hhand]
      exact .mk hb hbatch hp hhand hparked hc
    obtain ⟨rounds, left, s', hrounds, hend⟩ := ih
    refine ⟨done :: rounds, left, s', ?_, ?_⟩
    · rw [hitems]
      exact .round (hcut hfatal) hround hrounds
    · rwa [List.length_cons, Nat.add_comm rounds.length, ← Nat.add_assoc]

/-! ## What is written in an open transaction -/

theorem standing_upsert {i : Item} {b b' : Batch} {r : Except Failure Unit}
    (h : b.upsert t i = (r, b')) : b'.scope.standing = b.scope.standing := by
  obtain ⟨-, rfl⟩ := Prod.mk.inj h
  have hstep := CursorCall.standing_step t (.request (.entry (.upsert i.key i.value))) ⟨none, none⟩
    b.scope
  exact hstep.symm

theorem standing_write (t : Tree) (i : Item) (left : Nat) (b : Batch) :
    (b.write t i left).2.scope.standing = b.scope.standing := by
  fun_induction Batch.write t i left b with
  | case3 b e b' hu config _ left attempt _ ih =>
    have hsame := standing_upsert hu
    exact ih.trans hsame
  | case1 left b b' hu | case2 left b e b' hu | case4 b e b' hu | case5 left b e b' hu
  | case6 left b e b' hu =>
    have hsame := standing_upsert hu
    exact hsame

/-- Only the end of its transaction counts a commit or an abort. -/
theorem standing_attempt (t : Tree) (b : Batch) (i : Item) :
    (b.attempt t i).scope.standing = b.scope.standing := by
  rw [← standing_write t i b.ingest.worker.config.maxRetries.toNat b, Batch.attempt]
  split
  · rename_i hw
    rw [hw]
  · rename_i hw
    rw [hw]
    rfl

theorem standing_foldl_attempt (items : List Item) (b : Batch) :
    (items.foldl (Batch.attempt t) b).scope.standing = b.scope.standing := by
  induction items generalizing b with
  | nil => rfl
  | cons i rest ih => rw [List.foldl_cons, ih, standing_attempt]

theorem txn_attempt (t : Tree) (b : Batch) (i : Item) : (b.attempt t i).txn =
    (b.write t i b.ingest.worker.config.maxRetries.toNat).2.txn := by
  rw [Batch.attempt]
  split
  · rename_i hw
    rw [hw]
  · rename_i hw
    rw [hw]

/-- An item whose turn is over has been upserted, or set aside, as the plain writer does it. -/
theorem tally_attempt {b : Batch} {database : String} {S : Store} (hS : t.Openable S)
    (hb : b.txn = ⟨database, .working S⟩) (i : Item) (n : Nat) (refused : List Item) :
    ∃ S' n' refused', (b.attempt t i).txn = ⟨database, .working S'⟩ ∧ t.Retains S S' ∧
      Tally.upsert t database ⟨t.furnish S, n, refused⟩ i = ⟨t.furnish S', n', refused'⟩ := by
  obtain ⟨S', htxn, hkeep, hfate⟩ :=
    replay_write t i b.ingest.worker.config.maxRetries.toNat b database S hS hb
  rw [← txn_attempt] at htxn
  refine ⟨S', ?_⟩
  split at hfate
  · exact ⟨n + 1, refused, htxn, hkeep, by simp only [Tally.upsert, hfate]⟩
  · obtain ⟨⟨e, hfail⟩, hsame⟩ := hfate
    exact ⟨n, refused ++ [i], htxn, hkeep, by simp only [Tally.upsert, hfail, hsame]⟩

theorem tally_foldl_attempt {b : Batch} {database : String} {S : Store} (hS : t.Openable S)
    (hb : b.txn = ⟨database, .working S⟩) (items : List Item) (n : Nat) (refused : List Item) :
    ∃ S', (items.foldl (Batch.attempt t) b).txn = ⟨database, .working S'⟩ ∧ t.Retains S S' ∧
      (items.foldl (Tally.upsert t database) ⟨t.furnish S, n, refused⟩).store = t.furnish S' := by
  induction items generalizing b S n refused with
  | nil => exact ⟨S, hb, .refl t S, rfl⟩
  | cons i rest ih =>
    obtain ⟨S₁, n', refused', htxn, hkeep, hnow⟩ := tally_attempt hS hb i n refused
    obtain ⟨S', htxn', hkeep', hlater⟩ := ih (hkeep.openable hS) htxn n' refused'
    rw [List.foldl_cons, List.foldl_cons, hnow]
    exact ⟨S', htxn', hkeep.trans hkeep', hlater⟩

/-! ## What the rounds come to -/

theorem batches_conclude (i : Item) (tries : UInt32) (last : Except Failure Unit) (w : Worker) :
    (w.conclude i tries last).batches = w.batches := by
  unfold Worker.conclude
  cases last with
  | ok _ => rfl
  | error e => cases hs : w.config.strategy <;> rfl

theorem batches_foldl_hear (answers : List (Except Failure Unit)) (w : Worker) :
    (answers.foldl Worker.hear w).batches = w.batches := by
  induction answers generalizing w with
  | nil => rfl
  | cons a rest ih =>
    rw [List.foldl_cons, ih]
    cases a <;> rfl

/-- Only a commit counts a batch. -/
theorem batches_attempt (t : Tree) (b : Batch) (i : Item) :
    (b.attempt t i).ingest.worker.batches = b.ingest.worker.batches := by
  obtain ⟨last, -, hbooks⟩ := books_attempt t b i
  have h := congrArg Worker.batches hbooks
  rwa [batches_conclude, batches_foldl_hear] at h

theorem batches_foldl_attempt (items : List Item) (b : Batch) :
    (items.foldl (Batch.attempt t) b).ingest.worker.batches = b.ingest.worker.batches := by
  induction items generalizing b with
  | nil => rfl
  | cons i rest ih => rw [List.foldl_cons, ih, batches_attempt]

theorem batches_fill (t : Tree) (around : Surroundings) (attempted : Nat) (items : List Item)
    (b : Batch) : (fill t around attempted items b).batch.ingest.worker.batches =
      b.ingest.worker.batches := by
  obtain ⟨l, -, hbatch, -⟩ := fill_cut t around attempted items b rfl
  rw [hbatch, batches_foldl_attempt]

theorem batches_say (level : LogLevel) (message : String) (w : Worker) :
    (w.say level message).batches = w.batches :=
  (congrArg Worker.batches (Worker.books_say level message w) :)

theorem batches_park (items : List Item) (e : Failure) (w : Worker) :
    (w.park items e).batches = w.batches := by
  rw [Worker.park, foldl_bury]
  split
  · rfl
  · exact batches_say ..

/-- What the owner of the queue is told in a round: the items that are dropped are released at once,
those in hand after the commit, and then the batch is done. -/
def told (hooks : Hooks) (done : List (Item × Outcome)) : List Notice :=
  (droppedOf done ++ processedOf done).flatMap (Item.farewell hooks) ++
    [.batchFlushed].filter hooks.installed

namespace Round
variable {around : Surroundings} {done : List (Item × Outcome)}

theorem accounted (h : Round t around done s s') : Accounted done s s' := by
  obtain ⟨begun, attempted, progress, hand, unparked, committed⟩ := h
  obtain ⟨hw, hq, hpath, -⟩ := commitBatch_ok committed
  exact progress.finish unparked hq hw hpath around.latency

theorem batches (h : Round t around done s s') : s'.worker.batches = s.worker.batches + 1 := by
  obtain ⟨begun, attempted, progress, hand, unparked, committed⟩ := h
  rw [← (ingest_of_begin begun).1, ← batches_foldl_attempt (t := t), attempted,
    ← (commitBatch_ok committed).1]
  exact congrArg Worker.batches (Worker.books_say ..)

theorem queue (h : Round t around done s s') : s'.queue =
    { s.queue with notices := s.queue.notices ++ (told s.queue.hooks done).toArray } := by
  obtain ⟨begun, attempted, progress, hand, unparked, committed⟩ := h
  obtain ⟨-, hq, -, -⟩ := commitBatch_ok committed
  change (Queue.releaseAll _ _).notify _ = _
  rw [hq, progress.queue, ← Queue.releaseAll_append, Queue.notify_eq, Queue.releaseAll_eq, told]
  simp only [List.append_toArray, Array.append_assoc]

/-- A round is one commit and no abort. -/
theorem counts (h : Round t around done s s') :
    s'.session.database.statistics.commits = s.session.database.statistics.commits + 1 ∧
      s'.session.database.statistics.aborts = s.session.database.statistics.aborts := by
  obtain ⟨begun, attempted, progress, hand, unparked, committed⟩ := h
  obtain rfl := beginBatch_ok begun
  have hstanding := standing_foldl_attempt (t := t) (done.map Prod.fst)
    ⟨s, ⟨s.session.database.path, .working s.session.database.store⟩, #[]⟩
  rw [attempted] at hstanding
  obtain ⟨hwrites, hbefore⟩ := Prod.mk.inj hstanding
  obtain ⟨hcommits, haborts⟩ := Prod.mk.inj hbefore
  obtain ⟨hcommits', haborts'⟩ := counts_of_commitBatch_ok hwrites committed
  exact ⟨hcommits'.trans (congrArg (· + 1) hcommits), haborts'.trans haborts⟩

/-- The store that a round leaves committed. -/
theorem stored (h : Round t around done s s') (hS : t.Openable s.session.database.store)
    (n : Nat) (refused : List Item) :
    t.Retains s.session.database.store s'.session.database.store ∧
      ((done.map Prod.fst).foldl (Tally.upsert t s.session.database.path)
        ⟨t.furnish s.session.database.store, n, refused⟩).store =
          t.furnish s'.session.database.store := by
  obtain ⟨begun, attempted, progress, hand, unparked, committed⟩ := h
  obtain rfl := beginBatch_ok begun
  obtain ⟨S', htxn, hkeep, hnow⟩ := tally_foldl_attempt (b := ⟨s, ⟨s.session.database.path,
    .working s.session.database.store⟩, #[]⟩) hS rfl (done.map Prod.fst) n refused
  rw [attempted] at htxn
  obtain rfl := (commitBatch_ok committed).2.2.2 S' (congrArg Txn.view htxn)
  exact ⟨hkeep, hnow⟩

end Round

namespace Rounds
variable {around : Nat → Surroundings} {n : Nat} {items left : List Item}
  {rounds : List (List (Item × Outcome))}

theorem items_eq (h : Rounds t around n items s rounds left s') :
    items = rounds.flatMap (·.map Prod.fst) ++ left := by
  induction h with
  | none => rfl
  | round cut now later ih => rw [List.flatMap_cons, List.append_assoc, ← ih]

theorem config (h : Rounds t around n items s rounds left s') :
    s'.worker.config = s.worker.config := by
  induction h with
  | none => rfl
  | round cut now later ih => rw [ih, now.accounted.config]

theorem batches (h : Rounds t around n items s rounds left s') :
    s'.worker.batches = s.worker.batches + .ofNat rounds.length := by
  induction h with
  | none => exact (UInt64.add_zero _).symm
  | round cut now later ih =>
    rw [ih, now.batches, List.length_cons, add_ofNat_succ]

theorem path (h : Rounds t around n items s rounds left s') :
    s'.session.database.path = s.session.database.path := by
  induction h with
  | none => rfl
  | round cut now later ih => rw [ih, now.accounted.path]

theorem counts (h : Rounds t around n items s rounds left s') :
    s'.session.database.statistics.commits =
        s.session.database.statistics.commits + .ofNat rounds.length ∧
      s'.session.database.statistics.aborts = s.session.database.statistics.aborts := by
  induction h with
  | none => exact ⟨(UInt64.add_zero _).symm, rfl⟩
  | round cut now later ih =>
    obtain ⟨hcommits, haborts⟩ := now.counts
    refine ⟨?_, ih.2.trans haborts⟩
    rw [ih.1, hcommits, List.length_cons, add_ofNat_succ]

theorem stored (h : Rounds t around n items s rounds left s')
    (hS : t.Openable s.session.database.store) (m : Nat) (refused : List Item) :
    t.Retains s.session.database.store s'.session.database.store ∧
      ((rounds.flatMap (·.map Prod.fst)).foldl (Tally.upsert t s.session.database.path)
        ⟨t.furnish s.session.database.store, m, refused⟩).store =
          t.furnish s'.session.database.store := by
  induction h generalizing m refused with
  | none => exact ⟨.refl t _, rfl⟩
  | @round n done rest left s s₁ s' rounds cut now later ih =>
    obtain ⟨hkeep, hnow⟩ := now.stored hS m refused
    obtain ⟨hkeep', hlater⟩ := ih (hkeep.openable hS) _ _
    rw [List.flatMap_cons, List.foldl_append]
    refine ⟨hkeep.trans hkeep', Eq.trans ?_ hlater⟩
    rw [now.accounted.path, ← hnow]

/-- The first rounds end where the others begin. -/
theorem split {first later : List (List (Item × Outcome))}
    (h : Rounds t around n items s (first ++ later) left s') :
    ∃ rest s₁, Rounds t around n items s first rest s₁ ∧
      Rounds t around (n + first.length) rest s₁ later left s' := by
  induction first generalizing n items s with
  | nil => exact ⟨items, s, .none, h⟩
  | cons done first ih =>
    cases h with
    | round cut now more =>
      obtain ⟨rest, s₁, hfirst, hlater⟩ := ih more
      refine ⟨rest, s₁, .round cut now hfirst, ?_⟩
      rwa [List.length_cons, Nat.add_comm first.length, ← Nat.add_assoc]

theorem queue (h : Rounds t around n items s rounds left s') : s'.queue =
    { s.queue with
      notices := s.queue.notices ++ (rounds.flatMap (told s.queue.hooks)).toArray } := by
  induction h with
  | none => simp
  | round cut now later ih =>
    rw [ih, now.queue]
    simp only [List.flatMap_cons, ← List.append_toArray, Array.append_assoc]

theorem sizes (h : Rounds t around n items s rounds left s') : ∀ done ∈ rounds,
    0 < done.length ∧ (0 < s.worker.config.maxBatch → done.length ≤ s.worker.config.maxBatch) := by
  induction h with
  | none => nofun
  | round cut now later ih =>
    refine List.forall_mem_cons.mpr ⟨⟨cut.some, cut.few⟩, ?_⟩
    rwa [now.accounted.config] at ih

/-- Every round takes at least one item off. -/
theorem length_le (h : Rounds t around n items s rounds left s') :
    rounds.length ≤ items.length := by
  induction h with
  | none => exact Nat.zero_le _
  | round cut now later ih =>
    have hsome := cut.some
    rw [List.length_cons, List.length_append, List.length_map]
    omega

theorem eq_nil (h : Rounds t around n [] s rounds left s') : rounds = [] :=
  List.eq_nil_of_length_eq_zero (Nat.le_zero.mp h.length_le)

/-- A round leaves something only if it has reached the limit. -/
theorem cuts_at_limit (h : Rounds t around n items s rounds left s') (hleft : left = [])
    {limit : Nat} (hconfig : s.worker.config.maxBatch = limit) (hlimit : 0 < limit)
    (calm : ∀ k m, s.worker.config.intervalElapsed ((around k).openFor m) = false) :
    rounds.map (·.map Prod.fst) =
      (List.range ((items.length + limit - 1) / limit)).map fun k =>
        (items.drop (k * limit)).take limit := by
  induction h with
  | none =>
    rw [hleft, List.length_nil, Nat.zero_add, Nat.div_eq_of_lt (by omega)]
    rfl
  | @round n done rest left s s' s'' rounds cut now later ih =>
    subst hconfig
    have hsome := cut.some
    have hfew := cut.few hlimit
    by_cases hrest : rest = []
    · subst hrest
      have hone : (done.length + s.worker.config.maxBatch - 1) / s.worker.config.maxBatch = 1 :=
        Nat.div_eq_of_lt_le (by omega) (by omega)
      rw [later.eq_nil, List.append_nil, List.length_map, hone, List.range_one, List.map_singleton,
        List.map_singleton, Nat.zero_mul, List.drop_zero,
        List.take_of_length_le (by rwa [List.length_map])]
    · have hconfig := now.accounted.config
      have hfull := cut.full (calm n) hrest
      have hmore : (done.length + rest.length + s.worker.config.maxBatch - 1) /
          s.worker.config.maxBatch =
            (rest.length + s.worker.config.maxBatch - 1) / s.worker.config.maxBatch + 1 := by
        rw [← Nat.add_div_right _ hlimit]
        congr 1
        omega
      rw [List.map_cons, ih hleft (congrArg WorkerConfig.maxBatch hconfig) (hconfig ▸ calm),
        List.length_append, List.length_map, hmore, List.range_succ_eq_map, List.map_cons,
        List.map_map, Nat.zero_mul, List.drop_zero,
        List.take_left' (by rw [List.length_map, hfull])]
      refine congrArg _ (List.map_congr_left fun k _ => ?_)
      rw [Function.comp_apply, Nat.succ_mul, Nat.add_comm, ← List.drop_drop,
        List.drop_left' (by rw [List.length_map, hfull])]

/-- Where the items are cut if the clock plays no part. -/
theorem cuts (h : Rounds t around n items s rounds [] s') (some : items ≠ [])
    (calm : ∀ k m, s.worker.config.intervalElapsed ((around k).openFor m) = false) :
    let limit := s.worker.config.maxBatch
    rounds.map (·.map Prod.fst) =
      if limit = 0 then [items]
      else (List.range ((items.length + limit - 1) / limit)).map fun k =>
        (items.drop (k * limit)).take limit := by
  intro limit
  split
  · rename_i hnone
    cases h with
    | none => exact absurd rfl some
    | @round _ done rest _ _ s₁ _ rounds cut now later =>
      have hrest : rest = [] := by
        by_contra hrest
        have hfull := cut.full (calm n) hrest
        have hsome := cut.some
        omega
      subst hrest
      rw [later.eq_nil, List.append_nil]
      rfl
  · rename_i hsome
    exact h.cuts_at_limit rfl rfl (Nat.pos_of_ne_zero hsome) calm

end Rounds

/-- What rounds have come to: each is one commit, and together they leave the store of a plain
writer of their items, give or take empty tables of attached indexes. -/
structure Committed (t : Tree) (rounds : List (List (Item × Outcome))) (s s' : Ingest) : Prop where
  commits : s'.session.database.statistics.commits =
    s.session.database.statistics.commits + .ofNat rounds.length
  aborts : s'.session.database.statistics.aborts = s.session.database.statistics.aborts
  batches : s'.worker.batches = s.worker.batches + .ofNat rounds.length
  store : t.Openable s.session.database.store →
    t.furnish s'.session.database.store = t.furnish (t.oneByOne s.session.database.path
      s.session.database.store (rounds.flatMap (·.map Prod.fst))).store
  exact : t.Furnished s.session.database.store →
    s'.session.database.store = (t.oneByOne s.session.database.path s.session.database.store
      (rounds.flatMap (·.map Prod.fst))).store

theorem Rounds.committed {around : Nat → Surroundings} {n : Nat} {items left : List Item}
    {rounds : List (List (Item × Outcome))} (h : Rounds t around n items s rounds left s') :
    Committed t rounds s s' := by
  have hstore : ∀ hS : t.Openable s.session.database.store,
      t.furnish s'.session.database.store = t.furnish (t.oneByOne s.session.database.path
        s.session.database.store (rounds.flatMap (·.map Prod.fst))).store := by
    intro hS
    have hfold := (h.stored hS 0 []).2
    rw [foldl_tally_furnish hS] at hfold
    exact hfold.symm
  refine ⟨h.counts.1, h.counts.2, h.batches, hstore, fun hS => ?_⟩
  have hkeep := (h.stored hS.openable 0 []).1
  rw [← (hkeep.furnished hS).furnish, hstore hS.openable]
  exact furnish_oneByOne hS _ _

/-- A buffer is written in rounds, each of at least one item and at most the limit, and then the
writing ends. Each round is one commit, and the store it leaves committed is that of a plain writer
who has come as far. Unless a transaction is refused or an item makes the worker give up, the
writing ends with the buffer; each round has counted one batch and told the owner so after releasing
what it wrote. If the clock plays no part, the rounds are the stretches of the buffer that are as
long as the limit, and what is left over at the end. -/
theorem buffer_written_in_rounds (t : Tree) (around : Nat → Surroundings) (b : Buffer)
    (s : Ingest) :
    let limit := s.worker.config.maxBatch
    let r := s.writeBuffer t around b
    ∃ rounds left s', Rounds t around 0 b.rest s rounds left s' ∧
      Ending t (around rounds.length) s' left r ∧
      (∀ done ∈ rounds, 0 < done.length ∧ (0 < limit → done.length ≤ limit)) ∧
      rounds.length ≤ b.remaining ∧
      (∀ first later, rounds = first ++ later → ∃ rest s₁,
        Rounds t around 0 b.rest s first rest s₁ ∧
        Rounds t around first.length rest s₁ later left s' ∧ Committed t first s s₁) ∧
      (Unrefused t around 0 b.rest s → s.worker.config.strategy ≠ .failFast →
        r = (true, s') ∧ left = [] ∧ rounds.flatMap (·.map Prod.fst) = b.rest ∧
        Committed t rounds s r.2 ∧
        r.2.worker.batches = s.worker.batches + .ofNat rounds.length ∧
        r.2.queue = { s.queue with
          notices := s.queue.notices ++ (rounds.flatMap (told s.queue.hooks)).toArray } ∧
        ((∀ k m, s.worker.config.intervalElapsed ((around k).openFor m) = false) →
          0 < b.remaining →
          rounds.length = (if limit = 0 then 1 else (b.remaining + limit - 1) / limit) ∧
          rounds.map (·.map Prod.fst) =
            if limit = 0 then [b.rest]
            else (List.range ((b.remaining + limit - 1) / limit)).map fun k =>
              (b.rest.drop (k * limit)).take limit)) := by
  intro limit r
  obtain ⟨rounds, left, s', hrounds, hend⟩ := writeItems_rounds t around 0 b.rest s
  rw [Nat.zero_add] at hend
  refine ⟨rounds, left, s', hrounds, hend, hrounds.sizes, hrounds.length_le, ?_,
    fun hcalm hs => ?_⟩
  · rintro first later rfl
    obtain ⟨rest, s₁, hfirst, hlater⟩ := hrounds.split
    rw [Nat.zero_add] at hlater
    exact ⟨rest, s₁, hfirst, hlater, hfirst.committed⟩
  have hgoes : r.1 = true := hcalm.goes_on hs
  have hr : r = (true, s') ∧ left = [] := by
    change Ending t (around rounds.length) s' left r at hend
    generalize r = r at hend hgoes
    cases hend with
    | complete => exact ⟨rfl, rfl⟩
    | _ => cases hgoes
  obtain ⟨hr, rfl⟩ := hr
  rw [hr]
  refine ⟨rfl, rfl, (hrounds.items_eq.trans (List.append_nil _)).symm, hrounds.committed,
    hrounds.batches, hrounds.queue, fun hnever hsome => ?_⟩
  have hcuts := hrounds.cuts (List.length_pos_iff.mp hsome) hnever
  refine ⟨?_, hcuts⟩
  have hlength := congrArg List.length hcuts
  rw [List.length_map] at hlength
  rw [hlength]
  split
  · rfl
  · rw [List.length_map, List.length_range]
    rfl

/-- A worker that writes at most two items in a transaction. -/
def paced : Ingest :=
  (bench .deadLetter fullyFurnished).withWorker fun w => { w with config.maxBatch := 2 }

/-- Of three items the first, whose value is taken, fails; it counts towards the limit. -/
theorem buffer_written_in_rounds_paced :
    let items : List Item := [⟨[2], [1]⟩, ⟨[3], [4]⟩, ⟨[5], [6]⟩]
    let r := paced.writeBuffer twiceIndexed atEase ⟨4, 3, items⟩
    r.2.worker.batches = 2 ∧ r.2.worker.processed = 2 ∧
      r.2.session.database.statistics.commits = 2 ∧
      r.2.session.database.store = (twiceIndexed.oneByOne "db" fullyFurnished items).store ∧
      ∃ rounds, Rounds twiceIndexed atEase 0 items paced rounds [] r.2 ∧
        rounds.map (·.map Prod.fst) = [[⟨[2], [1]⟩, ⟨[3], [4]⟩], [⟨[5], [6]⟩]] := by
  intro items r
  have hcalm : Unrefused twiceIndexed atEase 0 items paced :=
    unrefused_of_goes_on (by decide +kernel)
  obtain ⟨rounds, left, s', hrounds, -, -, -, -, hcomplete⟩ :=
    buffer_written_in_rounds twiceIndexed atEase ⟨4, 3, items⟩ paced
  obtain ⟨hr, rfl, hitems, hcommitted, hbatches, -, hcuts⟩ := hcomplete hcalm (by decide)
  obtain ⟨hlength, hcuts⟩ := hcuts (fun _ _ => rfl) (by decide)
  have htwo : rounds.length = 2 := hlength.trans (by decide +kernel)
  have hcommits := hcommitted.commits
  have hstore := hcommitted.exact (by decide)
  rw [htwo] at hbatches hcommits
  rw [hitems] at hstore
  have hs' : r.2 = s' := congrArg Prod.snd hr
  exact ⟨hbatches, by decide +kernel, hcommits, hstore, rounds, hs' ▸ hrounds,
    hcuts.trans (by decide +kernel)⟩

end Ingest
end IndexedStore
