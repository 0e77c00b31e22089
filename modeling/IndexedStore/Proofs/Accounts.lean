import IndexedStore.Proofs.Retrying
import IndexedStore.Proofs.Rounds

/-! # The worker's accounts add up

A worker's course is told as the list of its deeds: items it tried to write, with the answers it
got, and items it parked when a transaction was refused. Between any two items its accounts can be
read off that list. An item that fails at all fails each time it is tried, so every error belongs to
an item that was dropped or became a dead letter with as many attempts; and the streak of errors is
the run of failures at the end. The attempts of a dead letter are counted in a shorter word than the
errors are. They fit it for all settings but the largest, where they wrap to zero.
-/
namespace IndexedStore

/-- The accounts of a worker's errors. -/
structure Accounts where
  config : WorkerConfig
  errors : UInt64
  consecutive : UInt64
  discarded : UInt64
  letters : List DeadLetter

namespace Accounts

/-- The accounts after an item was written at the first try. -/
def written (a : Accounts) : Accounts := { a with consecutive := 0 }

/-- The accounts after an item failed at every try. -/
def failed (i : Item) (e : Failure) (a : Accounts) : Accounts :=
  let tries := a.config.repetitions + 1
  { a with
    errors := a.errors + .ofNat tries
    consecutive := a.consecutive + .ofNat tries
    discarded := if a.config.strategy = .logContinue then a.discarded + 1 else a.discarded
    letters := a.letters ++
      if a.config.strategy = .logContinue then [] else [⟨i, .ofNat tries, e⟩] }

end Accounts

namespace Worker

def accounts (w : Worker) : Accounts :=
  ⟨w.config, w.errors, w.consecutive, w.discarded, w.deadLetters.toList⟩

end Worker

namespace Ingest

/-- The sum of the attempts of dead letters. -/
def attemptsOf : List DeadLetter → UInt64
  | [] => 0
  | l :: rest => l.attempts.toUInt64 + attemptsOf rest

/-- The errors of which something is left: a dropped item stands for one, a dead letter for its
attempts. -/
def booked (taken : List DeadLetter) (a : Accounts) : UInt64 :=
  a.discarded + attemptsOf (taken ++ a.letters)

/-- How many answers are refusals. -/
def refusals (answers : List (Except Failure Unit)) : Nat := answers.countP fun a => !a.isOk

/-- How many answers at the end are refusals. -/
def streak (answers : List (Except Failure Unit)) : Nat :=
  (answers.reverse.takeWhile fun a => !a.isOk).length

/-- What a worker did with items. -/
inductive Deed
  /-- it tried to write one and got these answers -/
  | tried (i : Item) (answers : List (Except Failure Unit))
  /-- it parked those that did not reach a commit -/
  | parked (items : List Item) (e : Failure)

namespace Deed

def answers : Deed → List (Except Failure Unit)
  | tried _ answers => answers
  | parked _ _ => []

/-- The item that was tried. -/
def item? : Deed → Option Item
  | tried i _ => some i
  | parked _ _ => none

/-- The dead letters that come of a deed: a tried item is one if its last answer was a refusal,
unless such items are dropped, and its attempts are the answers it got. -/
def letters (config : WorkerConfig) : Deed → List DeadLetter
  | tried i answers =>
    match answers.getLast? with
    | some (.error e) =>
      if config.strategy = .logContinue then [] else [⟨i, .ofNat answers.length, e⟩]
    | _ => []
  | parked items e => items.map (DeadLetter.mk · 0 e)

end Deed

/-- Where a worker stands between two items: with no transaction open, or inside one. -/
inductive Stage
  | shut (s : Ingest)
  | inside (b : Batch)

def Stage.ingest : Stage → Ingest
  | shut s => s
  | inside b => b.ingest

/-- The same stage after other things than items and transactions have changed. -/
def Stage.replace (s : Ingest) : Stage → Stage
  | shut _ => shut s
  | inside b => inside { b with ingest := s }

/-- What a worker comes to from `s₀`, with its deeds and the dead letters that were taken from it on
the way: transactions begin, items get their turns, transactions commit or are refused, whatever
becomes of the queue and the database in between, and whenever dead letters are taken. -/
inductive Course (t : Tree) (s₀ : Ingest) : List Deed → List DeadLetter → Stage → Prop
  | start : Course t s₀ [] [] (.shut s₀)
  | elsewhere {deeds : List Deed} {taken : List DeadLetter} {x : Stage} {s : Ingest}
    (c : Course t s₀ deeds taken x) (same : s.worker.accounts = x.ingest.worker.accounts) :
    Course t s₀ deeds taken (x.replace s)
  | taken {deeds : List Deed} {taken : List DeadLetter} {x : Stage}
    (c : Course t s₀ deeds taken x) :
    Course t s₀ deeds (taken ++ x.ingest.worker.takeDeadLetters.1)
      (x.replace (x.ingest.withWorker fun w => w.takeDeadLetters.2))
  | begun {deeds : List Deed} {taken : List DeadLetter} {s : Ingest} {around : Surroundings}
    {b : Batch} (c : Course t s₀ deeds taken (.shut s)) (begun : beginBatch around s = .ok b) :
    Course t s₀ deeds taken (.inside b)
  | attempted {deeds : List Deed} {taken : List DeadLetter} {b : Batch}
    (c : Course t s₀ deeds taken (.inside b)) (i : Item) :
    Course t s₀ (deeds ++ [.tried i (b.answers t i b.ingest.worker.config.repetitions)]) taken
      (.inside (b.attempt t i))
  | committed {deeds : List Deed} {taken : List DeadLetter} {b : Batch} {around : Surroundings}
    {s : Ingest} (c : Course t s₀ deeds taken (.inside b))
    (committed : commitBatch around b = (.ok (), s)) :
    Course t s₀ deeds taken (.shut (s.finishBatch b.written.toList around.latency))
  | unbegun {deeds : List Deed} {taken : List DeadLetter} {s : Ingest} {around : Surroundings}
    {e : Failure} (c : Course t s₀ deeds taken (.shut s))
    (refused : beginBatch around s = .error e) (message : String) (left : List Item) :
    Course t s₀ (deeds ++ [.parked left e]) taken
      (.shut ((s.say .error message).withWorker (·.park left e)))
  | uncommitted {deeds : List Deed} {taken : List DeadLetter} {b : Batch} {around : Surroundings}
    {e : Failure} {s : Ingest} (c : Course t s₀ deeds taken (.inside b))
    (refused : commitBatch around b = (.error e, s)) (message : String) (rest : List Item) :
    Course t s₀ (deeds ++ [.parked (b.written.toList ++ rest) e]) taken
      (.shut ((s.say .error message).withWorker (·.park (b.written.toList ++ rest) e)))

variable {t : Tree} {s s' s₀ : Ingest} {b : Batch} {i : Item} {config : WorkerConfig}

/-! ## One item -/

/-- The accounts are those of a list of deeds, if so many dead letters were taken on the way. -/
structure Balanced (config : WorkerConfig) (deeds : List Deed) (taken : List DeadLetter)
    (a : Accounts) : Prop where
  settings : a.config = config
  /-- an item is written at the first try or fails at each for the same reason -/
  steady : ∀ i answers, .tried i answers ∈ deeds → answers = [.ok ()] ∨
    ∃ e, answers = List.replicate (config.repetitions + 1) (.error e)
  letters : taken ++ a.letters = deeds.flatMap (Deed.letters config)
  errors : a.errors = .ofNat (refusals (deeds.flatMap Deed.answers))
  shared : a.errors.toUInt32 = (booked taken a).toUInt32
  exact : config.repetitions + 1 < UInt32.size → a.errors = booked taken a
  consecutive : a.consecutive = .ofNat (streak (deeds.flatMap Deed.answers))

theorem attemptsOf_append (l m : List DeadLetter) :
    attemptsOf (l ++ m) = attemptsOf l + attemptsOf m := by
  induction l with
  | nil => exact (UInt64.zero_add _).symm
  | cons a rest ih => rw [List.cons_append, attemptsOf, attemptsOf, ih, UInt64.add_assoc]

theorem attemptsOf_parked (items : List Item) (e : Failure) :
    attemptsOf (items.map (DeadLetter.mk · 0 e)) = 0 := by
  induction items with
  | nil => rfl
  | cons i rest ih =>
    rw [List.map_cons, attemptsOf, ih]
    rfl

theorem booked_collected (taken : List DeadLetter) (a : Accounts) :
    booked (taken ++ a.letters) { a with letters := [] } = booked taken a := by
  rw [booked, List.append_nil]
  rfl

theorem booked_parked (taken : List DeadLetter) (a : Accounts) (items : List Item) (e : Failure) :
    booked taken { a with letters := a.letters ++ items.map (DeadLetter.mk · 0 e) } =
      booked taken a := by
  rw [booked, ← List.append_assoc, attemptsOf_append, attemptsOf_parked, UInt64.add_zero]
  rfl

theorem booked_failed (taken : List DeadLetter) (a : Accounts) (i : Item) (e : Failure) :
    booked taken (a.failed i e) =
      booked taken a + (UInt32.ofNat (a.config.repetitions + 1)).toUInt64 := by
  simp only [booked, Accounts.failed]
  rw [← List.append_assoc, attemptsOf_append, ← UInt64.add_assoc]
  split
  · rename_i hs
    -- what is dropped has been tried once
    have hone : a.config.repetitions = 0 := by
      rw [WorkerConfig.repetitions, hs]
      rfl
    rw [hone, attemptsOf, UInt64.add_zero, UInt64.add_assoc, UInt64.add_comm 1,
      ← UInt64.add_assoc]
    rfl
  · rw [attemptsOf, attemptsOf, UInt64.add_zero]

theorem refusals_written (answers : List (Except Failure Unit)) :
    refusals (answers ++ [.ok ()]) = refusals answers := List.countP_append

theorem refusals_failed (answers : List (Except Failure Unit)) (n : Nat) (e : Failure) :
    refusals (answers ++ List.replicate n (.error e)) = refusals answers + n := by
  rw [refusals, List.countP_append, List.countP_replicate]
  rfl

theorem streak_written (answers : List (Except Failure Unit)) :
    streak (answers ++ [.ok ()]) = 0 := by
  rw [streak, List.reverse_append]
  rfl

theorem streak_failed (answers : List (Except Failure Unit)) (n : Nat) (e : Failure) :
    streak (answers ++ List.replicate n (.error e)) = streak answers + n := by
  rw [streak, List.reverse_append, List.reverse_replicate, List.takeWhile_append_of_pos,
    List.length_append, List.length_replicate, Nat.add_comm, streak]
  intro a ha
  rw [List.eq_of_mem_replicate ha]
  rfl

namespace Balanced
variable {deeds : List Deed} {taken : List DeadLetter} {a : Accounts}

/-- Taking dead letters does not unmake them. -/
theorem collected (h : Balanced config deeds taken a) :
    Balanced config deeds (taken ++ a.letters) { a with letters := [] } where
  settings := h.settings
  steady := h.steady
  letters := (List.append_nil _).trans h.letters
  errors := h.errors
  shared := h.shared.trans (congrArg _ (booked_collected taken a).symm)
  exact hfits := (h.exact hfits).trans (booked_collected taken a).symm
  consecutive := h.consecutive

theorem parked (h : Balanced config deeds taken a) (items : List Item) (e : Failure) :
    Balanced config (deeds ++ [.parked items e]) taken
      { a with letters := a.letters ++ items.map (DeadLetter.mk · 0 e) } where
  settings := h.settings
  steady i answers hmem := by
    obtain hmem | hmem := List.mem_append.mp hmem
    · exact h.steady i answers hmem
    · cases List.mem_singleton.mp hmem
  letters := by
    rw [← List.append_assoc, h.letters, List.flatMap_append, List.flatMap_singleton]
    rfl
  errors := by
    rw [List.flatMap_append, List.flatMap_singleton, Deed.answers, List.append_nil]
    exact h.errors
  shared := h.shared.trans (congrArg _ (booked_parked taken a items e).symm)
  exact hfits := (h.exact hfits).trans (booked_parked taken a items e).symm
  consecutive := by
    rw [List.flatMap_append, List.flatMap_singleton, Deed.answers, List.append_nil]
    exact h.consecutive

theorem written (h : Balanced config deeds taken a) (i : Item) :
    Balanced config (deeds ++ [.tried i [.ok ()]]) taken a.written where
  settings := h.settings
  steady j answers hmem := by
    obtain hmem | hmem := List.mem_append.mp hmem
    · exact h.steady j answers hmem
    · cases List.mem_singleton.mp hmem
      exact .inl rfl
  letters := by
    rw [List.flatMap_append, ← h.letters]
    exact (List.append_nil _).symm
  errors := by
    rw [List.flatMap_append, List.flatMap_singleton, Deed.answers, refusals_written]
    exact h.errors
  shared := h.shared
  exact := h.exact
  consecutive := by
    rw [List.flatMap_append, List.flatMap_singleton, Deed.answers, streak_written]
    rfl

theorem failed (h : Balanced config deeds taken a) (i : Item) (e : Failure) :
    Balanced config
      (deeds ++ [.tried i (List.replicate (config.repetitions + 1) (.error e))]) taken
      (a.failed i e) := by
  obtain rfl := h.settings
  have hletters : Deed.letters a.config
      (.tried i (List.replicate (a.config.repetitions + 1) (.error e))) =
        if a.config.strategy = .logContinue then []
        else [⟨i, .ofNat (a.config.repetitions + 1), e⟩] := by
    rw [Deed.letters, List.getLast?_replicate, if_neg (Nat.succ_ne_zero _), List.length_replicate]
  refine ⟨rfl, fun j answers hmem => ?_, ?_, ?_, ?_, fun hfits => ?_, ?_⟩
  · obtain hmem | hmem := List.mem_append.mp hmem
    · exact h.steady j answers hmem
    · cases List.mem_singleton.mp hmem
      exact .inr ⟨e, rfl⟩
  · rw [List.flatMap_append, List.flatMap_singleton, hletters, ← h.letters, List.append_assoc]
    rfl
  · rw [List.flatMap_append, List.flatMap_singleton, Deed.answers, refusals_failed,
      UInt64.ofNat_add, ← h.errors]
    rfl
  · rw [booked_failed, UInt64.toUInt32_add, ← h.shared, UInt32.toUInt32_toUInt64,
      ← UInt64.toUInt32_ofNat', ← UInt64.toUInt32_add]
    rfl
  · rw [booked_failed, ← h.exact hfits, UInt32.toUInt64_ofNat' hfits]
    rfl
  · rw [List.flatMap_append, List.flatMap_singleton, Deed.answers, streak_failed,
      UInt64.ofNat_add, ← h.consecutive]
    rfl

end Balanced

theorem writes_attempt (t : Tree) (hb : b.Writes) (i : Item) : (b.attempt t i).Writes := by
  have h := writes_write t i b.ingest.worker.config.maxRetries.toNat hb
  unfold Batch.attempt
  split
  · rename_i hw
    rwa [hw] at h
  · rename_i hw
    rwa [hw] at h

namespace Course
variable {deeds : List Deed} {taken : List DeadLetter} {x : Stage}

theorem writes (c : Course t s₀ deeds taken x) (hx : x = .inside b) : b.Writes := by
  induction c generalizing b with
  | @elsewhere deeds taken x s c same ih | @taken deeds taken x c ih =>
    cases x with
    | shut s => cases hx
    | inside b =>
      have hb : b.Writes := ih rfl
      cases hx
      exact hb
  | begun c begun ih =>
    cases hx
    rw [beginBatch_ok begun]
    exact ⟨_, rfl⟩
  | attempted c i ih =>
    cases hx
    exact writes_attempt t (ih rfl) i
  | _ => cases hx

theorem attempts (c : Course t s₀ deeds taken (.inside b)) (items : List Item) :
    ∃ more, Course t s₀ (deeds ++ more) taken (.inside (items.foldl (Batch.attempt t) b)) ∧
      more.filterMap Deed.item? = items := by
  induction items generalizing deeds b with
  | nil => exact ⟨[], by rwa [List.append_nil], rfl⟩
  | cons i rest ih =>
    obtain ⟨more, hc, hitems⟩ := ih (c.attempted i)
    refine ⟨.tried i (b.answers t i b.ingest.worker.config.repetitions) :: more, ?_, ?_⟩
    · rwa [List.append_assoc] at hc
    · exact congrArg (i :: ·) hitems

theorem round {around : Surroundings} {done : List (Item × Outcome)}
    (c : Course t s₀ deeds taken (.shut s)) (h : Round t around done s s') :
    ∃ more, Course t s₀ (deeds ++ more) taken (.shut s') ∧
      more.filterMap Deed.item? = done.map Prod.fst := by
  obtain ⟨begun, attempted, progress, hand, unparked, committed⟩ := h
  obtain ⟨more, hc, hitems⟩ := (c.begun begun).attempts (done.map Prod.fst)
  rw [attempted] at hc
  exact ⟨more, hand ▸ hc.committed committed, hitems⟩

theorem rounds {around : Nat → Surroundings} {n : Nat} {items left : List Item}
    {rounds : List (List (Item × Outcome))} (c : Course t s₀ deeds taken (.shut s))
    (h : Rounds t around n items s rounds left s') :
    ∃ more, Course t s₀ (deeds ++ more) taken (.shut s') ∧
      more.filterMap Deed.item? = rounds.flatMap (·.map Prod.fst) := by
  induction h generalizing deeds with
  | none => exact ⟨[], by rwa [List.append_nil], rfl⟩
  | round cut now later ih =>
    obtain ⟨more, hc, hitems⟩ := c.round now
    obtain ⟨more', hc', hitems'⟩ := ih hc
    refine ⟨more ++ more', by rwa [← List.append_assoc], ?_⟩
    rw [List.filterMap_append, hitems, hitems', List.flatMap_cons]

theorem ending {around : Surroundings} {left : List Item} {r : Bool × Ingest}
    (c : Course t s₀ deeds taken (.shut s)) (h : Ending t around s left r)
    (lenient : s.worker.config.strategy ≠ .failFast) :
    ∃ more, Course t s₀ (deeds ++ more) taken (.shut r.2) ∧
      more.filterMap Deed.item? <+: left := by
  cases h with
  | complete => exact ⟨[], by rwa [List.append_nil], List.nil_prefix⟩
  | unbegun message refused =>
    exact ⟨_, c.unbegun refused message left, List.nil_prefix⟩
  | @uncommitted items rest b e s' message begun cut refused =>
    obtain ⟨more, hc, hitems⟩ := (c.begun begun).attempts items
    refine ⟨_, List.append_assoc .. ▸ hc.uncommitted refused message rest, ?_⟩
    rw [List.filterMap_append, hitems, List.filterMap_cons_none rfl, List.filterMap_nil,
      List.append_nil]
    exact List.prefix_append ..
  | stopped begun some few strict => exact absurd strict lenient

theorem writeBuffer (c : Course t s₀ deeds taken (.shut s))
    (lenient : s.worker.config.strategy ≠ .failFast) (around : Nat → Surroundings) (b : Buffer) :
    ∃ more, Course t s₀ (deeds ++ more) taken (.shut (s.writeBuffer t around b).2) ∧
      more.filterMap Deed.item? <+: b.rest := by
  obtain ⟨rounds, left, s', hrounds, hend⟩ := writeItems_rounds t around 0 b.rest s
  obtain ⟨more, hc, hitems⟩ := c.rounds hrounds
  obtain ⟨more', hc', hitems'⟩ := hc.ending hend (hrounds.config ▸ lenient)
  refine ⟨more ++ more', by rwa [← List.append_assoc], ?_⟩
  rw [List.filterMap_append, hitems, hrounds.items_eq]
  exact (List.prefix_append_right_inj _).mpr hitems'

end Course

end Ingest
end IndexedStore
