import IndexedStore.Proofs.Replay
import IndexedStore.Proofs.Transactions

/-! # What a buffer comes to

A buffer is written in rounds, one transaction each. A round takes items from the front and gives
each an outcome; if its transaction commits, the items in hand are processed, and if not, they are
parked together with all that is left. Put end to end, the rounds account for every item of the
buffer, and the committed store is the one that upserting the processed items leaves, give or take
empty tables of attached indexes.
-/
namespace IndexedStore.Ingest
open Outcome
variable {t : Tree} {s s' : Ingest}

/-- The items that a transaction takes from the front of a list each get an outcome, in order, and
the open transaction works on the store that upserting those in hand leaves. -/
theorem fill_spec (t : Tree) (around : Surroundings) (attempted : Nat) (items : List Item)
    (b : Batch) :
    ∃ done, items = done.map Prod.fst ++ (fill t around attempted items b).rest ∧
      Progress done b.ingest (fill t around attempted items b).batch.ingest ∧
      (fill t around attempted items b).batch.written.toList =
        b.written.toList ++ processedOf done ∧
      parkedOf done = [] ∧
      ∀ database S, t.Openable S → b.txn = ⟨database, .working S⟩ →
        (fill t around attempted items b).fatal = none →
        ∃ S', (fill t around attempted items b).batch.txn = ⟨database, .working S'⟩ ∧
          t.Retains S S' ∧ Replayed t database (t.furnish S) done (t.furnish S') := by
  fun_induction fill t around attempted items b with
  | case1 attempted b =>
    exact ⟨[], rfl, .refl _, (List.append_nil _).symm, rfl,
      fun _ S _ hb _ => ⟨S, hb, .refl t S, .nil⟩⟩
  | case2 attempted i rest b hmore b' hw ih =>
    obtain ⟨o, hfate, hone, hwritten⟩ :=
      progress_write t i b.ingest.worker.config.maxRetries.toNat b
    have hreplay := replay_write t i b.ingest.worker.config.maxRetries.toNat b
    rw [hw] at hfate hone hwritten hreplay
    obtain ⟨done, hitems, hlater, hdone, hparked, hstore⟩ := ih
    obtain rfl : o = .processed := by cases o <;> first | rfl | exact hfate.elim
    refine ⟨(i, .processed) :: done, congrArg (i :: ·) hitems, hone.trans hlater, ?_, hparked, ?_⟩
    · rw [hdone, Array.toList_push, hwritten, List.append_assoc]
      rfl
    · intro database S hS hb hnone
      obtain ⟨S₁, htxn, hkeep, hup⟩ := hreplay database S hS hb
      obtain ⟨S', htxn', hkeep', hlater⟩ := hstore database S₁ (hkeep.openable hS) htxn hnone
      exact ⟨S', htxn', hkeep.trans hkeep', .upserted hup hlater⟩
  | case3 attempted i rest b hmore b' hw ih =>
    obtain ⟨o, hfate, hone, hwritten⟩ :=
      progress_write t i b.ingest.worker.config.maxRetries.toNat b
    have hreplay := replay_write t i b.ingest.worker.config.maxRetries.toNat b
    rw [hw] at hfate hone hwritten hreplay
    obtain ⟨done, hitems, hlater, hdone, hparked, hstore⟩ := ih
    refine ⟨(i, o) :: done, congrArg (i :: ·) hitems, hone.trans hlater, ?_, ?_, ?_⟩
    · rw [hdone, hwritten]
      cases o <;> first | rfl | exact hfate.elim
    · cases o <;> first | exact hparked | exact hfate.elim
    · intro database S hS hb hnone
      obtain ⟨S₁, htxn, hkeep, ⟨e, hup⟩, hsame⟩ := hreplay database S hS hb
      obtain ⟨S', htxn', hkeep', hlater⟩ := hstore database S₁ (hkeep.openable hS) htxn hnone
      have hsettled : o ≠ .processed := by
        rintro rfl
        exact hfate
      exact ⟨S', htxn', hkeep.trans hkeep', .failed hup hsettled (hsame ▸ hlater)⟩
  | case4 attempted i rest b hmore f b' hw =>
    obtain ⟨o, hfate, hone, hwritten⟩ :=
      progress_write t i b.ingest.worker.config.maxRetries.toNat b
    rw [hw] at hfate hone hwritten
    obtain rfl : o = .processed := by cases o <;> first | rfl | exact hfate.elim
    refine ⟨[(i, .processed)], rfl, hone, ?_, rfl, nofun⟩
    rw [Array.toList_push, hwritten]
    rfl
  | case5 attempted i rest b hmore =>
    exact ⟨[], rfl, .refl _, (List.append_nil _).symm, rfl,
      fun _ S _ hb _ => ⟨S, hb, .refl t S, .nil⟩⟩

/-- Every outcome is counted: processed and dropped items by number, the others as dead letters, of
which those parked come last. -/
structure Counted (fates : List (Item × Outcome)) (s s' : Ingest) : Prop where
  config : s'.worker.config = s.worker.config
  processed : s'.worker.processed = s.worker.processed + .ofNat (processedOf fates).length
  discarded : s'.worker.discarded = s.worker.discarded + .ofNat (droppedOf fates).length
  letters : s'.worker.deadLetters.toList =
    s.worker.deadLetters.toList ++ (buriedOf fates ++ parkedOf fates)
  allowed : ∀ e ∈ fates, e.2.AllowedBy s.worker.config.strategy
  path : s'.session.database.path = s.session.database.path

/-- Every outcome is accounted for: beyond being counted, the items processed and dropped, and no
others, have been released, each once. -/
structure Accounted (fates : List (Item × Outcome)) (s s' : Ingest) : Prop extends
    Counted fates s s' where
  released : ∃ released, Queue.Releases released s.queue s'.queue ∧
    released.Perm (processedOf fates ++ droppedOf fates)

variable {l m fates : List (Item × Outcome)} {s'' : Ingest}

theorem Counted.refl (s : Ingest) : Counted [] s s :=
  ⟨rfl, (UInt64.add_zero _).symm, (UInt64.add_zero _).symm, (List.append_nil _).symm, by simp, rfl⟩

/-- What leaves the counts and the settings alone comes to the same. -/
theorem Counted.same (h : Counted fates s s') (hw : Worker.Same s'.worker s''.worker)
    (hpath : s''.session.database.path = s'.session.database.path) : Counted fates s s'' :=
  ⟨hw.config.trans h.config, hw.processed.trans h.processed, hw.discarded.trans h.discarded,
    by rw [hw.deadLetters, h.letters], h.allowed, hpath.trans h.path⟩

theorem Accounted.refl (s : Ingest) : Accounted [] s s := ⟨.refl s, [], .done, .nil⟩

theorem Counted.trans (h : Counted l s s') (hl : parkedOf l = []) (h' : Counted m s' s'') :
    Counted (l ++ m) s s'' where
  config := h'.config.trans h.config
  processed := by
    rw [h'.processed, h.processed, processedOf_append, List.length_append, UInt64.ofNat_add,
      UInt64.add_assoc]
  discarded := by
    rw [h'.discarded, h.discarded, droppedOf_append, List.length_append, UInt64.ofNat_add,
      UInt64.add_assoc]
  letters := by
    rw [h'.letters, h.letters, buriedOf_append, parkedOf_append, hl]
    simp only [List.append_nil, List.nil_append, List.append_assoc]
  allowed := List.forall_mem_append.mpr ⟨h.allowed, h.config ▸ h'.allowed⟩
  path := h'.path.trans h.path

theorem Accounted.trans (h : Accounted l s s') (hl : parkedOf l = []) (h' : Accounted m s' s'') :
    Accounted (l ++ m) s s'' := by
  obtain ⟨r, hr, hperm⟩ := h.released
  obtain ⟨r', hr', hperm'⟩ := h'.released
  refine ⟨h.toCounted.trans hl h'.toCounted, r ++ r', hr.append hr', (hperm.append hperm').trans ?_⟩
  rw [processedOf_append, droppedOf_append, List.append_assoc, List.append_assoc]
  exact .append_left _ (List.perm_append_comm_assoc ..)

/-! ## Giving a batch up -/

/-- What is in hand and what was not reached are parked together. -/
def allGivenUp (done : List (Item × Outcome)) (rest : List Item) (e : Failure) :
    List (Item × Outcome) :=
  done.map (fun f => (f.1, f.2.givenUp e)) ++ rest.map fun i => (i, .parked e)

section GivenUp
variable (done : List (Item × Outcome)) (rest : List Item) (e : Failure)

theorem map_fst_allGivenUp : (allGivenUp done rest e).map Prod.fst = done.map Prod.fst ++ rest := by
  simp [allGivenUp, Function.comp_def]

theorem processedOf_allGivenUp : processedOf (allGivenUp done rest e) = [] := by
  simp only [processedOf, allGivenUp, List.filterMap_eq_nil_iff, List.mem_append, List.mem_map]
  rintro _ (⟨⟨i, o⟩, -, rfl⟩ | ⟨i, -, rfl⟩)
  · cases o <;> rfl
  · rfl

/-- What is picked by outcomes other than being in hand or parked stays as it was. -/
theorem filterMap_allGivenUp {α : Type} {pick : Item × Outcome → Option α}
    (hand : ∀ i, pick (i, .processed) = none) (parked : ∀ i f, pick (i, .parked f) = none) :
    (allGivenUp done rest e).filterMap pick = done.filterMap pick := by
  rw [allGivenUp, List.filterMap_append, List.filterMap_map, List.filterMap_map]
  have hrest : rest.filterMap (pick ∘ fun i => (i, Outcome.parked e)) = [] :=
    List.filterMap_eq_nil_iff.mpr fun i _ => parked i e
  rw [hrest, List.append_nil]
  refine List.filterMap_congr fun f _ => ?_
  rcases f with ⟨i, o⟩
  cases o with
  | processed => exact (parked i e).trans (hand i).symm
  | _ => rfl

theorem droppedOf_allGivenUp : droppedOf (allGivenUp done rest e) = droppedOf done :=
  filterMap_allGivenUp done rest e (fun _ => rfl) fun _ _ => rfl

theorem buriedOf_allGivenUp : buriedOf (allGivenUp done rest e) = buriedOf done :=
  filterMap_allGivenUp done rest e (fun _ => rfl) fun _ _ => rfl

theorem parkedOf_allGivenUp (hdone : parkedOf done = []) :
    parkedOf (allGivenUp done rest e) = (processedOf done ++ rest).map (DeadLetter.mk · 0 e) := by
  induction done with
  | nil =>
    induction rest with
    | nil => rfl
    | cons i rest ih => exact congrArg (_ :: ·) ih
  | cons f done ih =>
    rcases f with ⟨i, o⟩
    cases o with
    | processed => exact congrArg (_ :: ·) (ih hdone)
    | parked f => cases hdone
    | _ => exact ih hdone

variable {done rest e} in
theorem allowed_allGivenUp {strategy : Strategy} (h : ∀ f ∈ done, f.2.AllowedBy strategy) :
    ∀ f ∈ allGivenUp done rest e, f.2.AllowedBy strategy := by
  simp only [allGivenUp, List.mem_append, List.mem_map]
  rintro _ (⟨⟨i, o⟩, hf, rfl⟩ | ⟨i, -, rfl⟩)
  · have hf := h _ hf
    cases o <;> trivial
  · trivial

end GivenUp

theorem foldl_bury (items : List Item) (e : Failure) (w : Worker) :
    items.foldl (fun w i => w.bury ⟨i, 0, e⟩) w =
      { w with deadLetters := w.deadLetters ++ items.map (DeadLetter.mk · 0 e) } := by
  induction items generalizing w with
  | nil => simp
  | cons i rest ih =>
    rw [List.foldl_cons, ih]
    simp [Worker.bury]

theorem same_park (items : List Item) (e : Failure) (w : Worker) :
    Worker.Same { w with deadLetters := w.deadLetters ++ items.map (DeadLetter.mk · 0 e) }
      (w.park items e) := by
  rw [Worker.park, foldl_bury]
  cases items with
  | nil => exact ⟨rfl, rfl, rfl, rfl⟩
  | cons i rest => exact Worker.same_say ..

theorem Progress.giveUp {done : List (Item × Outcome)} {rest : List Item} {e : Failure}
    {s₁ : Ingest} (h : Progress done s s₁) (hparked : parkedOf done = [])
    (hq : s'.queue = s₁.queue) (hw : s'.worker = s₁.worker.park (processedOf done ++ rest) e)
    (hpath : s'.session.database.path = s₁.session.database.path) :
    Accounted (allGivenUp done rest e) s s' := by
  have hsame := same_park (processedOf done ++ rest) e s₁.worker
  rw [← hw] at hsame
  refine ⟨⟨hsame.config.trans h.config, ?_, ?_, ?_, ?_, ?_⟩, droppedOf done, ?_, ?_⟩
  · rw [hsame.processed, h.processed, processedOf_allGivenUp]
    exact (UInt64.add_zero _).symm
  · rw [hsame.discarded, h.discarded, droppedOf_allGivenUp]
  · rw [hsame.deadLetters, buriedOf_allGivenUp, parkedOf_allGivenUp _ _ _ hparked]
    simp [h.letters]
  · exact allowed_allGivenUp h.allowed
  · rw [hpath, h.database]
  · rw [hq, h.queue]
    exact Queue.releases_releaseAll ..
  · rw [processedOf_allGivenUp, droppedOf_allGivenUp]
    exact .refl _

/-- Once the transaction has committed, the items in hand are released and counted. -/
theorem Progress.finish {done : List (Item × Outcome)} {s₁ : Ingest} (h : Progress done s s₁)
    (hparked : parkedOf done = []) (hq : s'.queue = s₁.queue) (hw : s'.worker = s₁.worker)
    (hpath : s'.session.database.path = s₁.session.database.path) (latency : Nat) :
    Accounted done s (s'.finishBatch (processedOf done) latency) := by
  have hsame := Worker.same_say .info
    s!"Batch processed: {UInt64.ofNat (processedOf done).length} items in {latency}ms"
    { s'.worker with
      processed := s'.worker.processed + .ofNat (processedOf done).length
      batches := s'.worker.batches + 1 }
  refine ⟨⟨?_, ?_, ?_, ?_, h.allowed, hpath.trans (by rw [h.database])⟩,
    droppedOf done ++ processedOf done, ?_, List.perm_append_comm⟩
  · exact hsame.config.trans (hw ▸ h.config)
  · exact hsame.processed.trans (by rw [hw, h.processed])
  · exact hsame.discarded.trans (by rw [hw, h.discarded])
  · rw [hparked, List.append_nil, ← h.letters, ← hw]
    exact congrArg Array.toList hsame.deadLetters
  · refine Queue.Releases.append (h.queue ▸ Queue.releases_releaseAll (droppedOf done) s.queue) ?_
    change Queue.Releases _ _ ((s'.queue.releaseAll (processedOf done)).notify .batchFlushed)
    rw [hq]
    have hdone := (Queue.releases_releaseAll (processedOf done) s₁.queue).append (.flushed .done)
    rwa [List.append_nil] at hdone

/-! ## Rounds -/

theorem beginBatch_ok {around : Surroundings} {b : Batch} (h : beginBatch around s = .ok b) :
    b = ⟨s, ⟨s.session.database.path, .working s.session.database.store⟩, #[]⟩ := by
  unfold beginBatch at h
  split at h
  · cases h
  · unfold Database.beginWrite at h
    split at h
    · cases h
    · rename_i hb
      split at hb
      · cases hb
      · cases hb
        cases h
        rfl

/-- A commit of the worker changes the counters and the store of the database at most. -/
theorem state_commitBatch (around : Surroundings) (b : Batch) :
    let s := (commitBatch around b).2
    s = b.ingest.withDatabase { b.ingest.session.database with
      statistics := s.session.database.statistics, store := s.session.database.store } := by
  have hstate := Database.state_commit around.allocated b.txn b.ingest.session.database
  simp only [Attempt.run] at hstate
  unfold commitBatch
  split
  · rename_i hc
    rw [hc] at hstate
    exact congrArg b.ingest.withDatabase hstate
  · rfl
  · rename_i hc _
    rw [hc] at hstate
    exact congrArg b.ingest.withDatabase hstate

theorem worker_commitBatch (around : Surroundings) (b : Batch) :
    (commitBatch around b).2.worker = b.ingest.worker := by
  rw [state_commitBatch]
  rfl

theorem commitBatch_ok {around : Surroundings} {b : Batch}
    (h : commitBatch around b = (.ok (), s')) :
    s'.worker = b.ingest.worker ∧ s'.queue = b.ingest.queue ∧
      s'.session.database.path = b.ingest.session.database.path ∧
      ∀ S, b.txn.view = .working S → s'.session.database.store = S := by
  have hstate := state_commitBatch around b
  rw [h] at hstate
  refine ⟨(congrArg Ingest.worker hstate :), (congrArg Ingest.queue hstate :),
    (congrArg (·.session.database.path) hstate :), fun S hb => ?_⟩
  unfold commitBatch at h
  split at h
  · cases h
  · cases h
  · rename_i hc _
    cases h
    exact Database.store_of_commit_ok hb hc

theorem counts_of_commitBatch_ok {around : Surroundings} {b : Batch}
    (writes : b.txn.isReader = false) (h : commitBatch around b = (.ok (), s')) :
    s'.session.database.statistics.commits =
        b.ingest.session.database.statistics.commits + 1 ∧
      s'.session.database.statistics.aborts = b.ingest.session.database.statistics.aborts := by
  obtain ⟨S, hview⟩ := Txn.exists_working writes
  unfold commitBatch at h
  split at h
  · cases h
  · cases h
  · rename_i d hc _
    cases h
    have hd := Database.eq_of_commit_ok hview hc
    exact ⟨congrArg (·.statistics.commits) hd, congrArg (·.statistics.aborts) hd⟩

/-- A refused commit changes the counters of the database at most. -/
theorem commitBatch_error {around : Surroundings} {b : Batch} {e : Failure}
    (h : commitBatch around b = (.error e, s')) : Progress [] b.ingest s' := by
  unfold commitBatch at h
  split at h
  · rename_i d _ hc
    cases h
    refine .quiet rfl ?_ ⟨rfl, rfl, rfl, rfl⟩
    exact Database.eq_of_commit_error hc
  · cases h
    exact .refl _
  · cases h

/-- The outcomes of items that were written in rounds: those of the rounds that committed, and those
of the round that was given up, if one was, which ended the writing. -/
def Settled (t : Tree) (items : List Item) (s : Ingest) (r : Bool × Ingest) : Prop :=
  ∃ early late, (early ++ late).map Prod.fst = items ∧ Accounted (early ++ late) s r.2 ∧
    parkedOf early = [] ∧ processedOf late = [] ∧ (r.1 = true → late = []) ∧
    (t.Openable s.session.database.store →
      t.Retains s.session.database.store r.2.session.database.store ∧
        Replayed t s.session.database.path (t.furnish s.session.database.store) early
          (t.furnish r.2.session.database.store))

/-- A round that is given up leaves the committed store. -/
theorem Progress.settled {done : List (Item × Outcome)} {rest : List Item} {e : Failure}
    {s₁ : Ingest} (h : Progress done s s₁) (hparked : parkedOf done = [])
    (hq : s'.queue = s₁.queue) (hw : s'.worker = s₁.worker.park (processedOf done ++ rest) e)
    (hpath : s'.session.database.path = s₁.session.database.path)
    (hstore : s'.session.database.store = s₁.session.database.store) :
    Settled t (done.map Prod.fst ++ rest) s (false, s') := by
  refine ⟨[], allGivenUp done rest e, map_fst_allGivenUp .., h.giveUp hparked hq hw hpath, rfl,
    processedOf_allGivenUp .., nofun, fun _ => ?_⟩
  rw [hstore, h.database]
  exact ⟨.refl t _, .nil⟩

/-- A round that commits goes before what is written later. -/
theorem Settled.after {done : List (Item × Outcome)} {rest : List Item} {r : Bool × Ingest}
    (h : Settled t rest s' r) (hdone : Accounted done s s') (hparked : parkedOf done = [])
    (hstore : t.Openable s.session.database.store →
      t.Retains s.session.database.store s'.session.database.store ∧
        Replayed t s.session.database.path (t.furnish s.session.database.store) done
          (t.furnish s'.session.database.store)) :
    Settled t (done.map Prod.fst ++ rest) s r := by
  obtain ⟨early, late, rfl, hlater, hearly, hlate, hend, hreplay⟩ := h
  refine ⟨done ++ early, late, by simp, ?_, ?_, hlate, hend, fun hS => ?_⟩
  · rw [List.append_assoc]
    exact hdone.trans hparked hlater
  · rw [parkedOf_append, hparked, hearly]
    rfl
  · obtain ⟨hkeep, hnow⟩ := hstore hS
    obtain ⟨hkeep', hthen⟩ := hreplay (hkeep.openable hS)
    exact ⟨hkeep.trans hkeep', hnow.append (hdone.path ▸ hthen)⟩

theorem writeItems_settled (t : Tree) (around : Nat → Surroundings) (n : Nat) (items : List Item)
    (s : Ingest) : Settled t items s (writeItems t around n items s) := by
  -- one case for each way a round can end; only a committed one is followed by others
  fun_induction writeItems t around n items s with
  | case1 n s => exact ⟨[], [], rfl, .refl s, rfl, rfl, fun _ => rfl, fun _ => ⟨.refl t _, .nil⟩⟩
  | case2 n s i rest e hb => exact (progress_say ..).settled rfl rfl rfl rfl rfl
  | case3 n s i rest b hb filled written e hfatal s₁ =>
    obtain ⟨done, hitems, hp, hwritten, hparked, -⟩ := fill_spec t (around n) 0 (i :: rest) b
    obtain rfl := beginBatch_ok hb
    rw [hitems]
    refine hp.settled (e := e) hparked ?_ ?_ ?_ ?_
    · rfl
    · rw [← List.nil_append (processedOf done), ← hwritten]
      rfl
    · exact Database.path_abort ..
    · exact Database.store_abort ..
  | case4 n s i rest b hb filled written hfatal e s₁ hc =>
    obtain ⟨done, hitems, hp, hwritten, hparked, -⟩ := fill_spec t (around n) 0 (i :: rest) b
    obtain rfl := beginBatch_ok hb
    rw [hitems]
    have hp' := (hp.trans (commitBatch_error hc)).trans (progress_say .error
      s!"Failed to commit transaction: {e.record.display}" s₁)
    rw [List.append_nil, List.append_nil] at hp'
    refine hp'.settled (e := e) hparked ?_ ?_ ?_ ?_
    · rfl
    · rw [← List.nil_append (processedOf done), ← hwritten]
      rfl
    · rfl
    · rfl
  | case5 n s i rest b hb filled written hfatal s₁ hc ih =>
    obtain ⟨done, hitems, hp, hwritten, hparked, hreplay⟩ := fill_spec t (around n) 0 (i :: rest) b
    obtain rfl := beginBatch_ok hb
    obtain ⟨hw, hq, hpath, hstore⟩ := commitBatch_ok hc
    have hhand : written = processedOf done := hwritten
    rw [hitems]
    refine ih.after (hhand ▸ hp.finish hparked hq hw hpath _) hparked fun hS => ?_
    obtain ⟨S', htxn, hkeep, hnow⟩ := hreplay _ _ hS rfl hfatal
    obtain rfl := hstore S' (congrArg Txn.view htxn)
    exact ⟨hkeep, hnow⟩

end IndexedStore.Ingest
