import IndexedStore.Proofs.Interleaving

/-! # How a step ends

A step that is made in a transaction of the tree's database comes to an answer or a failure, to a
store, and to a change of the entry count. All of this is decided by the store it begins with. The
counters of the database may go up as well, and differ from step to step that end alike otherwise.
-/
namespace IndexedStore.Tree
variable {t : Tree} {S S' S'' : Store} {T : Table} {α β : Type}

/-- In every transaction of the tree's database that works on the store, the step ends with the same
answer and the same store, and moves the entry count by the same number. What else is counted is
left open. -/
def Ends (t : Tree) (x : Attempt Scope α) (S : Store) (r : Except Failure α) (n : Int64)
    (S' : Store) : Prop :=
  ∀ s : Scope, t.database = s.txn.database → ∃ s' : Scope, x.run (s.on S) = (r, s'.on S') ∧
    s'.txn.database = s.txn.database ∧ s'.entryCount = s.entryCount + n

variable {x : Attempt Scope α} {r : Except Failure α} {m n : Int64}

theorem ends_pure (a : α) : t.Ends (pure a) S (.ok a) 0 S :=
  fun s _ => ⟨s, rfl, rfl, (Int64.add_zero _).symm⟩

theorem ends_bump (n : Int64) : t.Ends (Scope.bump n) S (.ok ()) n S :=
  fun s _ => ⟨s.bumped n, rfl, rfl, rfl⟩

theorem ends_putTable (T : Table) (S : Store) :
    t.Ends (Scope.putTable t.name T) S (.ok ()) 0 (S.putTable t.name T) :=
  fun s _ => ⟨s, rfl, rfl, (Int64.add_zero _).symm⟩

theorem ends_count (f : Statistics → Statistics) : t.Ends (Scope.count f) S (.ok ()) 0 S :=
  fun s _ => ⟨s.counted f, rfl, rfl, (Int64.add_zero _).symm⟩

theorem Ends.bind {a : α} {f : α → Attempt Scope β} {r : Except Failure β}
    (hx : t.Ends x S (.ok a) n S') (hf : t.Ends (f a) S' r m S'') :
    t.Ends (x >>= f) S r (n + m) S'' := by
  intro s own
  obtain ⟨s', hrun, hsame, hcount⟩ := hx s own
  obtain ⟨s'', hrun', hsame', hcount'⟩ := hf s' (own.trans hsame.symm)
  refine ⟨s'', (Attempt.run_bind_ok hrun f).trans hrun', hsame'.trans hsame, ?_⟩
  rw [hcount', hcount, Int64.add_assoc]

theorem Ends.bind_quiet {a : α} {f : α → Attempt Scope β} {r : Except Failure β}
    (hx : t.Ends x S (.ok a) 0 S') (hf : t.Ends (f a) S' r n S'') :
    t.Ends (x >>= f) S r n S'' := by
  have h := hx.bind hf
  rwa [Int64.zero_add] at h

theorem Ends.bind_error {e : Failure} {f : α → Attempt Scope β}
    (hx : t.Ends x S (.error e) n S') : t.Ends (x >>= f) S (.error e) n S' := by
  intro s own
  obtain ⟨s', hrun, hsame, hcount⟩ := hx s own
  exact ⟨s', Attempt.run_bind_error hrun f, hsame, hcount⟩

/-- What follows an answer and only counts adds nothing but its own answer. -/
theorem Ends.then_pure {f : α → Attempt Scope β} {g : α → β} (hx : t.Ends x S r n S')
    (hf : ∀ a, t.Ends (f a) S' (.ok (g a)) 0 S') : t.Ends (x >>= f) S (r.map g) n S' := by
  cases r with
  | error e => exact hx.bind_error
  | ok a =>
    have h := hx.bind (hf a)
    rwa [Int64.add_zero] at h

theorem Ends.observed (hx : t.Ends x S r n S') : t.Ends (Scope.observed x) S r n S' := by
  intro s own
  obtain ⟨s', hrun, hsame, hcount⟩ := hx s own
  rw [Scope.run_observed, hrun]
  cases r with
  | ok a => exact ⟨s', rfl, hsame, hcount⟩
  | error e => exact ⟨s'.counted (·.recordError e.code), rfl, hsame, hcount⟩

theorem ends_requireOwn : t.Ends t.requireOwn S (.ok ()) 0 S := by
  intro s own
  refine ⟨s, ?_, rfl, (Int64.add_zero _).symm⟩
  rw [run_requireOwn, Scope.on_database, ← own, ifOwn_self]

theorem Ends.scanned (hx : t.Ends x S r n S') : t.Ends (t.scanned x) S r n S' := by
  have hcounted : t.Ends (fun s => ((x s).1, (x s).2.counted (·.recordScan)) : Attempt Scope α)
      S r n S' := by
    intro s own
    obtain ⟨s', hrun, hsame, hcount⟩ := hx s own
    refine ⟨s'.counted (·.recordScan), ?_, hsame, hcount⟩
    simp only [Attempt.run] at hrun ⊢
    rw [hrun]
    rfl
  exact ends_requireOwn.bind_quiet hcounted.observed

theorem ends_writable : t.Ends Scope.writable S (.ok S) 0 S :=
  fun s _ => ⟨s, rfl, rfl, (Int64.add_zero _).symm⟩

theorem ends_openTable (entries : S.table? t.name = some T) :
    t.Ends (Scope.openTable t.name) S (.ok T) 0 S := by
  intro s _
  refine ⟨s, ?_, rfl, (Int64.add_zero _).symm⟩
  rw [Scope.run_openTable, entries]

theorem ends_openTable_missing (missing : S.table? t.name = none) :
    t.Ends (Scope.openTable t.name) S (.error (.tableMissing t.name)) 0 S := by
  intro s _
  refine ⟨s, ?_, rfl, (Int64.add_zero _).symm⟩
  rw [Scope.run_openTable, missing]

theorem ends_openTableToWrite (entries : S.table? t.name = some T) :
    t.Ends (Scope.openTableToWrite t.name) S (.ok T) 0 S := by
  intro s _
  refine ⟨s, ?_, rfl, (Int64.add_zero _).symm⟩
  rw [Scope.run_openTableToWrite, entries]

theorem ends_of_storeOnly (h : ∀ s : Scope, x.run (s.on S) = (r, s.on S')) :
    t.Ends x S r 0 S' :=
  fun s _ => ⟨s, h s, rfl, (Int64.add_zero _).symm⟩

end IndexedStore.Tree
