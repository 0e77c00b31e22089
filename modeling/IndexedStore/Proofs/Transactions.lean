import IndexedStore.Database
import IndexedStore.Proofs.Steps

/-! # What becomes of a transaction

A commit that is accepted makes the store of the transaction the committed one, and every other end
of a transaction leaves the committed store as it was. A step in a transaction of its own therefore
changes the committed store if it succeeds, and only then.
-/
namespace IndexedStore

theorem Txn.exists_working {x : Txn} (h : x.isReader = false) : ∃ S, x.view = .working S := by
  unfold Txn.isReader at h
  split at h
  · exact ⟨_, by assumption⟩
  · cases h

namespace Database
variable {α : Type} {allocated : Nat} {x : Txn} {d d' : Database}

/-- A commit that is accepted is counted. -/
theorem eq_of_commit_ok {S : Store} (hx : x.view = .working S)
    (h : (commit allocated x).run d = (.ok (), d')) :
    d' = { d with store := S }.count (·.recordCommit) := by
  simp only [commit, Attempt.run, hx] at h
  split at h
  · cases h
  · cases h
    rfl

theorem store_of_commit_ok {S : Store} (hx : x.view = .working S)
    (h : (commit allocated x).run d = (.ok (), d')) : d'.store = S := by
  rw [eq_of_commit_ok hx h]
  rfl

/-- A commit that is refused changes the counters and nothing else. -/
theorem eq_of_commit_error {e : Failure} (h : (commit allocated x).run d = (.error e, d')) :
    d' = { d with statistics := d'.statistics } := by
  simp only [commit, Attempt.run] at h
  split at h
  · split at h
    · cases h
      rfl
    · cases h
  · cases h

theorem full_of_commit_error {e : Failure} (h : (commit allocated x).run d = (.error e, d')) :
    d.mapSize < allocated := by
  simp only [commit, Attempt.run] at h
  split at h
  · split at h
    · assumption
    · cases h
  · cases h

theorem store_of_commit_error {e : Failure} (h : (commit allocated x).run d = (.error e, d')) :
    d'.store = d.store := by
  rw [eq_of_commit_error h]

@[simp] theorem store_abort (x : Txn) (d : Database) : (d.abort x).store = d.store := by
  unfold abort
  split <;> rfl

/-- A commit changes the counters and the store at most. -/
theorem state_commit (allocated : Nat) (x : Txn) (d : Database) :
    let d' := ((commit allocated x).run d).2
    d' = { d with statistics := d'.statistics, store := d'.store } := by
  simp only [commit, Attempt.run]
  split
  · split <;> rfl
  · rfl

@[simp] theorem path_commit (allocated : Nat) (x : Txn) (d : Database) :
    ((commit allocated x).run d).2.path = d.path := by
  rw [state_commit]

@[simp] theorem path_abort (x : Txn) (d : Database) : (d.abort x).path = d.path := by
  unfold abort
  split <;> rfl

theorem slot_of_requireSlot {S : Store} (h : d.requireSlot S = .ok ()) :
    S.tableCount < d.maxTables := by
  unfold Database.requireSlot at h
  split at h
  · assumption
  · cases h

/-- After steps that succeeded a writer's store is committed if not too much is allocated. -/
theorem run_settle_ok {S : Store} (hx : x.view = .working S) (a : α) (d : Database) :
    (settle allocated x (.ok a)).run d =
      if d.mapSize < allocated then
        (.error (.mapFull allocated d.mapSize),
          (d.count (·.recordError .mapFull)).count (·.recordAbort))
      else (.ok a, { d with store := S }.count (·.recordCommit)) := by
  by_cases hfull : d.mapSize < allocated <;>
    simp only [settle, commit, Attempt.run, hx, hfull, if_true, if_false]

theorem answer_of_settle_ok {r : Except Failure α} {a : α}
    (h : (settle allocated x r).run d = (.ok a, d')) : r = .ok a := by
  simp only [settle, Attempt.run] at h
  cases r with
  | error e => cases h
  | ok b =>
    simp only at h
    split at h <;> cases h
    rfl

theorem store_of_settle_ok {S : Store} {r : Except Failure α} {a : α} (hx : x.view = .working S)
    (h : (settle allocated x r).run d = (.ok a, d')) : d'.store = S := by
  obtain rfl := answer_of_settle_ok h
  simp only [settle, Attempt.run] at h
  split at h
  · rename_i hc
    cases h
    exact store_of_commit_ok hx hc
  · cases h

theorem store_of_settle_error {r : Except Failure α} {e : Failure}
    (h : (settle allocated x r).run d = (.error e, d')) : d'.store = d.store := by
  simp only [settle, Attempt.run] at h
  cases r with
  | error e =>
    cases h
    exact store_abort x d
  | ok b =>
    simp only at h
    split at h
    · cases h
    · rename_i hc
      cases h
      exact store_of_commit_error hc

end Database

namespace Session
variable {α : Type} {allocated : Nat} {step : Attempt Scope α} {σ σ' : Session}

/-- The scope of a step in a write transaction of its own. -/
def writer (σ : Session) : Scope :=
  ⟨⟨σ.database.path, .working σ.database.store⟩, σ.entryCount, σ.database.statistics⟩

theorem run_write (allocated : Nat) (step : Attempt Scope α) (σ : Session) :
    (write allocated step).run σ =
      if σ.database.flags.readOnly then (.error .readOnlyDatabase, σ)
      else match step.run σ.writer with
        | (r, s) =>
          match (Database.settle allocated s.txn r).run
              { σ.database with statistics := s.statistics } with
          | (r, d) => (r, ⟨d, s.entryCount⟩) := by
  simp only [Attempt.run, write, Database.beginWrite]
  cases σ.database.flags.readOnly <;> rfl

section Writable
variable (writable : σ.database.flags.readOnly = false) {s : Scope} {S : Store}
include writable

/-- After a step that succeeded its store is committed, unless too much is allocated. -/
theorem run_write_ok {a : α} (h : step.run σ.writer = (.ok a, s.on S)) :
    (write allocated step).run σ =
      if σ.database.mapSize < allocated then
        (.error (.mapFull allocated σ.database.mapSize),
          ⟨({ σ.database with statistics := s.statistics }.count
            (·.recordError .mapFull)).count (·.recordAbort), s.entryCount⟩)
      else (.ok a, ⟨{ σ.database with statistics := s.statistics, store := S }.count
        (·.recordCommit), s.entryCount⟩) := by
  rw [run_write, if_neg (Bool.eq_false_iff.mp writable), h]
  simp only [Database.run_settle_ok (x := (s.on S).txn) (S := S) rfl]
  by_cases hfull : σ.database.mapSize < allocated <;> simp only [hfull, if_true, if_false] <;> rfl

theorem run_write_error {e : Failure} (h : step.run σ.writer = (.error e, s.on S)) :
    (write allocated step).run σ = (.error e, ⟨{ σ.database with
      statistics := s.statistics }.count (·.recordAbort), s.entryCount⟩) := by
  rw [run_write, if_neg (Bool.eq_false_iff.mp writable), h]
  rfl

end Writable

/-- A step that succeeds in a transaction of its own leaves its store committed. -/
theorem store_of_write_ok {a : α} (h : (write allocated step).run σ = (.ok a, σ')) :
    ∃ s, step.run σ.writer = (.ok a, s) ∧
      ∀ S, s.txn.view = .working S → σ'.database.store = S := by
  rw [run_write] at h
  split at h
  · cases h
  · cases hstep : step.run σ.writer with
    | mk r s =>
      cases hset : (Database.settle allocated s.txn r).run
          { σ.database with statistics := s.statistics } with
      | mk r' d =>
        simp only [hstep, hset] at h
        cases h
        obtain rfl := Database.answer_of_settle_ok hset
        exact ⟨s, rfl, fun S hS => Database.store_of_settle_ok hS hset⟩

theorem store_of_write_error {e : Failure} (h : (write allocated step).run σ = (.error e, σ')) :
    σ'.database.store = σ.database.store := by
  rw [run_write] at h
  split at h
  · cases h
    rfl
  · cases hstep : step.run σ.writer with
    | mk r s =>
      cases hset : (Database.settle allocated s.txn r).run
          { σ.database with statistics := s.statistics } with
      | mk r' d =>
        simp only [hstep, hset] at h
        cases h
        have hstore := Database.store_of_settle_error hset
        exact hstore

end Session

namespace Database
variable {α : Type} {allocated : Nat} {step : Attempt Scope α} {d d' : Database}

/-- The scope of a step in a write transaction that counts no entries. -/
def writer (d : Database) : Scope := (Session.mk d 0).writer

theorem writer_on (d : Database) : d.writer = d.writer.on d.store := rfl

theorem run_write (allocated : Nat) (step : Attempt Scope α) (d : Database) :
    (write allocated step).run d =
      (((Session.write allocated step).run ⟨d, 0⟩).1,
        ((Session.write allocated step).run ⟨d, 0⟩).2.database) := rfl

theorem store_of_write_ok {a : α} (h : (write allocated step).run d = (.ok a, d')) :
    ∃ s, step.run d.writer = (.ok a, s) ∧ ∀ S, s.txn.view = .working S → d'.store = S := by
  rw [run_write] at h
  obtain ⟨hanswer, rfl⟩ := Prod.mk.inj h
  exact Session.store_of_write_ok (Prod.ext hanswer rfl)

theorem store_of_write_error {e : Failure} (h : (write allocated step).run d = (.error e, d')) :
    d'.store = d.store := by
  rw [run_write] at h
  obtain ⟨hanswer, rfl⟩ := Prod.mk.inj h
  exact Session.store_of_write_error (Prod.ext hanswer rfl)

theorem writable_of_write_ok {a : α} (h : (write allocated step).run d = (.ok a, d')) :
    d.flags.readOnly = false := by
  rw [run_write, Session.run_write] at h
  cases hflag : d.flags.readOnly with
  | false => rfl
  | true =>
    rw [if_pos hflag] at h
    cases h

/-- A step that fails in a write transaction of its own fails there for its own reason. -/
theorem run_write_error {e : Failure} (writable : d.flags.readOnly = false)
    (h : (step.run d.writer).1 = .error e) : ((write allocated step).run d).1 = .error e := by
  rw [run_write, Session.run_write, if_neg (by simp [writable])]
  unfold writer at h
  rcases hrun : step.run (Session.writer ⟨d, 0⟩) with ⟨r, s⟩
  rw [hrun] at h
  cases h
  rfl

end Database

end IndexedStore
