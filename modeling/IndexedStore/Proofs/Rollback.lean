import IndexedStore.Proofs.Interleaving
import IndexedStore.Proofs.Transactions

/-! # What a failed write leaves behind

A write in a transaction of its own can fail at any of its steps, and at last when its transaction
is committed. The tables and all else that the database holds are then as before, but for the
counters. The entry count of the handle is another matter. It is moved by the last step that
changes the store, so a call that fails has not moved it. But a call that succeeds has moved it
before its transaction is committed, and nothing moves it back if the commit is refused for the size
of the store.
-/
namespace IndexedStore

namespace Tree
variable {t : Tree} {S : Store} {T : Table} {α β : Type} {x : Attempt Scope α} {n : Int64}
variable {key value : Bytes}

/-! ## Steps and the entry count -/

/-- Made on the store, the step moves the entry count by so much if it succeeds. If it fails it does
not move the count, and what it fails for is not the size of the store. -/
def Tallies (x : Attempt Scope α) (S : Store) (n : Int64) : Prop :=
  ∀ s : Scope,
    (∃ (a : α) (s' : Scope) (S' : Store), x.run (s.on S) = (.ok a, s'.on S') ∧
      s'.entryCount = s.entryCount + n) ∨
    ∃ (e : Failure) (s' : Scope) (S' : Store), x.run (s.on S) = (.error e, s'.on S') ∧
      s'.entryCount = s.entryCount ∧ e.code ≠ .mapFull

/-- The step moves the entry count on no store. -/
def Quiet (x : Attempt Scope α) : Prop := ∀ S : Store, Tallies x S 0

theorem tallies_ok {a : α} {S' : Store} (h : ∀ s : Scope, x.run (s.on S) = (.ok a, s.on S')) :
    Tallies x S 0 :=
  fun s => .inl ⟨a, s, S', h s, (Int64.add_zero _).symm⟩

theorem tallies_error {e : Failure} (h : ∀ s : Scope, x.run (s.on S) = (.error e, s.on S))
    (room : e.code ≠ .mapFull) : Tallies x S n :=
  fun s => .inr ⟨e, s, S, h s, rfl, room⟩

theorem quiet_pure (a : α) : Quiet (pure a) := fun _ => tallies_ok fun _ => rfl

theorem tallies_bump (n : Int64) : Tallies (Scope.bump n) S n :=
  fun s => .inl ⟨(), s.bumped n, S, rfl, rfl⟩

theorem quiet_putTable (m : String) (T : Table) : Quiet (Scope.putTable m T) :=
  fun _ => tallies_ok fun _ => rfl

theorem quiet_putPairs (m : String) (P : PairTable) : Quiet (Scope.putPairs m P) :=
  fun _ => tallies_ok fun _ => rfl

theorem quiet_openPairsToWrite (m : String) : Quiet (Scope.openPairsToWrite m) := by
  intro S
  cases hP : S.openPairs m with
  | ok P =>
    have hrun : ∀ s : Scope, (Scope.openPairsToWrite m).run (s.on S) =
        (.ok P, s.on (S.putPairs m P)) := by
      intro s
      rw [Scope.run_openPairsToWrite, hP]
    exact tallies_ok hrun
  | error e =>
    have hcode : e.code ≠ .mapFull := by
      unfold Store.openPairs at hP
      split at hP
      · cases hP
      · split at hP <;> cases hP
        exact ErrorCode.noConfusion
    refine tallies_error (fun s => ?_) hcode
    rw [Scope.run_openPairsToWrite, hP]

theorem quiet_openPairs (m : String) : Quiet (Scope.openPairs m) := quiet_openPairsToWrite m

/-! ## One step after another -/

theorem Tallies.bind {f : α → Attempt Scope β} (hx : Tallies x S 0)
    (hf : ∀ a S', Tallies (f a) S' n) : Tallies (x >>= f) S n := by
  intro s
  obtain ⟨a, s₁, S₁, hrun, hcount⟩ | ⟨e, s₁, S₁, hrun, hcount, room⟩ := hx s
  · have hsame : s₁.entryCount = s.entryCount := hcount.trans (Int64.add_zero _)
    rw [Attempt.run_bind_ok hrun, ← hsame]
    exact hf a S₁ s₁
  · exact .inr ⟨e, s₁, S₁, Attempt.run_bind_error hrun f, hcount, room⟩

/-- What follows once the count has been moved must not fail. -/
theorem Tallies.counted {f : α → Attempt Scope β} (hx : Tallies x S n)
    (hf : ∀ a (s : Scope), ∃ b g, (f a).run s = (.ok b, s.counted g)) :
    Tallies (x >>= f) S n := by
  intro s
  obtain ⟨a, s₁, S₁, hrun, hcount⟩ | ⟨e, s₁, S₁, hrun, hcount, room⟩ := hx s
  · obtain ⟨b, g, hlast⟩ := hf a (s₁.on S₁)
    exact .inl ⟨b, s₁.counted g, S₁, (Attempt.run_bind_ok hrun f).trans hlast, hcount⟩
  · exact .inr ⟨e, s₁, S₁, Attempt.run_bind_error hrun f, hcount, room⟩

theorem Tallies.then_pure (hx : Tallies x S n) (b : β) :
    Tallies (do let _ ← x; pure b) S n :=
  hx.counted fun _ _ => ⟨b, id, rfl⟩

theorem Quiet.bind {f : α → Attempt Scope β} (hx : Quiet x) (hf : ∀ a, Quiet (f a)) :
    Quiet (x >>= f) :=
  fun S => (hx S).bind hf

theorem chained_quiet : Attempt.Chained fun _ x => Quiet x := ⟨quiet_pure, Quiet.bind⟩

/-- After a requirement the rest is made on the same store, and only if the requirement is met. -/
theorem tallies_require_bind {holds : Bool} {e : Failure} {f : Unit → Attempt Scope β}
    (room : e.code ≠ .mapFull) (hf : holds = true → Tallies (f ()) S n) :
    Tallies (.require holds e >>= f) S n := by
  cases holds with
  | false => exact tallies_error (fun _ => rfl) room
  | true => exact hf rfl

theorem quiet_require (holds : Bool) {e : Failure} (room : e.code ≠ .mapFull) :
    Quiet (.require holds e : Attempt Scope Unit) := by
  cases holds with
  | false => exact fun _ => tallies_error (fun _ => rfl) room
  | true => exact quiet_pure ()

theorem tallies_openTable_bind {m : String} {f : Table → Attempt Scope β}
    (hf : ∀ T, S.table? m = some T → Tallies (f T) S n) :
    Tallies (Scope.openTable m >>= f) S n := by
  cases hT : S.table? m with
  | none =>
    refine tallies_error (e := .tableMissing m) (fun s => ?_) ErrorCode.noConfusion
    rw [Attempt.run_bind, Scope.run_openTable, hT]
  | some T =>
    intro s
    rw [Attempt.run_bind, Scope.run_openTable, hT]
    exact hf T hT s

theorem tallies_openTableToWrite_bind {m : String} {f : Table → Attempt Scope β}
    (hf : ∀ T, S.table? m = some T → Tallies (f T) S n) :
    Tallies (Scope.openTableToWrite m >>= f) S n := by
  intro s
  rw [Attempt.run_bind, Scope.run_openTableToWrite, ← Scope.run_openTable, ← Attempt.run_bind]
  exact tallies_openTable_bind hf s

theorem Tallies.owned (hx : Tallies x S n) :
    Tallies (Scope.observed (do t.requireOwn; x)) S n := by
  intro s
  rw [run_owned]
  cases hown : t.ifOwn (s.on S).txn.database (.ok ()) with
  | error e =>
    have hcode : e.code ≠ .mapFull := by
      unfold ifOwn at hown
      split at hown <;> cases hown
      decide
    exact .inr ⟨e, s.counted (·.recordError e.code), S, rfl, rfl, hcode⟩
  | ok _ =>
    simp only [Scope.run_observed]
    obtain ⟨a, s', S', hrun, hcount⟩ | ⟨e, s', S', hrun, hcount, room⟩ := hx s
    · rw [hrun]
      exact .inl ⟨a, s', S', rfl, hcount⟩
    · rw [hrun]
      exact .inr ⟨e, s'.counted (·.recordError e.code), S', rfl, hcount, room⟩

/-! ## The pairs of an entry -/

theorem quiet_preparedKeys (key value : Bytes) : Quiet (t.preparedKeys key value) := by
  refine chained_preparedKeys chained_quiet (fun i _ _ => quiet_openPairs _) ?_ value
  exact fun i _ _ holds => quiet_require holds ErrorCode.noConfusion

theorem quiet_addPairs (key : Bytes) (keys : List (Option Bytes)) :
    Quiet (t.addPairs key keys) := by
  refine chained_addPairs chained_quiet (fun i _ indexKey => ?_) keys
  exact (quiet_openPairsToWrite _).bind fun _ => quiet_putPairs _ _

theorem quiet_removePairs (key value : Bytes) : Quiet (t.removePairs key value) := by
  refine chained_removePairs chained_quiet (fun i _ indexKey => ?_) value
  exact (quiet_openPairsToWrite _).bind fun _ => quiet_putPairs _ _

/-! ## The entry -/

/-- Whether the table of the tree has an entry under the key. -/
def present (t : Tree) (key : Bytes) (S : Store) : Bool :=
  (S.table? t.name).any (·.contains key)

theorem present_of_table? (entries : S.table? t.name = some T) :
    t.present key S = (T.get? key).isSome := by
  rw [present, entries]
  rfl

/-- By how much the call moves the entry count: an entry that is new counts one more, one that is
removed one less. -/
def Write.gain (t : Tree) (key : Bytes) (S : Store) : Write → Int64
  | .insert _ | .update _ | .upsert _ => if t.present key S then 0 else 1
  | .delete => if t.present key S then -1 else 0

theorem tallies_insertEntry :
    Tallies (t.insertEntry key value) S (Write.gain t key S (.insert value)) := by
  refine tallies_require_bind (by decide) fun _ => tallies_openTableToWrite_bind fun T hT => ?_
  refine tallies_require_bind (by decide) fun absent => ?_
  -- a key that is present has been refused by now, so what is left always gains an entry
  have hgain : Write.gain t key S (.insert value) = 1 := by
    have hpresent : t.present key S = false := by
      rw [present_of_table? hT]
      simpa [OrderedMap.contains] using absent
    rw [Write.gain, hpresent]
    rfl
  rw [hgain]
  refine (quiet_preparedKeys key value S).bind fun keys S₁ => ?_
  refine (quiet_addPairs key keys S₁).bind fun _ S₂ => ?_
  exact (quiet_putTable _ _ S₂).bind fun _ _ => tallies_bump 1

theorem tallies_replaceEntry :
    Tallies (t.replaceEntry key value) S (Write.gain t key S (.update value)) := by
  refine tallies_require_bind (by decide) fun _ => tallies_openTableToWrite_bind fun T hT => ?_
  rw [Write.gain, present_of_table? hT]
  refine (quiet_preparedKeys key value S).bind fun keys S₁ => ?_
  cases T.get? key with
  | some old =>
    refine (quiet_removePairs key old S₁).bind fun _ S₂ => ?_
    refine (quiet_addPairs key keys S₂).bind fun _ S₃ => ?_
    exact (quiet_putTable _ _ S₃).then_pure true
  | none =>
    refine (quiet_addPairs key keys S₁).bind fun _ S₂ => ?_
    refine (quiet_putTable _ _ S₂).bind fun _ S₃ => ?_
    exact (tallies_bump 1).then_pure false

/-- A merged value is written like any other, on the store that the old value was read from. -/
theorem tallies_mergeEntry :
    Tallies (t.mergeEntry key value) S (Write.gain t key S (.upsert value)) := by
  unfold mergeEntry
  cases t.merge? with
  | none => exact tallies_replaceEntry
  | some merge =>
    refine tallies_openTable_bind fun T hT => ?_
    cases T.get? key with
    | none => exact tallies_replaceEntry
    | some old =>
      simp only
      cases merge old value with
      | none => exact tallies_error (fun _ => rfl) (by decide)
      | some merged => exact tallies_replaceEntry

theorem tallies_removeEntry :
    Tallies (t.removeEntry key) S (Write.gain t key S .delete) := by
  refine tallies_openTableToWrite_bind fun T hT => ?_
  rw [Write.gain, present_of_table? hT]
  cases T.get? key with
  | none => exact quiet_pure false S
  | some old =>
    refine (quiet_removePairs key old S).bind fun _ S₁ => ?_
    refine (quiet_putTable _ _ S₁).bind fun _ S₂ => ?_
    exact (tallies_bump (-1)).then_pure true

theorem tallies_insert : Tallies (t.insert key value) S (Write.gain t key S (.insert value)) :=
  (tallies_insertEntry.counted fun _ _ => ⟨(), (·.recordInsert 0 false), rfl⟩).owned

theorem tallies_update : Tallies (t.update key value) S (Write.gain t key S (.update value)) :=
  (tallies_replaceEntry.counted fun replaced _ => ⟨(), (·.recordInsert 0 replaced), rfl⟩).owned

theorem tallies_upsert : Tallies (t.upsert key value) S (Write.gain t key S (.upsert value)) :=
  (tallies_mergeEntry.counted fun replaced _ =>
    ⟨(), fun c => c.recordUpsert.recordInsert 0 replaced, rfl⟩).owned

theorem tallies_delete : Tallies (t.delete key) S (Write.gain t key S .delete) := by
  refine Tallies.owned (tallies_removeEntry.counted fun removed _ => ?_)
  cases removed with
  | false => exact ⟨false, id, rfl⟩
  | true => exact ⟨true, (·.recordDelete 0), rfl⟩

/-- What every call does to the entry count within its transaction. -/
theorem tallies_step (w : Write) (t : Tree) (key : Bytes) (S : Store) :
    Tallies (w.step t key) S (w.gain t key S) := by
  cases w with
  | insert value => exact tallies_insert.then_pure none
  | update value => exact tallies_update.then_pure none
  | upsert value => exact tallies_upsert.then_pure none
  | delete => exact tallies_delete.counted fun removed _ => ⟨some removed, id, rfl⟩

/-! ## A call alone in its transaction -/

section Failed
variable {allocated : Nat} {σ σ' : Session} {e : Failure}

/-- A step that fails alone in its transaction either did not move the entry count, or it succeeded
and only the commit was refused. -/
theorem Tallies.write_error (hx : Tallies x σ.database.store n)
    (failed : (Session.write allocated x).run σ = (.error e, σ')) :
    σ'.database = { σ.database with statistics := σ'.database.statistics } ∧
      (e.code ≠ .mapFull ∧ σ'.entryCount = σ.entryCount ∨
        e.code = .mapFull ∧ σ'.entryCount = σ.entryCount + n ∧ σ.database.mapSize < allocated ∧
          ∃ (a : α) (s : Scope) (S : Store), x.run σ.writer = (.ok a, s.on S)) := by
  cases hflag : σ.database.flags.readOnly with
  | true =>
    rw [Session.run_write, if_pos hflag] at failed
    cases failed
    exact ⟨rfl, .inl ⟨ErrorCode.noConfusion, rfl⟩⟩
  | false =>
    obtain ⟨a, s, S, hrun, hcount⟩ | ⟨f, s, S, hrun, hcount, room⟩ := hx σ.writer
    · rw [Session.run_write_ok hflag hrun] at failed
      split at failed
      next hfull =>
        -- the scope that the step left is kept with its count, only its store is not
        cases failed
        exact ⟨rfl, .inr ⟨rfl, hcount, hfull, a, s, S, hrun⟩⟩
      next => cases failed
    · rw [Session.run_write_error hflag hrun] at failed
      cases failed
      exact ⟨rfl, .inl ⟨room, hcount⟩⟩

/-- A call that fails alone in its transaction leaves no trace in the database but in its counters.
It leaves none in the entry count either, unless all it does succeeded and the engine has allocated
too much for a commit. The count stays moved then, so it is as before just if the number of entries
would have been. -/
theorem failed_write_leaves_no_trace {w : Write}
    (failed : (Session.write allocated (w.step t key)).run σ = (.error e, σ')) :
    σ'.database = { σ.database with statistics := σ'.database.statistics } ∧
      (e.code ≠ .mapFull → σ'.entryCount = σ.entryCount) ∧
      (e.code = .mapFull → σ'.entryCount = σ.entryCount + w.gain t key σ.database.store ∧
        σ.database.mapSize < allocated ∧ ∃ (a : Option Bool) (s : Scope) (S : Store),
          (w.step t key).run σ.writer = (.ok a, s.on S)) ∧
      (σ'.entryCount = σ.entryCount ↔
        (e.code = .mapFull → w.gain t key σ.database.store = 0)) := by
  obtain ⟨hdatabase, h⟩ := (tallies_step w t key σ.database.store).write_error failed
  refine ⟨hdatabase, ?_⟩
  obtain ⟨room, hcount⟩ | ⟨full, hcount, hcommit⟩ := h
  · exact ⟨fun _ => hcount, fun full => absurd full room, fun _ full => absurd full room,
      fun _ => hcount⟩
  · have hkept : σ'.entryCount = σ.entryCount ↔ w.gain t key σ.database.store = 0 := by
      rw [hcount]
      exact Int64.add_eq_left
    exact ⟨fun room => absurd full room, fun _ => ⟨hcount, hcommit⟩, fun h _ => hkept.mp h,
      fun h => hkept.mpr (h full)⟩

end Failed

/-- A database of a given size limit whose tree has one entry, and a handle that has counted it. -/
def single (mapSize : Nat) : Session :=
  ⟨⟨"db", mapSize, defaultMaxTables, schemaVersion 1 0, ⟨false, false⟩, .empty, {},
    Store.empty.putTable "t" (OrderedMap.empty.insert [1] [7])⟩, 1⟩

/-- Nothing fits, but the call would only have replaced a value. -/
theorem failed_write_leaves_no_trace_replacing :
    ∃ σ', (Session.write 4096 ((Write.update [8]).step shared [1])).run (single 1) =
        (.error (.mapFull 4096 1), σ') ∧
      σ'.database.store = (single 1).database.store ∧ σ'.entryCount = 1 := by
  have hrun : (Session.write 4096 ((Write.update [8]).step shared [1])).run (single 1) =
      (.error (.mapFull 4096 1), _) := rfl
  obtain ⟨hdatabase, -, -, hkept⟩ := failed_write_leaves_no_trace hrun
  refine ⟨_, hrun, ?_, hkept.mpr fun _ => rfl⟩
  rw [hdatabase]

/-- Where nothing fits a refused insertion counts an entry that is not there, and a refused deletion
counts one less that still is. -/
theorem refused_commit_moves_count :
    ∃ σ₁ σ₂, (Session.write 4096 ((Write.insert [7]).step shared [2])).run (single 1) =
          (.error (.mapFull 4096 1), σ₁) ∧
        (Session.write 4096 (Write.delete.step shared [1])).run (single 1) =
          (.error (.mapFull 4096 1), σ₂) ∧
      σ₁.database.store = (single 1).database.store ∧
      σ₂.database.store = (single 1).database.store ∧
      reportedCount (single 1).entryCount = 1 ∧
      reportedCount σ₁.entryCount = 2 ∧ reportedCount σ₂.entryCount = 0 :=
  ⟨_, _, rfl, rfl, rfl, rfl, rfl, rfl, rfl⟩

end Tree
end IndexedStore
