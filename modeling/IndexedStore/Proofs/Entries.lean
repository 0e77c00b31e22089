import IndexedStore.Tree.Entries
import IndexedStore.Proofs.Upkeep

/-! # What steps on single entries do to a store

With a table for every attached index, a step on one entry is a function of the store: it fails and
leaves the store as it is, or it leaves a store that the entry and its pairs were written to or
removed from. The answer and the store depend on nothing else.
-/
namespace IndexedStore.Tree
open Scope (observed)
variable {t : Tree} {S : Store} {s : Scope} {T : Table}

/-- The store after an entry has been written, in place of the one under its key if there is one. -/
def afterWrite (t : Tree) (key value : Bytes) (T : Table) (S : Store) : Store :=
  (t.reindexed (Index.withPair key value)
    (match T.get? key with
      | some old => t.reindexed (Index.withoutPair key old) S
      | none => S)).putTable t.name (T.insert key value)

/-- The store after an entry has been removed. -/
def afterRemoval (t : Tree) (e : Bytes × Bytes) (T : Table) (S : Store) : Store :=
  (t.reindexed (Index.withoutPair e.1 e.2) S).putTable t.name (T.erase e.1)

/-- Writing an entry: whether it replaces one, and the store afterwards. -/
def writing (t : Tree) (key value : Bytes) (S : Store) : Except Failure (Bool × Store) :=
  if key.isEmpty then .error .emptyKey
  else match S.table? t.name with
    | none => .error (.tableMissing t.name)
    | some T =>
      match t.clash? S key value with
      | some i => .error (.duplicateKey i.name)
      | none => .ok (T.contains key, t.afterWrite key value T S)

/-- Writing an entry whose key must be new. -/
def inserting (t : Tree) (key value : Bytes) (S : Store) : Except Failure Store :=
  if key.isEmpty then .error .emptyKey
  else match S.table? t.name with
    | none => .error (.tableMissing t.name)
    | some T => if T.contains key then .error .keyPresent
      else (t.writing key value S).map Prod.snd

/-- Writing an entry, merged with the stored one. -/
def merging (t : Tree) (key value : Bytes) (S : Store) : Except Failure (Bool × Store) :=
  match t.merge? with
  | none => t.writing key value S
  | some merge =>
    match S.table? t.name with
    | none => .error (.tableMissing t.name)
    | some T =>
      match T.get? key with
      | none => t.writing key value S
      | some old =>
        match merge old value with
        | none => .error .nothingMerged
        | some merged => t.writing key merged S

/-- Removing an entry: whether there was one, and the store afterwards. -/
def removing (t : Tree) (key : Bytes) (S : Store) : Except Failure (Bool × Store) :=
  match S.table? t.name with
  | none => .error (.tableMissing t.name)
  | some T =>
    match T.get? key with
    | none => .ok (false, S)
    | some old => .ok (true, t.afterRemoval (key, old) T S)

theorem run_requireKey (key : Bytes) (s : Scope) :
    (requireKey key).run s = (if key.isEmpty then .error .emptyKey else .ok (), s) := by
  rw [requireKey, Attempt.run_require]
  cases key.isEmpty <;> rfl

theorem run_replaceEntry (h : t.Furnished S) (key value : Bytes) :
    (t.replaceEntry key value).run (s.on S) =
      match t.writing key value S with
      | .ok (replaced, S') => (.ok replaced, (if replaced then s else s.bumped 1).on S')
      | .error e => (.error e, s.on S) := by
  rw [replaceEntry, Attempt.run_bind, run_requireKey, writing]
  cases key.isEmpty with
  | true => rfl
  | false =>
    simp only [Bool.false_eq_true, if_false]
    rw [Attempt.run_bind, Scope.run_openTableToWrite]
    cases S.table? t.name with
    | none => rfl
    | some T =>
      simp only
      rw [Attempt.run_bind, run_preparedKeys h]
      cases t.clash? S key value with
      | some i => rfl
      | none =>
        obtain hk | ⟨old, hk⟩ := Option.eq_none_or_eq_some (T.get? key)
        · simp only [afterWrite, OrderedMap.contains, hk]
          rw [Attempt.run_bind_ok (run_addPairs h key value),
            Attempt.run_bind_ok (Scope.run_putTable ..), Attempt.run_bind_ok (Scope.run_bump ..)]
          rfl
        · simp only [afterWrite, OrderedMap.contains, hk]
          rw [Attempt.run_bind_ok (run_removePairs h key old),
            Attempt.run_bind_ok (run_addPairs (furnished_reindexed _ S) key value),
            Attempt.run_bind_ok (Scope.run_putTable ..)]
          rfl

theorem run_insertEntry (h : t.Furnished S) (key value : Bytes) :
    (t.insertEntry key value).run (s.on S) =
      match t.inserting key value S with
      | .ok S' => (.ok (), (s.bumped 1).on S')
      | .error e => (.error e, s.on S) := by
  rw [insertEntry, Attempt.run_bind, run_requireKey, inserting, writing]
  cases key.isEmpty with
  | true => rfl
  | false =>
    simp only [Bool.false_eq_true, if_false]
    rw [Attempt.run_bind, Scope.run_openTableToWrite]
    cases S.table? t.name with
    | none => rfl
    | some T =>
      simp only
      rw [Attempt.run_bind, Attempt.run_require]
      cases hk : T.contains key with
      | true => rfl
      | false =>
        simp only [Bool.not_false, if_true, Bool.false_eq_true, if_false]
        rw [Attempt.run_bind, run_preparedKeys h]
        cases t.clash? S key value with
        | some i => rfl
        | none =>
          have hnone : T.get? key = none := by simpa [OrderedMap.contains] using hk
          simp only [afterWrite, hnone]
          rw [Attempt.run_bind_ok (run_addPairs h key value),
            Attempt.run_bind_ok (Scope.run_putTable ..)]
          rfl

theorem run_mergeEntry (h : t.Furnished S) (key value : Bytes) :
    (t.mergeEntry key value).run (s.on S) =
      match t.merging key value S with
      | .ok (replaced, S') => (.ok replaced, (if replaced then s else s.bumped 1).on S')
      | .error e => (.error e, s.on S) := by
  unfold mergeEntry merging
  cases t.merge? with
  | none => exact run_replaceEntry h key value
  | some merge =>
    simp only
    rw [Attempt.run_bind, Scope.run_openTable]
    cases S.table? t.name with
    | none => rfl
    | some T =>
      simp only
      cases T.get? key with
      | none => exact run_replaceEntry h key value
      | some old =>
        simp only
        cases merge old value with
        | none => rfl
        | some merged => exact run_replaceEntry h key merged

theorem run_removeEntry (h : t.Furnished S) (key : Bytes) :
    (t.removeEntry key).run (s.on S) =
      match t.removing key S with
      | .ok (removed, S') => (.ok removed, (if removed then s.bumped (-1) else s).on S')
      | .error e => (.error e, s.on S) := by
  rw [removeEntry, Attempt.run_bind, Scope.run_openTableToWrite, removing]
  cases S.table? t.name with
  | none => rfl
  | some T =>
    simp only
    cases T.get? key with
    | none => rfl
    | some old =>
      simp only
      rw [Attempt.run_bind_ok (run_removePairs h key old),
        Attempt.run_bind_ok (Scope.run_putTable ..), Attempt.run_bind_ok (Scope.run_bump ..)]
      rfl

/-! ## Steps of a handle

A transaction of another database is refused. What succeeds is counted as what it was, what fails by
its code.
-/

/-- What comes of a step in a transaction of a database, which may not be the tree's own. -/
def ifOwn {α : Type} (t : Tree) (database : String) (r : Except Failure α) : Except Failure α :=
  if database == t.database then r else .error .foreignTransaction

@[simp] theorem ifOwn_self {α : Type} (t : Tree) (r : Except Failure α) :
    t.ifOwn t.database r = r := by
  rw [ifOwn, beq_self_eq_true, if_pos rfl]

theorem run_requireOwn (t : Tree) (s : Scope) :
    t.requireOwn.run s = (t.ifOwn s.txn.database (.ok ()), s) := by
  change (if s.txn.database == t.database then _ else _) = _
  rw [ifOwn]
  split <;> rfl

theorem run_owned {α : Type} (t : Tree) (x : Attempt Scope α) (s : Scope) :
    (observed (do t.requireOwn; x)).run s =
      match t.ifOwn s.txn.database (.ok ()) with
      | .ok () => (observed x).run s
      | .error e => (.error e, s.counted (·.recordError e.code)) := by
  rw [Scope.run_observed, Attempt.run_bind, run_requireOwn]
  cases t.ifOwn s.txn.database (.ok ()) <;> rfl

theorem run_insert (h : t.Furnished S) (key value : Bytes) :
    (t.insert key value).run (s.on S) =
      match t.ifOwn s.txn.database (t.inserting key value S) with
      | .ok S' => (.ok (), ((s.bumped 1).counted (·.recordInsert 0 false)).on S')
      | .error e => (.error e, (s.counted (·.recordError e.code)).on S) := by
  rw [insert, run_owned, Scope.on_database, ifOwn, ifOwn]
  cases s.txn.database == t.database with
  | false => rfl
  | true =>
    simp only [if_true]
    rw [Scope.run_observed, Attempt.run_bind, run_insertEntry h]
    rcases t.inserting key value S with e | S'
    · rfl
    · simp only [Scope.run_count]

theorem run_update (h : t.Furnished S) (key value : Bytes) :
    (t.update key value).run (s.on S) =
      match t.ifOwn s.txn.database (t.writing key value S) with
      | .ok (replaced, S') =>
        (.ok (), ((if replaced then s else s.bumped 1).counted (·.recordInsert 0 replaced)).on S')
      | .error e => (.error e, (s.counted (·.recordError e.code)).on S) := by
  rw [update, run_owned, Scope.on_database, ifOwn, ifOwn]
  cases s.txn.database == t.database with
  | false => rfl
  | true =>
    simp only [if_true]
    rw [Scope.run_observed, Attempt.run_bind, run_replaceEntry h]
    rcases t.writing key value S with e | ⟨replaced, S'⟩
    · rfl
    · simp only [Scope.run_count]

theorem run_upsert (h : t.Furnished S) (key value : Bytes) :
    (t.upsert key value).run (s.on S) =
      match t.ifOwn s.txn.database (t.merging key value S) with
      | .ok (replaced, S') =>
        (.ok (), ((if replaced then s else s.bumped 1).counted
          (fun c => c.recordUpsert.recordInsert 0 replaced)).on S')
      | .error e => (.error e, (s.counted (·.recordError e.code)).on S) := by
  rw [upsert, run_owned, Scope.on_database, ifOwn, ifOwn]
  cases s.txn.database == t.database with
  | false => rfl
  | true =>
    simp only [if_true]
    rw [Scope.run_observed, Attempt.run_bind, run_mergeEntry h]
    rcases t.merging key value S with e | ⟨replaced, S'⟩
    · rfl
    · simp only [Scope.run_count]

theorem run_delete (h : t.Furnished S) (key : Bytes) :
    (t.delete key).run (s.on S) =
      match t.ifOwn s.txn.database (t.removing key S) with
      | .ok (true, S') => (.ok true, ((s.bumped (-1)).counted (·.recordDelete 0)).on S')
      | .ok (false, S') => (.ok false, s.on S')
      | .error e => (.error e, (s.counted (·.recordError e.code)).on S) := by
  rw [delete, run_owned, Scope.on_database, ifOwn, ifOwn]
  cases s.txn.database == t.database with
  | false => rfl
  | true =>
    simp only [if_true]
    rw [Scope.run_observed, Attempt.run_bind, run_removeEntry h]
    rcases t.removing key S with e | ⟨removed, S'⟩
    · rfl
    · cases removed with
      | false => rfl
      | true =>
        simp only [if_true]
        rw [Attempt.run_bind_ok (Scope.run_count ..)]
        rfl

theorem run_current (t : Tree) (key : Bytes) (s : Scope) (S : Store) :
    (t.current key).run (s.on S) =
      (t.ifOwn s.txn.database (match S.table? t.name with
        | none => .error (.tableMissing t.name)
        | some T => .ok (T.get? key)), s.on S) := by
  rw [current, Attempt.run_bind, run_requireOwn, ifOwn, ifOwn, Scope.on_database]
  cases s.txn.database == t.database with
  | false => rfl
  | true =>
    simp only [if_true]
    rw [Attempt.run_bind_ok (Scope.run_writable s S), Attempt.run_bind, Scope.run_openTable]
    cases S.table? t.name <;> rfl

theorem run_modify (own : s.txn.database = t.database) (hT : S.table? t.name = some T) (key : Bytes)
    (f : Option Bytes → Option Bytes) :
    (t.modify key f).run (s.on S) =
      match f (T.get? key) with
      | some value => (t.update key value).run (s.on S)
      | none =>
        if (T.get? key).isSome then (discard (t.delete key) : Attempt Scope Unit).run (s.on S)
        else (.ok (), s.on S) := by
  rw [modify, Attempt.run_bind, run_current, own, ifOwn_self, hT]
  simp only
  cases f (T.get? key) with
  | some value => rfl
  | none =>
    simp only
    split <;> rfl

end IndexedStore.Tree
