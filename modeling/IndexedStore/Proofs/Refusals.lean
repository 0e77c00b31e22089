import IndexedStore.Proofs.Buffer
import IndexedStore.Proofs.Calls

/-! # A refused call leaves no trace

A write checks the unique indexes, all of them, before it changes a pair. A removal by a condition
chooses its entries before it removes the first, and then nothing can fail. So whatever call is
refused, and at whatever point, the open transaction is what it was and may be committed. Only the
counters tell that the call was made.
-/
namespace IndexedStore

/-- The call is one step and not a series of calls, which may fail after some have succeeded. -/
def EntryCall.Whole : EntryCall → Prop
  | insertMany _ | upsertMany _ => False
  | _ => True

namespace Tree
variable {t : Tree} {S : Store} {s s' : Scope} {α β : Type} {e : Failure}

/-- The step succeeds on the store, or does nothing but count. -/
def AllOrNothing (S : Store) (x : Attempt Scope α) : Prop :=
  ∀ s : Scope, (∃ a s', x.run (s.on S) = (.ok a, s')) ∨
    ∃ e f, x.run (s.on S) = (.error e, (s.counted f).on S)

theorem AllOrNothing.discard {x : Attempt Scope α} (hx : AllOrNothing S x) :
    AllOrNothing S (discard x : Attempt Scope PUnit) := by
  intro s
  rw [Attempt.run_discard]
  obtain ⟨a, s', h⟩ | ⟨e, f, h⟩ := hx s
  · rw [h]
    exact .inl ⟨(), s', rfl⟩
  · rw [h]
    exact .inr ⟨e, f, rfl⟩

theorem AllOrNothing.map {x : Attempt Scope α} (hx : AllOrNothing S x) (f : α → β) :
    AllOrNothing S (f <$> x) := by
  intro s
  rw [Attempt.run_map]
  obtain ⟨a, s', h⟩ | ⟨e, g, h⟩ := hx s
  · rw [h]
    exact .inl ⟨f a, s', rfl⟩
  · rw [h]
    exact .inr ⟨e, g, rfl⟩

theorem AllOrNothing.scanned {x : Attempt Scope α} (hx : AllOrNothing S x) :
    AllOrNothing S (t.scanned x) := by
  intro s
  rw [run_scanned]
  cases t.ifOwn (s.on S).txn.database (.ok ()) with
  | error e => exact .inr ⟨e, id, rfl⟩
  | ok _ =>
    obtain ⟨a, s', h⟩ | ⟨e, f, h⟩ := hx s
    · rw [h]
      exact .inl ⟨a, _, rfl⟩
    · rw [h]
      exact .inr ⟨e, fun c => (f c).recordScan.recordError e.code, rfl⟩

section Furnished
variable (hS : t.Furnished S)
include hS

theorem allOrNothing_insert (key value : Bytes) : AllOrNothing S (t.insert key value) := by
  intro s
  rw [run_insert hS]
  cases t.ifOwn s.txn.database (t.inserting key value S) with
  | error e => exact .inr ⟨e, _, rfl⟩
  | ok S' => exact .inl ⟨(), _, rfl⟩

theorem allOrNothing_update (key value : Bytes) : AllOrNothing S (t.update key value) := by
  intro s
  rw [run_update hS]
  cases t.ifOwn s.txn.database (t.writing key value S) with
  | error e => exact .inr ⟨e, _, rfl⟩
  | ok r => exact .inl ⟨(), _, rfl⟩

theorem allOrNothing_upsert (key value : Bytes) : AllOrNothing S (t.upsert key value) := by
  intro s
  rw [run_upsert hS]
  cases t.ifOwn s.txn.database (t.merging key value S) with
  | error e => exact .inr ⟨e, _, rfl⟩
  | ok r => exact .inl ⟨(), _, rfl⟩

theorem allOrNothing_delete (key : Bytes) : AllOrNothing S (t.delete key) := by
  intro s
  rw [run_delete hS]
  rcases t.ifOwn s.txn.database (t.removing key S) with e | ⟨removed, S'⟩
  · exact .inr ⟨e, _, rfl⟩
  · cases removed <;> exact .inl ⟨_, _, rfl⟩

/-- What a modification reads leaves no trace, and what it then does is one call. -/
theorem allOrNothing_modify (key : Bytes) (f : Option Bytes → Option Bytes) :
    AllOrNothing S (t.modify key f) := by
  intro s
  rw [modify, Attempt.run_bind, run_current]
  generalize t.ifOwn s.txn.database _ = old
  rcases old with e | old?
  · exact .inr ⟨e, id, rfl⟩
  · simp only
    cases f old? with
    | some value => exact allOrNothing_update hS key value s
    | none =>
      simp only
      split
      · exact (allOrNothing_delete hS key).discard s
      · exact .inl ⟨(), _, rfl⟩

/-- Once entries have been chosen from the table of the tree, their removal cannot fail. -/
theorem allOrNothing_deleting {σ : Type} (low high : Option Bytes) (holds : Condition σ) (a : σ) :
    AllOrNothing S (t.deleting low high holds a) := by
  refine AllOrNothing.scanned fun s => ?_
  rw [Attempt.run_bind_ok (Scope.run_writable s S), matching, Attempt.run_bind, Attempt.run_bind,
    Scope.run_openTable]
  cases hT : S.table? t.name with
  | none => exact .inr ⟨_, id, rfl⟩
  | some T =>
    have hsub := (pick_sublist holds 0 a _).trans (ascending_sublist t low high T)
    obtain ⟨s', S', hrun, -⟩ := touches_removeMatches hS hT
      (T.nodup_keys.sublist (hsub.map Prod.fst))
      (fun e he => OrderedMap.get?_eq_some_iff.mpr (hsub.subset he)) s
    exact .inl ⟨_, _, Attempt.run_bind_ok hrun _⟩

theorem allOrNothing_step {c : EntryCall} (hc : c.Whole) : AllOrNothing S (c.step t) := by
  cases c with
  | insert key value => exact allOrNothing_insert hS key value
  | update key value => exact allOrNothing_update hS key value
  | upsert key value => exact allOrNothing_upsert hS key value
  | delete key => exact (allOrNothing_delete hS key).discard
  | modify key f => exact allOrNothing_modify hS key f
  | insertMany items => exact hc.elim
  | upsertMany items => exact hc.elim
  | deleteIf low high holds start =>
    exact ((allOrNothing_deleting hS low high holds start).map _).discard

end Furnished

/-- In a write transaction on a store with a table for every attached index, consistent or not, a
refused call leaves the transaction, with all that it would commit, and the entry count as they
were. -/
theorem refused_call_leaves_transaction {c : EntryCall} (hview : s.txn.view = .working S)
    (hS : t.Furnished S) (hc : c.Whole) (h : (c.step t).run s = (.error e, s')) :
    s'.txn = s.txn ∧ s'.entryCount = s.entryCount := by
  rw [Scope.eq_on hview] at h ⊢
  obtain ⟨a, s₁, hrun⟩ | ⟨e₁, f, hrun⟩ := allOrNothing_step hS hc s
  · cases hrun.symm.trans h
  · cases hrun.symm.trans h
    exact ⟨rfl, rfl⟩

/-- One entry whose pair the first of two unique indexes has lost. -/
def unevenlyFurnished : Store :=
  Ingest.halfFurnished.putPairs (indexTableName "t" "first") .empty

/-- The first index admits the value, the second refuses it. -/
theorem refused_call_leaves_transaction_unevenlyFurnished :
    let s : Scope := ⟨⟨"db", .working unevenlyFurnished⟩, 1, {}⟩
    let c := EntryCall.modify [2] fun _ => some [1]
    Ingest.twiceIndexed.Furnished unevenlyFurnished ∧ c.Whole ∧
      ∃ s', (c.step Ingest.twiceIndexed).run s = (.error (.duplicateKey "second"), s') ∧
        s'.txn = s.txn ∧ s'.entryCount = s.entryCount := by
  intro s c
  have hS : Ingest.twiceIndexed.Furnished unevenlyFurnished := by decide
  have hc : c.Whole := trivial
  have hrun : (c.step Ingest.twiceIndexed).run s = (.error (.duplicateKey "second"), _) := rfl
  exact ⟨hS, hc, _, hrun, refused_call_leaves_transaction rfl hS hc hrun⟩

end Tree
end IndexedStore
