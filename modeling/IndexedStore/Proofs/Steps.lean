import IndexedStore.Txn
import IndexedStore.Proofs.Store

/-! # Steps in a write transaction

A step is run from a scope whose transaction works on a store, written `s.on S`. Each basic step is
described once by its answer and the scope it leaves; longer steps are chained from these.
-/
namespace IndexedStore

namespace Attempt
variable {σ α β : Type} {x : Attempt σ α} {s s' : σ}

theorem run_bind_ok {a : α} (h : x.run s = (.ok a, s')) (f : α → Attempt σ β) :
    (x >>= f).run s = (f a).run s' := by
  rw [run_bind, h]

theorem run_bind_error {e : Failure} (h : x.run s = (.error e, s')) (f : α → Attempt σ β) :
    (x >>= f).run s = (.error e, s') := by
  rw [run_bind, h]

/-- A chain that succeeds has two halves that succeed. -/
theorem run_bind_eq_ok {f : α → Attempt σ β} {b : β} :
    (x >>= f).run s = (.ok b, s') ↔
      ∃ a s₁, x.run s = (.ok a, s₁) ∧ (f a).run s₁ = (.ok b, s') := by
  rw [run_bind]
  rcases x.run s with ⟨e | a, s₁⟩
  · simp
  · simp [Prod.ext_iff]

theorem run_ofExcept_eq_ok {r : Except Failure α} {a : α} :
    (ofExcept r : Attempt σ α).run s = (.ok a, s') ↔ r = .ok a ∧ s = s' := by
  rw [run_ofExcept, Prod.mk.injEq]

theorem run_require (holds : Bool) (e : Failure) (s : σ) :
    (require holds e).run s = (if holds then .ok () else .error e, s) := by
  cases holds <;> rfl

/-- Dropping an answer keeps the failure and the state. -/
theorem run_discard (x : Attempt σ α) (s : σ) :
    (discard x : Attempt σ PUnit).run s = ((x.run s).1.map fun _ => (), (x.run s).2) := by
  change (x >>= fun _ => pure ()).run s = _
  rw [run_bind]
  rcases x.run s with ⟨_ | _, _⟩ <;> rfl

theorem run_map (f : α → β) (x : Attempt σ α) (s : σ) :
    (f <$> x).run s = ((x.run s).1.map f, (x.run s).2) := by
  change (x >>= fun a => pure (f a)).run s = _
  rw [run_bind]
  rcases x.run s with ⟨_ | _, _⟩ <;> rfl

/-- Bare answers have the property, and of two steps that have it the one after the other has it as
well. So whatever is put together from steps that have it has it too. -/
structure Chained (P : (α : Type) → Attempt σ α → Prop) : Prop where
  pure : ∀ {α : Type} (a : α), P α (Pure.pure a)
  bind : ∀ {α β : Type} {x : Attempt σ α} {f : α → Attempt σ β}, P α x → (∀ a, P β (f a)) →
    P β (x >>= f)

namespace Chained
variable {P : (α : Type) → Attempt σ α → Prop} (h : Chained P) {l : List α}
include h

theorem forM {f : α → Attempt σ Unit} (hf : ∀ a ∈ l, P Unit (f a)) : P Unit (l.forM f) := by
  induction l with
  | nil => exact h.pure ()
  | cons a rest ih =>
    have hrest : P Unit (rest.forM f) := ih fun b hb => hf b (List.mem_cons_of_mem _ hb)
    exact h.bind (hf a List.mem_cons_self) fun _ => hrest

theorem mapM {f : α → Attempt σ β} (hf : ∀ a ∈ l, P β (f a)) : P (List β) (l.mapM f) := by
  induction l with
  | nil => exact h.pure []
  | cons a rest ih =>
    have hrest : P (List β) (rest.mapM f) := ih fun b hb => hf b (List.mem_cons_of_mem _ hb)
    rw [List.mapM_cons]
    exact h.bind (hf a List.mem_cons_self) fun _ => h.bind hrest fun _ => h.pure _

end Chained

end Attempt

namespace Scope
variable {s : Scope} {S : Store}

/-- The scope with a transaction that works on a store. -/
def on (s : Scope) (S : Store) : Scope := { s with txn := { s.txn with view := .working S } }

/-- The scope with its entry count moved. -/
def bumped (s : Scope) (delta : Int64) : Scope := { s with entryCount := s.entryCount + delta }

/-- The scope with something counted. -/
def counted (s : Scope) (f : Statistics → Statistics) : Scope :=
  { s with statistics := f s.statistics }

theorem eq_on (h : s.txn.view = .working S) : s = s.on S := by
  rcases s with ⟨⟨d, v⟩, n, c⟩
  cases h
  rfl

@[simp] theorem on_database (s : Scope) (S : Store) :
    (s.on S).txn.database = s.txn.database := rfl

theorem run_writable (s : Scope) (S : Store) : writable.run (s.on S) = (.ok S, s.on S) := rfl

theorem run_put (s : Scope) (S S' : Store) : (put S').run (s.on S) = (.ok (), s.on S') := rfl

theorem run_bump (s : Scope) (S : Store) (d : Int64) :
    (bump d).run (s.on S) = (.ok (), (s.bumped d).on S) := rfl

theorem run_count (s : Scope) (S : Store) (f : Statistics → Statistics) :
    (count f).run (s.on S) = (.ok (), (s.counted f).on S) := rfl

theorem run_putTable (s : Scope) (S : Store) (n : String) (T : Table) :
    (putTable n T).run (s.on S) = (.ok (), s.on (S.putTable n T)) := rfl

theorem run_putPairs (s : Scope) (S : Store) (n : String) (P : PairTable) :
    (putPairs n P).run (s.on S) = (.ok (), s.on (S.putPairs n P)) := rfl

theorem run_openTable (s : Scope) (S : Store) (n : String) :
    (openTable n).run (s.on S) =
      match S.table? n with
      | some T => (.ok T, s.on S)
      | none => (.error (.tableMissing n), s.on S) := rfl

theorem run_openTableToWrite (s : Scope) (S : Store) (n : String) :
    (openTableToWrite n).run (s.on S) =
      match S.table? n with
      | some T => (.ok T, s.on S)
      | none => (.error (.tableMissing n), s.on S) := by
  rw [openTableToWrite, Attempt.run_bind_ok (run_writable s S)]
  cases S.table? n <;> rfl

theorem run_openPairsToWrite (s : Scope) (S : Store) (n : String) :
    (openPairsToWrite n).run (s.on S) =
      match S.openPairs n with
      | .ok P => (.ok P, s.on (S.putPairs n P))
      | .error e => (.error e, s.on S) := by
  rw [openPairsToWrite, Attempt.run_bind_ok (run_writable s S), Attempt.run_bind,
    Attempt.run_ofExcept]
  cases S.openPairs n <;> rfl

/-- A paired table that exists is opened without a trace. -/
theorem run_openPairsToWrite_of_pairs? {n : String} {P : PairTable} (h : S.pairs? n = some P) :
    (openPairsToWrite n).run (s.on S) = (.ok P, s.on S) := by
  simp only [run_openPairsToWrite, Store.openPairs_of_pairs? h, Store.putPairs_pairs? h]

theorem run_openPairs (s : Scope) (S : Store) (n : String) :
    (openPairs n).run (s.on S) = (openPairsToWrite n).run (s.on S) := rfl

theorem run_observed {α : Type} (x : Attempt Scope α) (s : Scope) :
    (observed x).run s =
      match x.run s with
      | (.ok a, s) => (.ok a, s)
      | (.error e, s) => (.error e, s.counted (·.recordError e.code)) := rfl

end Scope
end IndexedStore
