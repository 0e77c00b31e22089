import IndexedStore.Proofs.Furnishing
import IndexedStore.Proofs.Outcomes

/-! # Upserts one by one

The worker's transactions are measured against the plainest writer there is: one that upserts items
one after another, each against the store that the one before left, and skips those that fail. An
upsert that fails leaves no trace in the worker's open transaction but empty tables, so with the
missing index tables supplied the transaction works on the very store that the plain writer reaches.
-/
namespace IndexedStore

namespace Tree
variable {t : Tree} {S S' : Store} {database : String} {i : Item}

/-- The store after an item has been upserted in a write transaction that works on a store. -/
def upserting (t : Tree) (database : String) (S : Store) (i : Item) : Except Failure Store :=
  match (t.upsert i.key i.value).run ⟨⟨database, .working S⟩, 0, {}⟩ with
  | (.ok (), ⟨⟨_, .working S'⟩, _, _⟩) => .ok S'
  | (.ok (), _) => .error .writeRequired
  | (.error e, _) => .error e

/-- Neither the entry count nor the counters have a say in an upsert. -/
theorem upserting_eq (h : t.Furnished S) (database : String) (i : Item) :
    t.upserting database S i = (t.ifOwn database (t.merging i.key i.value S)).map Prod.snd := by
  have hrun := run_upsert (s := ⟨⟨database, .working S⟩, 0, {}⟩) h i.key i.value
  change Attempt.run _ (⟨⟨database, .working S⟩, 0, {}⟩ : Scope) = _ at hrun
  rw [upserting, hrun]
  rcases t.ifOwn database (t.merging i.key i.value S) with e | ⟨replaced, S'⟩ <;> rfl

/-- How a store compares with an earlier one after an item was upserted with that answer: with the
missing index tables supplied, it is the one that the plain writer reaches. -/
def Follows (t : Tree) (database : String) (i : Item) (S : Store) :
    Except Failure Unit → Store → Prop
  | .ok (), S' => t.upserting database (t.furnish S) i = .ok (t.furnish S')
  | .error e, S' => t.upserting database (t.furnish S) i = .error e ∧ t.furnish S' = t.furnish S

theorem upsert_follows (hS : t.Openable S) (s : Scope) (i : Item) :
    ∃ r s' S', (t.upsert i.key i.value).run (s.on S) = (r, Scope.on s' S') ∧
      s'.txn.database = s.txn.database ∧ t.Retains S S' ∧ t.Follows s.txn.database i S r S' := by
  obtain ⟨r, s', S', hrun, hrun', hkeep⟩ := oblivious_upsert i.key i.value s S hS
  -- a failed upsert is known to leave a furnished store as it is
  have hspec := run_upsert (s := s) (furnished_furnish t S) i.key i.value
  rw [hrun'] at hspec
  have heq := upserting_eq (furnished_furnish t S) s.txn.database i
  refine ⟨r, s', S', hrun, ?_⟩
  cases hm : t.ifOwn s.txn.database (t.merging i.key i.value (t.furnish S)) with
  | error e =>
    simp only [hm] at hspec heq
    obtain ⟨rfl, hs⟩ := Prod.mk.inj hspec
    exact ⟨congrArg (·.txn.database) hs, hkeep, heq,
      View.working.inj (congrArg (·.txn.view) hs)⟩
  | ok a =>
    rcases a with ⟨replaced, S''⟩
    simp only [hm] at hspec heq
    obtain ⟨rfl, hs⟩ := Prod.mk.inj hspec
    have hstore : t.furnish S' = S'' := View.working.inj (congrArg (·.txn.view) hs)
    refine ⟨(congrArg (·.txn.database) hs).trans ?_, hkeep, ?_⟩
    · cases replaced <;> rfl
    · rw [Follows, hstore]
      exact heq

/-- The plain writer cannot tell whether index tables are missing. -/
theorem upserting_furnish (hS : t.Openable S) (database : String) (i : Item) :
    t.upserting database (t.furnish S) i = (t.upserting database S i).map t.furnish ∧
      ∀ S', t.upserting database S i = .ok S' → t.Retains S S' := by
  obtain ⟨r, s', S', hrun, hrun', hkeep⟩ :=
    oblivious_upsert i.key i.value ⟨⟨database, .working S⟩, 0, {}⟩ S hS
  have hplain : t.upserting database S i = r.map fun _ => S' := by
    change Attempt.run _ (⟨⟨database, .working S⟩, 0, {}⟩ : Scope) = _ at hrun
    rw [upserting, hrun]
    cases r <;> rfl
  have hfurnished : t.upserting database (t.furnish S) i = r.map fun _ => t.furnish S' := by
    change Attempt.run _ (⟨⟨database, .working (t.furnish S)⟩, 0, {}⟩ : Scope) = _ at hrun'
    rw [upserting, hrun']
    cases r <;> rfl
  rw [hplain, hfurnished]
  cases r with
  | error e => exact ⟨rfl, nofun⟩
  | ok _ => exact ⟨rfl, fun S'' h => Except.ok.inj h ▸ hkeep⟩

end Tree

namespace Ingest
variable {t : Tree} {S S' : Store} {database : String} {i : Item} {b b' : Batch}

theorem replay_upsert {r : Except Failure Unit} (hS : t.Openable S)
    (hb : b.txn = ⟨database, .working S⟩) (hu : b.upsert t i = (r, b')) :
    ∃ S', b'.txn = ⟨database, .working S'⟩ ∧ t.Retains S S' ∧ t.Follows database i S r S' := by
  let s : Scope := ⟨⟨database, .working S⟩, b.ingest.session.entryCount,
    b.ingest.session.database.statistics⟩
  obtain ⟨hr, hb'⟩ := Prod.mk.inj hu
  obtain ⟨r', s', S', hrun, hown, hkeep, hfollows⟩ := Tree.upsert_follows hS s i
  have hscope : b.ingest.session.database.scope b.txn b.ingest.session.entryCount = s.on S := by
    rw [hb]
    rfl
  change ((t.upsert i.key i.value).run _).1 = r at hr
  rw [hscope, hrun] at hr
  have htxn : b'.txn = (s'.on S').txn := by
    have hafter := congrArg (fun x => x.2.txn) hrun
    rw [← hscope] at hafter
    exact (congrArg Batch.txn hb').symm.trans hafter
  refine ⟨S', htxn.trans ?_, hkeep, hr ▸ hfollows⟩
  exact congrArg (Txn.mk · (.working S')) hown

theorem replay_failed {e : Failure} (hS : t.Openable S) (hb : b.txn = ⟨database, .working S⟩)
    (hu : b.upsert t i = (.error e, b')) :
    ∃ S', b'.txn = ⟨database, .working S'⟩ ∧ t.Retains S S' ∧
      (∃ e, t.upserting database (t.furnish S) i = .error e) ∧ t.furnish S' = t.furnish S := by
  obtain ⟨S', htxn, hkeep, hfail, hsame⟩ := replay_upsert hS hb hu
  exact ⟨S', htxn, hkeep, ⟨e, hfail⟩, hsame⟩

/-- What an item's write comes to in the open transaction, retries and all. -/
theorem replay_write (t : Tree) (i : Item) (left : Nat) (b : Batch) :
    ∀ database S, t.Openable S → b.txn = ⟨database, .working S⟩ →
      ∃ S', (b.write t i left).2.txn = ⟨database, .working S'⟩ ∧ t.Retains S S' ∧
        match (b.write t i left).1 with
        | .written => t.upserting database (t.furnish S) i = .ok (t.furnish S')
        | _ => (∃ e, t.upserting database (t.furnish S) i = .error e) ∧
            t.furnish S' = t.furnish S := by
  fun_induction Batch.write t i left b with
  | case1 left b b' hu => exact fun _ S hS hb => replay_upsert hS hb hu
  | case3 b e b' hu config _ left attempt _ ih =>
    intro database S hS hb
    obtain ⟨S₁, htxn, hkeep, -, hsame⟩ := replay_failed hS hb hu
    obtain ⟨S', htxn', hkeep', hlater⟩ := ih database S₁ (hkeep.openable hS) htxn
    rw [hsame] at hlater
    exact ⟨S', htxn', hkeep.trans hkeep', hlater⟩
  | case2 left b e b' hu | case4 b e b' hu | case5 left b e b' hu | case6 left b e b' hu =>
    intro database S hS hb
    have hafter := replay_failed hS hb hu
    exact hafter

/-- The items in hand were upserted one after another, and the settled ones failed to be. -/
inductive Replayed (t : Tree) (database : String) : Store → List (Item × Outcome) → Store → Prop
  | nil {S : Store} : Replayed t database S [] S
  | upserted {S S' S'' : Store} {i : Item} {l : List (Item × Outcome)}
    (now : t.upserting database S i = .ok S')
    (later : Replayed t database S' l S'') : Replayed t database S ((i, .processed) :: l) S''
  | failed {S S' : Store} {i : Item} {o : Outcome} {e : Failure} {l : List (Item × Outcome)}
    (now : t.upserting database S i = .error e) (settled : o ≠ .processed)
    (later : Replayed t database S l S') : Replayed t database S ((i, o) :: l) S'

theorem Replayed.foldlM {l : List (Item × Outcome)} (h : Replayed t database S l S') :
    (Outcome.processedOf l).foldlM (t.upserting database) S = .ok S' := by
  induction h with
  | nil => rfl
  | @upserted S S₁ S₂ i l now later ih =>
    change (t.upserting database S i >>= fun S => _) = _
    rw [now]
    exact ih
  | @failed S S₁ i o e l now settled later ih =>
    cases o with
    | processed => exact absurd rfl settled
    | _ => exact ih

theorem Replayed.append {l m : List (Item × Outcome)} {S'' : Store}
    (h : Replayed t database S l S') (h' : Replayed t database S' m S'') :
    Replayed t database S (l ++ m) S'' := by
  induction h with
  | nil => exact h'
  | upserted now _ ih => exact .upserted now (ih h')
  | failed now settled _ ih => exact .failed now settled (ih h')

end Ingest
end IndexedStore
