import IndexedStore.Cursor
import IndexedStore.Proofs.Calls
import Mathlib.Order.RelClasses

/-! # What steps inside a transaction write

Whatever a step does, whether it succeeds or fails, it gets from one store to the next by a few
writes: tables of attached indexes, and the table of its tree once that has been found to exist. A
relation between stores that allows these writes therefore relates the store before any step to the
one after it. A reader's step leaves what its transaction sees.
-/
namespace IndexedStore

/-! ## Steps that respect a relation -/

namespace Attempt
variable {σ α β : Type} {R : σ → σ → Prop} {x : Attempt σ α}

/-- Whatever the step does and however it ends, the state after it is related to the one before. -/
def Respects (R : σ → σ → Prop) (x : Attempt σ α) : Prop := ∀ s, R s (x.run s).2

theorem respects_update {f : σ → σ} (h : ∀ s, R s (f s)) : (update f).Respects R := h

variable [IsPreorder σ R]

theorem respects_of_state_eq (h : ∀ s, (x.run s).2 = s) : x.Respects R := by
  intro s
  rw [h]
  exact refl_of R s

theorem respects_pure (a : α) : (pure a : Attempt σ α).Respects R :=
  respects_of_state_eq fun _ => rfl

theorem respects_fail (e : Failure) : (fail e : Attempt σ α).Respects R :=
  respects_of_state_eq fun _ => rfl

theorem respects_ofExcept (r : Except Failure α) : (ofExcept r : Attempt σ α).Respects R :=
  respects_of_state_eq fun _ => rfl

theorem respects_state : (state : Attempt σ σ).Respects R := respects_of_state_eq fun _ => rfl

theorem respects_require (holds : Bool) (e : Failure) :
    (require holds e : Attempt σ Unit).Respects R :=
  respects_of_state_eq fun s => by rw [run_require]

theorem Respects.bind {f : α → Attempt σ β} (hx : x.Respects R) (hf : ∀ a, (f a).Respects R) :
    (x >>= f).Respects R := by
  intro s
  have hstep := hx s
  rw [run_bind]
  rcases hrun : x.run s with ⟨e | a, s'⟩
  · rwa [hrun] at hstep
  · rw [hrun] at hstep
    exact trans_of R hstep (hf a s')

theorem Respects.discard (hx : x.Respects R) : (discard x : Attempt σ PUnit).Respects R :=
  hx.bind fun _ => respects_pure _

theorem Respects.map (hx : x.Respects R) (f : α → β) : (f <$> x).Respects R :=
  hx.bind fun a => respects_pure (f a)

theorem chained_respects : Chained fun _ (x : Attempt σ _) => x.Respects R :=
  ⟨respects_pure, Respects.bind⟩

end Attempt

/-- A transaction sees what it saw, or it is a writer whose store is related to the one before. -/
inductive View.Rel (R : Store → Store → Prop) : View → View → Prop
  | refl (v : View) : View.Rel R v v
  | working {S S' : Store} (h : R S S') : View.Rel R (.working S) (.working S')

namespace View
variable {R R' : Store → Store → Prop} {v v' : View}

instance (R : Store → Store → Prop) [IsPreorder Store R] : IsPreorder View (Rel R) where
  refl := .refl
  trans v v' v'' h h' := by
    cases h with
    | refl => exact h'
    | working h =>
      cases h' with
      | refl => exact .working h
      | working h' => exact .working (trans_of R h h')

theorem Rel.imp (h : v.Rel R v') (hR : ∀ S S', R S S' → R' S S') : v.Rel R' v' := by
  cases h with
  | refl => exact .refl v
  | working h => exact .working (hR _ _ h)

end View

/-- The transaction is on the same database, and what it sees has changed as a relation allows. -/
structure Txn.Rel (R : Store → Store → Prop) (x x' : Txn) : Prop where
  database : x'.database = x.database
  view : x.view.Rel R x'.view

namespace Txn
variable {R : Store → Store → Prop}

theorem Rel.refl (x : Txn) : x.Rel R x := ⟨rfl, .refl _⟩

instance (R : Store → Store → Prop) [IsPreorder Store R] : IsPreorder Txn (Rel R) where
  refl := .refl
  trans _ _ _ h h' := ⟨h'.database.trans h.database, trans_of (View.Rel R) h.view h'.view⟩

theorem Rel.of_working [IsPreorder Store R] {x x' : Txn} {S S' : Store} (h : x.Rel R x')
    (hx : x.view = .working S) (hx' : x'.view = .working S') : R S S' := by
  have hview := h.view
  rw [hx, hx'] at hview
  cases hview with
  | refl => exact refl_of R S
  | working h => exact h

end Txn

/-- Where there is a table of the name it stays, and the stores are related. -/
def Store.Given (n : String) (R : Store → Store → Prop) (S S' : Store) : Prop :=
  (S.table? n).isSome → R S S' ∧ (S'.table? n).isSome

instance (n : String) (R : Store → Store → Prop) [IsPreorder Store R] :
    IsPreorder Store (Store.Given n R) where
  refl S there := ⟨refl_of R S, there⟩
  trans _ _ _ h h' there := by
    obtain ⟨hR, there⟩ := h there
    obtain ⟨hR', there⟩ := h' there
    exact ⟨trans_of R hR hR', there⟩

/-- The step changes the store of a writer as a relation allows, and no reader's. -/
abbrev Scope.Within {α : Type} (R : Store → Store → Prop) (x : Attempt Scope α) : Prop :=
  x.Respects (Order.Preimage Scope.txn (Txn.Rel R))

open Attempt

namespace Scope
variable {R : Store → Store → Prop} {α β : Type} {x : Attempt Scope α} {n : String}

theorem within_of_txn_eq (h : ∀ s, (x.run s).2.txn = s.txn) : Within R x := by
  intro s
  change s.txn.Rel R (x.run s).2.txn
  rw [h]
  exact .refl _

/-- A step that goes on from the store of a write transaction. -/
theorem within_writable_bind {f : Store → Attempt Scope α}
    (h : ∀ (s : Scope) (S : Store), Txn.Rel R (s.on S).txn ((f S).run (s.on S)).2.txn) :
    Within R (writable >>= f) := by
  intro s
  change s.txn.Rel R ((writable >>= f).run s).2.txn
  cases hview : s.txn.view with
  | working S =>
    rw [eq_on hview, run_bind_ok (run_writable s S)]
    exact h s S
  | _ =>
    have hrun : writable.run s = (.error .writeRequired, s) := by
      simp only [Attempt.run, writable, hview]
    rw [run_bind_error hrun f]
    exact .refl _

theorem within_writable : Within R writable := by
  refine within_of_txn_eq fun s => ?_
  simp only [Attempt.run, writable]
  split <;> rfl

theorem state_openTable (n : String) (s : Scope) : ((openTable n).run s).2 = s := by
  simp only [Attempt.run, openTable]
  split
  · split <;> rfl
  · rfl
  · rfl

theorem within_openTable (n : String) : Within R (openTable n) :=
  within_of_txn_eq fun s => by rw [state_openTable]

theorem within_openTableToWrite (n : String) : Within R (openTableToWrite n) := by
  refine within_writable_bind fun s S => ?_
  cases S.table? n <;> exact .refl _

theorem within_putTable (T : Table) (h : ∀ S, R S (S.putTable n T)) : Within R (putTable n T) :=
  within_writable_bind fun _ S => ⟨rfl, .working (h S)⟩

theorem within_putPairs (P : PairTable) (h : ∀ S, R S (S.putPairs n P)) :
    Within R (putPairs n P) :=
  within_writable_bind fun _ S => ⟨rfl, .working (h S)⟩

theorem within_openPairsToWrite (h : ∀ S P, R S (S.putPairs n P)) :
    Within R (openPairsToWrite n) := by
  refine within_writable_bind fun s S => ?_
  rw [run_bind, run_ofExcept]
  cases S.openPairs n with
  | error e => exact .refl _
  | ok P => exact ⟨rfl, .working (h S P)⟩

theorem within_openPairs (h : ∀ S P, R S (S.putPairs n P)) : Within R (openPairs n) := by
  intro s
  have hwrite := within_openPairsToWrite h s
  simp only [Attempt.run, openPairs, Order.Preimage] at hwrite ⊢
  split
  · exact hwrite
  · exact .refl _
  · exact .refl _

theorem within_bump (d : Int64) : Within R (bump d) := within_of_txn_eq fun _ => rfl

theorem within_count (f : Statistics → Statistics) : Within R (count f) :=
  within_of_txn_eq fun _ => rfl

theorem Within.observed (hx : Within R x) : Within R (Scope.observed x) := by
  intro s
  have hstep := hx s
  simp only [Order.Preimage] at hstep ⊢
  rw [run_observed]
  rcases hrun : x.run s with ⟨_ | _, s'⟩
  · rwa [hrun] at hstep
  · rwa [hrun] at hstep

/-- What comes after a table has been found may rely on it. -/
theorem rel_of_given (h : Within (Store.Given n R) x) (s : Scope)
    (there : ∀ S, s.txn.view = .working S → (S.table? n).isSome) :
    s.txn.Rel R (x.run s).2.txn := by
  obtain ⟨hdatabase, hview⟩ := h s
  refine ⟨hdatabase, ?_⟩
  generalize s.txn.view = v at hview there
  generalize (x.run s).2.txn.view = v' at hview
  cases hview with
  | refl => exact .refl _
  | working h => exact .working (h (there _ rfl)).1

theorem within_openTable_bind {f : Table → Attempt Scope α}
    (h : ∀ T, Within (Store.Given n R) (f T)) : Within R (openTable n >>= f) := by
  intro s
  change s.txn.Rel R ((openTable n >>= f).run s).2.txn
  have hsame := state_openTable n s
  cases hopen : (openTable n).run s with
  | mk r s' =>
    obtain rfl : s' = s := by rwa [hopen] at hsame
    cases r with
    | error e =>
      rw [run_bind_error hopen]
      exact .refl _
    | ok T =>
      rw [run_bind_ok hopen]
      refine rel_of_given (h T) s' fun S hview => ?_
      rw [eq_on hview, run_openTable] at hopen
      split at hopen
      · rename_i hT
        rw [hT]
        rfl
      · cases hopen

theorem within_openTableToWrite_bind {f : Table → Attempt Scope α}
    (h : ∀ T, Within (Store.Given n R) (f T)) : Within R (openTableToWrite n >>= f) := by
  rw [openTableToWrite, bind_assoc]
  refine within_writable_bind fun s S => ?_
  cases hT : S.table? n with
  | none => exact .refl _
  | some T =>
    refine rel_of_given (h T) _ fun S' hview => ?_
    cases hview
    rw [hT]
    rfl

end Scope

/-! ## Entries and scans -/

/-- The relation allows the table of the tree to be written where there is one, and the tables of
the attached indexes there. -/
structure Tree.Writes (t : Tree) (R : Store → Store → Prop) : Prop where
  entries : ∀ S T, (S.table? t.name).isSome → R S (S.putTable t.name T)
  pairs : ∀ i ∈ t.indexes, ∀ S P, (S.table? t.name).isSome → R S (S.putPairs (t.indexTable i) P)

namespace Tree
open Scope
variable {t : Tree} {α : Type} {R : Store → Store → Prop}

/-- The relation between stores where the tree is. -/
abbrev There (t : Tree) (R : Store → Store → Prop) : Store → Store → Prop := Store.Given t.name R

theorem Writes.entries_there (h : t.Writes R) (T : Table) (S : Store) :
    t.There R S (S.putTable t.name T) := by
  refine fun there => ⟨h.entries S T there, ?_⟩
  rw [Store.table?_putTable_self]
  rfl

theorem Writes.pairs_there (h : t.Writes R) {i : Index} (hi : i ∈ t.indexes) (S : Store)
    (P : PairTable) : t.There R S (S.putPairs (t.indexTable i) P) :=
  fun there => ⟨h.pairs i hi S P there, there⟩

theorem within_requireOwn : Within R t.requireOwn :=
  within_of_txn_eq fun s => by rw [run_requireOwn]

variable [IsPreorder Store R]

section Pairs
variable (h : ∀ i ∈ t.indexes, ∀ S P, R S (S.putPairs (t.indexTable i) P))
include h

theorem within_preparedKeys (key value : Bytes) : Within R (t.preparedKeys key value) :=
  chained_preparedKeys chained_respects (fun i hi _ => within_openPairs (h i hi))
    (fun _ _ _ _ => respects_require _ _) value

theorem within_addPairs (key : Bytes) (keys : List (Option Bytes)) :
    Within R (t.addPairs key keys) := by
  refine chained_addPairs chained_respects (fun i hi indexKey => ?_) keys
  exact (within_openPairsToWrite (h i hi)).bind fun _ => within_putPairs _ fun S => h i hi S _

theorem within_removePairs (key value : Bytes) : Within R (t.removePairs key value) := by
  refine chained_removePairs chained_respects (fun i hi indexKey => ?_) value
  exact (within_openPairsToWrite (h i hi)).bind fun _ => within_putPairs _ fun S => h i hi S _

end Pairs

theorem within_get (key : Bytes) : Within R (t.get key) := by
  refine Within.observed (within_requireOwn.bind fun _ => (within_openTable _).bind fun T => ?_)
  cases T.get? key with
  | none => exact respects_fail _
  | some value => exact (within_count _).bind fun _ => respects_pure value

theorem within_contains (key : Bytes) : Within R (t.contains key) := by
  intro s
  have hopen : Within R (do t.requireOwn; Scope.openTable t.name : Attempt Scope Table) :=
    within_requireOwn.bind fun _ => within_openTable _
  have hstep := hopen s
  simp only [Order.Preimage, Attempt.run, contains] at hstep ⊢
  split
  · rename_i hrun
    rwa [hrun] at hstep
  · rename_i hrun
    rwa [hrun] at hstep

theorem within_getMany (keys : List Bytes) : Within R (t.getMany keys) :=
  within_requireOwn.bind fun _ => (within_openTable _).bind fun _ => respects_pure _

theorem within_containsMany (keys : List Bytes) : Within R (t.containsMany keys) :=
  within_requireOwn.bind fun _ => (within_openTable _).bind fun _ => respects_pure _

theorem Within.scanned {x : Attempt Scope α} (hx : Within R x) : Within R (t.scanned x) := by
  refine within_requireOwn.bind fun _ => Within.observed fun s => ?_
  exact hx s

theorem within_matching {σ : Type} (low high : Option Bytes) (holds : Condition σ) (start : σ)
    (max : Nat) : Within R (t.matching low high holds start max) :=
  (within_openTable _).bind fun _ => respects_pure _

section Writes
variable (h : t.Writes R)
include h

/-! A step that writes finds the table of the tree first, and from then on it is there. -/

theorem Writes.insertEntry (key value : Bytes) : Within R (t.insertEntry key value) :=
  (respects_require _ _).bind fun _ => within_openTableToWrite_bind fun _ =>
    (respects_require _ _).bind fun _ =>
      (within_preparedKeys (fun _ => h.pairs_there) key value).bind fun keys =>
        (within_addPairs (fun _ => h.pairs_there) key keys).bind fun _ =>
          (within_putTable _ (h.entries_there _)).bind fun _ => within_bump 1

theorem Writes.replaceEntry (key value : Bytes) : Within R (t.replaceEntry key value) := by
  refine (respects_require _ _).bind fun _ => within_openTableToWrite_bind fun T =>
    (within_preparedKeys (fun _ => h.pairs_there) key value).bind fun keys => ?_
  have hadd : Within (t.There R) (t.addPairs key keys) :=
    within_addPairs (fun _ => h.pairs_there) key keys
  have hput : Within (t.There R) (putTable t.name (T.insert key value)) :=
    within_putTable _ (h.entries_there _)
  cases T.get? key with
  | some old =>
    exact (within_removePairs (fun _ => h.pairs_there) key old).bind fun _ =>
      hadd.bind fun _ => hput.bind fun _ => respects_pure true
  | none =>
    exact hadd.bind fun _ => hput.bind fun _ => (within_bump 1).bind fun _ => respects_pure false

theorem Writes.mergeEntry (key value : Bytes) : Within R (t.mergeEntry key value) := by
  unfold Tree.mergeEntry
  cases t.merge? with
  | none => exact h.replaceEntry key value
  | some merge =>
    refine (within_openTable _).bind fun T => ?_
    cases T.get? key with
    | none => exact h.replaceEntry key value
    | some old =>
      simp only
      cases merge old value with
      | none => exact respects_fail _
      | some merged => exact h.replaceEntry key merged

theorem Writes.removeEntry (key : Bytes) : Within R (t.removeEntry key) := by
  refine within_openTableToWrite_bind fun T => ?_
  cases T.get? key with
  | none => exact respects_pure false
  | some old =>
    exact (within_removePairs (fun _ => h.pairs_there) key old).bind fun _ =>
      (within_putTable _ (h.entries_there _)).bind fun _ =>
        (within_bump (-1)).bind fun _ => respects_pure true

theorem Writes.insert (key value : Bytes) : Within R (t.insert key value) :=
  Within.observed (within_requireOwn.bind fun _ =>
    (h.insertEntry key value).bind fun _ => within_count _)

theorem Writes.update (key value : Bytes) : Within R (t.update key value) :=
  Within.observed (within_requireOwn.bind fun _ =>
    (h.replaceEntry key value).bind fun _ => within_count _)

theorem Writes.upsert (key value : Bytes) : Within R (t.upsert key value) :=
  Within.observed (within_requireOwn.bind fun _ =>
    (h.mergeEntry key value).bind fun _ => within_count _)

theorem Writes.delete (key : Bytes) : Within R (t.delete key) := by
  refine Within.observed (within_requireOwn.bind fun _ =>
    (h.removeEntry key).bind fun removed => ?_)
  cases removed with
  | false => exact respects_pure false
  | true => exact (within_count _).bind fun _ => respects_pure true

theorem Writes.modify (key : Bytes) (f : Option Bytes → Option Bytes) :
    Within R (t.modify key f) := by
  have hcurrent : Within R (t.current key) :=
    within_requireOwn.bind fun _ => within_writable.bind fun _ =>
      (within_openTable _).bind fun _ => respects_pure _
  refine hcurrent.bind fun old? => ?_
  cases f old? with
  | some value => exact h.update key value
  | none =>
    simp only
    split
    · exact (h.delete key).discard
    · exact respects_pure ()

theorem Writes.removeMatch (e : Entry) : Within (t.There R) (t.removeMatch e) :=
  (within_removePairs (fun _ => h.pairs_there) e.1 e.2).bind fun _ =>
    (within_openTableToWrite _).bind fun _ => (within_putTable _ (h.entries_there _)).bind fun _ =>
      (within_bump (-1)).bind fun _ => within_count _

theorem Writes.deleting {σ : Type} (low high : Option Bytes) (holds : Condition σ) (start : σ) :
    Within R (t.deleting low high holds start) := by
  refine Within.scanned (within_writable.bind fun _ => ?_)
  rw [matching, bind_assoc]
  exact within_openTable_bind fun _ => (respects_pure _).bind fun _ =>
    (chained_respects.forM fun e _ => h.removeMatch e).bind fun _ => respects_pure _

theorem Writes.entryCall (c : EntryCall) : Within R (c.step t) := by
  cases c with
  | insert key value => exact h.insert key value
  | update key value => exact h.update key value
  | upsert key value => exact h.upsert key value
  | delete key => exact (h.delete key).discard
  | modify key f => exact h.modify key f
  | insertMany items => exact chained_respects.forM fun e _ => h.insert e.1 e.2
  | upsertMany items => exact chained_respects.forM fun e _ => h.upsert e.1 e.2
  | deleteIf low high holds start => exact ((h.deleting low high holds start).map _).discard

end Writes

end Tree

/-! ## Cursors -/

/-- The relation allows the table that the cursor runs over to be written, and where it stands on
an entry what a deletion of the entry writes. -/
structure Cursor.Writes (t : Tree) (c : Cursor) (R : Store → Store → Prop) : Prop where
  pairs : ∀ i ∈ c.index?, ∀ S P, R S (S.putPairs (t.indexTable i) P)
  deletion : c.index? = none → c.position.isSome →
    (∀ i ∈ t.indexes, ∀ S P, R S (S.putPairs (t.indexTable i) P)) ∧
      ∀ S T, (S.table? t.name).isSome → R S (S.putTable t.name T)

namespace Cursor
variable {t : Tree} {c : Cursor} {R : Store → Store → Prop} [IsPreorder Store R] {s : Scope}

theorem within_overTree : Scope.Within R (overTree t) :=
  Tree.within_requireOwn.bind fun _ => respects_pure _

theorem within_overIndex (n : String) : Scope.Within R (overIndex t n) :=
  Tree.within_requireOwn.bind fun _ => (respects_ofExcept _).bind fun _ => respects_pure _

section Pairs
variable (h : ∀ i ∈ c.index?, ∀ S P, R S (S.putPairs (t.indexTable i) P))
include h

theorem within_look (p : Place) : Scope.Within R (c.look t p) := by
  unfold look
  cases hi : c.index? with
  | none => exact (Scope.within_openTable _).bind fun _ => respects_pure _
  | some i => exact (Scope.within_openPairs (h i hi)).bind fun _ => respects_pure _

theorem within_landing (p : Place) : Scope.Within R (c.landing t p) := by
  unfold landing
  split
  · exact (within_look h _).bind fun _ => respects_pure _
  · exact within_look h _

theorem rel_moveTo (p : Place) (s : Scope) :
    s.txn.Rel R ((moveTo t p).run (c, s)).2.2.txn := by
  have hstep := within_landing h p s
  simp only [Order.Preimage, Attempt.run, moveTo] at hstep ⊢
  split <;> rename_i hrun <;> rwa [hrun] at hstep

theorem rel_next (s : Scope) : s.txn.Rel R ((next t).run (c, s)).2.2.txn := by
  have hmove := fun e => rel_moveTo h (.after e) s
  simp only [Attempt.run, next] at hmove ⊢
  split
  · exact .refl _
  · exact hmove _

theorem rel_prev (s : Scope) : s.txn.Rel R ((prev t).run (c, s)).2.2.txn := by
  have hmove := fun e => rel_moveTo h (.before e) s
  simp only [Attempt.run, prev] at hmove ⊢
  split
  · exact .refl _
  · exact hmove _

end Pairs

theorem Writes.remove (h : c.Writes t R) {e : Entry} (he : c.position = some e) :
    Scope.Within R (c.remove t e) := by
  unfold Cursor.remove
  cases hi : c.index? with
  | some i =>
    exact (Scope.within_openPairsToWrite (h.pairs i hi)).bind fun _ =>
      Scope.within_putPairs _ fun S => h.pairs i hi S _
  | none =>
    obtain ⟨hpairs, hentries⟩ := h.deletion hi (by rw [he]; rfl)
    exact (Tree.within_removePairs hpairs e.1 e.2).bind fun _ =>
      Scope.within_openTableToWrite_bind fun _ =>
        (Scope.within_putTable _ fun S there => ⟨hentries S _ there, by simp⟩).bind fun _ =>
          Scope.within_bump (-1)

theorem Writes.rel_delete (h : c.Writes t R) (s : Scope) :
    s.txn.Rel R ((delete t).run (c, s)).2.2.txn := by
  cases hc : c.position with
  | none =>
    simp only [Attempt.run, delete, hc]
    exact .refl _
  | some e =>
    have hremove := h.remove hc s
    have hnext := fun s' => rel_moveTo h.pairs (.after e) s'
    simp only [Order.Preimage, Attempt.run, delete, hc] at hremove hnext ⊢
    split
    · exact .refl _
    · split
      · rename_i hrun
        rwa [hrun] at hremove
      · rename_i s' hrun
        rw [hrun] at hremove
        refine trans_of (Txn.Rel R) hremove ?_
        change s'.txn.Rel R ((discard (moveTo t (.after e))).run (c, s')).2.2.txn
        rw [run_discard]
        exact hnext s'

theorem within_seekIndex (n : String) (key : Bytes) (p : Bytes → Place)
    (h : ∀ i, t.index? n = some i → ∀ S P, R S (S.putPairs (t.indexTable i) P)) :
    Scope.Within R (seekIndex t n key p) := by
  intro s
  change s.txn.Rel R ((seekIndex t n key p).run s).2.txn
  rw [seekIndex, run_bind, run_ofExcept, Tree.attached]
  cases hi : t.index? n with
  | none => exact .refl _
  | some i =>
    cases key with
    | nil => exact .refl _
    | cons b rest =>
      have hpairs : ∀ j ∈ some i, ∀ S P, R S (S.putPairs (t.indexTable j) P) :=
        fun j hj => h j (Option.mem_some.mp hj ▸ hi)
      have hmove := rel_moveTo (c := ⟨some i, none⟩) hpairs (p (b :: rest)) s
      simp only [Attempt.run, List.isEmpty_cons, Bool.false_eq_true, ↓reduceIte] at hmove ⊢
      split
      · rename_i hrun
        rwa [hrun] at hmove
      · rename_i hrun
        rwa [hrun] at hmove

end Cursor

end IndexedStore
