import IndexedStore.Proofs.Lifecycle
import IndexedStore.Proofs.Loading

/-! # Consistency over the life of a tree

A tree is created and from then on written through one handle only: by calls that write entries,
each in the transaction that is open or in one of its own, and by calls that add, populate and drop
indexes. Others may change what is not the tree's. Whatever they all do, in whatever order, and
whatever fails, the tree is consistent in the committed store and in the store of the open
transaction at every moment.
-/
namespace IndexedStore

namespace Tree
variable {allocated : Nat} {t t' : Tree} {d d' : Database} {name : String}

/-! ## A new tree -/

theorem name_ne_of_checkTreeName (h : checkTreeName name = .ok ()) : name ≠ recordTable := by
  rintro rfl
  simp only [checkTreeName, beq_self_eq_true, Bool.true_or, if_true] at h
  split at h <;> cases h

/-- A tree that is created where nothing of its name is left starts bare and consistent. -/
theorem kept_of_openTree (fresh : d.store.table? name = none)
    (unused : ∀ n, d.store.pairs? (indexTableName name n) = none)
    (h : (Database.openTree allocated name true).run d = (.ok t, d')) :
    t.name ≠ recordTable ∧ t.Kept [] d'.store := by
  obtain ⟨hname, -⟩ := Database.openTree_ok h
  obtain ⟨rfl, hstore⟩ := Database.openTree_bare fresh unused h
  refine ⟨name_ne_of_checkTreeName hname, ⟨.empty, ?_, fun i hi => nomatch hi⟩, fun n _ => ?_⟩
  · rw [hstore]
    exact Store.table?_putTable_self ..
  · rw [hstore, Store.pairs?_putTable]
    exact unused n

/-- The tables under the tree's names are the same. -/
def SameWithin (t : Tree) (S S' : Store) : Prop :=
  S'.table? t.name = S.table? t.name ∧
    ∀ n, S'.pairs? (indexTableName t.name n) = S.pairs? (indexTableName t.name n)

variable {filled : List String} {S S' : Store}

theorem Kept.of_sameWithin (h : t.Kept filled S) (same : t.SameWithin S S') : t.Kept filled S' := by
  obtain ⟨⟨T, hT, hall⟩, hunused⟩ := h
  exact ⟨⟨T, same.1.trans hT, fun i hi =>
    (hall i hi).imp fun P hP => ⟨(same.2 i.name).trans hP.1, hP.2⟩⟩,
    fun n hn => (same.2 n).trans (hunused n hn)⟩

end Tree

/-! ## Calls and runs -/

/-- A database with the one handle that writes a tree in it. -/
structure Site where
  session : Session
  tree : Tree
  /-- the write transaction that is open -/
  open? : Option Txn
  /-- the indexes that were added when there were no entries or have been populated since -/
  filled : List String

/-- A call through the handle. -/
inductive Call
  | entry (c : EntryCall)
  | begin
  | commit
  | abort
  | addIndex (c : IndexConfig)
  | populate (name : String)
  | dropIndex (name : String)
  | setMerge (m : Merge)
  | setCompare (c : Comparator)

/-- A call that writes entries, or begins or ends a transaction. -/
def Call.KeepsHandle (c : Call) : Prop :=
  (∃ e, c = .entry e) ∨ c = .begin ∨ c = .commit ∨ c = .abort

namespace Site

/-- The handle has just been opened. -/
def opened (d : Database) (t : Tree) (hint : Nat) : Site := ⟨⟨d, seededCount hint⟩, t, none, []⟩

def withDatabase (d : Database) (w : Site) : Site :=
  { w with session := { w.session with database := d } }

/-- Makes a call. Entries are written in the open transaction, or in one of their own if none is
open. A call that needs a transaction of its own waits for the open one, so it does nothing here. If
a transaction comes to its commit, this is what the engine has allocated by then. -/
def perform (allocated : Nat) (w : Site) (c : Call) : Site :=
  match c, w.open? with
  | .entry c, none =>
    { w with session := ((Session.write allocated (c.step w.tree)).run w.session).2 }
  | .entry c, some x =>
    let s := ((c.step w.tree).run (w.session.database.scope x w.session.entryCount)).2
    { w with
      session := ⟨{ w.session.database with statistics := s.statistics }, s.entryCount⟩
      open? := some s.txn }
  | .begin, none =>
    match w.session.database.beginWrite with
    | .ok x => { w with open? := some x }
    | .error _ => w
  | .commit, some x =>
    { w.withDatabase ((Database.commit allocated x).run w.session.database).2 with open? := none }
  | .abort, some x => { w.withDatabase (w.session.database.abort x) with open? := none }
  | .addIndex c, none =>
    match (w.tree.addIndex allocated c).run w.session.database with
    | (.ok t, d) =>
      { w.withDatabase d with
        tree := t
        filled :=
          if w.session.database.store.table? w.tree.name = some .empty then c.name :: w.filled
          else w.filled.filter (· != c.name) }
    | (.error _, d) => w.withDatabase d
  | .populate name, none =>
    match (w.tree.populate allocated name).run w.session.database with
    | (.ok _, d) => { w.withDatabase d with filled := name :: w.filled }
    | (.error _, d) => w.withDatabase d
  | .dropIndex name, none =>
    match (w.tree.dropIndex allocated name).run w.session.database with
    | (.ok t, d) =>
      { w.withDatabase d with tree := t, filled := w.filled.filter (· != name) }
    | (.error _, d) => w.withDatabase d
  | .setMerge m, _ => { w with tree := w.tree.setMerge m }
  | .setCompare c, _ => { w with tree := w.tree.setCompare c }
  | _, _ => w

/-- What can happen next: a call through the handle, or a change by others that leaves the tree's
tables alone, to the database or within the open transaction. -/
inductive Step : Site → Site → Prop
  | call (w : Site) (allocated : Nat) (c : Call) : Step w (w.perform allocated c)
  | elsewhere (w : Site) {d : Database}
    (same : w.tree.SameWithin w.session.database.store d.store) : Step w (w.withDatabase d)
  | within (w : Site) {x : Txn} {S S' : Store} (opened : w.open? = some x)
    (view : x.view = .working S) (same : w.tree.SameWithin S S') :
    Step w { w with open? := some { x with view := .working S' } }

/-- Something holds of the committed store, and of the store of an open transaction. -/
structure Everywhere (I : Store → Prop) (w : Site) : Prop where
  committed : I w.session.database.store
  opened : ∀ x, w.open? = some x → ∃ S, x.view = .working S ∧ I S

variable {allocated : Nat} {w w' : Site} {I : Store → Prop}

theorem Everywhere.entry (h : w.Everywhere I) (furnished : ∀ S, I S → w.tree.Furnished S)
    (touches : ∀ S S', I S → w.tree.Touches S S' → I S') (c : EntryCall) :
    (w.perform allocated (.entry c)).Everywhere I := by
  unfold perform
  cases hx : w.open? with
  | none =>
    have hto := Session.touches_of_write allocated (Tree.touching_call (t := w.tree) c)
      (furnished _ h.committed)
    exact ⟨touches _ _ h.committed hto, nofun⟩
  | some x =>
    obtain ⟨S, hview, hS⟩ := h.opened x hx
    have hscope := Scope.eq_on (s := w.session.database.scope x w.session.entryCount) hview
    obtain ⟨r, s', S', hrun, hto⟩ := Tree.touching_call (t := w.tree) c _ S (furnished S hS)
    rw [← hscope] at hrun
    simp only [hrun]
    -- a call that fails halfway leaves its touches in the open transaction all the same
    refine ⟨h.committed, fun y hy => ?_⟩
    cases hy
    exact ⟨S', rfl, touches S S' hS hto.touches⟩

theorem Everywhere.begin (h : w.Everywhere I) : (w.perform allocated .begin).Everywhere I := by
  unfold perform
  cases w.open? with
  | some x => exact h
  | none =>
    cases hb : w.session.database.beginWrite with
    | error e => exact h
    | ok x =>
      refine ⟨h.committed, fun y hy => ?_⟩
      cases hy
      unfold Database.beginWrite at hb
      split at hb
      · cases hb
      · cases hb
        exact ⟨_, rfl, h.committed⟩

theorem Everywhere.commit (h : w.Everywhere I) : (w.perform allocated .commit).Everywhere I := by
  unfold perform
  cases hx : w.open? with
  | none => exact h
  | some x =>
    obtain ⟨S, hview, hS⟩ := h.opened x hx
    refine ⟨?_, nofun⟩
    change I ((Database.commit allocated x).run w.session.database).2.store
    cases hc : (Database.commit allocated x).run w.session.database with
    | mk r d =>
      cases r with
      | ok _ => rwa [Database.store_of_commit_ok hview hc]
      | error e =>
        rw [Database.store_of_commit_error hc]
        exact h.committed

theorem Everywhere.abort (h : w.Everywhere I) : (w.perform allocated .abort).Everywhere I := by
  unfold perform
  cases w.open? with
  | none => exact h
  | some x =>
    refine ⟨?_, nofun⟩
    change I (w.session.database.abort x).store
    rw [Database.store_abort]
    exact h.committed

theorem Everywhere.perform (h : w.Everywhere I) (furnished : ∀ S, I S → w.tree.Furnished S)
    (touches : ∀ S S', I S → w.tree.Touches S S' → I S') {c : Call} (hc : c.KeepsHandle) :
    (w.perform allocated c).Everywhere I := by
  rcases hc with ⟨e, rfl⟩ | rfl | rfl | rfl
  · exact h.entry furnished touches e
  · exact h.begin
  · exact h.commit
  · exact h.abort

theorem handle_perform (allocated : Nat) (w : Site) {c : Call} (hc : c.KeepsHandle) :
    (w.perform allocated c).tree = w.tree ∧ (w.perform allocated c).filled = w.filled := by
  unfold perform
  rcases hc with ⟨e, rfl⟩ | rfl | rfl | rfl
  · cases w.open? <;> exact ⟨rfl, rfl⟩
  · cases w.open? with
    | some x => exact ⟨rfl, rfl⟩
    | none => cases w.session.database.beginWrite <;> exact ⟨rfl, rfl⟩
  · cases w.open? <;> exact ⟨rfl, rfl⟩
  · cases w.open? <;> exact ⟨rfl, rfl⟩

theorem everywhere_of_closed (hx : w.open? = none) (h : I w.session.database.store) :
    w.Everywhere I := ⟨h, fun _ hx' => nomatch hx.symm.trans hx'⟩

/-! The calls that change which indexes there are have a transaction of their own. Such a call goes
through, or it leaves the store as it was. -/

theorem perform_addIndex_cases (allocated : Nat) (w : Site) (c : IndexConfig) :
    (∃ d, d.store = w.session.database.store ∧
      w.perform allocated (.addIndex c) = w.withDatabase d) ∨
    (w.open? = none ∧ ∃ (i : Index) (free : w.tree.hasIndex i.name = false) (d : Database),
      i.name = c.name ∧ i.userData = c.userData ∧ Index.validName c.name = true ∧
      d.store = w.tree.created i w.session.database.store ∧
      w.perform allocated (.addIndex c) = { w.withDatabase d with
        tree := w.tree.attach i free
        filled :=
          if w.session.database.store.table? w.tree.name = some .empty then c.name :: w.filled
          else w.filled.filter (· != c.name) }) := by
  unfold perform
  cases hx : w.open? with
  | some x => exact .inl ⟨w.session.database, rfl, rfl⟩
  | none =>
    dsimp only
    cases hrun : (w.tree.addIndex allocated c).run w.session.database with
    | mk r d =>
      cases r with
      | error e => exact .inl ⟨d, Tree.store_of_addIndex_error hrun, rfl⟩
      | ok t =>
        obtain ⟨i, free, rfl, hname, hdata, hvalid, hstore⟩ := Tree.addIndex_ok hrun
        exact .inr ⟨rfl, i, free, d, hname, hdata, hvalid, hstore, rfl⟩

theorem perform_populate_cases (allocated : Nat) (w : Site) (name : String) :
    (∃ d, d.store = w.session.database.store ∧
      w.perform allocated (.populate name) = w.withDatabase d) ∨
    (w.open? = none ∧ ∃ (i : Index) (T : Table) (P : PairTable) (d : Database),
      w.tree.index? name = some i ∧ w.session.database.store.table? w.tree.name = some T ∧
      i.populated T.toList (w.tree.pairsOf w.session.database.store i) = .ok P ∧
      d.store = w.session.database.store.putPairs (w.tree.indexTable i) P ∧
      w.perform allocated (.populate name) =
        { w.withDatabase d with filled := name :: w.filled }) := by
  unfold perform
  cases hx : w.open? with
  | some x => exact .inl ⟨w.session.database, rfl, rfl⟩
  | none =>
    dsimp only
    cases hrun : (w.tree.populate allocated name).run w.session.database with
    | mk r d =>
      cases r with
      | error e => exact .inl ⟨d, Tree.store_of_populate_error hrun, rfl⟩
      | ok _ =>
        obtain ⟨i, T, P, hi, hT, hpop, hstore⟩ := Tree.populate_ok hrun
        exact .inr ⟨rfl, i, T, P, d, hi, hT, hpop, hstore, rfl⟩

theorem perform_dropIndex_cases (allocated : Nat) (w : Site) (name : String) :
    (∃ d, d.store = w.session.database.store ∧
      w.perform allocated (.dropIndex name) = w.withDatabase d) ∨
    (w.open? = none ∧ ∃ d : Database,
      d.store = w.tree.dropped name w.session.database.store ∧
      w.perform allocated (.dropIndex name) = { w.withDatabase d with
        tree := w.tree.detach name, filled := w.filled.filter (· != name) }) := by
  unfold perform
  cases hx : w.open? with
  | some x => exact .inl ⟨w.session.database, rfl, rfl⟩
  | none =>
    dsimp only
    cases hrun : (w.tree.dropIndex allocated name).run w.session.database with
    | mk r d =>
      cases r with
      | error e => exact .inl ⟨d, Tree.store_of_dropIndex_error hrun, rfl⟩
      | ok t =>
        obtain ⟨rfl, hstore⟩ := Tree.dropIndex_ok hrun
        exact .inr ⟨rfl, d, hstore, rfl⟩

/-- What every step keeps up. -/
structure Kept (w : Site) : Prop extends Everywhere (w.tree.Kept w.filled) w where
  named : w.tree.name ≠ recordTable

theorem Kept.withDatabase {d : Database} (h : w.Kept)
    (hd : w.tree.Kept w.filled d.store) : (w.withDatabase d).Kept := ⟨⟨hd, h.opened⟩, h.named⟩

/-- A call that fails in a transaction of its own has left the store as it was. -/
theorem Kept.refused {d : Database} (h : w.Kept) (hd : d.store = w.session.database.store) :
    (w.withDatabase d).Kept := h.withDatabase (hd ▸ h.committed)

theorem Kept.same_handle (h : w.Kept) {c : Call} (hc : c.KeepsHandle) :
    (w.perform allocated c).Kept := by
  have hall : (w.perform allocated c).Everywhere (w.tree.Kept w.filled) :=
    h.toEverywhere.perform (fun _ hS => hS.consistent.furnished) (fun _ _ hS => hS.touches) hc
  obtain ⟨htree, hfilled⟩ := w.handle_perform allocated hc
  refine ⟨?_, ?_⟩
  · rw [htree, hfilled]
    exact hall
  · rw [htree]
    exact h.named

theorem Kept.addIndex (h : w.Kept) (c : IndexConfig) :
    (w.perform allocated (.addIndex c)).Kept := by
  obtain ⟨d, hd, he⟩ | ⟨hx, i, free, d, hname, -, -, hstore, he⟩ :=
    w.perform_addIndex_cases allocated c
  · exact he ▸ h.refused hd
  · have hrefit := w.tree.refitted_created i w.session.database.store
    rw [← hstore, Tree.pairsOf, Tree.indexTable, hname, h.committed.unused _ (hname ▸ free),
      ← hname] at hrefit
    rw [he]
    refine ⟨everywhere_of_closed hx (h.committed.attach h.named free hrefit ?_ ?_), h.named⟩
    -- of the other indexes, those that counted as filled still do
    · intro j hj hf
      have hne : j.name ≠ c.name := hname ▸ Tree.name_ne_of_hasIndex free hj
      change j.name ∈ if _ then _ else _ at hf
      split at hf
      · exact (List.mem_cons.mp hf).resolve_left hne
      · exact (List.mem_filter.mp hf).1
    · intro hf
      change i.name ∈ if _ then _ else _ at hf
      split at hf
      · assumption
      · simp [hname] at hf

theorem Kept.populate (h : w.Kept) (name : String) :
    (w.perform allocated (.populate name)).Kept := by
  obtain ⟨d, hd, he⟩ | ⟨hx, i, T, P, d, hfind, hT, hpop, hstore, he⟩ :=
    w.perform_populate_cases allocated name
  · exact he ▸ h.refused hd
  · have hS := h.committed.consistent.furnished
    obtain ⟨hi, rfl⟩ := Tree.index?_eq_some hfind
    have hrefit := w.tree.refitted_putPairs i P w.session.database.store
    rw [← hstore] at hrefit
    rw [he]
    refine ⟨everywhere_of_closed hx
      (h.committed.populate hi h.named hT (hS.pairs? hi) hpop hrefit ?_), h.named⟩
    intro j hj hji hf
    refine (List.mem_cons.mp hf).resolve_left fun hname => hji ?_
    exact List.inj_on_of_nodup_map w.tree.distinct hj hi hname

theorem Kept.dropIndex (h : w.Kept) (name : String) :
    (w.perform allocated (.dropIndex name)).Kept := by
  obtain ⟨d, hd, he⟩ | ⟨hx, d, hstore, he⟩ := w.perform_dropIndex_cases allocated name
  · exact he ▸ h.refused hd
  · have hrefit := w.tree.refitted_dropped name w.session.database.store
    rw [← hstore] at hrefit
    rw [he]
    exact ⟨everywhere_of_closed hx
      (h.committed.detach h.named hrefit fun j _ hf => (List.mem_filter.mp hf).1), h.named⟩

/-- One step, whatever it is. -/
theorem Kept.step (h : w.Kept) (hstep : Step w w') : w'.Kept := by
  cases hstep with
  | call allocated c =>
    cases c with
    | entry c => exact h.same_handle (.inl ⟨c, rfl⟩)
    | begin => exact h.same_handle (.inr (.inl rfl))
    | commit => exact h.same_handle (.inr (.inr (.inl rfl)))
    | abort => exact h.same_handle (.inr (.inr (.inr rfl)))
    | addIndex c => exact h.addIndex c
    | populate name => exact h.populate name
    | dropIndex name => exact h.dropIndex name
    | setMerge m =>
      exact ⟨⟨⟨h.committed.1, h.committed.2⟩, fun x hx =>
        (h.opened x hx).imp fun S hS => ⟨hS.1, ⟨hS.2.1, hS.2.2⟩⟩⟩, h.named⟩
    | setCompare c =>
      exact ⟨⟨⟨h.committed.1, h.committed.2⟩, fun x hx =>
        (h.opened x hx).imp fun S hS => ⟨hS.1, ⟨hS.2.1, hS.2.2⟩⟩⟩, h.named⟩
  | elsewhere same => exact h.withDatabase (h.committed.of_sameWithin same)
  | @within x S S' opened view same =>
    refine ⟨⟨h.committed, fun y hy => ?_⟩, h.named⟩
    cases hy
    obtain ⟨S₁, hview, hS⟩ := h.opened x opened
    obtain rfl : S₁ = S := View.working.inj (hview.symm.trans view)
    exact ⟨S', rfl, hS.of_sameWithin same⟩

theorem Kept.run (h : w.Kept) (hrun : Relation.ReflTransGen Step w w') : w'.Kept := by
  induction hrun with
  | refl => exact h
  | tail _ hstep ih => exact ih.step hstep

/-- Calls made one after another are a run. -/
theorem run_calls (allocated : Nat) (w : Site) (calls : List Call) :
    Relation.ReflTransGen Step w (calls.foldl (perform allocated) w) := by
  induction calls generalizing w with
  | nil => exact .refl
  | cons c rest ih => exact (ih (w.perform allocated c)).head (.call w allocated c)

theorem kept_opened {d d' : Database} {name : String} {t : Tree}
    (fresh : d.store.table? name = none)
    (unused : ∀ n, d.store.pairs? (indexTableName name n) = none)
    (h : (Database.openTree allocated name true).run d = (.ok t, d')) (hint : Nat) :
    (opened d' t hint).Kept := by
  obtain ⟨hname, hkept⟩ := Tree.kept_of_openTree fresh unused h
  exact ⟨⟨hkept, nofun⟩, hname⟩

/-- An empty database with an extractor that takes whole values. -/
def freshDatabase : Database :=
  ⟨"db", defaultMapSize, defaultMaxTables, schemaVersion 1 0, ⟨false, false⟩,
    Registry.register .empty (schemaVersion 1 0) (indexFlags true false) fun value _ => some value,
    {}, .empty⟩

end Site
end IndexedStore
