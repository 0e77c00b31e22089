import IndexedStore.Proofs.LifeFrame
import IndexedStore.Proofs.Loading
import IndexedStore.Proofs.Requests

/-! # Trees do not touch each other

All that a store holds for a tree stays as it is, whatever is done to other trees, in whatever
transactions and in whatever order. A tree that has been deleted leaves nothing behind, so a tree of
the same name starts anew.
-/
namespace IndexedStore

/-! ## What belongs to a tree -/

/-- The stores agree on all that belongs to the tree of a name. -/
structure Store.SameTree (b : String) (S S' : Store) : Prop where
  table : S'.table? b = S.table? b
  indexes : ∀ i, S'.pairs? (indexTableName b i) = S.pairs? (indexTableName b i)
  records : ∀ k, Catalog.stem b <+: k → Catalog.lookup S' k = Catalog.lookup S k
  names : Catalog.names S' b = Catalog.names S b

/-- Nothing belongs to the tree of a name. -/
structure Store.Without (a : String) (S : Store) : Prop where
  table : S.table? a = none
  indexes : ∀ i, S.pairs? (indexTableName a i) = none
  records : ∀ k, Catalog.stem a <+: k → Catalog.lookup S k = none
  names : Catalog.names S a = []

/-- The tree of a name is there, without an entry, and no index belongs to it. -/
structure Store.Blank (a : String) (S : Store) : Prop where
  table : S.table? a = some .empty
  indexes : ∀ i, S.pairs? (indexTableName a i) = none
  names : Catalog.names S a = []

/-- No plain table has a name that is meant for index tables. -/
def Store.Unmixed (S : Store) : Prop :=
  ∀ n, indexTableStem.toList <+: n.toList → S.table? n = none

namespace Store
variable {a b : String} {S S' S'' : Store}

theorem SameTree.refl (b : String) (S : Store) : S.SameTree b S :=
  ⟨rfl, fun _ => rfl, fun _ _ => rfl, rfl⟩

theorem SameTree.trans (h : S.SameTree b S') (h' : S'.SameTree b S'') : S.SameTree b S'' where
  table := h'.table.trans h.table
  indexes i := (h'.indexes i).trans (h.indexes i)
  records k hk := (h'.records k hk).trans (h.records k hk)
  names := h'.names.trans h.names

/-- What belongs to one tree is outside every other. -/
theorem SameOutside.sameTree (h : S.SameOutside a S') (ha : checkTreeName a = .ok ())
    (hb : checkTreeName b = .ok ()) (hne : a ≠ b) : S.SameTree b S' := by
  obtain ⟨-, -, ha⟩ := checkTreeName_eq_ok ha
  obtain ⟨hrecords, -, hb⟩ := checkTreeName_eq_ok hb
  have hlookup : ∀ k, Catalog.stem b <+: k → Catalog.lookup S' k = Catalog.lookup S k :=
    fun k hk => h.records k fun hka => hne (Catalog.eq_of_stem_prefix ha hb hka hk)
  refine ⟨h.plain b hne.symm hrecords, fun i => ?_, hlookup, Catalog.names_congr hlookup⟩
  exact h.paired _ fun j heq => hne ((indexTableName_eq_iff hb ha).mp heq).1.symm

theorem SameOutside.unmixed (h : S.SameOutside a S') (ha : checkTreeName a = .ok ())
    (hS : S.Unmixed) : S'.Unmixed := by
  intro n hn
  obtain ⟨-, hstem, -⟩ := checkTreeName_eq_ok ha
  have hrecords : ¬ indexTableStem.toList <+: recordTable.toList := by decide
  rw [h.plain n (fun heq => hstem (heq ▸ hn)) fun heq => hrecords (heq ▸ hn)]
  exact hS n hn

theorem Without.congr (h : S.Without a) (same : S.SameTree a S') : S'.Without a where
  table := same.table.trans h.table
  indexes i := (same.indexes i).trans (h.indexes i)
  records k hk := (same.records k hk).trans (h.records k hk)
  names := same.names.trans h.names

end Store

namespace Database
variable {allocated : Nat} {a : String} {d d' : Database}

theorem without_of_dropTree (h : (dropTree allocated a).run d = (.ok (), d')) :
    d'.store.Without a := by
  obtain ⟨htable, hindexes, hrecords⟩ := gone_of_dropTree h
  refine ⟨htable, hindexes, hrecords, ?_⟩
  exact Catalog.names_congr (S := Store.empty) hrecords

/-- A tree that is created where nothing belongs to its name is empty and has no indexes. -/
theorem openTree_without {create : Bool} {t : Tree} (hd : d.store.Without a)
    (h : (openTree allocated a create).run d = (.ok t, d')) :
    t.indexes = [] ∧ d'.store.Blank a := by
  have named := (checkTreeName_eq_ok (openTree_ok h).1).1
  obtain ⟨rfl, hstore⟩ := openTree_bare hd.table hd.indexes h
  rw [hstore]
  refine ⟨rfl, Store.table?_putTable_self .., hd.indexes, ?_⟩
  rw [← hd.names]
  refine Catalog.names_congr fun k _ => ?_
  rw [Catalog.lookup, Catalog.lookup, Store.table?_putTable_ne _ _ named.symm]

end Database

/-! ## Runs -/

/-- Whatever cursor it is made with, a call stays within the tree. -/
theorem CursorCall.confined {t : Tree} (named : t.name ≠ recordTable) (x : CursorCall) (c : Cursor)
    (s : Scope) : s.txn.Rel (Store.SameOutside t.name) ((x.step t).run (c, s)).2.2.txn :=
  x.rel_step (Tree.writes_sameOutside named) (c.writes_sameOutside named)
    (fun _ _ i _ S P => S.sameOutside_putPairs t.name i.name P) s

/-- A call on a tree: in the open transaction, or in one of its own. -/
inductive TreeCall
  | inside (c : CursorCall)
  | read (r : Request)
  | write (r : Request)
  | openTree (create : Bool)
  | dropTree
  | addIndex (c : IndexConfig)
  | populate (name : String)
  | dropIndex (name : String)
  | saveIndex (name : String)

/-- The session after a call that has a transaction of its own. -/
def Session.afterCall (allocated : Nat) (σ : Session) (t : Tree) : TreeCall → Session
  | .inside _ => σ
  | .read r => ((Session.read (r.step t)).run σ).2
  | .write r => ((Session.write allocated (r.step t)).run σ).2
  | .openTree create =>
    { σ with database := ((Database.openTree allocated t.name create).run σ.database).2 }
  | .dropTree =>
    { σ with database := ((Database.dropTree allocated t.name).run σ.database).2 }
  | .addIndex c => { σ with database := ((t.addIndex allocated c).run σ.database).2 }
  | .populate name =>
    { σ with database := ((t.populate allocated name).run σ.database).2 }
  | .dropIndex name =>
    { σ with database := ((t.dropIndex allocated name).run σ.database).2 }
  | .saveIndex name =>
    { σ with database := ((t.saveIndex allocated name).run σ.database).2 }

theorem Session.sameOutside_afterCall {t : Tree} (named : t.name ≠ recordTable) (allocated : Nat)
    (σ : Session) (x : TreeCall) :
    σ.database.store.SameOutside t.name (σ.afterCall allocated t x).database.store := by
  cases x with
  | inside c => exact .refl _ _
  | read r => exact .refl _ _
  | write r => exact Session.rel_write (r.within (Tree.writes_sameOutside named)) σ
  | openTree create => exact Database.confined_openTree create σ.database
  | dropTree => exact Database.confined_dropTree σ.database
  | addIndex c => exact Tree.confined_addIndex c σ.database
  | populate name => exact Tree.confined_populate name σ.database
  | dropIndex name => exact Tree.confined_dropIndex name σ.database
  | saveIndex name => exact Tree.confined_saveIndex name σ.database

/-- What a transaction sees, unless it gave its store back. -/
def View.store? : View → Option Store
  | .snapshot S => some S
  | .released => none
  | .working S => some S

/-- A database with the transaction that is open in it and the cursor in that transaction. -/
structure Desk where
  session : Session
  open? : Option Txn
  cursor : Cursor

namespace Desk

abbrev store (w : Desk) : Store := w.session.database.store

def writing (w : Desk) : Bool := w.open?.any fun x => !x.isReader

/-- Makes a call. One with a write transaction of its own waits for the writer that is open, so it
does nothing here. -/
def perform (allocated : Nat) (w : Desk) (t : Tree) (x : TreeCall) : Desk :=
  match x, w.open? with
  | .inside c, some txn =>
    let (cursor, s) :=
      ((c.step t).run (w.cursor, w.session.database.scope txn w.session.entryCount)).2
    ⟨⟨{ w.session.database with statistics := s.statistics }, s.entryCount⟩, some s.txn, cursor⟩
  | .inside _, none => w
  | .read r, _ => { w with session := w.session.afterCall allocated t (.read r) }
  | x, _ => if w.writing then w else { w with session := w.session.afterCall allocated t x }

def begin (w : Desk) (write : Bool) : Desk :=
  match w.open?, w.session.database.begin write with
  | none, .ok x => { w with open? := some x }
  | _, _ => w

def withDatabase (w : Desk) (d : Database) : Desk :=
  { w with session := { w.session with database := d } }

def commit (allocated : Nat) (w : Desk) : Desk :=
  match w.open? with
  | none => w
  | some x =>
    { w.withDatabase ((Database.commit allocated x).run w.session.database).2 with open? := none }

def abort (w : Desk) : Desk :=
  match w.open? with
  | none => w
  | some x => { w.withDatabase (w.session.database.abort x) with open? := none }

/-- Goes on with what has become of the open transaction, if it could become that. -/
def turned (w : Desk) (f : Txn → Except Failure Txn) : Desk :=
  match w.open?.map f with
  | some (.ok x) => { w with open? := some x }
  | _ => w

def reset (w : Desk) : Desk := w.turned Txn.reset

def renew (w : Desk) : Desk := w.turned fun x => x.renew w.store

/-- The committed stores are related, and so is what the open transaction would commit. -/
structure Rel (R : Store → Store → Prop) (w w' : Desk) : Prop where
  committed : R w.store w'.store
  opened : Option.Rel (fun x x' : Txn => x.view.Rel R x'.view) w.open? w'.open?

/-- Something holds of the committed store and of what the open transaction sees. -/
structure Everywhere (I : Store → Prop) (w : Desk) : Prop where
  committed : I w.store
  opened : ∀ x ∈ w.open?, ∀ S ∈ x.view.store?, I S

/-- What can happen next beside a tree: a call on another one, through whatever handle, or the
beginning or end of a transaction. -/
inductive Step (b : String) : Desk → Desk → Prop
  | call (w : Desk) {t : Tree} (x : TreeCall) (allocated : Nat)
    (named : checkTreeName t.name = .ok ()) (other : t.name ≠ b) :
    Step b w (w.perform allocated t x)
  | begin (w : Desk) (write : Bool) : Step b w (w.begin write)
  | commit (w : Desk) (allocated : Nat) : Step b w (w.commit allocated)
  | abort (w : Desk) : Step b w w.abort
  | reset (w : Desk) : Step b w w.reset
  | renew (w : Desk) : Step b w w.renew

variable {b : String} {w w' : Desk} {I : Store → Prop} {R : Store → Store → Prop} {t : Tree}

theorem Rel.refl [IsPreorder Store R] (w : Desk) : w.Rel R w := by
  refine ⟨refl_of R _, ?_⟩
  cases w.open? with
  | none => exact .none
  | some x => exact .some (.refl _)

theorem Rel.imp {R' : Store → Store → Prop} (h : w.Rel R w') (hR : ∀ S S', R S S' → R' S S') :
    w.Rel R' w' := by
  obtain ⟨hcommitted, hopened⟩ := h
  refine ⟨hR _ _ hcommitted, ?_⟩
  generalize w.open? = o at hopened ⊢
  generalize w'.open? = o' at hopened ⊢
  cases hopened with
  | none => exact .none
  | some hview => exact .some (hview.imp hR)

theorem rel_afterCall (named : t.name ≠ recordTable) (allocated : Nat) (w : Desk) (x : TreeCall) :
    w.Rel (Store.SameOutside t.name) { w with session := w.session.afterCall allocated t x } :=
  ⟨Session.sameOutside_afterCall named allocated w.session x,
    (Rel.refl (R := Store.SameOutside t.name) w).opened⟩

/-- A call on a tree stays within the tree, in the committed store and in the open transaction. -/
theorem rel_perform (named : t.name ≠ recordTable) (allocated : Nat) (w : Desk) (x : TreeCall) :
    w.Rel (Store.SameOutside t.name) (w.perform allocated t x) := by
  have hown : w.Rel (Store.SameOutside t.name)
      (if w.writing then w else { w with session := w.session.afterCall allocated t x }) := by
    split
    · exact .refl w
    · exact rel_afterCall named allocated w x
  unfold perform
  cases x with
  | inside c =>
    cases hopen : w.open? with
    | none => exact .refl w
    | some txn =>
      refine ⟨.refl _ _, ?_⟩
      rw [hopen]
      exact .some (c.confined named w.cursor
        (w.session.database.scope txn w.session.entryCount)).view
  | read r => exact rel_afterCall named allocated w (.read r)
  | _ => exact hown

theorem Everywhere.rel (h : w.Everywhere I) (hrel : w.Rel R w')
    (hR : ∀ S S', R S S' → I S → I S') : w'.Everywhere I := by
  refine ⟨hR _ _ hrel.committed h.committed, fun x' hx' S' hS' => ?_⟩
  have hopened := hrel.opened
  rw [hx'] at hopened
  cases hx : w.open? with
  | none =>
    rw [hx] at hopened
    cases hopened
  | some x =>
    rw [hx] at hopened
    cases hopened with
    | some hview =>
      have hsees := h.opened x hx
      generalize x.view = v at hview hsees
      generalize hv' : x'.view = v' at hview
      rw [hv'] at hS'
      cases hview with
      | refl => exact hsees S' hS'
      | working hS =>
        cases hS'
        exact hR _ _ hS (hsees _ rfl)

theorem Everywhere.begin (h : w.Everywhere I) (write : Bool) : (w.begin write).Everywhere I := by
  unfold Desk.begin
  split
  · rename_i x _ hbegin
    refine ⟨h.committed, fun y hy S hS => ?_⟩
    cases hy
    unfold Database.begin Database.beginWrite at hbegin
    split at hbegin
    · split at hbegin
      · cases hbegin
      · cases hbegin
        cases hS
        exact h.committed
    · cases hbegin
      cases hS
      exact h.committed
  · exact h

theorem Everywhere.commit (h : w.Everywhere I) (allocated : Nat) :
    (w.commit allocated).Everywhere I := by
  unfold Desk.commit
  cases hx : w.open? with
  | none => exact h
  | some x =>
    refine ⟨?_, nofun⟩
    change I ((Database.commit allocated x).run w.session.database).2.store
    cases hview : x.view with
    | working S =>
      cases hc : (Database.commit allocated x).run w.session.database with
      | mk r d =>
        cases r with
        | ok _ =>
          rw [Database.store_of_commit_ok hview hc]
          exact h.opened x hx S (by rw [hview]; rfl)
        | error e =>
          rw [Database.store_of_commit_error hc]
          exact h.committed
    | _ =>
      simp only [Attempt.run, Database.commit, hview]
      exact h.committed

theorem Everywhere.abort (h : w.Everywhere I) : w.abort.Everywhere I := by
  unfold Desk.abort
  cases w.open? with
  | none => exact h
  | some x =>
    refine ⟨?_, nofun⟩
    change I (w.session.database.abort x).store
    rw [Database.store_abort]
    exact h.committed

/-- A reader that is reset or renewed sees nothing or the committed store. -/
theorem Everywhere.turned (h : w.Everywhere I) {f : Txn → Except Failure Txn}
    (hf : ∀ x x', f x = .ok x' → ∀ S ∈ x'.view.store?, S = w.store) :
    (w.turned f).Everywhere I := by
  unfold Desk.turned
  split
  · rename_i x' hx'
    obtain ⟨x, -, hx⟩ := Option.map_eq_some_iff.mp hx'
    refine ⟨h.committed, fun y hy S hS => ?_⟩
    cases hy
    exact hf x x' hx S hS ▸ h.committed
  · exact h

theorem Everywhere.step (h : w.Everywhere I) (hstep : Step b w w')
    (hI : ∀ a S S', checkTreeName a = .ok () → a ≠ b → S.SameOutside a S' → I S → I S') :
    w'.Everywhere I := by
  cases hstep with
  | call x allocated named other =>
    exact h.rel (rel_perform (checkTreeName_eq_ok named).1 allocated w x) fun S S' =>
      hI _ S S' named other
  | begin write => exact h.begin write
  | commit allocated => exact h.commit allocated
  | abort => exact h.abort
  | reset =>
    refine h.turned fun _ _ hx S hS => ?_
    unfold Txn.reset at hx
    split at hx
    · cases hx
      cases hS
    · cases hx
  | renew =>
    refine h.turned fun _ _ hx S hS => ?_
    unfold Txn.renew at hx
    split at hx
    · cases hx
      cases hS
      rfl
    · cases hx

theorem Everywhere.run (h : w.Everywhere I) (hrun : Relation.ReflTransGen (Step b) w w')
    (hI : ∀ a S S', checkTreeName a = .ok () → a ≠ b → S.SameOutside a S' → I S → I S') :
    w'.Everywhere I := by
  induction hrun with
  | refl => exact h
  | tail _ hstep ih => exact ih.step hstep hI

theorem everywhere_of_closed (hclosed : w.open? = none) (h : I w.store) : w.Everywhere I :=
  ⟨h, fun _ hx => nomatch hclosed.symm.trans hx⟩

/-- Trees are isolated from each other. Their names and the names of their indexes determine the
names of the index tables and the keys of the records. A call on one tree leaves all that belongs to
another as it is, in the committed store and in the open transaction, and so does everything that
goes on beside a tree. Deleting a tree leaves nothing of it, so what is then opened under its name
is empty and has no indexes. -/
theorem trees_isolated {a b : String} (ha : checkTreeName a = .ok ())
    (hb : checkTreeName b = .ok ()) :
    (∀ i j, (indexTableName a i = indexTableName b j ↔ a = b ∧ i = j) ∧
      (Catalog.key a i = Catalog.key b j ↔ a = b ∧ i = j)) ∧
    (a ≠ b → ∀ (allocated : Nat) (w : Desk) (t : Tree) (x : TreeCall), t.name = a →
      w.Rel (Store.SameTree b) (w.perform allocated t x)) ∧
    (∀ w w' : Desk, w.open? = none → Relation.ReflTransGen (Step b) w w' →
      w'.Everywhere (w.store.SameTree b) ∧ (w.store.Unmixed → w'.Everywhere Store.Unmixed)) ∧
    (∀ (allocated : Nat) (d d' : Database), (Database.dropTree allocated a).run d = (.ok (), d') →
      d'.store.Without a ∧
      (d.store.Unmixed → ∀ i, d'.store.table? (indexTableName a i) = none) ∧
      ∀ allocated d₁ d₂ create t, d'.store.SameTree a d₁.store →
        (Database.openTree allocated a create).run d₁ = (.ok t, d₂) →
          t.indexes = [] ∧ d₂.store.Blank a) := by
  obtain ⟨hrecords, -, hacolon⟩ := checkTreeName_eq_ok ha
  obtain ⟨-, -, hbcolon⟩ := checkTreeName_eq_ok hb
  refine ⟨fun _ _ => ⟨indexTableName_eq_iff hacolon hbcolon, Catalog.key_eq_iff hacolon hbcolon⟩,
    ?_, ?_, ?_⟩
  · rintro hne allocated w t x rfl
    exact (rel_perform hrecords allocated w x).imp fun _ _ h => h.sameTree ha hb hne
  · intro w w' hclosed hrun
    constructor
    · exact (everywhere_of_closed hclosed (Store.SameTree.refl b _)).run hrun
        fun _ S S' ha' hne h hS => hS.trans (h.sameTree ha' hb hne)
    · exact fun hS => (everywhere_of_closed hclosed hS).run hrun
        fun _ _ _ ha' _ h => h.unmixed ha'
  · intro allocated d d' hdrop
    have hwithout := Database.without_of_dropTree hdrop
    refine ⟨hwithout, fun hS i => ?_, fun _ d₁ d₂ create t hsame hopen => ?_⟩
    · have hunmixed : d'.store.Unmixed := by
        have hconfined : Database.Confined a (Database.dropTree allocated a) :=
          Database.confined_dropTree
        have hframe := hconfined d
        rw [hdrop] at hframe
        exact Store.SameOutside.unmixed hframe ha hS
      exact hunmixed _ (toList_indexTableName a i ▸ List.prefix_append ..)
    · exact Database.openTree_without (hwithout.congr hsame) hopen

/-- Two trees, each with an index of the same name and its record. -/
def neighbours : Store :=
  let R : Table := .insert (.insert .empty (Catalog.key "user" "mail") (.replicate 16 0))
    (Catalog.key "users" "mail") (.replicate 16 0)
  ((((Store.empty.putTable "user" .empty).putTable "users" (.insert .empty [1] [2])).putPairs
    (indexTableName "user" "mail") .empty).putPairs (indexTableName "users" "mail") .empty).putTable
      recordTable R

/-- The desk of a database with these trees. -/
def neighbourhood : Desk :=
  ⟨⟨⟨"db", defaultMapSize, defaultMaxTables, schemaVersion 1 0, ⟨false, false⟩, .empty, {},
    neighbours⟩, 0⟩, none, ⟨none, none⟩⟩

theorem trees_isolated_neighbours :
    let w := neighbourhood.perform 4096 (Tree.bare "db" "user") .dropTree
    checkTreeName "user" = .ok () ∧ checkTreeName "users" = .ok () ∧
      w.store.Without "user" ∧ neighbourhood.store.SameTree "users" w.store := by
  intro w
  have ha : checkTreeName "user" = .ok () := by decide
  have hb : checkTreeName "users" = .ok () := by decide
  obtain ⟨-, hcall, -, hdrop⟩ := trees_isolated ha hb
  have hrun : (Database.dropTree 4096 "user").run neighbourhood.session.database =
      (.ok (), w.session.database) := rfl
  exact ⟨ha, hb, (hdrop _ _ _ hrun).1,
    (hcall (by decide) 4096 neighbourhood (Tree.bare "db" "user") .dropTree rfl).committed⟩

end Desk
end IndexedStore
