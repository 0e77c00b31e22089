import IndexedStore.Proofs.Listing

/-! # Any number of handles and transactions

A database with all that its callers hold of it: handles, of the same and of different trees, and
open transactions, one of which may be a writer. Every call is a step of this state. What a call
makes of a handle is seen as one more handle, so a handle of any age is there to be used. A call
that needs the place of the writer waits while a writer is open, so it does nothing then. How many
entries a handle has counted plays no part here, and calls start from zero.
-/
namespace IndexedStore

/-- An open transaction and the places taken in it, each by a handle with the cursor at hand. -/
structure Opened where
  txn : Txn
  places : List (Tree × Cursor)

/-- A database with the handles and the transactions of its callers. -/
structure Hall where
  database : Database
  handles : List Tree
  opened : List Opened

/-- A call. Handles, transactions and places are told by their numbers. One that commits comes with
what the engine has allocated by then. -/
inductive HallCall
  | begin (write : Bool)
  | commit (x allocated : Nat)
  | abort (x : Nat)
  | reset (x : Nat)
  | renew (x : Nat)
  /-- takes a place in a transaction -/
  | enter (x h : Nat)
  | inside (x p : Nat) (c : CursorCall)
  | read (h : Nat) (r : Request)
  | write (h : Nat) (r : Request) (allocated : Nat)
  | index (h : Nat) (c : IndexCall) (allocated : Nat)
  | setMerge (h : Nat) (m : Merge)
  | setCompare (h : Nat) (c : Comparator)
  | setIndexCompare (h : Nat) (name : String) (c : Comparator)
  | openTree (name : String) (create : Bool) (allocated : Nat)
  | dropTree (name : String) (allocated : Nat)
  | register (version flags : UInt32) (x : Extractor)
  | resize (size : Nat)

/-- Whether the call begins a write transaction. -/
def HallCall.writes (d : Database) : HallCall → Bool
  | begin writer => writer
  | write _ _ _ => true
  | index _ (.loadIndex _) _ => false
  | index _ _ _ => true
  | openTree name create _ => create && !d.hasTree name
  | dropTree _ _ => true
  | _ => false

namespace Hall

abbrev store (w : Hall) : Store := w.database.store

def writing (w : Hall) : Bool := w.opened.any fun o => !o.txn.isReader

def withDatabase (w : Hall) (d : Database) : Hall := { w with database := d }

def withHandle (w : Hall) (t : Tree) : Hall := { w with handles := w.handles ++ [t] }

/-- Does something with a handle, if there is one of the number. -/
def through (w : Hall) (h : Nat) (f : Tree → Hall) : Hall :=
  match w.handles[h]? with
  | some t => f t
  | none => w

/-- Makes a call that answers with a handle. -/
def answered (w : Hall) (x : Attempt Database Tree) : Hall :=
  match x.run w.database with
  | (.ok t, d) => (w.withDatabase d).withHandle t
  | (.error _, d) => w.withDatabase d

/-- Ends a transaction. -/
def ended (w : Hall) (x : Nat) (f : Txn → Database) : Hall :=
  match w.opened[x]? with
  | some o => { w.withDatabase (f o.txn) with opened := w.opened.eraseIdx x }
  | none => w

/-- Goes on with what has become of a transaction, if it could become that. -/
def turned (w : Hall) (x : Nat) (f : Txn → Except Failure Txn) : Hall :=
  match w.opened[x]? with
  | some o =>
    match f o.txn with
    | .ok y => { w with opened := w.opened.set x { o with txn := y } }
    | .error _ => w
  | none => w

/-- Takes a place for a handle in a transaction. -/
def entered (w : Hall) (x : Nat) (t : Tree) : Hall :=
  match w.opened[x]? with
  | some o => { w with
    opened := w.opened.set x { o with places := o.places ++ [(t, ⟨none, none⟩)] } }
  | none => w

/-- Makes a call at a place in a transaction. -/
def stepInside (w : Hall) (x p : Nat) (c : CursorCall) : Hall :=
  match w.opened[x]? with
  | some o =>
    match o.places[p]? with
    | some (t, k) =>
      let (k, s) := ((c.step t).run (k, w.database.scope o.txn 0)).2
      { w.withDatabase { w.database with statistics := s.statistics } with
        opened := w.opened.set x ⟨s.txn, o.places.set p (t, k)⟩ }
    | none => w
  | none => w

/-- Makes a call that need not wait. -/
def perform (w : Hall) : HallCall → Hall
  | .begin write =>
    match w.database.begin write with
    | .ok x => { w with opened := w.opened ++ [⟨x, []⟩] }
    | .error _ => w
  | .commit x allocated =>
    w.ended x fun y => ((Database.commit allocated y).run w.database).2
  | .abort x => w.ended x fun y => w.database.abort y
  | .reset x => w.turned x Txn.reset
  | .renew x => w.turned x fun y => y.renew w.store
  | .enter x h => w.through h fun t => w.entered x t
  | .inside x p c => w.stepInside x p c
  | .read h r => w.through h fun t =>
    w.withDatabase ((Session.read (r.step t)).run ⟨w.database, 0⟩).2.database
  | .write h r allocated => w.through h fun t =>
    w.withDatabase ((Database.write allocated (r.step t)).run w.database).2
  | .index h c allocated => w.through h fun t => w.answered (c.step allocated t)
  | .setMerge h m => w.through h fun t => w.withHandle (t.setMerge m)
  | .setCompare h c => w.through h fun t => w.withHandle (t.setCompare c)
  | .setIndexCompare h name c => w.through h fun t =>
    w.answered (.ofExcept (t.setIndexCompare name c))
  | .openTree name create allocated => w.answered (Database.openTree allocated name create)
  | .dropTree name allocated =>
    w.withDatabase ((Database.dropTree allocated name).run w.database).2
  | .register version flags x =>
    w.withDatabase ((Database.register version flags x).run w.database).2
  | .resize size => w.withDatabase ((Database.resize size).run w.database).2

/-- Whether a call has to wait for the writer that is open. -/
def waits (w : Hall) (c : HallCall) : Bool := w.writing && c.writes w.database

/-- Makes a call, or waits. -/
def act (w : Hall) (c : HallCall) : Hall := if w.waits c then w else w.perform c

def run (w : Hall) (calls : List HallCall) : Hall := calls.foldl act w

/-- What is noted of calls, each at the moment it is made. -/
def noted (note : Hall → HallCall → List String) : Hall → List HallCall → List String
  | _, [] => []
  | w, c :: rest => note w c ++ noted note (w.act c) rest

/-- The handle that a call goes through, and the store of the write transaction it is made in. -/
def aim (w : Hall) : HallCall → Option (Tree × Store)
  | .inside x p _ =>
    match w.opened[x]? with
    | some ⟨⟨_, .working S⟩, places⟩ => places[p]?.map fun q => (q.1, S)
    | _ => none
  | .write h _ _ => w.handles[h]?.map fun t => (t, w.store)
  | .index h _ _ => w.handles[h]?.map fun t => (t, w.store)
  | _ => none

/-- The hall of a database that has just been opened. -/
def fresh (d : Database) : Hall := ⟨d, [], []⟩

/-! ## What a call does -/

/-- What a call can do to the database and the handles. Whatever fails does nothing that is seen in
the store. -/
inductive Effect (w : Hall) : HallCall → Database → List Tree → Prop
  | same {c : HallCall} {d : Database} (store : d.store = w.store)
    (settings : d.settings = w.database.settings) : Effect w c d w.handles
  | committed {x allocated : Nat} {o : Opened} {S : Store} {d : Database} (opened : o ∈ w.opened)
    (view : o.txn.view = .working S) (store : d.store = S)
    (settings : d.settings = w.database.settings) : Effect w (.commit x allocated) d w.handles
  | written {h allocated : Nat} {r : Request} {t : Tree} (handle : w.handles[h]? = some t) :
    Effect w (.write h r allocated) ((Database.write allocated (r.step t)).run w.database).2
      w.handles
  | indexed {h allocated : Nat} {c : IndexCall} {t t' : Tree} {d : Database}
    (handle : w.handles[h]? = some t)
    (run : (c.step allocated t).run w.database = (.ok t', d)) :
    Effect w (.index h c allocated) d (w.handles ++ [t'])
  | tuned {c : HallCall} {t t' : Tree} (handle : t ∈ w.handles) (name : t'.name = t.name)
    (database : t'.database = t.database) (indexes : t'.indexNames = t.indexNames) :
    Effect w c w.database (w.handles ++ [t'])
  | treeOpened {name : String} {create : Bool} {allocated : Nat} {t : Tree} {d : Database}
    (run : (Database.openTree allocated name create).run w.database = (.ok t, d)) :
    Effect w (.openTree name create allocated) d (w.handles ++ [t])
  | treeDropped {name : String} {allocated : Nat} {d : Database}
    (run : (Database.dropTree allocated name).run w.database = (.ok (), d)) :
    Effect w (.dropTree name allocated) d w.handles

variable {w : Hall} {c : HallCall} {d : Database} {t : Tree}

theorem effect_through {h : Nat} {f : Tree → Hall}
    (hf : ∀ t, w.handles[h]? = some t → w.Effect c (f t).database (f t).handles) :
    w.Effect c (w.through h f).database (w.through h f).handles := by
  unfold through
  cases ht : w.handles[h]? with
  | some t => exact hf t ht
  | none => exact .same rfl rfl

/-- A call that answers with a handle and leaves the store if it fails. -/
theorem effect_answered {x : Attempt Database Tree} (hkeeps : Database.KeepsSettings x)
    (hfail : ∀ e d, x.run w.database = (.error e, d) → d.store = w.store)
    (hok : ∀ t d, x.run w.database = (.ok t, d) → w.Effect c d (w.handles ++ [t])) :
    w.Effect c (w.answered x).database (w.answered x).handles := by
  unfold answered
  cases hrun : x.run w.database with
  | mk r d =>
    cases r with
    | ok t => exact hok t d hrun
    | error e => exact .same (hfail e d hrun) (hkeeps.settings_eq hrun)

theorem effect_ended {x : Nat} {f : Txn → Database}
    (hf : ∀ o ∈ w.opened, w.Effect c (f o.txn) w.handles) :
    w.Effect c (w.ended x f).database (w.ended x f).handles := by
  unfold ended
  cases ho : w.opened[x]? with
  | some o => exact hf o (List.mem_of_getElem? ho)
  | none => exact .same rfl rfl

theorem effect_turned (x : Nat) (f : Txn → Except Failure Txn) :
    w.Effect c (w.turned x f).database (w.turned x f).handles := by
  unfold turned
  split
  · split <;> exact .same rfl rfl
  · exact .same rfl rfl

theorem effect_commit {x allocated : Nat} {o : Opened} (ho : o ∈ w.opened) :
    w.Effect (.commit x allocated) ((Database.commit allocated o.txn).run w.database).2
      w.handles := by
  have hsettings := Database.settings_commit allocated o.txn w.database
  cases hview : o.txn.view with
  | working S =>
    cases hrun : (Database.commit allocated o.txn).run w.database with
    | mk r d =>
      rw [hrun] at hsettings
      cases r with
      | ok _ => exact .committed ho hview (Database.store_of_commit_ok hview hrun) hsettings
      | error e => exact .same (Database.store_of_commit_error hrun) hsettings
  | _ =>
    refine .same ?_ hsettings
    simp only [Attempt.run, Database.commit, hview]

theorem effect_perform (w : Hall) (c : HallCall) :
    w.Effect c (w.perform c).database (w.perform c).handles := by
  cases c with
  | begin writer =>
    unfold perform
    simp only
    split <;> exact .same rfl rfl
  | commit x allocated => exact effect_ended fun o ho => effect_commit ho
  | abort x =>
    exact effect_ended fun o _ =>
      .same (Database.store_abort o.txn w.database) (Database.settings_abort o.txn w.database)
  | reset x => exact effect_turned x _
  | renew x => exact effect_turned x _
  | enter x h =>
    refine effect_through fun t _ => ?_
    unfold entered
    split <;> exact .same rfl rfl
  | inside x p c =>
    simp only [perform, stepInside]
    split
    · split <;> exact .same rfl rfl
    · exact .same rfl rfl
  | read h r => exact effect_through fun t _ => .same rfl rfl
  | write h r allocated => exact effect_through fun t ht => .written ht
  | index h c allocated =>
    exact effect_through fun t ht => effect_answered (c.keepsSettings_step t)
      (fun e d hrun => IndexCall.store_of_step_error hrun) fun t' d hrun => .indexed ht hrun
  | setMerge h m =>
    exact effect_through fun t ht => .tuned (List.mem_of_getElem? ht) rfl rfl rfl
  | setCompare h c =>
    exact effect_through fun t ht => .tuned (List.mem_of_getElem? ht) rfl rfl rfl
  | setIndexCompare h name c =>
    refine effect_through fun t ht => effect_answered (Attempt.respects_ofExcept _)
      (fun e d hrun => ?_) fun t' d hrun => ?_
    · rw [Attempt.run_ofExcept] at hrun
      exact (congrArg Database.store (Prod.mk.inj hrun).2).symm
    · obtain ⟨hset, rfl⟩ := Attempt.run_ofExcept_eq_ok.mp hrun
      obtain ⟨hname, hdatabase, hindexes⟩ := Tree.setIndexCompare_ok hset
      exact .tuned (List.mem_of_getElem? ht) hname hdatabase hindexes
  | openTree name create allocated =>
    exact effect_answered (Database.keepsSettings_openTree name create)
      (fun e d hrun => Database.store_of_openTree_error hrun) fun t d hrun => .treeOpened hrun
  | dropTree name allocated =>
    cases hrun : (Database.dropTree allocated name).run w.database with
    | mk r d =>
      simp only [perform, withDatabase, hrun]
      cases r with
      | ok _ => exact .treeDropped hrun
      | error e =>
        exact .same (Database.store_of_dropTree_error hrun)
          ((Database.keepsSettings_dropTree name).settings_eq hrun)
  | register version flags x => exact .same rfl rfl
  | resize size =>
    let Q := Order.Preimage (fun d : Database => (d.store, d.settings)) (· = ·)
    have hstep := Database.respects_resize (Q := Q) size (fun _ => rfl) w.database
    obtain ⟨hstore, hsettings⟩ := Prod.mk.inj hstep
    exact .same hstore.symm hsettings.symm

/-- No call changes the settings of the database. -/
theorem Effect.settings {l : List Tree} (h : w.Effect c d l) :
    d.settings = w.database.settings := by
  cases h with
  | same _ settings => exact settings
  | committed _ _ _ settings => exact settings
  | written _ => exact (Database.keepsSettings_write _ w.database).symm
  | indexed _ run => exact (IndexCall.keepsSettings_step _ _).settings_eq run
  | tuned _ _ _ _ => rfl
  | treeOpened run => exact (Database.keepsSettings_openTree _ _).settings_eq run
  | treeDropped run => exact (Database.keepsSettings_dropTree _).settings_eq run

theorem settings_act (w : Hall) (c : HallCall) :
    (w.act c).database.settings = w.database.settings := by
  unfold act
  split
  · rfl
  · exact (w.effect_perform c).settings

theorem settings_run (w : Hall) (calls : List HallCall) :
    (w.run calls).database.settings = w.database.settings := by
  induction calls generalizing w with
  | nil => rfl
  | cons c rest ih => exact (ih (w.act c)).trans (settings_act w c)

/-- What holds of the open transactions goes on to hold if it holds of a new one and outlasts what
can be done with one. -/
theorem opened_perform {P : Opened → Prop} (h : ∀ o ∈ w.opened, P o) (c : HallCall)
    (begun : ∀ v, v = .snapshot w.store ∨ v = .working w.store → P ⟨⟨w.database.path, v⟩, []⟩)
    (turned : ∀ o y, P o → y.database = o.txn.database → y.isReader = true →
      P { o with txn := y })
    (entered : ∀ o, ∀ t ∈ w.handles, P o →
      P { o with places := o.places ++ [(t, ⟨none, none⟩)] })
    (inside : ∀ x p k o t c', c = .inside x p k → w.opened[x]? = some o →
      o.places[p]? = some (t, c') → P o →
      let σ := ((k.step t).run (c', w.database.scope o.txn 0)).2
      P ⟨σ.2.txn, o.places.set p (t, σ.1)⟩) :
    ∀ o ∈ (w.perform c).opened, P o := by
  have hset : ∀ (x : Nat) (o : Opened), P o → ∀ o' ∈ w.opened.set x o, P o' := by
    intro x o ho o' ho'
    rcases List.mem_or_eq_of_mem_set ho' with hmem | rfl
    · exact h o' hmem
    · exact ho
  have hthrough : ∀ n f, (∀ t ∈ w.handles, ∀ o ∈ (f t).opened, P o) →
      ∀ o ∈ (w.through n f).opened, P o := by
    intro n f hf
    unfold through
    cases ht : w.handles[n]? with
    | some t => exact hf t (List.mem_of_getElem? ht)
    | none => exact h
  have hanswered : ∀ x, ∀ o ∈ (w.answered x).opened, P o := by
    intro x
    unfold answered
    split <;> exact h
  have hended : ∀ n f, ∀ o ∈ (w.ended n f).opened, P o := by
    intro n f
    unfold Hall.ended
    split
    · exact fun o ho => h o (List.mem_of_mem_eraseIdx ho)
    · exact h
  have hturned : ∀ n f, (∀ y y', f y = .ok y' → y'.database = y.database ∧ y'.isReader = true) →
      ∀ o ∈ (w.turned n f).opened, P o := by
    intro n f hf
    unfold Hall.turned
    split
    · rename_i o ho
      split
      · rename_i y hy
        obtain ⟨hdatabase, hreader⟩ := hf _ _ hy
        exact hset n _ (turned o y (h o (List.mem_of_getElem? ho)) hdatabase hreader)
      · exact h
    · exact h
  cases c with
  | begin writer =>
    simp only [perform]
    cases hbegin : w.database.begin writer with
    | error e => exact h
    | ok x =>
      intro o ho
      rcases List.mem_append.mp ho with ho | ho
      · exact h o ho
      · obtain rfl := List.mem_singleton.mp ho
        unfold Database.begin Database.beginWrite at hbegin
        split at hbegin
        · split at hbegin <;> cases hbegin
          exact begun _ (.inr rfl)
        · cases hbegin
          exact begun _ (.inl rfl)
  | commit x allocated => exact hended x _
  | abort x => exact hended x _
  | reset x =>
    refine hturned x _ fun y y' hy => ?_
    unfold Txn.reset at hy
    split at hy <;> cases hy
    exact ⟨rfl, rfl⟩
  | renew x =>
    refine hturned x _ fun y y' hy => ?_
    unfold Txn.renew at hy
    split at hy <;> cases hy
    exact ⟨rfl, rfl⟩
  | enter x n =>
    refine hthrough n _ fun t ht => ?_
    unfold Hall.entered
    split
    · rename_i o ho
      exact hset x _ (entered o t ht (h o (List.mem_of_getElem? ho)))
    · exact h
  | inside x p k =>
    simp only [perform, stepInside]
    split
    · rename_i o ho
      split
      · rename_i t c' hp
        exact hset x _ (inside x p k o t c' rfl ho hp (h o (List.mem_of_getElem? ho)))
      · exact h
    · exact h
  | read n r => exact hthrough n _ fun _ _ => h
  | write n r allocated => exact hthrough n _ fun _ _ => h
  | index n c allocated => exact hthrough n _ fun _ _ => hanswered _
  | setMerge n m => exact hthrough n _ fun _ _ => h
  | setCompare n c => exact hthrough n _ fun _ _ => h
  | setIndexCompare n name c => exact hthrough n _ fun _ _ => hanswered _
  | openTree name create allocated => exact hanswered _
  | dropTree name allocated => exact h
  | register version flags x => exact h
  | resize size => exact h

/-- What holds of the store and the places of every writer goes on to hold if it holds at the
beginning of one and outlasts calls inside it. Readers do not matter. -/
theorem working_perform {Q : Store → List (Tree × Cursor) → Prop}
    (h : ∀ o ∈ w.opened, ∀ S, o.txn.view = .working S → Q S o.places) (c : HallCall)
    (begun : Q w.store [])
    (entered : ∀ S l, ∀ t ∈ w.handles, Q S l → Q S (l ++ [(t, ⟨none, none⟩)]))
    (inside : ∀ x p k o t c' S S', c = .inside x p k → w.opened[x]? = some o →
      o.places[p]? = some (t, c') → o.txn.view = .working S → Q S o.places →
      let σ := ((k.step t).run (c', w.database.scope o.txn 0)).2
      σ.2.txn.view = .working S' → Q S' (o.places.set p (t, σ.1))) :
    ∀ o ∈ (w.perform c).opened, ∀ S, o.txn.view = .working S → Q S o.places := by
  refine opened_perform h c ?_ ?_ (fun o t ht ho S hview => entered S _ t ht (ho S hview)) ?_
  · rintro v (rfl | rfl) S hview
    · cases hview
    · cases hview
      exact begun
  · intro o y _ _ hreader S hview
    have hworking : y.view = .working S := hview
    simp [Txn.isReader, hworking] at hreader
  · intro x p k o t c' hc hx hp ho σ S' hview'
    obtain ⟨S, hview⟩ := CursorCall.working_of_step hview'
    exact inside x p k o t c' S S' hc hx hp hview (ho S hview) hview'

end Hall

/-! ## Handles come from the database -/

/-- The handle is one of a database, on a tree with a name that a tree can have. -/
structure Tree.Of (t : Tree) (path : String) : Prop where
  database : t.database = path
  named : checkTreeName t.name = .ok ()

namespace Hall
variable {w : Hall} {c : HallCall} {d : Database}

/-- All handles and transactions are of the database, and a cursor over an index has come from the
handle at its place. -/
structure Sound (w : Hall) : Prop where
  handles : ∀ t ∈ w.handles, t.Of w.database.path
  opened : ∀ o ∈ w.opened, o.txn.database = w.database.path ∧
    ∀ p ∈ o.places, p.1.Of w.database.path ∧ ∀ i ∈ p.2.index?, i ∈ p.1.indexes

theorem sound_fresh (d : Database) : (fresh d).Sound := ⟨nofun, nofun⟩

theorem Effect.of_handles {l : List Tree} (heff : w.Effect c d l)
    (h : ∀ t ∈ w.handles, t.Of w.database.path) : ∀ t ∈ l, t.Of w.database.path := by
  have hnew : ∀ t' : Tree, t'.Of w.database.path →
      ∀ t ∈ w.handles ++ [t'], t.Of w.database.path := by
    intro t' ht' t ht
    rcases List.mem_append.mp ht with ht | ht
    · exact h t ht
    · exact List.mem_singleton.mp ht ▸ ht'
  have hpath := congrArg Prod.fst heff.settings
  cases heff with
  | same _ _ => exact h
  | committed _ _ _ _ => exact h
  | written _ => exact h
  | indexed handle run =>
    obtain ⟨hname, hdatabase⟩ := (IndexCall.changes_of_step_ok run).handle
    have ht := h _ (List.mem_of_getElem? handle)
    exact hnew _ ⟨hdatabase.trans ht.database, hname ▸ ht.named⟩
  | tuned handle name database _ =>
    exact hnew _ ⟨database.trans (h _ handle).database, name ▸ (h _ handle).named⟩
  | treeOpened run =>
    obtain ⟨hname, rfl, -⟩ := Database.openTree_ok run
    refine hnew _ ⟨(Tree.database_loadRecorded ..).trans hpath, ?_⟩
    rw [Tree.name_loadRecorded]
    exact hname
  | treeDropped _ => exact h

theorem Sound.perform (h : w.Sound) (c : HallCall) : (w.perform c).Sound := by
  have heff := w.effect_perform c
  have hpath : (w.perform c).database.path = w.database.path := congrArg Prod.fst heff.settings
  refine ⟨fun t ht => hpath ▸ heff.of_handles h.handles t ht, ?_⟩
  rw [hpath]
  refine opened_perform h.opened c (fun v _ => ⟨rfl, nofun⟩)
    (fun o y ho hdatabase _ => ⟨hdatabase.trans ho.1, ho.2⟩) (fun o t ht ho => ?_) ?_
  · refine ⟨ho.1, fun p hp => ?_⟩
    rcases List.mem_append.mp hp with hp | hp
    · exact ho.2 p hp
    · obtain rfl := List.mem_singleton.mp hp
      exact ⟨h.handles t ht, nofun⟩
  · rintro x p k o t c' - hx hp ⟨hdatabase, hplaces⟩
    refine ⟨(k.rel_any t c' _).database.trans hdatabase, fun q hq => ?_⟩
    rcases List.mem_or_eq_of_mem_set hq with hq | rfl
    · exact hplaces q hq
    · obtain ⟨hof, hattached⟩ := hplaces _ (List.mem_of_getElem? hp)
      refine ⟨hof, fun i hi => ?_⟩
      obtain hsame | ⟨n, -, hnew⟩ := (k.becomes_step t c' _).index? hi
      · exact hattached i hsame
      · exact (Tree.index?_eq_some hnew).1

theorem Sound.act (h : w.Sound) (c : HallCall) : (w.act c).Sound := by
  unfold Hall.act
  split
  · exact h
  · exact h.perform c

theorem Sound.run (h : w.Sound) (calls : List HallCall) : (w.run calls).Sound := by
  induction calls generalizing w with
  | nil => exact h
  | cons c rest ih => exact ih (h.act c)

/-- While no writer is open, no transaction has a store that it works on. -/
theorem not_working (h : w.writing = false) {o : Opened} (ho : o ∈ w.opened) (S : Store) :
    o.txn.view ≠ .working S := by
  intro hview
  simp only [writing, List.any_eq_false] at h
  have hreader := h o ho
  simp [Txn.isReader, hview] at hreader

theorem writes_of_not_waits (h : w.waits c = false) (hc : c.writes w.database = true) :
    w.writing = false := by
  simpa [waits, hc] using h

theorem aim_inside {x p : Nat} {k : CursorCall} {o : Opened} {t : Tree} {c' : Cursor} {S : Store}
    (ho : w.opened[x]? = some o) (hp : o.places[p]? = some (t, c'))
    (hview : o.txn.view = .working S) :
    w.aim (.inside x p k) = some (t, S) := by
  rcases o with ⟨⟨_, _⟩, _⟩
  cases hview
  simp only [aim, ho]
  rw [hp]
  rfl

end Hall
end IndexedStore
