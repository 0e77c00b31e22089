import IndexedStore.Proofs.Rounds

/-! # The ends of write transactions

One write transaction is open at a time, and each comes to one end. A commit makes its store the
committed one, unless the engine has allocated too much. The counters tell the commits from the
aborts, and each end moves one of the two by one, with two exceptions: a transaction that is dropped
while it is open counts as neither, and so does one whose commit the engine fails to carry out. What
runs in a transaction of its own begins one and ends it, and the worker of a queue does so in each
round.
-/
namespace IndexedStore
open Attempt

/-- What a caller does in a transaction: steps, each chosen by what the one before came to, and an
answer. Cursors and entry counts are the caller's own. -/
inductive Closure
  | done (r : Except Failure Unit)
  | step (x : Inside) (c : Cursor) (entryCount : Int64)
    (next : Except Failure Unit × Cursor × Scope → Closure)

def Closure.run : Closure → Attempt Scope Unit
  | done r => .ofExcept r
  | step x c entryCount next => fun s =>
    let out := x.step.run (c, { s with entryCount := entryCount })
    (next out).run out.2.2

/-! ## Runs -/

/-- How a write transaction has ended. -/
inductive TxnEnd
  /-- committed -/
  | visible
  | aborted
  /-- the commit was refused because too much was allocated -/
  | refused
  /-- neither committed nor aborted -/
  | dropped
  /-- the engine failed to commit -/
  | lost
deriving DecidableEq

/-- The ends that the counters are told of. -/
def TxnEnd.Counted (e : TxnEnd) : Prop := e ≠ .dropped ∧ e ≠ .lost

instance (e : TxnEnd) : Decidable e.Counted := inferInstanceAs (Decidable (_ ∧ _))

/-- How a transaction ends that is settled, by what its steps came to and what came of that. -/
def TxnEnd.settled {α β : Type} : Except Failure α → Except Failure β → TxnEnd
  | .error _, _ => aborted
  | .ok _, .error _ => refused
  | .ok _, .ok _ => visible

/-- Whether the call gets as far as to begin a write transaction, if the database can be written. -/
def TreeCall.writes (d : Database) (t : Tree) : TreeCall → Bool
  | .inside _ | .read _ => false
  | .write _ => true
  | .openTree create => (checkTreeName t.name).isOk && !d.hasTree t.name && create
  | .dropTree => (checkTreeName t.name).isOk
  | .addIndex c => Index.validName c.name && !t.hasIndex c.name &&
    (d.registry.get? (extractorId d.version c.flags)).isSome
  | .populate name | .dropIndex name | .saveIndex name => t.hasIndex name

/-- How many write transactions the call begins. -/
def TreeCall.begins (d : Database) (t : Tree) (x : TreeCall) : Nat :=
  if d.flags.readOnly then 0 else (x.writes d t).toNat

/-- How the worker leaves a buffer, and how the transaction ends that it has open then: there is
none if nothing was left to write or if none could begin. -/
inductive LastRound (d : Database) (around : Surroundings) : Bool → List TxnEnd → Prop
  | complete : LastRound d around true []
  | unbegun (refused : d.flags.readOnly = true ∨ around.beginFault.isSome = true) :
    LastRound d around false []
  | aborted (begun : d.flags.readOnly = false ∧ around.beginFault = none) :
    LastRound d around false [.aborted]
  | refused (begun : d.flags.readOnly = false ∧ around.beginFault = none)
    (full : d.mapSize < around.allocated) : LastRound d around false [.refused]
  | lost (begun : d.flags.readOnly = false ∧ around.beginFault = none)
    (fails : around.commitFault.isSome = true) : LastRound d around false [.lost]

theorem LastRound.congr {d d' : Database} {around : Surroundings} {goesOn : Bool}
    {last : List TxnEnd} (h : LastRound d' around goesOn last) (hflags : d'.flags = d.flags)
    (hsize : d'.mapSize = d.mapSize) : LastRound d around goesOn last := by
  cases h with
  | complete => exact .complete
  | unbegun refused => exact .unbegun (hflags ▸ refused)
  | aborted begun => exact .aborted (hflags ▸ begun)
  | refused begun full => exact .refused (hflags ▸ begun) (hsize ▸ full)
  | lost begun fails => exact .lost (hflags ▸ begun) fails

/-- A database, its open write transaction, and those that have ended, the last one first. -/
structure Ledger where
  database : Database
  writer? : Option Txn
  ends : List (Txn × TxnEnd)

namespace Ledger

/-- What can happen next. Whoever holds a read transaction has it at hand. -/
inductive Event
  | begin
  | inside (x : Inside) (c : Cursor) (entryCount : Int64)
  | commit (allocated : Nat) (engineFails : Bool)
  | abort
  | drop
  /-- a step in a read transaction -/
  | reading (txn : Txn) (x : Inside) (c : Cursor) (entryCount : Int64)
  /-- a read transaction is committed or aborted -/
  | endReading (txn : Txn) (committed : Bool)
  | resize (size : Nat)
  | register (version flags : UInt32) (x : Extractor)

/-- No transaction is open. -/
def idle (d : Database) : Ledger := ⟨d, none, []⟩

/-- While a write transaction is open, another one waits. -/
def begin (w : Ledger) : Ledger :=
  match w.writer?, w.database.beginWrite with
  | none, .ok x => { w with writer? := some x }
  | _, _ => w

def inside (w : Ledger) (x : Inside) (c : Cursor) (entryCount : Int64) : Ledger :=
  match w.writer? with
  | none => w
  | some txn =>
    let s := (x.step.run (c, w.database.scope txn entryCount)).2.2
    ⟨{ w.database with statistics := s.statistics }, some s.txn, w.ends⟩

/-- The open transaction has ended. -/
def ended (w : Ledger) (d : Database) (x : Txn) (e : TxnEnd) : Ledger := ⟨d, none, (x, e) :: w.ends⟩

def commit (allocated : Nat) (w : Ledger) (engineFails : Bool) : Ledger :=
  match w.writer? with
  | none => w
  | some x =>
    match (Database.commit allocated x).run w.database, engineFails with
    | (.error _, d), _ => w.ended d x .refused
    | (.ok (), _), true => w.ended w.database x .lost
    | (.ok (), d), false => w.ended d x .visible

def abort (w : Ledger) : Ledger :=
  match w.writer? with
  | none => w
  | some x => w.ended (w.database.abort x) x .aborted

def drop (w : Ledger) : Ledger :=
  match w.writer? with
  | none => w
  | some x => w.ended w.database x .dropped

def reading (w : Ledger) (txn : Txn) (x : Inside) (c : Cursor) (entryCount : Int64) : Ledger :=
  if txn.isReader then
    let s := (x.step.run (c, w.database.scope txn entryCount)).2.2
    { w with database := { w.database with statistics := s.statistics } }
  else w

def endReading (w : Ledger) (txn : Txn) (committed : Bool) : Ledger :=
  if txn.isReader then
    { w with
      database := if committed then ((Database.commit 0 txn).run w.database).2
        else w.database.abort txn }
  else w

def step (w : Ledger) : Event → Ledger
  | .begin => w.begin
  | .inside x c entryCount => w.inside x c entryCount
  | .commit allocated engineFails => w.commit allocated engineFails
  | .abort => w.abort
  | .drop => w.drop
  | .reading txn x c entryCount => w.reading txn x c entryCount
  | .endReading txn committed => w.endReading txn committed
  | .resize size => { w with database := ((Database.resize size).run w.database).2 }
  | .register version flags x =>
    { w with database := ((Database.register version flags x).run w.database).2 }

def run (w : Ledger) (events : List Event) : Ledger := events.foldl step w

/-- How many write transactions have ended so. -/
def number (w : Ledger) (e : TxnEnd) : Nat := w.ends.countP fun x => x.2 = e

/-- What the last transaction that was committed saw, or what was there at first. -/
def lastCommitted (d : Database) (w : Ledger) : Store :=
  ((w.ends.find? fun x => x.2 = .visible).bind fun x => x.1.view.store?).getD d.store

end Ledger

/-! ## What is counted of the ends -/

namespace Ledger
variable {d : Database} {w w' : Ledger} {x : Txn} {e : TxnEnd}

/-- What can be told from the counters and the committed store: each end has been counted as a
commit or as an abort if it has been counted at all, and what is committed is what the last
committed transaction saw. -/
structure Kept (d : Database) (w : Ledger) : Prop where
  writes : ∀ x ∈ w.writer?, x.isReader = false
  commits : w.database.statistics.commits = d.statistics.commits + .ofNat (w.number .visible)
  aborts : w.database.statistics.aborts =
    d.statistics.aborts + .ofNat (w.number .aborted + w.number .refused)
  store : w.database.store = w.lastCommitted d

theorem kept_idle (d : Database) : Kept d (idle d) where
  writes := nofun
  commits := (UInt64.add_zero _).symm
  aborts := (UInt64.add_zero _).symm
  store := rfl

theorem number_ended (w : Ledger) (d : Database) (x : Txn) (e e' : TxnEnd) :
    (w.ended d x e).number e' = w.number e' + if e = e' then 1 else 0 := by
  simp only [number, ended, List.countP_cons, decide_eq_true_eq]

theorem lastCommitted_ended (w : Ledger) (d d' : Database) (x : Txn) (h : e ≠ .visible) :
    (w.ended d' x e).lastCommitted d = w.lastCommitted d := by
  rw [lastCommitted, ended, List.find?_cons_of_neg (by simpa using h), lastCommitted]

/-- What keeps the counters of ends, the committed store and the ends keeps the account of them. -/
theorem Kept.same (h : Kept d w) (writes : ∀ x ∈ w'.writer?, x.isReader = false)
    (commits : w'.database.statistics.commits = w.database.statistics.commits)
    (aborts : w'.database.statistics.aborts = w.database.statistics.aborts)
    (store : w'.database.store = w.database.store) (ends : w'.ends = w.ends) : Kept d w' where
  writes := writes
  commits := by rw [commits, h.commits, number, number, ends]
  aborts := by simp only [aborts, h.aborts, number, ends]
  store := by rw [store, h.store, lastCommitted, lastCommitted, ends]

theorem Kept.begin (h : Kept d w) : Kept d w.begin := by
  unfold Ledger.begin
  split
  · rename_i x _ hbegin
    refine h.same (fun y hy => ?_) rfl rfl rfl rfl
    obtain rfl := Option.some.inj hy
    unfold Database.beginWrite at hbegin
    split at hbegin <;> cases hbegin
    rfl
  · exact h

theorem Kept.inside (h : Kept d w) (x : Inside) (c : Cursor) (n : Int64) :
    Kept d (w.inside x c n) := by
  unfold Ledger.inside
  cases htxn : w.writer? with
  | none => exact h
  | some txn =>
    have hstanding := x.standing_step c (w.database.scope txn n)
    have hreader : txn.isReader = false := h.writes txn htxn
    refine h.same (fun y hy => ?_) (congrArg (·.2.1) hstanding).symm
      (congrArg (·.2.2) hstanding).symm rfl rfl
    obtain rfl := Option.some.inj hy
    exact (congrArg Prod.fst hstanding).symm.trans hreader

theorem Kept.reading (h : Kept d w) (txn : Txn) (x : Inside) (c : Cursor) (n : Int64) :
    Kept d (w.reading txn x c n) := by
  unfold Ledger.reading
  split
  · have hstanding := x.standing_step c (w.database.scope txn n)
    exact h.same h.writes (congrArg (·.2.1) hstanding).symm (congrArg (·.2.2) hstanding).symm rfl
      rfl
  · exact h

theorem Kept.visible {S : Store} (h : Kept d w) (hx : x.view = .working S) :
    Kept d (w.ended ({ w.database with store := S }.count (·.recordCommit)) x .visible) where
  writes := nofun
  commits := by
    rw [number_ended, if_pos rfl, UInt64.ofNat_add, ← UInt64.add_assoc, ← h.commits]
    rfl
  aborts := by
    rw [number_ended, number_ended, if_neg nofun, if_neg nofun]
    exact h.aborts
  store := by
    rw [lastCommitted, ended, List.find?_cons_of_pos (by rfl), Option.bind_some, hx]
    rfl

/-- An end without a commit, after which one abort more is counted if it is one. -/
theorem Kept.undone {d' : Database} (h : Kept d w) (x : Txn) (hidden : e ≠ .visible)
    (commits : d'.statistics.commits = w.database.statistics.commits)
    (aborts : d'.statistics.aborts =
      w.database.statistics.aborts + if e = .aborted ∨ e = .refused then 1 else 0)
    (store : d'.store = w.database.store) : Kept d (w.ended d' x e) where
  writes := nofun
  commits := by
    rw [number_ended, if_neg hidden]
    exact commits.trans h.commits
  aborts := by
    have hnumber : (w.ended d' x e).number .aborted + (w.ended d' x e).number .refused =
        w.number .aborted + w.number .refused + if e = .aborted ∨ e = .refused then 1 else 0 := by
      rw [number_ended, number_ended]
      cases e <;> simp <;> omega
    rw [hnumber, UInt64.ofNat_add, ← UInt64.add_assoc, ← h.aborts]
    refine aborts.trans (congrArg _ ?_)
    split <;> rfl
  store := by
    rw [lastCommitted_ended _ _ _ _ hidden]
    exact store.trans h.store

/-- What the commit of a writer can come to. -/
theorem commit_cases {S : Store} (open? : w.writer? = some x) (view : x.view = .working S)
    (allocated : Nat) (engineFails : Bool) :
    w.commit allocated engineFails = w.ended ((w.database.count (·.recordError .mapFull)).count
        (·.recordAbort)) x .refused ∨
      w.commit allocated engineFails = w.ended w.database x .lost ∨
      w.commit allocated engineFails =
        w.ended ({ w.database with store := S }.count (·.recordCommit)) x .visible := by
  unfold commit
  rw [open?]
  by_cases hfull : w.database.mapSize < allocated
  · have hrun : (Database.commit allocated x).run w.database =
        (.error (.mapFull allocated w.database.mapSize),
          (w.database.count (·.recordError .mapFull)).count (·.recordAbort)) := by
      simp only [Attempt.run, Database.commit, view, if_pos hfull]
    left
    simp only [hrun]
  · have hrun : (Database.commit allocated x).run w.database =
        (.ok (), { w.database with store := S }.count (·.recordCommit)) := by
      simp only [Attempt.run, Database.commit, view, if_neg hfull]
    right
    cases engineFails with
    | true =>
      left
      simp only [hrun]
    | false =>
      right
      simp only [hrun]

theorem Kept.commit (h : Kept d w) (allocated : Nat) (engineFails : Bool) :
    Kept d (w.commit allocated engineFails) := by
  cases hx : w.writer? with
  | none =>
    unfold Ledger.commit
    rw [hx]
    exact h
  | some x =>
    obtain ⟨S, hS⟩ := Txn.exists_working (h.writes x hx)
    obtain hrefused | hlost | hvisible := commit_cases hx hS allocated engineFails
    · rw [hrefused]
      exact h.undone x nofun rfl rfl rfl
    · rw [hlost]
      exact h.undone x nofun rfl (UInt64.add_zero _).symm rfl
    · rw [hvisible]
      exact h.visible hS

theorem Kept.abort (h : Kept d w) : Kept d w.abort := by
  unfold Ledger.abort
  cases hx : w.writer? with
  | none => exact h
  | some x =>
    simp only [Database.abort, h.writes x hx, Bool.false_eq_true, if_false]
    exact h.undone x nofun rfl rfl rfl

theorem Kept.drop (h : Kept d w) : Kept d w.drop := by
  unfold Ledger.drop
  cases w.writer? with
  | none => exact h
  | some x => exact h.undone x nofun rfl (UInt64.add_zero _).symm rfl

/-- The end of a read transaction changes nothing. -/
theorem endReading_eq (w : Ledger) (txn : Txn) (committed : Bool) :
    w.endReading txn committed = w := by
  unfold endReading
  split
  · rename_i hreader
    cases committed with
    | false => simp only [Bool.false_eq_true, if_false, Database.abort, hreader, if_true]
    | true =>
      simp only [if_true, Attempt.run, Database.commit]
      split
      · rename_i hview
        simp [Txn.isReader, hview] at hreader
      · rfl
  · rfl

theorem state_resize (size : Nat) (d : Database) :
    ((Database.resize size).run d).2.statistics = d.statistics ∧
      ((Database.resize size).run d).2.store = d.store := by
  have hsame := Database.respects_resize (Q := Order.Preimage (fun d => (d.statistics, d.store))
    (· = ·)) size (fun _ => rfl) d
  exact ⟨(congrArg Prod.fst hsame).symm, (congrArg Prod.snd hsame).symm⟩

theorem Kept.step (h : Kept d w) (event : Event) : Kept d (w.step event) := by
  cases event with
  | begin => exact h.begin
  | inside x c n => exact h.inside x c n
  | commit allocated engineFails => exact h.commit allocated engineFails
  | abort => exact h.abort
  | drop => exact h.drop
  | reading txn x c n => exact h.reading txn x c n
  | endReading txn committed =>
    rw [Ledger.step, endReading_eq]
    exact h
  | resize size =>
    obtain ⟨hstatistics, hstore⟩ := state_resize size w.database
    exact h.same h.writes (congrArg Statistics.commits hstatistics)
      (congrArg Statistics.aborts hstatistics) hstore rfl
  | register version flags x => exact h.same h.writes rfl rfl rfl rfl

theorem Kept.run (h : Kept d w) (events : List Event) : Kept d (w.run events) := by
  induction events generalizing w with
  | nil => exact h
  | cons event rest ih => exact ih (h.step event)

/-! ## What is made of such runs -/

/-- A run gets from one moment to the other. -/
def Leads (w w' : Ledger) : Prop := ∃ events, w.run events = w'

theorem Leads.refl (w : Ledger) : w.Leads w := ⟨[], rfl⟩

theorem Leads.trans {w'' : Ledger} (h : w.Leads w') (h' : w'.Leads w'') : w.Leads w'' := by
  obtain ⟨events, rfl⟩ := h
  obtain ⟨more, rfl⟩ := h'
  exact ⟨events ++ more, List.foldl_append⟩

theorem leads_step (w : Ledger) (event : Event) : w.Leads (w.step event) := ⟨[event], rfl⟩

/-- A run gets from one database to the other, with no write transaction open before it and after
it, and those that end in between end in these ways, the last one first. -/
def Passes (l : List TxnEnd) (d d' : Database) : Prop :=
  ∀ ends, ∃ new, new.map Prod.snd = l ∧ Leads ⟨d, none, ends⟩ ⟨d', none, new ++ ends⟩

theorem passes_of_leads {d' : Database} (h : ∀ ends, Leads ⟨d, none, ends⟩ ⟨d', none, ends⟩) :
    Passes [] d d' :=
  fun ends => ⟨[], rfl, h ends⟩

theorem passes_of_end {d' : Database} (x : Txn)
    (h : ∀ ends, Leads ⟨d, none, ends⟩ ⟨d', none, (x, e) :: ends⟩) : Passes [e] d d' :=
  fun ends => ⟨[(x, e)], rfl, h ends⟩

theorem Passes.refl (d : Database) : Passes [] d d := passes_of_leads fun _ => .refl _

theorem Passes.trans {l l' : List TxnEnd} {d' d'' : Database} (h : Passes l d d')
    (h' : Passes l' d' d'') : Passes (l' ++ l) d d'' := by
  intro ends
  obtain ⟨new, rfl, hleads⟩ := h ends
  obtain ⟨newer, rfl, hleads'⟩ := h' (new ++ ends)
  refine ⟨newer ++ new, List.map_append, ?_⟩
  rw [List.append_assoc]
  exact hleads.trans hleads'

/-! ### Transactions of their own -/

theorem leads_closure (f : Closure) (d : Database) (s : Scope) (ends : List (Txn × TxnEnd)) :
    Leads ⟨{ d with statistics := s.statistics }, some s.txn, ends⟩
      ⟨{ d with statistics := (f.run.run s).2.statistics }, some (f.run.run s).2.txn, ends⟩ := by
  induction f generalizing s with
  | done r => exact .refl _
  | step x c n next ih =>
    have hstep := leads_step ⟨{ d with statistics := s.statistics }, some s.txn, ends⟩
      (.inside x c n)
    exact hstep.trans (ih _ (x.step.run (c, { s with entryCount := n })).2.2)

theorem begin_idle (writable : d.flags.readOnly = false) (ends : List (Txn × TxnEnd)) :
    (⟨d, none, ends⟩ : Ledger).begin = ⟨d, some ⟨d.path, .working d.store⟩, ends⟩ := by
  simp only [Ledger.begin, Database.beginWrite, writable, Bool.false_eq_true, if_false]

theorem leads_begin (writable : d.flags.readOnly = false) (ends : List (Txn × TxnEnd)) :
    Leads ⟨d, none, ends⟩ ⟨d, some ⟨d.path, .working d.store⟩, ends⟩ :=
  begin_idle writable ends ▸ leads_step _ .begin

theorem leads_commit (allocated : Nat) (d : Database) (x : Txn) (ends : List (Txn × TxnEnd)) :
    let r := (Database.commit allocated x).run d
    Leads ⟨d, some x, ends⟩ ⟨r.2, none, (x, .settled (.ok ()) r.1) :: ends⟩ := by
  have hstep := leads_step ⟨d, some x, ends⟩ (.commit allocated false)
  simp only [Ledger.step, Ledger.commit, Ledger.ended] at hstep
  rcases hrun : (Database.commit allocated x).run d with ⟨e | _, d'⟩ <;> rw [hrun] at hstep <;>
    exact hstep

theorem leads_settle {α : Type} (allocated : Nat) (d : Database) (x : Txn) (r : Except Failure α)
    (ends : List (Txn × TxnEnd)) :
    let settled := (Database.settle allocated x r).run d
    Leads ⟨d, some x, ends⟩ ⟨settled.2, none, (x, .settled r settled.1) :: ends⟩ := by
  cases r with
  | error e => exact leads_step ⟨d, some x, ends⟩ .abort
  | ok a =>
    have hcommit := leads_commit allocated d x ends
    simp only [Attempt.run, Database.settle]
    simp only [Attempt.run] at hcommit
    split <;> rename_i hrun <;> rw [hrun] at hcommit <;> exact hcommit

/-- What runs in a write transaction of its own begins the transaction, makes its steps and commits
or aborts. -/
theorem passes_write (allocated : Nat) (f : Closure) (σ : Session) :
    let r := (Session.write allocated f.run).run σ
    Passes (if σ.database.flags.readOnly then [] else [.settled (f.run.run σ.writer).1 r.1])
      σ.database r.2.database := by
  simp only [Session.run_write]
  cases hflag : σ.database.flags.readOnly with
  | true => exact .refl _
  | false =>
    refine passes_of_end (f.run.run σ.writer).2.txn fun ends => ?_
    have hend := leads_settle allocated
      { σ.database with statistics := (f.run.run σ.writer).2.statistics } (f.run.run σ.writer).2.txn
      (f.run.run σ.writer).1 ends
    have hsteps := leads_closure f σ.database σ.writer ends
    exact (leads_begin hflag ends).trans (hsteps.trans hend)

/-- So many write transactions end from one database to the other, and each of them is counted. -/
def Makes (n : Nat) (d d' : Database) : Prop :=
  ∃ l : List TxnEnd, l.length = n ∧ (∀ e ∈ l, e.Counted) ∧ Passes l d d'

theorem makes_of_leads {d' : Database} (h : ∀ ends, Leads ⟨d, none, ends⟩ ⟨d', none, ends⟩) :
    Makes 0 d d' := ⟨[], rfl, nofun, passes_of_leads h⟩

theorem Makes.refl (d : Database) : Makes 0 d d := makes_of_leads fun _ => .refl _

theorem counted_settled {α β : Type} (r : Except Failure α) (r' : Except Failure β) :
    (TxnEnd.settled r r').Counted := by
  rcases r with e | a <;> rcases r' with e' | b <;> exact ⟨nofun, nofun⟩

theorem makes_write {step : Attempt Scope Unit} (allocated : Nat) (f : Closure) (σ : Session)
    (h : f.run.run σ.writer = step.run σ.writer) :
    Makes (if σ.database.flags.readOnly then 0 else 1) σ.database
      ((Session.write allocated step).run σ).2.database := by
  have hsame : (Session.write allocated step).run σ = (Session.write allocated f.run).run σ := by
    rw [Session.run_write, Session.run_write, h]
  have hpasses := passes_write allocated f σ
  rw [hsame]
  split at hpasses
  next hflag =>
    rw [if_pos hflag]
    exact ⟨[], rfl, nofun, hpasses⟩
  next hflag =>
    rw [if_neg hflag]
    exact ⟨_, rfl, List.forall_mem_singleton.mpr (counted_settled _ _), hpasses⟩

/-- A step without a cursor, in a transaction of its own. -/
theorem makes_beside {x : Attempt Scope Unit} (allocated : Nat) (y : Inside)
    (h : y.step = Cursor.beside x) (d : Database) :
    Makes (if d.flags.readOnly then 0 else 1) d ((Database.write allocated x).run d).2 := by
  refine makes_write allocated (.step y ⟨none, none⟩ 0 fun out => .done out.1) ⟨d, 0⟩ ?_
  simp only [Closure.run, h]
  rfl

section Calls
variable {α β : Type} {t : Tree} {x : TreeCall}

theorem begins_of_writes (h : x.writes d t = true) :
    x.begins d t = if d.flags.readOnly then 0 else 1 := by
  rw [TreeCall.begins, h, Bool.toNat_true]

theorem begins_of_not_writes (h : x.writes d t = false) : x.begins d t = 0 := by
  rw [TreeCall.begins, h, Bool.toNat_false, ite_self]

/-- A call that is turned away before it begins a transaction. -/
theorem makes_of_begins (h : x.begins d t = 0) : Makes (x.begins d t) d d := by
  rw [h]
  exact .refl d

theorem makes_ofExcept {r : Except Failure α} {f : α → Attempt Database β}
    (refused : ∀ e, r = .error e → x.begins d t = 0)
    (goesOn : ∀ a, r = .ok a → Makes (x.begins d t) d ((f a).run d).2) :
    Makes (x.begins d t) d ((ofExcept r >>= f).run d).2 := by
  rw [run_bind, run_ofExcept]
  cases r with
  | error e => exact makes_of_begins (refused e rfl)
  | ok a => exact goesOn a rfl

theorem makes_require {holds : Bool} {e : Failure} {f : Unit → Attempt Database β}
    (refused : holds = false → x.begins d t = 0)
    (goesOn : holds = true → Makes (x.begins d t) d ((f ()).run d).2) :
    Makes (x.begins d t) d ((require holds e >>= f).run d).2 := by
  rw [run_bind, run_require]
  cases holds with
  | false => exact makes_of_begins (refused rfl)
  | true => exact goesOn rfl

/-- What follows the transaction of a call changes nothing any more. -/
theorem Makes.bind {n : Nat} {x : Attempt Database α} {f : α → Attempt Database β}
    (h : Makes n d (x.run d).2) (hf : ∀ a d', ((f a).run d').2 = d') :
    Makes n d ((x >>= f).run d).2 := by
  rw [run_bind]
  rcases hrun : x.run d with ⟨e | a, d'⟩ <;> rw [hrun] at h
  · exact h
  · exact (hf a d').symm ▸ h

/-- A call on an index that has to be attached. -/
theorem makes_attached {name : String} (hx : x.writes d t = t.hasIndex name)
    {f : Index → Attempt Database α}
    (h : ∀ i, Makes (if d.flags.readOnly then 0 else 1) d ((f i).run d).2) :
    Makes (x.begins d t) d ((ofExcept (t.attached name) >>= f).run d).2 := by
  rw [Tree.hasIndex] at hx
  refine makes_ofExcept (fun e he => begins_of_not_writes ?_) fun i hi => ?_
  · rw [hx]
    cases hi : t.index? name with
    | none => rfl
    | some i =>
      rw [Tree.attached, hi] at he
      cases he
  · rw [begins_of_writes (by rw [hx, Tree.attached_eq_ok_iff.mp hi]; rfl)]
    exact h i

theorem makes_openTree (allocated : Nat) (t : Tree) (create : Bool) (d : Database) :
    Makes ((TreeCall.openTree create).begins d t) d
      ((Database.openTree allocated t.name create).run d).2 := by
  refine makes_ofExcept (fun e he => begins_of_not_writes ?_) fun _ hname => ?_
  · rw [TreeCall.writes, he]
    rfl
  rw [run_bind_ok (run_state d)]
  cases hthere : d.hasTree t.name with
  | true => exact makes_of_begins (begins_of_not_writes (by simp [TreeCall.writes, hthere]))
  | false =>
    refine makes_require (fun hrefused => ?_) fun hmay => ?_
    · rcases Bool.and_eq_false_iff.mp hrefused with hcreate | hflag
      · exact begins_of_not_writes (by simp [TreeCall.writes, hcreate])
      · rw [TreeCall.begins, if_pos (by simpa using hflag)]
    · have hcreate : create = true := (Bool.and_eq_true_iff.mp hmay).1
      rw [begins_of_writes (by rw [TreeCall.writes, hname, hthere, hcreate]; rfl)]
      exact (makes_beside allocated (.createTree d t.name) rfl d).bind fun _ _ => rfl

theorem makes_addIndex (allocated : Nat) (t : Tree) (c : IndexConfig) (d : Database) :
    Makes ((TreeCall.addIndex c).begins d t) d ((t.addIndex allocated c).run d).2 := by
  refine makes_require (fun hname => begins_of_not_writes ?_) fun hname => ?_
  · rw [TreeCall.writes, hname]
    rfl
  split
  next hthere => exact makes_of_begins (begins_of_not_writes (by simp [TreeCall.writes, hthere]))
  next hfree =>
    rw [run_bind_ok (run_state d)]
    simp only
    cases hx : d.registry.get? (extractorId d.version c.flags) with
    | none => exact makes_of_begins (begins_of_not_writes (by simp [TreeCall.writes, hx]))
    | some extractor =>
      rw [begins_of_writes (by simp [TreeCall.writes, hname, hfree, hx])]
      exact (makes_beside allocated (.createIndex d t _) rfl d).bind fun _ _ => rfl

/-- A call on a tree begins no transaction or one, and that one ends and is counted. -/
theorem makes_afterCall (allocated : Nat) (σ : Session) (t : Tree) (x : TreeCall) :
    Makes (x.begins σ.database t) σ.database (σ.afterCall allocated t x).database := by
  cases x with
  | inside c => exact makes_of_begins (begins_of_not_writes rfl)
  | read r =>
    rw [begins_of_not_writes rfl]
    exact makes_of_leads fun ends => leads_step ⟨σ.database, none, ends⟩
      (.reading σ.database.beginRead (.call t (.request r)) ⟨none, none⟩ σ.entryCount)
  | write r =>
    rw [begins_of_writes rfl]
    exact makes_write allocated (.step (.call t (.request r)) ⟨none, none⟩ σ.entryCount
      fun out => .done out.1) σ rfl
  | openTree create => exact makes_openTree allocated t create σ.database
  | dropTree =>
    rw [Session.afterCall, Database.dropTree_eq]
    refine makes_ofExcept (fun e he => begins_of_not_writes ?_) fun _ hname => ?_
    · rw [TreeCall.writes, he]
      rfl
    · rw [begins_of_writes (by rw [TreeCall.writes, hname]; rfl)]
      exact makes_beside allocated (.clearTree t.name) rfl σ.database
  | addIndex c => exact makes_addIndex allocated t c σ.database
  | populate name =>
    rw [Session.afterCall, Tree.populate_eq]
    exact makes_attached rfl fun i => makes_beside allocated (.fillIndex t i) rfl σ.database
  | dropIndex name =>
    rw [Session.afterCall, Tree.dropIndex_eq]
    exact makes_attached rfl fun i =>
      (makes_beside allocated (.clearIndex t i name) rfl σ.database).bind fun _ _ => rfl
  | saveIndex name =>
    exact makes_attached rfl fun i => makes_beside allocated (.saveIndex t i) rfl σ.database

end Calls

/-! ### The worker -/

/-- The worker has its transaction open. -/
def ofBatch (b : Ingest.Batch) (ends : List (Txn × TxnEnd)) : Ledger :=
  ⟨b.ingest.session.database, some b.txn, ends⟩

theorem leads_upsert {t : Tree} {i : Item} {b b' : Ingest.Batch} {r : Except Failure Unit}
    (h : b.upsert t i = (r, b')) (ends : List (Txn × TxnEnd)) :
    Leads (ofBatch b ends) (ofBatch b' ends) := by
  have hstep := leads_step (ofBatch b ends)
    (.inside (.call t (.request (.entry (.upsert i.key i.value)))) ⟨none, none⟩
      b.ingest.session.entryCount)
  have hupsert : (ofBatch b ends).Leads (ofBatch (b.upsert t i).2 ends) := hstep
  rwa [h] at hupsert

theorem leads_writeItem (t : Tree) (i : Item) (left : Nat) (b : Ingest.Batch)
    (ends : List (Txn × TxnEnd)) : Leads (ofBatch b ends) (ofBatch (b.write t i left).2 ends) := by
  -- what the worker notes of an item touches neither the database nor the transaction
  fun_induction Ingest.Batch.write t i left b with
  | case1 left b b' hup => exact leads_upsert hup ends
  | case2 left b e b' hup => exact leads_upsert hup ends
  | case3 b e b' hup config hstrategy left attempt noted ih =>
    exact (leads_upsert hup ends).trans ih
  | case4 b e b' hup => exact leads_upsert hup ends
  | case5 left b e b' hup => exact leads_upsert hup ends
  | case6 left b e b' hup => exact leads_upsert hup ends

theorem leads_fill (t : Tree) (around : Surroundings) (attempted : Nat) (items : List Item)
    (b : Ingest.Batch) (ends : List (Txn × TxnEnd)) :
    Leads (ofBatch b ends) (ofBatch (Ingest.fill t around attempted items b).batch ends) := by
  fun_induction Ingest.fill t around attempted items b with
  | case1 attempted b => exact .refl _
  | case2 attempted i rest b hmore b' hw ih =>
    have hitem := leads_writeItem t i b.ingest.worker.config.maxRetries.toNat b ends
    rw [hw] at hitem
    exact hitem.trans ih
  | case3 attempted i rest b hmore b' hw ih =>
    have hitem := leads_writeItem t i b.ingest.worker.config.maxRetries.toNat b ends
    rw [hw] at hitem
    exact hitem.trans ih
  | case4 attempted i rest b hmore f b' hw =>
    have hitem := leads_writeItem t i b.ingest.worker.config.maxRetries.toNat b ends
    rwa [hw] at hitem
  | case5 attempted i rest b hmore => exact .refl _

theorem begun_of_beginBatch {around : Surroundings} {s : Ingest} {b : Ingest.Batch}
    (h : Ingest.beginBatch around s = .ok b) :
    s.session.database.flags.readOnly = false ∧ around.beginFault = none := by
  simp only [Ingest.beginBatch, Database.beginWrite] at h
  split at h
  · cases h
  · rename_i hfault
    cases hflag : s.session.database.flags.readOnly with
    | true => simp [hflag] at h
    | false => exact ⟨rfl, hfault⟩

theorem unbegun_of_beginBatch {around : Surroundings} {s : Ingest} {e : Failure}
    (h : Ingest.beginBatch around s = .error e) :
    s.session.database.flags.readOnly = true ∨ around.beginFault.isSome = true := by
  simp only [Ingest.beginBatch, Database.beginWrite] at h
  cases hflag : s.session.database.flags.readOnly with
  | true => exact .inl rfl
  | false =>
    cases hfault : around.beginFault with
    | some e => exact .inr rfl
    | none => simp [hflag, hfault] at h

theorem leads_beginBatch {around : Surroundings} {s : Ingest} {b : Ingest.Batch}
    (h : Ingest.beginBatch around s = .ok b) (ends : List (Txn × TxnEnd)) :
    Leads ⟨s.session.database, none, ends⟩ (ofBatch b ends) := by
  obtain rfl := Ingest.beginBatch_ok h
  exact leads_begin (begun_of_beginBatch h).1 ends

/-- What has come of the worker's transaction once a commit was asked for. -/
theorem leads_commitBatch (around : Surroundings) (b : Ingest.Batch) :
    ∃ e, (∀ ends, Leads (ofBatch b ends)
        ⟨(Ingest.commitBatch around b).2.session.database, none, (b.txn, e) :: ends⟩) ∧
      match (Ingest.commitBatch around b).1 with
      | .ok () => e = .visible
      | .error _ => e = .refused ∧ b.ingest.session.database.mapSize < around.allocated ∨
          e = .lost ∧ around.commitFault.isSome = true := by
  have hengine := fun ends =>
    leads_step (ofBatch b ends) (.commit around.allocated around.commitFault.isSome)
  simp only [Ledger.step, Ledger.commit, ofBatch] at hengine
  unfold Ingest.commitBatch
  rcases hrun : (Database.commit around.allocated b.txn).run b.ingest.session.database with
    ⟨e | _, d⟩
  · rw [hrun] at hengine
    have hfull := Database.full_of_commit_error hrun
    simp only [Attempt.run] at hrun
    rw [hrun]
    exact ⟨.refused, hengine, .inl ⟨rfl, hfull⟩⟩
  · rw [hrun] at hengine
    simp only [Attempt.run] at hrun
    rw [hrun]
    cases hfault : around.commitFault with
    | some f =>
      rw [hfault] at hengine
      exact ⟨.lost, hengine, .inr ⟨rfl, rfl⟩⟩
    | none =>
      rw [hfault] at hengine
      exact ⟨.visible, hengine, rfl⟩

/-- What decides whether a transaction can begin and be committed stays as it is. -/
theorem limits_commitBatch (around : Surroundings) (b : Ingest.Batch) :
    (Ingest.commitBatch around b).2.session.database.flags = b.ingest.session.database.flags ∧
      (Ingest.commitBatch around b).2.session.database.mapSize =
        b.ingest.session.database.mapSize := by
  rw [Ingest.state_commitBatch]
  exact ⟨rfl, rfl⟩

theorem limits_fill (t : Tree) (around : Surroundings) {s : Ingest} {b : Ingest.Batch}
    (h : Ingest.beginBatch around s = .ok b) (items : List Item) :
    let d := (Ingest.fill t around 0 items b).batch.ingest.session.database
    d.flags = s.session.database.flags ∧ d.mapSize = s.session.database.mapSize := by
  obtain ⟨done, -, hp, -⟩ := Ingest.fill_spec t around 0 items b
  have hdatabase := hp.database
  rw [(Ingest.ingest_of_begin h).1] at hdatabase
  rw [hdatabase]
  exact ⟨rfl, rfl⟩

/-- A round of the worker up to its end. -/
theorem passes_round {around : Surroundings} {t : Tree} {s : Ingest} {b : Ingest.Batch}
    (h : Ingest.beginBatch around s = .ok b) (items : List Item) {d' : Database} {e : TxnEnd}
    (hend : ∀ ends, Leads (ofBatch (Ingest.fill t around 0 items b).batch ends)
      ⟨d', none, ((Ingest.fill t around 0 items b).batch.txn, e) :: ends⟩) :
    Passes [e] s.session.database d' :=
  passes_of_end _ fun ends => (leads_beginBatch h ends).trans
    ((leads_fill t around 0 items b ends).trans (hend ends))

/-- The worker writes a buffer in rounds, each in a transaction that is committed, and aborts the
last one if it gives up. -/
theorem passes_writeItems (t : Tree) (around : Nat → Surroundings) (n : Nat) (items : List Item)
    (s : Ingest) :
    let r := Ingest.writeItems t around n items s
    ∃ rounds last, rounds ≤ items.length ∧
      r.2.worker.batches = s.worker.batches + .ofNat rounds ∧
      LastRound s.session.database (around (n + rounds)) r.1 last ∧
      Passes (last ++ List.replicate rounds .visible) s.session.database r.2.session.database := by
  have hfilled : ∀ {around s} {b : Ingest.Batch}, Ingest.beginBatch around s = .ok b → ∀ items,
      (Ingest.fill t around 0 items b).batch.ingest.worker.batches = s.worker.batches := by
    intro around s b h items
    rw [Ingest.batches_fill, (Ingest.ingest_of_begin h).1]
  -- one case for each way a round can end; only a committed one is followed by others
  fun_induction Ingest.writeItems t around n items s with
  | case1 n s =>
    exact ⟨0, [], Nat.le_refl _, (UInt64.add_zero _).symm, .complete, .refl _⟩
  | case2 n s i rest e hbegin =>
    refine ⟨0, [], Nat.zero_le _, ?_, .unbegun (unbegun_of_beginBatch hbegin), .refl _⟩
    exact ((Ingest.batches_park ..).trans (Ingest.batches_say ..)).trans (UInt64.add_zero _).symm
  | case3 n s i rest b hbegin filled written e hfatal given =>
    refine ⟨0, [.aborted], Nat.zero_le _, ?_, .aborted (begun_of_beginBatch hbegin), ?_⟩
    · exact ((Ingest.batches_park ..).trans (hfilled hbegin _)).trans (UInt64.add_zero _).symm
    · exact passes_round hbegin (i :: rest) fun ends =>
        leads_step (ofBatch filled.batch ends) .abort
  | case4 n s i rest b hbegin filled written hfatal e s' hcommit =>
    obtain ⟨e', hend, hlast⟩ := leads_commitBatch (around n) filled.batch
    have hbegun := begun_of_beginBatch hbegin
    have hsize := (limits_fill t (around n) hbegin (i :: rest)).2
    have hworker := Ingest.worker_commitBatch (around n) filled.batch
    rw [hcommit] at hend hlast hworker
    refine ⟨0, [e'], Nat.zero_le _, ?_, ?_, passes_round hbegin (i :: rest) hend⟩
    · refine Eq.trans ?_ (UInt64.add_zero _).symm
      exact (Ingest.batches_park ..).trans ((Ingest.batches_say ..).trans
        ((congrArg Worker.batches hworker).trans (hfilled hbegin _)))
    · obtain ⟨rfl, hfull⟩ | ⟨rfl, hfails⟩ := hlast
      · exact .refused hbegun (hsize ▸ hfull)
      · exact .lost hbegun hfails
  | case5 n s i rest b hbegin filled written hfatal s' hcommit ih =>
    obtain ⟨e, hend, hlast⟩ := leads_commitBatch (around n) filled.batch
    have hworker := Ingest.worker_commitBatch (around n) filled.batch
    have hlimits := limits_commitBatch (around n) filled.batch
    rw [hcommit] at hend hlast hworker hlimits
    obtain rfl : e = .visible := hlast
    obtain ⟨hflags, hsize⟩ := limits_fill t (around n) hbegin (i :: rest)
    obtain ⟨rounds, last, hle, hbatches, hclosed, hpasses⟩ := ih
    refine ⟨rounds + 1, last, ?_, ?_, ?_, ?_⟩
    · exact Nat.succ_le_of_lt (Nat.lt_of_le_of_lt hle (Ingest.fill_rest_lt ..))
    · have hcounted : (s'.finishBatch written (around n).latency).worker.batches =
          s.worker.batches + 1 := by
        rw [← hfilled hbegin (i :: rest), ← hworker]
        exact Ingest.batches_say ..
      rw [hbatches, hcounted, add_ofNat_succ]
    · rw [← Nat.add_assoc, Nat.add_right_comm]
      exact hclosed.congr (hlimits.1.trans hflags) (hlimits.2.trans hsize)
    · have hround := (passes_round hbegin (i :: rest) hend).trans hpasses
      rw [List.append_assoc, ← List.replicate_succ'] at hround
      exact hround

/-! ## The count of the ends -/

theorem length_ends (w : Ledger) :
    w.ends.length = w.number .visible + (w.number .aborted + w.number .refused) +
      (w.number .dropped + w.number .lost) := by
  unfold number
  induction w.ends with
  | nil => rfl
  | cons x rest ih =>
    simp only [List.countP_cons, List.length_cons, ih]
    cases x.2 <;> simp <;> omega

theorem number_eq_zero_iff : w.number e = 0 ↔ ∀ x ∈ w.ends, x.2 ≠ e := by
  simp [number, List.countP_eq_zero]

theorem uncounted_eq_zero_iff :
    w.number .dropped + w.number .lost = 0 ↔ ∀ x ∈ w.ends, x.2.Counted := by
  rw [Nat.add_eq_zero_iff, number_eq_zero_iff, number_eq_zero_iff]
  exact ⟨fun h x hx => ⟨h.1 x hx, h.2 x hx⟩,
    fun h => ⟨fun x hx => (h x hx).1, fun x hx => (h x hx).2⟩⟩

/-- Whatever is done on a database, each write transaction that has ended is counted once if it was
committed, aborted or refused, and not at all if it was dropped or if the engine failed to commit
it. As many commits are counted as transactions became visible, and the committed store is that of
the last of them. What runs in a transaction of its own is one transaction, with the end that the
answers tell, or none if the database cannot be written; so is a call on a tree, if it gets as far
as to begin one. The worker of a queue commits one transaction in each round that it finishes, and
at most one more ends with the last round, which is not counted only if the engine fails it. -/
theorem ends_counted_unless_dropped (d : Database) (events : List Event) :
    Kept d ((idle d).run events) ∧
      (d.statistics.commits = 0 → d.statistics.aborts = 0 →
        ((idle d).run events).ends.length < 18446744073709551616 →
        let w := (idle d).run events
        w.database.statistics.commits.toNat = w.number .visible ∧
          (w.database.statistics.commits.toNat + w.database.statistics.aborts.toNat =
              w.ends.length ↔
            ∀ x ∈ w.ends, x.2.Counted)) ∧
      (∀ (allocated : Nat) (f : Closure) (entryCount : Int64),
        let r := (Session.write allocated f.run).run ⟨d, entryCount⟩
        Passes (if d.flags.readOnly then []
          else [.settled (f.run.run (Session.mk d entryCount).writer).1 r.1]) d r.2.database) ∧
      (∀ (allocated : Nat) (entryCount : Int64) (t : Tree) (x : TreeCall),
        ∃ l : List TxnEnd, l.length = x.begins d t ∧ (∀ e ∈ l, e.Counted) ∧
          Passes l d ((Session.mk d entryCount).afterCall allocated t x).database) ∧
      ∀ (t : Tree) (around : Nat → Surroundings) (n : Nat) (items : List Item) (s : Ingest),
        let r := Ingest.writeItems t around n items s
        ∃ rounds last, rounds ≤ items.length ∧
          r.2.worker.batches = s.worker.batches + .ofNat rounds ∧
          LastRound s.session.database (around (n + rounds)) r.1 last ∧
          Passes (last ++ List.replicate rounds .visible) s.session.database
            r.2.session.database := by
  have hkept := (kept_idle d).run events
  refine ⟨hkept, fun hcommits haborts hbound => ?_, fun a f n => passes_write a f ⟨d, n⟩,
    fun a n t x => makes_afterCall a ⟨d, n⟩ t x, passes_writeItems⟩
  have hlength := length_ends ((idle d).run events)
  have hvisible := hkept.commits
  have hundone := hkept.aborts
  rw [hcommits, UInt64.zero_add] at hvisible
  rw [haborts, UInt64.zero_add] at hundone
  change _ = _ ∧ (_ + _ = _ ↔ _)
  rw [← uncounted_eq_zero_iff, hvisible, hundone,
    UInt64.toNat_ofNat_of_lt' (Nat.lt_of_le_of_lt (by omega) hbound),
    UInt64.toNat_ofNat_of_lt' (Nat.lt_of_le_of_lt (by omega) hbound)]
  exact ⟨rfl, by omega⟩

/-- One transaction is committed, one is aborted and one cannot be committed any more. -/
def threeEnds : List Event :=
  [.begin, .inside (.createTree Site.freshDatabase "t") ⟨none, none⟩ 0, .commit 4096 false,
    .begin, .abort, .resize 1, .begin, .commit 4096 false]

theorem ends_counted_unless_dropped_threeEnds :
    let w := (idle Site.freshDatabase).run threeEnds
    w.ends.map Prod.snd = [.refused, .aborted, .visible] ∧
      w.database.statistics.commits.toNat = 1 ∧
      w.database.statistics.commits.toNat + w.database.statistics.aborts.toNat = 3 := by
  obtain ⟨-, hcount, -⟩ := ends_counted_unless_dropped Site.freshDatabase threeEnds
  obtain ⟨hvisible, hall⟩ := hcount rfl rfl (by decide +kernel)
  exact ⟨by decide +kernel, hvisible.trans (by decide +kernel), hall.mpr (by decide +kernel)⟩

/-- A transaction that is dropped has ended, and no abort is counted. -/
theorem dropped_writer_not_counted :
    let w := (idle Site.freshDatabase).run [.begin, .drop]
    w.ends.map Prod.snd = [.dropped] ∧ w.database.statistics.commits = 0 ∧
      w.database.statistics.aborts = 0 := by
  decide +kernel

end Ledger
end IndexedStore
