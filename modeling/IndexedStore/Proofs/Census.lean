import IndexedStore.Proofs.Cursor
import IndexedStore.Proofs.EntryCount
import IndexedStore.Proofs.Interleaving
import IndexedStore.Proofs.Isolation

/-! # What a handle reports

A handle is opened with a guess how many entries there are and counts from there. As long as no one
else writes the entries of the tree and what is written through the handle is committed, the guess
stays as wrong as it was: the count differs from the number of entries by what it differed by at
first. A cursor counts a deletion without looking whether the entry is there, so it may delete only
what the call before has placed it on.
-/
namespace IndexedStore

/-! ## Calls with a cursor -/

namespace Tree
variable {t : Tree} {s : Scope} {S : Store}

/-- What is committed of a step alone in its transaction is what has been counted. -/
theorem Counting.counts_of_write_ok {α : Type} {allocated : Nat} {x : Attempt Scope α}
    {σ σ' : Session} {a : α} (hx : t.Counting x)
    (done : (Session.write allocated x).run σ = (.ok a, σ')) :
    t.Counts σ.writer σ.database.store σ'.writer σ'.database.store := by
  obtain ⟨r, s', S', hrun, hcounts⟩ := hx σ.writer σ.database.store
  cases hflag : σ.database.flags.readOnly with
  | true =>
    rw [Session.run_write, if_pos hflag] at done
    cases done
  | false =>
    cases r with
    | error e =>
      rw [Session.run_write_error hflag hrun] at done
      cases done
    | ok b =>
      rw [Session.run_write_ok hflag hrun] at done
      split at done
      · cases done
      · cases done
        exact hcounts

end Tree

namespace Cursor
variable {t : Tree} {c : Cursor} {S S' : Store}

/-- If the cursor runs over the tree and stands on an entry, the entry is stored as it remembers
it. -/
def UpToDate (t : Tree) (c : Cursor) (S : Store) : Prop :=
  c.index? = none → ∀ e, c.position = some e →
    ∃ T, S.table? t.name = some T ∧ T.get? e.1 = some e.2

theorem UpToDate.of_sameTable (h : c.UpToDate t S) (same : S'.table? t.name = S.table? t.name) :
    c.UpToDate t S' :=
  fun onMain e he => (h onMain e he).imp fun _ hT => ⟨same.trans hT.1, hT.2⟩

theorem upToDate_of_index {i : Index} (onIndex : c.index? = some i) : c.UpToDate t S :=
  fun onMain => nomatch onMain.symm.trans onIndex

theorem upToDate_nowhere (nowhere : c.position = none) : c.UpToDate t S :=
  fun _ _ he => nomatch nowhere.symm.trans he

/-- The call with the cursor moves the entry count with the number of entries, however it ends, and
leaves the cursor up to date. -/
def Places (t : Tree) (x : Attempt (Cursor × Scope) Unit) (c : Cursor) (s : Scope) (S : Store) :
    Prop :=
  ∃ r c' s' S', x.run (c, s.on S) = (r, c', Scope.on s' S') ∧ t.Counts s S s' S' ∧
    c'.UpToDate t S'

theorem places_unchanged {x : Attempt (Cursor × Scope) Unit} {s : Scope} (h : c.UpToDate t S)
    (hx : (x.run (c, s.on S)).2 = (c, s.on S)) : Places t x c s S :=
  ⟨_, c, s, S, Prod.ext rfl hx, Tree.counts_self rfl, h⟩

theorem places_moveTo (c : Cursor) (p : Place) (s : Scope) (S : Store) :
    Places t (discard (moveTo t p)) c s S := by
  rw [Places, Attempt.run_discard]
  cases hc : c.index? with
  | some i =>
    obtain ⟨r, s', S', hrun, hcount, htable⟩ :=
      Tree.idle_of_aside (t := t) (aside_landing c p) s S
    have hcounts : t.Counts s S s' S' := Tree.counts_of_same hcount htable
    simp only [Attempt.run, moveTo] at hrun ⊢
    rw [hrun]
    cases r with
    | ok e? => exact ⟨_, { c with position := e? }, s', S', rfl, hcounts, upToDate_of_index hc⟩
    | error e => exact ⟨_, { c with position := none }, s', S', rfl, hcounts, upToDate_of_index hc⟩
  | none =>
    cases hT : S.table? t.name with
    | none =>
      rw [run_moveTo_missing hc hT]
      exact ⟨_, { c with position := none }, s, S, rfl, Tree.counts_self rfl, upToDate_nowhere rfl⟩
    | some T =>
      obtain ⟨e?, hrun, hstored⟩ := run_moveTo (s := s) hc hT p
      rw [hrun]
      exact ⟨_, { c with position := e? }, s, S, rfl, Tree.counts_self rfl,
        fun _ e he => ⟨T, hT, hstored e he⟩⟩

/-- A move relative to the position does nothing where there is none. -/
theorem places_onward {y : Attempt (Cursor × Scope) Bool} {c : Cursor} {s : Scope} {S : Store}
    (nowhere : c.position = none → y.run (c, s.on S) = (.ok false, c, s.on S))
    (onward : ∀ e, c.position = some e →
      ∃ p, y.run (c, s.on S) = (moveTo t p).run (c, s.on S)) : Places t (discard y) c s S := by
  cases hc : c.position with
  | none =>
    refine places_unchanged (upToDate_nowhere hc) ?_
    rw [Attempt.run_discard, nowhere hc]
  | some e =>
    obtain ⟨p, hp⟩ := onward e hc
    have hmove := places_moveTo (t := t) c p s S
    rwa [Places, Attempt.run_discard, ← hp, ← Attempt.run_discard] at hmove

theorem places_next (c : Cursor) (s : Scope) (S : Store) : Places t (discard (next t)) c s S :=
  places_onward (fun hc => by simp only [Attempt.run, next, hc])
    fun e hc => ⟨.after e, by simp only [Attempt.run, next, hc]⟩

theorem places_prev (c : Cursor) (s : Scope) (S : Store) : Places t (discard (prev t)) c s S :=
  places_onward (fun hc => by simp only [Attempt.run, prev, hc])
    fun e hc => ⟨.before e, by simp only [Attempt.run, prev, hc]⟩

/-- An entry that is stored as it is remembered is removed and counted. A removal that fails leaves
it there. -/
theorem UpToDate.remove (h : c.UpToDate t S) {e : Entry} (he : c.position = some e) (s : Scope) :
    ∃ r s' S', (c.remove t e).run (s.on S) = (r, Scope.on s' S') ∧ t.Counts s S s' S' ∧
      (r.isOk = false → c.UpToDate t S') := by
  unfold Cursor.remove
  cases hc : c.index? with
  | some i =>
    have hidle : t.Idle (do
        let pairs ← Scope.openPairsToWrite (t.indexTable i)
        Scope.putPairs (t.indexTable i) (pairs.erase e)) :=
      Tree.idle_of_aside ((Scope.aside_openPairsToWrite _).bind fun _ => Scope.aside_putPairs _ _)
    obtain ⟨r, s', S', hrun, hcounts⟩ := hidle.counting s S
    exact ⟨r, s', S', hrun, hcounts, fun _ => upToDate_of_index hc⟩
  | none =>
    obtain ⟨T, hT, hstored⟩ := h hc e he
    have hreplaces : t.Replaces T (T.erase e.1) (do
        t.removePairs e.1 e.2
        let table ← Scope.openTableToWrite t.name
        Scope.putTable t.name (table.erase e.1)
        Scope.bump (-1)) :=
      (Tree.idle_of_aside (Tree.aside_removePairs e.1 e.2)).replaces fun _ =>
        Tree.replaces_openTableToWrite_bind (Tree.replaces_erase_present hstored)
    obtain ⟨r, s', S', hrun, hcounts, hT'⟩ := hreplaces s S hT
    refine ⟨r, s', S', hrun, hcounts, fun hfailed => h.of_sameTable ?_⟩
    rw [hT', hfailed, hT]
    rfl

theorem UpToDate.places_delete (h : c.UpToDate t S) (s : Scope) : Places t (delete t) c s S := by
  cases he : c.position with
  | none =>
    refine places_unchanged h ?_
    simp only [Attempt.run, delete, he]
  | some e =>
    obtain ⟨r, s', S', hrun, hcounts, hfailed⟩ := h.remove he s
    have hreader : (s.on S).txn.isReader = false := rfl
    simp only [Places, Attempt.run, delete, he, hreader] at hrun ⊢
    rw [hrun]
    cases r with
    | error f => exact ⟨_, c, s', S', rfl, hcounts, hfailed rfl⟩
    | ok _ =>
      obtain ⟨r, c', s'', S'', hmove, hcounts', hplaced⟩ :=
        places_moveTo (t := t) c (.after e) s' S'
      exact ⟨r, c', s'', S'', hmove, hcounts.iff_of_start.mpr hcounts', hplaced⟩

end Cursor

namespace CursorCall
variable {t : Tree} {c : Cursor} {S : Store}

/-- Whether the call sets the position of the cursor at hand. -/
def places : CursorCall → Bool
  | moveTo _ | next | prev | delete => true
  | _ => false

/-- Every call with a cursor keeps count, if what is deleted is as the cursor remembers it, and one
that sets the position leaves the cursor up to date. -/
theorem counts_step (x : CursorCall) (directly : x = .delete → c.UpToDate t S) (s : Scope) :
    ∃ r c' s' S', (x.step t).run (c, s.on S) = (r, c', Scope.on s' S') ∧ t.Counts s S s' S' ∧
      (x.places = true → c'.UpToDate t S') := by
  have hplaced : ∀ {y : Attempt (Cursor × Scope) Unit}, Cursor.Places t y c s S →
      ∃ r c' s' S', y.run (c, s.on S) = (r, c', Scope.on s' S') ∧ t.Counts s S s' S' ∧
        (x.places = true → c'.UpToDate t S') := by
    rintro y ⟨r, c', s', S', hrun, hcounts, hdate⟩
    exact ⟨r, c', s', S', hrun, hcounts, fun _ => hdate⟩
  cases hx : x.places with
  | false =>
    -- what does not set the position is no deletion, so it is made of strokes
    have hother : x ≠ .delete := by
      rintro rfl
      cases hx
    obtain ⟨S', hview, hcounts⟩ := Tree.counts_of_strokes (strokes_step hother c (s.on S)) rfl
    exact ⟨_, _, ((x.step t).run (c, s.on S)).2.2, S', Prod.ext rfl (Prod.ext rfl
      (Scope.eq_on hview)), hcounts, nofun⟩
  | true =>
    rw [hx] at hplaced
    cases x with
    | moveTo p => exact hplaced (Cursor.places_moveTo c p s S)
    | next => exact hplaced (Cursor.places_next c s S)
    | prev => exact hplaced (Cursor.places_prev c s S)
    | delete => exact hplaced ((directly rfl).places_delete s)
    | _ => cases hx

end CursorCall

/-! ## Runs -/

namespace Desk

/-- The store that a writing call works on: that of the open write transaction, or the committed one
if none is open. -/
def current (w : Desk) : Store :=
  match w.open? with
  | some ⟨_, .working S⟩ => S
  | _ => w.store

theorem current_of_closed {w : Desk} (closed : w.open? = none) : w.current = w.store := by
  rw [current, closed]

/-- The open transaction, if there is one, writes. -/
def Writes (w : Desk) : Prop := ∀ x, w.open? = some x → x.view = .working w.current

theorem writes_of_closed {w : Desk} (closed : w.open? = none) : w.Writes :=
  fun _ hx => nomatch closed.symm.trans hx

theorem current_of_open? {w : Desk} {x : Txn} {S : Store} (opened : w.open? = some x)
    (view : x.view = .working S) : w.current = S ∧ w.Writes := by
  have hcurrent : w.current = S := by
    rcases x with ⟨_, v⟩
    cases view
    rw [current, opened]
  refine ⟨hcurrent, fun y hy => ?_⟩
  obtain rfl : x = y := Option.some.inj (opened.symm.trans hy)
  rw [view, hcurrent]

theorem Rel.current {R : Store → Store → Prop} [IsPreorder Store R] {w w' : Desk}
    (h : w.Rel R w') (writes : w.Writes) : R w.current w'.current ∧ w'.Writes := by
  have hopened := h.opened
  cases hx : w.open? with
  | none =>
    rw [hx] at hopened
    have closed : w'.open? = none := by
      generalize w'.open? = o at hopened
      cases hopened
      rfl
    rw [current_of_closed hx, current_of_closed closed]
    exact ⟨h.committed, writes_of_closed closed⟩
  | some x =>
    have hview := writes x hx
    rw [hx] at hopened
    generalize hx' : w'.open? = o at hopened
    cases hopened with
    | @some _ x' hrel =>
      rw [hview] at hrel
      generalize hview' : x'.view = v at hrel
      have hstore : ∃ S, v = .working S ∧ R w.current S := by
        cases hrel with
        | refl => exact ⟨_, rfl, refl_of R _⟩
        | working hR => exact ⟨_, rfl, hR⟩
      obtain ⟨S, rfl, hR⟩ := hstore
      obtain ⟨hcurrent, hwrites⟩ := current_of_open? hx' hview'
      exact ⟨hcurrent ▸ hR, hwrites⟩

end Desk

/-- A desk at which the entries of a tree are counted by the one handle that writes them. -/
structure Counter where
  desk : Desk
  /-- the last call through the handle set the position of the cursor at hand -/
  placed : Bool

namespace Counter

def opened (d : Database) (hint : Nat) : Counter :=
  ⟨⟨⟨d, seededCount hint⟩, none, ⟨none, none⟩⟩, false⟩

/-- Makes a call in the open transaction, which commits nothing. -/
def call (w : Counter) (t : Tree) (x : CursorCall) : Counter :=
  ⟨w.desk.perform 0 t (.inside x), x.places⟩

def begin (w : Counter) : Counter := ⟨w.desk.begin true, false⟩

def commit (allocated : Nat) (w : Counter) : Counter := ⟨w.desk.commit allocated, false⟩

/-- What can happen next where all that is written through the handle gets committed. The handle may
have come to other indexes, another merge function or another comparator since. -/
inductive Step (t : Tree) : Counter → Counter → Prop
  /-- A call in the open write transaction. A cursor over the tree deletes only if the last call was
  the move or the deletion that set its position. -/
  | call (w : Counter) {u : Tree} {x : Txn} (same : u.name = t.name)
    (opened : w.desk.open? = some x) (c : CursorCall)
    (directly : c = .delete → w.desk.cursor.index? = none → w.placed = true) : Step t w (w.call u c)
  /-- A call in a transaction of its own, which is committed. -/
  | alone (w : Counter) {u : Tree} {σ : Session} {allocated : Nat} (same : u.name = t.name)
    (closed : w.desk.open? = none) (c : EntryCall)
    (done : (Session.write allocated (c.step u)).run w.desk.session = (.ok (), σ)) :
    Step t w ⟨{ w.desk with session := σ }, false⟩
  | begin (w : Counter) : Step t w w.begin
  | commit (w : Counter) (allocated : Nat)
    (accepted : ∀ x, w.desk.open? = some x →
      ((Database.commit allocated x).run w.desk.session.database).1 = .ok ()) :
    Step t w (w.commit allocated)
  /-- Another cursor is taken up. -/
  | takeUp (w : Counter) (c : Cursor) : Step t w ⟨{ w.desk with cursor := c }, false⟩
  /-- Whatever else is done, in the open transaction or elsewhere, leaves the entries of the tree
  and the entry count of the handle. -/
  | beside (w : Counter) {d : Desk} (same : w.desk.Rel (Store.SameTable t.name) d)
    (count : d.session.entryCount = w.desk.session.entryCount)
    (cursor : d.cursor = w.desk.cursor) : Step t w ⟨d, w.placed⟩

variable {t u : Tree} {σ σ₀ : Session} {w w' : Counter} {s s' : Scope} {S S' : Store}
  {allocated : Nat}

/-- A transaction that is open writes, the entry count has moved with the number of entries, and a
cursor that has just been placed is up to date. -/
structure Kept (t : Tree) (σ₀ : Session) (w : Counter) : Prop where
  writes : w.desk.Writes
  counts : t.Counts σ₀.writer σ₀.database.store w.desk.session.writer w.desk.current
  placed : w.placed = true → w.desk.cursor.UpToDate t w.desk.current

/-- Nothing is asked of a cursor that the last call has not placed. -/
theorem kept_unplaced {d : Desk} (writes : d.Writes)
    (counts : t.Counts σ₀.writer σ₀.database.store d.session.writer d.current) :
    Kept t σ₀ ⟨d, false⟩ :=
  ⟨writes, counts, fun h => absurd h Bool.false_ne_true⟩

theorem counts_congr (same : u.name = t.name) (h : u.Counts s S s' S') : t.Counts s S s' S' := by
  rw [Tree.Counts, h, Tree.gained, Tree.gained, Tree.entriesIn, Tree.entriesIn, same]
  rfl

theorem Kept.call {x : Txn} {c : CursorCall} (h : Kept t σ₀ w) (same : u.name = t.name)
    (opened : w.desk.open? = some x)
    (directly : c = .delete → w.desk.cursor.index? = none → w.placed = true) :
    Kept t σ₀ (w.call u c) := by
  have hview := h.writes x opened
  have hscope := Scope.eq_on (s := w.desk.session.database.scope x w.desk.session.entryCount) hview
  have hdate : c = .delete → w.desk.cursor.UpToDate u w.desk.current := by
    intro hc onMain e he
    rw [same]
    exact h.placed (directly hc onMain) onMain e he
  obtain ⟨r, c', s', S', hrun, hcounts, hplaced⟩ := c.counts_step hdate
    (w.desk.session.database.scope x w.desk.session.entryCount)
  rw [← hscope] at hrun
  have hcall : w.call u c = ⟨⟨⟨{ w.desk.session.database with statistics := s'.statistics },
      s'.entryCount⟩, some (s'.on S').txn, c'⟩, c.places⟩ := by
    simp only [Counter.call, Desk.perform, opened, hrun]
    rfl
  rw [hcall]
  refine ⟨(Desk.current_of_open? rfl rfl).2,
    h.counts.iff_of_start.mpr (counts_congr same hcounts), fun hp onMain e he => ?_⟩
  rw [← same]
  exact hplaced hp onMain e he

theorem Kept.alone {c : EntryCall} (h : Kept t σ₀ w) (same : u.name = t.name)
    (closed : w.desk.open? = none)
    (done : (Session.write allocated (c.step u)).run w.desk.session = (.ok (), σ)) :
    Kept t σ₀ ⟨{ w.desk with session := σ }, false⟩ := by
  have hcounts : t.Counts w.desk.session.writer w.desk.current σ.writer σ.database.store := by
    rw [Desk.current_of_closed closed]
    exact counts_congr same ((Tree.counting_call c).counts_of_write_ok done)
  have hcurrent : Desk.current { w.desk with session := σ } = σ.database.store :=
    Desk.current_of_closed closed
  refine kept_unplaced (Desk.writes_of_closed closed) ?_
  change t.Counts _ _ σ.writer (Desk.current { w.desk with session := σ })
  rw [hcurrent]
  exact h.counts.iff_of_start.mpr hcounts

theorem Kept.begin (h : Kept t σ₀ w) : Kept t σ₀ w.begin := by
  unfold Counter.begin Desk.begin
  split
  · rename_i x closed hbegin
    have hcounts := h.counts
    rw [Desk.current_of_closed closed] at hcounts
    simp only [Database.begin, if_true, Database.beginWrite] at hbegin
    split at hbegin
    · cases hbegin
    · cases hbegin
      exact kept_unplaced (Desk.current_of_open? rfl rfl).2 hcounts
  · exact kept_unplaced h.writes h.counts

theorem Kept.commit (h : Kept t σ₀ w)
    (accepted : ∀ x, w.desk.open? = some x →
      ((Database.commit allocated x).run w.desk.session.database).1 = .ok ()) :
    Kept t σ₀ (w.commit allocated) := by
  unfold Counter.commit Desk.commit
  cases hx : w.desk.open? with
  | none => exact kept_unplaced h.writes h.counts
  | some x =>
    refine kept_unplaced (Desk.writes_of_closed rfl) ?_
    have hstore :
        ((Database.commit allocated x).run w.desk.session.database).2.store = w.desk.current :=
      Database.store_of_commit_ok (h.writes x hx) (Prod.ext (accepted x hx) rfl)
    change t.Counts _ _ _ ((Database.commit allocated x).run w.desk.session.database).2.store
    rw [hstore]
    exact h.counts

theorem Kept.beside {d : Desk} (h : Kept t σ₀ w) (same : w.desk.Rel (Store.SameTable t.name) d)
    (count : d.session.entryCount = w.desk.session.entryCount)
    (cursor : d.cursor = w.desk.cursor) : Kept t σ₀ ⟨d, w.placed⟩ := by
  obtain ⟨htable, hwrites⟩ := same.current h.writes
  have hcounts : t.Counts w.desk.session.writer w.desk.current d.session.writer d.current :=
    Tree.counts_of_same count htable
  refine ⟨hwrites, h.counts.iff_of_start.mpr hcounts, fun hp => ?_⟩
  rw [cursor]
  exact (h.placed hp).of_sameTable htable

theorem Kept.step (h : Kept t σ₀ w) (hstep : Step t w w') : Kept t σ₀ w' := by
  cases hstep with
  | call same opened c directly => exact h.call same opened directly
  | alone same closed c done => exact h.alone same closed done
  | begin => exact h.begin
  | commit allocated accepted => exact h.commit accepted
  | takeUp c => exact kept_unplaced h.writes h.counts
  | beside same count cursor => exact h.beside same count cursor

theorem Kept.run (h : Kept t σ₀ w) (run : Relation.ReflTransGen (Step t) w w') :
    Kept t σ₀ w' := by
  induction run with
  | refl => exact h
  | tail _ hstep ih => exact ih.step hstep

theorem kept_opened (t : Tree) (d : Database) (hint : Nat) :
    Kept t ⟨d, seededCount hint⟩ (opened d hint) :=
  kept_unplaced (Desk.writes_of_closed rfl) (Tree.counts_self rfl)

/-- What the hint counted for, and the entries that have come and gone since the handle was
opened. -/
def expected (t : Tree) (d : Database) (hint : Nat) (w : Counter) : Int :=
  min hint 9223372036854775807 + t.entriesIn w.desk.current - t.entriesIn d.store

theorem entryCount_of_run {d : Database} {hint : Nat}
    (run : Relation.ReflTransGen (Step t) (opened d hint) w) :
    w.desk.session.entryCount = .ofInt (w.expected t d hint) := by
  have hcounts := ((kept_opened t d hint).run run).counts
  change w.desk.session.entryCount =
    .ofNat (min hint 9223372036854775807) + .ofInt (t.gained d.store w.desk.current) at hcounts
  rw [hcounts, ← Int64.ofInt_eq_ofNat, ← Int64.ofInt_add]
  congr 1
  unfold Tree.gained expected
  omega

/-- A handle that alone writes a tree, and whose write transactions are all committed, reports the
entries that it was told of and those that have come and gone since, as long as that is a number it
can count to. -/
theorem count_tracks_entries {d : Database} {hint : Nat}
    (run : Relation.ReflTransGen (Step t) (opened d hint) w)
    (least : 0 ≤ w.expected t d hint) (most : w.expected t d hint ≤ 9223372036854775807) :
    (reportedCount w.desk.session.entryCount : Int) = w.expected t d hint := by
  have hlow : -2 ^ 63 ≤ w.expected t d hint := by omega
  have hhigh : w.expected t d hint < 2 ^ 63 := by omega
  rw [reportedCount, entryCount_of_run run, Int64.toInt_ofInt_of_le hlow hhigh,
    Int.toNat_of_nonneg least]

def oneEntry : Database :=
  ⟨"db", defaultMapSize, defaultMaxTables, schemaVersion 1 0, ⟨false, false⟩, .empty, {},
    Tree.wholeIndexed.afterWrite [0] [1] .empty Tree.wholeIndexedStore⟩

/-- Of the entries inserted the second is refused, since its value is taken. -/
def halfBatch : CursorCall := .request (.entry (.insertMany [([1], [2]), ([2], [1])]))

/-- A handle that was told of five entries has written a part of a batch and deleted an entry under
a cursor. -/
def afterBatch : Counter :=
  (((opened oneEntry 5).begin.call Tree.wholeIndexed halfBatch).call Tree.wholeIndexed
    (.moveTo .first)).call Tree.wholeIndexed .delete

/-- One entry has come and one has gone, so the handle still reports five. -/
theorem count_tracks_entries_afterBatch :
    Tree.wholeIndexed.entriesIn (afterBatch.commit 4096).desk.store = 1 ∧
      (reportedCount (afterBatch.commit 4096).desk.session.entryCount : Int) = 5 := by
  have hbegin : Relation.ReflTransGen (Step Tree.wholeIndexed) (opened oneEntry 5)
      (opened oneEntry 5).begin := .single (.begin _)
  have hbatch := hbegin.tail (.call _ rfl rfl halfBatch nofun)
  have hplaced := hbatch.tail (.call _ rfl rfl (.moveTo .first) nofun)
  have hdeleted := hplaced.tail (.call _ rfl rfl .delete fun _ _ => rfl)
  have hcommitted := hdeleted.tail (.commit _ 4096 fun x hx => by cases hx; rfl)
  have hfive : (afterBatch.commit 4096).expected Tree.wholeIndexed oneEntry 5 = 5 := by
    decide +kernel
  refine ⟨by decide +kernel, ?_⟩
  exact (count_tracks_entries hcommitted (by decide +kernel) (by decide +kernel)).trans hfive

end Counter
end IndexedStore
