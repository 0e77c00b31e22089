import IndexedStore.Proofs.Ledger

/-! # Insertions, deletions and entries

Entries come by insertions and go by deletions. As long as every write transaction is committed, the
insertions counted exceed the deletions counted by the entries there are, whatever has been done to
indexes and their records. A call counts what it does at the stroke that does it, however far it
gets. A cursor counts nothing, so the balance is off by what cursors have taken out.
-/
namespace IndexedStore
open Attempt Scope

/-! ## Writes that succeed -/

/-- The writes counted after entries have been written under keys in turn, some of them known. -/
def writtenUnder (known : Bytes → Bool) : List Bytes → UInt64 × UInt64 → UInt64 × UInt64
  | [], n => n
  | key :: rest, n => writtenUnder (fun k => k == key || known k) rest (wrote (known key) n)

/-- The keys under which the call writes entries if it succeeds. -/
def EntryCall.written (T : Table) : EntryCall → List Bytes
  | insert key _ | update key _ | upsert key _ => [key]
  | modify key f => if (f (T.get? key)).isSome then [key] else []
  | insertMany items | upsertMany items => items.map Prod.fst
  | delete _ | deleteIf .. => []

theorem contains_insert (T : Table) (key value : Bytes) :
    (T.insert key value).contains = fun k => k == key || T.contains k := by
  funext k
  by_cases hk : k = key
  · simp [OrderedMap.contains, hk]
  · simp [OrderedMap.contains, OrderedMap.get?_insert_ne T value hk, hk]

namespace Tree
variable {t : Tree} {s s' : Scope} {S : Store} {T : Table}

theorem exists_strikes_items {step : Entry → Attempt Scope Unit}
    (h : ∀ T e, ∃ value, t.Strikes T (T.insert e.1 value) (wrote (T.contains e.1)) (step e))
    (items : List Entry) (T : Table) :
    ∃ T', t.Strikes T T' (writtenUnder T.contains (items.map Prod.fst)) (items.forM step) := by
  induction items generalizing T with
  | nil => exact ⟨T, strikes_pure ()⟩
  | cons e rest ih =>
    obtain ⟨value, hfirst⟩ := h T e
    obtain ⟨T', hrest⟩ := ih (T.insert e.1 value)
    rw [contains_insert] at hrest
    exact ⟨T', hfirst.bind fun _ => hrest⟩

theorem exists_strikes_modify (key : Bytes) (f : Option Bytes → Option Bytes) (T : Table) :
    ∃ T', t.Strikes T T' (writtenUnder T.contains ((EntryCall.modify key f).written T))
      (t.modify key f) := by
  unfold modify EntryCall.written
  cases hf : f (T.get? key) with
  | some value =>
    refine ⟨T.insert key value, strikes_current_bind ?_⟩
    simp only [hf]
    exact strikes_update T key value
  | none =>
    obtain ⟨T', hdelete⟩ := exists_strikes_delete (t := t) T key
    cases hold : (T.get? key).isSome with
    | true =>
      refine ⟨T', strikes_current_bind ?_⟩
      simp only [hf, hold, if_true]
      exact hdelete.then_pure _
    | false =>
      refine ⟨T, strikes_current_bind ?_⟩
      simp only [hf, hold, Bool.false_eq_true, if_false]
      exact strikes_pure ()

theorem exists_strikes_call (c : EntryCall) (T : Table) :
    ∃ T', t.Strikes T T' (writtenUnder T.contains (c.written T)) (c.step t) := by
  cases c with
  | insert key value => exact ⟨_, strikes_insert T key value⟩
  | update key value => exact ⟨_, strikes_update T key value⟩
  | upsert key value =>
    obtain ⟨merged, h⟩ := strikes_upsert (t := t) T key value
    exact ⟨_, h⟩
  | delete key =>
    obtain ⟨T', h⟩ := exists_strikes_delete (t := t) T key
    exact ⟨T', h.then_pure _⟩
  | modify key f => exact exists_strikes_modify key f T
  | insertMany items =>
    exact exists_strikes_items (fun T e => ⟨e.2, strikes_insert T e.1 e.2⟩) items T
  | upsertMany items =>
    exact exists_strikes_items (fun T e => strikes_upsert T e.1 e.2) items T
  | deleteIf low high holds start =>
    obtain ⟨T', h⟩ := exists_strikes_deleting (t := t) low high holds start T
    exact ⟨T', (h.bind fun a => strikes_pure a.1).then_pure ()⟩

/-- Where a call writes an entry under a key that is there, one update more is counted, and one
insertion more where the key is not there. -/
theorem written_of_call {c : EntryCall} (entries : S.table? t.name = some T)
    (h : (c.step t).run (s.on S) = (.ok (), s')) :
    s'.written = writtenUnder T.contains (c.written T) s.written := by
  obtain ⟨T', hstrikes⟩ := exists_strikes_call (t := t) c T
  obtain ⟨r, s₁, S₁, hrun, -, hdone⟩ := hstrikes s S entries
  obtain ⟨rfl, rfl⟩ := Prod.mk.inj (h.symm.trans hrun)
  exact (hdone () rfl).2

end Tree

/-! ## The entries of a store -/

/-- How many entries the tables have together. -/
def totalSize : List (String × Table) → Nat
  | [] => 0
  | (_, T) :: rest => T.size + totalSize rest

theorem totalSize_perm {l l' : List (String × Table)} (h : l.Perm l') :
    totalSize l = totalSize l' := by
  induction h with
  | nil => rfl
  | cons e _ ih => rw [totalSize, totalSize, ih]
  | swap e e' l => exact Nat.add_left_comm ..
  | trans _ _ ih ih' => exact ih.trans ih'

namespace Store
variable {S : Store} {T : Table} {n : String}

/-- How many entries the trees have together. The table of records belongs to none. -/
def entries (S : Store) : Nat := totalSize (S.plain.erase recordTable).toList

theorem entries_putTable_recordTable (S : Store) (T : Table) :
    (S.putTable recordTable T).entries = S.entries := by
  rw [entries, putTable, OrderedMap.erase_insert_self, entries]

theorem entries_putTable_eq (named : n ≠ recordTable) (S : Store) (T : Table) :
    (S.putTable n T).entries =
      T.size + totalSize ((S.plain.erase recordTable).erase n).toList := by
  rw [entries, putTable, OrderedMap.erase_insert_ne _ _ named]
  exact totalSize_perm (OrderedMap.insert_perm ..)

theorem entries_putTable (named : n ≠ recordTable) (table : S.table? n = some T) (T' : Table) :
    (S.putTable n T').entries + T.size = S.entries + T'.size := by
  have hsame : S.putTable n T = S := by
    rw [putTable, OrderedMap.insert_get? table]
  have hbefore := entries_putTable_eq named S T
  rw [hsame] at hbefore
  rw [entries_putTable_eq named, hbefore]
  omega

theorem entries_putTable_empty (missing : S.table? n = none) :
    (S.putTable n .empty).entries = S.entries := by
  by_cases named : n = recordTable
  · rw [named, entries_putTable_recordTable]
  · have hmissing : (S.plain.erase recordTable).get? n = none := by
      rw [OrderedMap.get?_erase_ne _ named]
      exact missing
    rw [entries_putTable_eq named, OrderedMap.erase_of_get?_eq_none hmissing]
    exact Nat.zero_add _

end Store

/-- The entries that a write transaction sees. -/
def View.entries : View → Nat
  | working S => S.entries
  | _ => 0

theorem entries_of_isReader {x : Txn} (h : x.isReader = true) : x.view.entries = 0 := by
  unfold Txn.isReader at h
  generalize x.view = v at h ⊢
  cases v <;> first | rfl | cases h

theorem View.entries_plain (v : View) : v.plain.entries = v.entries := by
  cases v <;> rfl

/-! ## The balance of a step -/

namespace Scope
variable {α : Type} {x : Attempt Scope α} {s s' : Scope}

/-- By how much the insertions counted exceed the deletions counted and the entries. -/
def excess (s : Scope) : UInt64 :=
  s.statistics.inserts - s.statistics.deletes - .ofNat s.txn.view.entries

/-- The step keeps the balance. -/
abbrev Even (x : Attempt Scope α) : Prop := x.Respects (Order.Preimage excess (· = ·))

theorem entries_of_account (h : s.account = s'.account) :
    s.txn.view.entries = s'.txn.view.entries := by
  have hplain : s.txn.view.plain = s'.txn.view.plain := congrArg Prod.fst h
  rw [← View.entries_plain, hplain, View.entries_plain]

theorem excess_of_account (h : s.account = s'.account) : s.excess = s'.excess := by
  have htotals : s.statistics.totals = s'.statistics.totals := congrArg (·.2.2) h
  have hinserts : s.statistics.inserts = s'.statistics.inserts := congrArg Totals.inserts htotals
  have hdeletes : s.statistics.deletes = s'.statistics.deletes := congrArg Totals.deletes htotals
  rw [excess, excess, hinserts, hdeletes, entries_of_account h]

theorem Aside.even (hx : Aside x) : Even x := fun s => excess_of_account (hx s)

theorem excess_on (s : Scope) (S : Store) :
    (s.on S).excess = s.statistics.inserts - s.statistics.deletes - .ofNat S.entries := rfl

theorem excess_on_of_entries {S S' : Store} (h : S'.entries = S.entries) (s : Scope) :
    (s.on S).excess = (s.on S').excess := by
  rw [excess_on, excess_on, h]

theorem excess_bumped_on (s : Scope) (n : Int64) (S : Store) :
    ((s.bumped n).on S).excess =
      s.statistics.inserts - s.statistics.deletes - .ofNat S.entries := rfl

theorem totals_bumped_on (s : Scope) (n : Int64) (S : Store) :
    ((s.bumped n).on S).statistics.totals = s.statistics.totals := rfl

theorem excess_recordInsert_on (s : Scope) (n : Int64) (S : Store) :
    (((s.bumped n).counted (·.recordInsert 0 false)).on S).excess =
      s.statistics.inserts + 1 - s.statistics.deletes - .ofNat S.entries := rfl

theorem excess_recordDelete_on (s : Scope) (n : Int64) (S : Store) :
    (((s.bumped n).counted (·.recordDelete 0)).on S).excess =
      s.statistics.inserts - (s.statistics.deletes + 1) - .ofNat S.entries := rfl

end Scope

namespace Tree
variable {t : Tree} {s s' : Scope}

theorem Stroke.excess_eq (named : t.name ≠ recordTable) (h : t.Stroke s s') :
    s.excess = s'.excess := by
  cases h with
  | aside same => exact excess_of_account same
  | @added s S T key value entries absent =>
    have hsum := Store.entries_putTable named entries (T.insert key value)
    rw [OrderedMap.size_insert_of_absent absent] at hsum
    have hmore : (S.putTable t.name (T.insert key value)).entries = S.entries + 1 := by omega
    rw [excess_on, excess_recordInsert_on, hmore, UInt64.ofNat_add]
    grind
  | @replaced s S T key old value entries present =>
    have hsum := Store.entries_putTable named entries (T.insert key value)
    rw [OrderedMap.size_insert_of_present present] at hsum
    have hsame : (S.putTable t.name (T.insert key value)).entries = S.entries := by omega
    exact excess_on_of_entries hsame s
  | @removed s S T key old entries present =>
    have hsum := Store.entries_putTable named entries (T.erase key)
    have hsize := OrderedMap.size_erase present
    have hless : S.entries = (S.putTable t.name (T.erase key)).entries + 1 := by omega
    rw [excess_on, excess_recordDelete_on, hless, UInt64.ofNat_add]
    grind

theorem excess_of_strokes (named : t.name ≠ recordTable) (h : t.Strokes s s') :
    s.excess = s'.excess := by
  induction h with
  | refl => rfl
  | tail _ hstroke ih => exact ih.trans (hstroke.excess_eq named)

end Tree

namespace Cursor
variable {t : Tree} {c c' : Cursor} {s s' : Scope} {S : Store} {T : Table} {e : Entry}

theorem Cut.excess_eq (named : t.name ≠ recordTable) (h : Cut t s s') :
    s'.excess = s.excess + .ofNat (s.txn.view.entries - s'.txn.view.entries) := by
  cases h with
  | @cut s S T key entries =>
    have hsum := Store.entries_putTable named entries (T.erase key)
    have hsize : (T.erase key).size ≤ T.size := List.length_filter_le ..
    obtain ⟨n, hn⟩ : ∃ n, S.entries = (S.putTable t.name (T.erase key)).entries + n :=
      Nat.exists_eq_add_of_le (by omega)
    have htaken : (s.on S).txn.view.entries -
        ((s.bumped (-1)).on (S.putTable t.name (T.erase key))).txn.view.entries = n := by
      change S.entries - (S.putTable t.name (T.erase key)).entries = n
      omega
    rw [htaken, excess_bumped_on, excess_on, hn, UInt64.ofNat_add]
    grind

/-- The balance is off by what a deletion under a cursor takes out. -/
theorem excess_delete (named : t.name ≠ recordTable) (c : Cursor) (s : Scope) :
    ((delete t).run (c, s)).2.2.excess = s.excess +
      .ofNat (s.txn.view.entries - ((delete t).run (c, s)).2.2.txn.view.entries) := by
  obtain ⟨s₁, s₂, hbefore, hcut, hafter⟩ := cut_delete (t := t) c s
  rw [excess_of_account hbefore, ← excess_of_account hafter, entries_of_account hbefore,
    ← entries_of_account hafter]
  obtain rfl | hcut := hcut
  · rw [Nat.sub_self]
    exact (UInt64.add_zero _).symm
  · exact hcut.excess_eq named

theorem remove_eq_ok (onMain : c.index? = none) (entries : S.table? t.name = some T)
    (h : (c.remove t e).run (s.on S) = (.ok (), s')) :
    s'.statistics.totals = s.statistics.totals ∧
      ∃ S' : Store, S'.plain = S.plain ∧
        s'.txn.view = .working (S'.putTable t.name (T.erase e.1)) := by
  rw [remove, onMain] at h
  simp only at h
  obtain ⟨_, s₁, hpairs, h⟩ := run_bind_eq_ok.mp h
  have hsame : (s.on S).account = s₁.account := by
    have haside := Tree.aside_removePairs (t := t) e.1 e.2 (s.on S)
    rwa [Order.Preimage, hpairs] at haside
  obtain ⟨S₁, hs₁, hplain⟩ := exists_on_of_account hsame
  have hT : S₁.table? t.name = some T := by rwa [Store.table?, hplain]
  rw [hs₁, run_bind, run_openTableToWrite, hT] at h
  obtain rfl : (s₁.bumped (-1)).on (S₁.putTable t.name (T.erase e.1)) = s' := congrArg Prod.snd h
  have htotals : s.statistics.totals = s₁.statistics.totals := congrArg (·.2.2) hsame
  exact ⟨(totals_bumped_on s₁ (-1) _).trans htotals.symm, S₁, hplain, rfl⟩

theorem run_delete_of_remove {s₂ : Scope} (on_entry : c.position = some e)
    (h : (c.remove t e).run (s.on S) = (.ok (), s₂)) :
    (delete t).run (c, s.on S) =
      (discard (moveTo t (.after e)) : Attempt (Cursor × Scope) Unit).run (c, s₂) := by
  have hreader : (s.on S).txn.isReader = false := rfl
  simp only [Attempt.run] at h ⊢
  simp only [delete, on_entry, hreader, h, Bool.false_eq_true, if_false]

/-- A deletion under a cursor that succeeds takes out the entry, if it is there, and counts none. -/
theorem delete_takes_uncounted (onMain : c.index? = none) (on_entry : c.position = some e)
    (named : t.name ≠ recordTable) (entries : S.table? t.name = some T)
    (present : T.contains e.1 = true) (h : (delete t).run (c, s.on S) = (.ok (), c', s')) :
    s'.statistics.totals = s.statistics.totals ∧ s'.txn.view.entries + 1 = S.entries := by
  have hreader : (s.on S).txn.isReader = false := rfl
  rcases hremove : (c.remove t e).run (s.on S) with ⟨f | _, s₂⟩
  · simp only [Attempt.run] at hremove
    simp [Attempt.run, delete, on_entry, hreader, hremove] at h
  · rw [run_delete_of_remove on_entry hremove, run_discard] at h
    have hmoved : ((moveTo t (.after e)).run (c, s₂)).2.2 = s' := congrArg (·.2.2) h
    have hafter : s₂.account = s'.account := hmoved ▸ account_moveTo c (.after e) s₂
    obtain ⟨htotals, S', hplain, hview⟩ := remove_eq_ok onMain entries hremove
    obtain ⟨old, hold⟩ := Option.isSome_iff_exists.mp present
    have hsize := OrderedMap.size_erase hold
    have htable : S'.table? t.name = some T := by rwa [Store.table?, hplain]
    have hsum := Store.entries_putTable named htable (T.erase e.1)
    have hstart : S'.entries = S.entries := by rw [Store.entries, hplain, Store.entries]
    have hleft : s'.txn.view.entries = (S'.putTable t.name (T.erase e.1)).entries := by
      rw [← entries_of_account hafter, hview, View.entries]
    refine ⟨(congrArg (·.2.2) hafter).symm.trans htotals, ?_⟩
    omega

end Cursor

/-! ## The balance of a change of indexes -/

namespace Catalog

theorem entries_removed (tree index : String) (S : Store) :
    (removed tree index S).entries = S.entries := by
  unfold removed
  cases S.table? recordTable with
  | none => rfl
  | some R => exact Store.entries_putTable_recordTable ..

theorem even_save (tree : String) (i : Index) : Even (save tree i) := by
  refine respects_writable_bind fun s S => ?_
  rw [run_bind, run_ofExcept]
  cases S.openTable recordTable with
  | error e => rfl
  | ok R => exact excess_on_of_entries (Store.entries_putTable_recordTable ..) s

end Catalog

theorem Database.even_createTree (d : Database) (name : String) : Even (d.createTree name) := by
  refine respects_writable_bind fun s S => ?_
  cases hname : S.table? name with
  | some T => rfl
  | none =>
    simp only [Option.isNone_none, if_true, run_bind, run_ofExcept]
    cases d.requireSlot S with
    | error e => rfl
    | ok _ =>
      simp only
      cases hopen : S.openTable name with
      | error e => rfl
      | ok T =>
        obtain rfl : T = .empty := by rw [Store.openTable_eq_ok hopen, hname, Option.getD_none]
        exact excess_on_of_entries (Store.entries_putTable_empty hname) s

theorem Tree.even_clearIndex (t : Tree) (i : Index) (name : String) :
    Even (t.clearIndex i name) := by
  refine respects_writable_bind fun s S => ?_
  rw [run_bind, run_ofExcept]
  cases hdrop : S.dropPairs (t.indexTable i) with
  | error e => rfl
  | ok S' =>
    have hsame : (Catalog.removed t.name name S').entries = S.entries := by
      rw [Catalog.entries_removed, Store.eq_of_dropPairs hdrop]
      rfl
    have hstate : ((do Scope.put S'; Catalog.remove t.name name : Attempt Scope Unit).run
        (s.on S)).2 = s.on (Catalog.removed t.name name S') :=
      congrArg Prod.snd (Catalog.run_remove t.name name s S')
    simp only
    rw [Order.Preimage, hstate]
    exact excess_on_of_entries hsame s

namespace Inside

/-- Nothing is written over the records, and no tree is deleted as a whole. -/
def ordinary : Inside → Bool
  | call t _ => t.name != recordTable
  | clearTree _ => false
  | _ => true

/-- How many entries are gone after the step, if it is a deletion under a cursor. -/
def taken (before after : Nat) : Inside → Nat
  | call _ .delete => before - after
  | _ => 0

theorem taken_self (n : Nat) (x : Inside) : x.taken n n = 0 := by
  unfold taken
  split
  · exact Nat.sub_self n
  · rfl

theorem excess_step {x : Inside} (ordinary : x.ordinary = true) (c : Cursor) (s : Scope) :
    (x.step.run (c, s)).2.2.excess = s.excess +
      .ofNat (x.taken s.txn.view.entries (x.step.run (c, s)).2.2.txn.view.entries) := by
  -- all steps but a deletion under a cursor take nothing
  have heven : ∀ {s' : Scope}, s.excess = s'.excess → s'.excess = s.excess + .ofNat 0 :=
    fun h => h.symm.trans (UInt64.add_zero _).symm
  cases x with
  | call t y =>
    have named : t.name ≠ recordTable := bne_iff_ne.mp ordinary
    by_cases hy : y = .delete
    · subst hy
      exact Cursor.excess_delete named c s
    · have htaken : ∀ before after, (call t y).taken before after = 0 := by
        intro before after
        cases y <;> first | rfl | exact absurd rfl hy
      rw [htaken]
      exact heven (Tree.excess_of_strokes named (CursorCall.strokes_step hy c s))
  | createTree d name => exact heven (d.even_createTree name s)
  | clearTree name => cases ordinary
  | createIndex d t i =>
    exact heven (Tree.respects_createIndex excess_of_account (Catalog.even_save t.name i) d s)
  | fillIndex t i => exact heven ((t.aside_fillIndex i).even s)
  | clearIndex t i name => exact heven (t.even_clearIndex i name s)
  | saveIndex t i => exact heven (Catalog.even_save t.name i s)

end Inside

/-! ## The balance of a run -/

namespace Ledger
variable {d : Database} {w : Ledger} {event : Event}

/-- How many entries a writing call sees. -/
def entries (w : Ledger) : Nat :=
  match w.writer? with
  | some x => x.view.entries
  | none => w.database.store.entries

/-- By how much the insertions counted exceed the deletions counted and the entries. -/
def excess (w : Ledger) : UInt64 :=
  w.database.statistics.inserts - w.database.statistics.deletes - .ofNat w.entries

def Event.ordinary : Event → Bool
  | inside x _ _ => x.ordinary
  | reading _ x _ _ => x.ordinary
  | _ => true

/-- How many entries are gone after the event, if it is a deletion under a cursor. -/
def taken (w : Ledger) : Event → Nat
  | .inside x c n => x.taken w.entries (w.inside x c n).entries
  | _ => 0

/-- How many entries deletions under cursors take out in the run. -/
def takenIn (w : Ledger) : List Event → Nat
  | [] => 0
  | event :: rest => w.taken event + (w.step event).takenIn rest

theorem ends_subset_step (w : Ledger) (event : Event) : w.ends ⊆ (w.step event).ends := by
  cases event with
  | begin =>
    simp only [step, begin]
    split <;> exact List.Subset.refl _
  | inside x c n =>
    simp only [step, inside]
    split <;> exact List.Subset.refl _
  | commit engineFails =>
    simp only [step, commit]
    split
    · exact List.Subset.refl _
    · split <;> exact List.subset_cons_self ..
  | abort =>
    simp only [step, abort]
    split
    · exact List.Subset.refl _
    · exact List.subset_cons_self ..
  | drop =>
    simp only [step, drop]
    split
    · exact List.Subset.refl _
    · exact List.subset_cons_self ..
  | reading txn x c n =>
    simp only [step, reading]
    split <;> exact List.Subset.refl _
  | endReading txn committed =>
    rw [step, endReading_eq]
    exact List.Subset.refl _
  | resize size => exact List.Subset.refl _
  | register version flags x => exact List.Subset.refl _

theorem ends_subset_run (w : Ledger) (events : List Event) : w.ends ⊆ (w.run events).ends := by
  induction events generalizing w with
  | nil => exact List.Subset.refl _
  | cons event rest ih => exact List.Subset.trans (ends_subset_step w event) (ih (w.step event))

theorem entries_of_writer {x : Txn} (h : w.writer? = some x) : w.entries = x.view.entries := by
  rw [entries, h]

theorem entries_of_none (h : w.writer? = none) : w.entries = w.database.store.entries := by
  rw [entries, h]

theorem excess_inside {x : Inside} (ordinary : x.ordinary = true) (c : Cursor) (n : Int64) :
    (w.inside x c n).excess = w.excess + .ofNat (x.taken w.entries (w.inside x c n).entries) := by
  cases hw : w.writer? with
  | none =>
    have hsame : w.inside x c n = w := by rw [inside, hw]
    rw [hsame, Inside.taken_self]
    exact (UInt64.add_zero _).symm
  | some txn =>
    have hstep := Inside.excess_step ordinary c (w.database.scope txn n)
    unfold inside
    simp only [excess, Scope.excess, hw, entries_of_writer hw] at hstep ⊢
    exact hstep

theorem excess_begin (w : Ledger) : w.begin.excess = w.excess := by
  unfold begin
  split
  · rename_i x hw hbegin
    unfold Database.beginWrite at hbegin
    split at hbegin <;> cases hbegin
    rw [excess, excess, entries_of_none hw]
    rfl
  · rfl

/-- What is read is no more than read. -/
theorem excess_reading {txn : Txn} {x : Inside} (ordinary : x.ordinary = true) (c : Cursor)
    (n : Int64) : (w.reading txn x c n).excess = w.excess := by
  unfold reading
  split
  · rename_i hreader
    have hstep := Inside.excess_step ordinary c (w.database.scope txn n)
    have hstanding := congrArg Prod.fst (x.standing_step c (w.database.scope txn n))
    have hbefore : (w.database.scope txn n).txn.view.entries = 0 := entries_of_isReader hreader
    have hafter := entries_of_isReader (hstanding.symm.trans hreader)
    simp only [Scope.excess, hbefore, hafter, Inside.taken_self] at hstep
    have hsame := hstep.trans (UInt64.add_zero _)
    exact congrArg (· - UInt64.ofNat w.entries) ((UInt64.sub_zero _).symm.trans
      (hsame.trans (UInt64.sub_zero _)))
  · rfl

/-- A commit that makes its transaction visible leaves the entries as the transaction saw them. -/
theorem excess_commit {x : Txn} {S : Store} (hw : w.writer? = some x) (hS : x.view = .working S)
    {allocated : Nat} {engineFails : Bool}
    (visible : ∀ x ∈ (w.commit allocated engineFails).ends, x.2 = .visible) :
    (w.commit allocated engineFails).excess = w.excess := by
  obtain h | h | h := commit_cases hw hS allocated engineFails <;> rw [h] at visible ⊢
  · cases visible _ List.mem_cons_self
  · cases visible _ List.mem_cons_self
  · rw [excess, excess, entries_of_writer hw, hS]
    rfl

theorem excess_step (kept : Kept d w) (ordinary : event.ordinary = true)
    (visible : ∀ x ∈ (w.step event).ends, x.2 = .visible) :
    (w.step event).excess = w.excess + .ofNat (w.taken event) := by
  -- all events but those inside the write transaction take nothing
  have heven : ∀ {w' : Ledger}, w'.excess = w.excess → w'.excess = w.excess + .ofNat 0 :=
    fun h => h.trans (UInt64.add_zero _).symm
  cases event with
  | begin => exact heven (excess_begin w)
  | inside x c n => exact excess_inside ordinary c n
  | commit allocated engineFails =>
    refine heven ?_
    cases hw : w.writer? with
    | none => rw [step, commit, hw]
    | some x =>
      obtain ⟨S, hS⟩ := Txn.exists_working (kept.writes x hw)
      exact excess_commit hw hS visible
  | abort =>
    refine heven ?_
    rw [step, abort] at visible ⊢
    cases hw : w.writer? with
    | none => rfl
    | some x =>
      rw [hw] at visible
      cases visible _ List.mem_cons_self
  | drop =>
    refine heven ?_
    rw [step, drop] at visible ⊢
    cases hw : w.writer? with
    | none => rfl
    | some x =>
      rw [hw] at visible
      cases visible _ List.mem_cons_self
  | reading txn x c n => exact heven (excess_reading ordinary c n)
  | endReading txn committed =>
    rw [step, endReading_eq]
    exact heven rfl
  | resize size =>
    obtain ⟨hstatistics, hstore⟩ := state_resize size w.database
    refine heven ?_
    simp only [step, excess, entries, hstatistics, hstore]
  | register version flags x => exact heven rfl

theorem excess_run {events : List Event} (kept : Kept d w)
    (ordinary : ∀ event ∈ events, event.ordinary = true)
    (visible : ∀ x ∈ (w.run events).ends, x.2 = .visible) :
    (w.run events).excess = w.excess + .ofNat (w.takenIn events) := by
  induction events generalizing w with
  | nil => exact (UInt64.add_zero _).symm
  | cons event rest ih =>
    have hfirst := excess_step kept (ordinary event List.mem_cons_self)
      fun x hx => visible x (ends_subset_run (w.step event) rest hx)
    have hrest := ih (kept.step event) (fun e he => ordinary e (List.mem_cons_of_mem _ he)) visible
    rw [takenIn, UInt64.ofNat_add, ← UInt64.add_assoc, ← hfirst]
    exact hrest

/-- A call that succeeds in a transaction of its own is a run. -/
theorem run_alone {t : Tree} {r : Request} {allocated : Nat} {n n' : Int64} {d' : Database}
    (h : (Session.write allocated (r.step t)).run ⟨d, n⟩ = (.ok (), ⟨d', n'⟩)) :
    ∃ x, (idle d).run [.begin, .inside (.call t (.request r)) ⟨none, none⟩ n,
      .commit allocated false] = ⟨d', none, [(x, .visible)]⟩ := by
  rw [Session.run_write] at h
  cases hflag : d.flags.readOnly with
  | true =>
    rw [if_pos hflag] at h
    cases h
  | false =>
    rw [if_neg (Bool.eq_false_iff.mp hflag)] at h
    rcases hstep : (r.step t).run (Session.writer ⟨d, n⟩) with ⟨e | _, s⟩ <;> rw [hstep] at h
    · cases h
    · refine ⟨s.txn, ?_⟩
      have hbegin : (idle d).begin = ⟨d, some ⟨d.path, .working d.store⟩, []⟩ :=
        begin_idle hflag []
      have hinside : (idle d).begin.inside (.call t (.request r)) ⟨none, none⟩ n =
          ⟨{ d with statistics := s.statistics }, some s.txn, []⟩ := by
        have hstate : ((r.step t).run (d.scope ⟨d.path, .working d.store⟩ n)).2 = s :=
          congrArg Prod.snd hstep
        rw [hbegin, ← hstate]
        rfl
      have hcommit : (Database.commit allocated s.txn).run { d with statistics := s.statistics } =
          (.ok (), d') := by
        simp only [Attempt.run, Database.settle] at h ⊢
        split at h <;> cases h
        assumption
      change (((idle d).begin.inside _ _ _).commit allocated false) = _
      rw [hinside, commit]
      simp only [hcommit]
      rfl

/-- Let every write transaction on a new database be committed, no tree be deleted as a whole, and
nothing be written over the records. The insertions counted exceed the deletions counted by the
entries of all trees and by those that deletions under cursors have taken out. So the balance holds
just if they have taken nothing. One that succeeds on an entry that is there takes it out and counts
nothing. A write that succeeds counts as an update if its key is there and as an insertion if not,
and a call in a transaction of its own is a run like any other. -/
theorem entries_balance_unless_cursor_deletes (fresh : d.store = .empty)
    (unused : d.statistics = {}) (events : List Event)
    (ordinary : ∀ event ∈ events, event.ordinary = true)
    (committed : ∀ x ∈ ((idle d).run events).ends, x.2 = .visible) :
    let w := (idle d).run events
    let c := w.database.statistics
    c.inserts - c.deletes = .ofNat (w.entries + (idle d).takenIn events) ∧
      (w.entries + (idle d).takenIn events < 18446744073709551616 →
        ((c.inserts - c.deletes).toNat = w.entries ↔ (idle d).takenIn events = 0)) ∧
      (∀ {t : Tree} {c c' : Cursor} {e : Entry} {s s' : Scope} {S : Store} {T : Table},
        c.index? = none → c.position = some e → t.name ≠ recordTable →
        S.table? t.name = some T → T.contains e.1 = true →
        (Cursor.delete t).run (c, s.on S) = (.ok (), c', s') →
          s'.statistics.totals = s.statistics.totals ∧ s'.txn.view.entries + 1 = S.entries) ∧
      (∀ {t : Tree} {call : EntryCall} {s s' : Scope} {S : Store} {T : Table},
        S.table? t.name = some T → (call.step t).run (s.on S) = (.ok (), s') →
          s'.written = writtenUnder T.contains (call.written T) s.written) ∧
      ∀ {t : Tree} {r : Request} {allocated : Nat} {n n' : Int64} {d' : Database},
        (Session.write allocated (r.step t)).run ⟨d, n⟩ = (.ok (), ⟨d', n'⟩) →
          ∃ x, (idle d).run [.begin, .inside (.call t (.request r)) ⟨none, none⟩ n,
            .commit allocated false] = ⟨d', none, [(x, .visible)]⟩ := by
  have hstart : (idle d).excess = 0 := by
    rw [excess, entries_of_none rfl, idle, unused, fresh]
    rfl
  have hexcess := excess_run (kept_idle d) ordinary committed
  rw [hstart, UInt64.zero_add, excess] at hexcess
  intro w c
  have hbalance : c.inserts - c.deletes = .ofNat (w.entries + (idle d).takenIn events) := by
    rw [Nat.add_comm, UInt64.ofNat_add, ← hexcess]
    exact (UInt64.sub_add_cancel ..).symm
  refine ⟨hbalance, fun hbound => ?_, fun onMain on_entry named table present h =>
    Cursor.delete_takes_uncounted onMain on_entry named table present h,
    fun table h => Tree.written_of_call table h, fun h => run_alone h⟩
  rw [hbalance, UInt64.toNat_ofNat_of_lt' hbound]
  omega

/-- A call inside the transaction through a handle to a tree without indexes. -/
def atTree (x : CursorCall) (c : Cursor) : Event := .inside (.call (.bare "db" "t") x) c 0

/-- A tree is created and two entries inserted, one of which is replaced and one deleted. -/
def replacedAndDeleted : List Event :=
  [.begin, .inside (.createTree Site.freshDatabase "t") ⟨none, none⟩ 0, .commit 4096 false, .begin,
    atTree (.request (.entry (.insertMany [([1], [2]), ([3], [4])]))) ⟨none, none⟩,
    atTree (.request (.entry (.upsert [1] [5]))) ⟨none, none⟩,
    atTree (.request (.entry (.delete [3]))) ⟨none, none⟩, .commit 4096 false]

theorem entries_balance_unless_cursor_deletes_replacedAndDeleted :
    let w := (idle Site.freshDatabase).run replacedAndDeleted
    let c := w.database.statistics
    w.entries = 1 ∧ (c.inserts, c.updates, c.deletes) = (2, 1, 1) ∧
      (c.inserts - c.deletes).toNat = w.entries := by
  obtain ⟨-, hbalance, -⟩ := entries_balance_unless_cursor_deletes (d := Site.freshDatabase) rfl rfl
    replacedAndDeleted (by decide +kernel) (by decide +kernel)
  exact ⟨by decide +kernel, by decide +kernel,
    (hbalance (by decide +kernel)).mpr (by decide +kernel)⟩

/-- An entry is inserted, and a cursor that stands on it deletes it. -/
def insertedAndCut : List Event :=
  [.begin, .inside (.createTree Site.freshDatabase "t") ⟨none, none⟩ 0, .commit 4096 false, .begin,
    atTree (.request (.entry (.insert [1] [2]))) ⟨none, none⟩,
    atTree .delete ⟨none, some ([1], [2])⟩, .commit 4096 false]

/-- The entry has been inserted and is gone, and no deletion is counted. -/
theorem cursor_deletion_unbalances :
    let w := (idle Site.freshDatabase).run insertedAndCut
    let c := w.database.statistics
    w.ends.map Prod.snd = [.visible, .visible] ∧ w.entries = 0 ∧
      (c.inserts, c.updates, c.deletes) = (1, 0, 0) ∧
      (c.inserts - c.deletes).toNat ≠ w.entries := by
  decide +kernel

end Ledger
end IndexedStore
