import IndexedStore.Proofs.Requests

/-! # Calls are made of strokes

The counters of a database are moved by steps of their own, beside the steps that write the tables.
A call that writes an entry and the count of it belong together: between the two nothing can fail.
So whatever a call on entries does, it does in strokes. One stroke adds, replaces or removes an
entry and counts that it did, and all other strokes leave the entries and the count of them. A
cursor that deletes is the exception: it takes an entry out and counts nothing.
-/
namespace IndexedStore
open Attempt

/-! ## What is counted of entries and of transactions -/

structure Totals where
  inserts : UInt64
  updates : UInt64
  deletes : UInt64
  commits : UInt64
  aborts : UInt64

namespace Statistics

def totals (s : Statistics) : Totals := ⟨s.inserts, s.updates, s.deletes, s.commits, s.aborts⟩

@[simp] theorem totals_recordError (code : ErrorCode) (s : Statistics) :
    (s.recordError code).totals = s.totals := by
  cases code <;> rfl

end Statistics

/-- What is seen of plain tables. -/
def View.plain : View → View
  | .working S => .working ⟨S.plain, .empty⟩
  | v => v

namespace Scope
variable {α β : Type} {x : Attempt Scope α} {s s' : Scope} {S : Store}

/-- The plain tables that the transaction sees, and all that is counted of entries and of
transactions. -/
def account (s : Scope) : View × Int64 × Totals :=
  (s.txn.view.plain, s.entryCount, s.statistics.totals)

/-- However the step ends, it has left the account. -/
abbrev Aside (x : Attempt Scope α) : Prop := x.Respects (Order.Preimage account (· = ·))

/-- What is in a write transaction stays in it. -/
theorem exists_on_of_account (h : (s.on S).account = s'.account) :
    ∃ S', s' = s'.on S' ∧ S'.plain = S.plain := by
  have hview : View.working ⟨S.plain, .empty⟩ = s'.txn.view.plain := congrArg Prod.fst h
  cases hv : s'.txn.view with
  | working S' =>
    rw [hv] at hview
    exact ⟨S', eq_on hv, (congrArg Store.plain (View.working.inj hview)).symm⟩
  | snapshot S' =>
    rw [hv] at hview
    cases hview
  | released =>
    rw [hv] at hview
    cases hview

theorem aside_openTable (n : String) : Aside (openTable n) :=
  respects_of_state_eq fun s => state_openTable n s

theorem state_writable (s : Scope) : (writable.run s).2 = s := by
  simp only [Attempt.run, writable]
  split <;> rfl

theorem aside_writable : Aside writable := respects_of_state_eq state_writable

theorem aside_count {f : Statistics → Statistics} (h : ∀ s, (f s).totals = s.totals) :
    Aside (count f) :=
  fun s => congrArg (s.txn.view.plain, s.entryCount, ·) (h s.statistics).symm

/-- What begins with the store of a write transaction does nothing outside one. -/
theorem respects_writable_bind {R : Scope → Scope → Prop} [IsPreorder Scope R]
    {f : Store → Attempt Scope α}
    (h : ∀ (s : Scope) (S : Store), R (s.on S) ((f S).run (s.on S)).2) :
    (writable >>= f).Respects R := by
  intro s
  cases hview : s.txn.view with
  | working S =>
    rw [eq_on hview, run_bind_ok (run_writable s S)]
    exact h s S
  | _ =>
    have hrun : writable.run s = (.error .writeRequired, s) := by
      simp only [Attempt.run, writable, hview]
    rw [run_bind_error hrun f]
    exact refl_of R s

theorem aside_putPairs (n : String) (P : PairTable) : Aside (putPairs n P) :=
  respects_writable_bind fun _ _ => rfl

theorem aside_openPairsToWrite (n : String) : Aside (openPairsToWrite n) := by
  refine respects_writable_bind fun s S => ?_
  rw [run_bind, run_ofExcept]
  cases S.openPairs n <;> rfl

theorem aside_openPairs (n : String) : Aside (openPairs n) := by
  intro s
  have hwrite := aside_openPairsToWrite n s
  simp only [Attempt.run, openPairs, Order.Preimage] at hwrite ⊢
  split
  · exact hwrite
  · rfl
  · rfl

theorem respects_observed {R : Scope → Scope → Prop} [IsPreorder Scope R]
    (noted : ∀ s code, R s (s.counted (·.recordError code))) (hx : x.Respects R) :
    (observed x).Respects R := by
  intro s
  have hstep := hx s
  rw [run_observed]
  rcases hrun : x.run s with ⟨e | a, s'⟩
  · rw [hrun] at hstep
    exact trans_of R hstep (noted s' e.code)
  · rwa [hrun] at hstep

theorem account_counted {f : Statistics → Statistics} (h : ∀ s, (f s).totals = s.totals)
    (s : Scope) : s.account = (s.counted f).account := aside_count h s

/-- How many writes of entries have been counted: of new ones, and of ones that replaced others. -/
def written (s : Scope) : UInt64 × UInt64 := (s.statistics.inserts, s.statistics.updates)

theorem written_of_account (h : s.account = s'.account) : s.written = s'.written :=
  congrArg (fun a => (a.2.2.inserts, a.2.2.updates)) h

theorem written_recordDelete (s : Scope) (n : Int64) :
    ((s.bumped n).counted (·.recordDelete 0)).written = s.written := rfl

end Scope

open Scope

/-- One write more. -/
def wrote (replaced : Bool) (n : UInt64 × UInt64) : UInt64 × UInt64 :=
  if replaced then (n.1, n.2 + 1) else (n.1 + 1, n.2)

/-! ## Strokes -/

namespace Tree
variable {t : Tree} {α β : Type} {x : Attempt Scope α} {s : Scope} {S : Store} {T T' : Table}
variable {key : Bytes}

/-- What is done at one stroke. -/
inductive Stroke (t : Tree) : Scope → Scope → Prop
  | aside {s s' : Scope} (same : s.account = s'.account) : Stroke t s s'
  | added {s : Scope} {S : Store} {T : Table} {key : Bytes} (value : Bytes)
    (entries : S.table? t.name = some T) (absent : T.get? key = none) :
    Stroke t (s.on S)
      (((s.bumped 1).counted (·.recordInsert 0 false)).on (S.putTable t.name (T.insert key value)))
  | replaced {s : Scope} {S : Store} {T : Table} {key old : Bytes} (value : Bytes)
    (entries : S.table? t.name = some T) (present : T.get? key = some old) :
    Stroke t (s.on S)
      ((s.counted (·.recordInsert 0 true)).on (S.putTable t.name (T.insert key value)))
  | removed {s : Scope} {S : Store} {T : Table} {key old : Bytes}
    (entries : S.table? t.name = some T) (present : T.get? key = some old) :
    Stroke t (s.on S)
      (((s.bumped (-1)).counted (·.recordDelete 0)).on (S.putTable t.name (T.erase key)))

abbrev Strokes (t : Tree) : Scope → Scope → Prop := Relation.ReflTransGen t.Stroke

theorem strokes_of_aside (hx : Aside x) : x.Respects t.Strokes := fun s => .single (.aside (hx s))

theorem aside_requireOwn : Aside t.requireOwn :=
  respects_of_state_eq fun s => by rw [run_requireOwn]

theorem aside_preparedKeys (key value : Bytes) : Aside (t.preparedKeys key value) :=
  chained_preparedKeys chained_respects (fun _ _ _ => aside_openPairs _)
    (fun _ _ _ _ => respects_require _ _) value

theorem aside_addPairs (key : Bytes) (keys : List (Option Bytes)) : Aside (t.addPairs key keys) :=
  chained_addPairs chained_respects (fun _ _ _ =>
    (aside_openPairsToWrite _).bind fun _ => aside_putPairs _ _) keys

theorem aside_removePairs (key value : Bytes) : Aside (t.removePairs key value) :=
  chained_removePairs chained_respects (fun _ _ _ =>
    (aside_openPairsToWrite _).bind fun _ => aside_putPairs _ _) value

theorem strokes_observed (hx : x.Respects t.Strokes) : (observed x).Respects t.Strokes :=
  respects_observed
    (fun s _ => .single (.aside (account_counted (Statistics.totals_recordError _) s))) hx

theorem strokes_owned (hx : x.Respects t.Strokes) :
    (observed (do t.requireOwn; x)).Respects t.Strokes :=
  strokes_observed ((strokes_of_aside aside_requireOwn).bind fun _ => hx)

theorem respects_scanned {R : Scope → Scope → Prop} [IsPreorder Scope R]
    (aside : ∀ {s s' : Scope}, s.account = s'.account → R s s') (hx : x.Respects R) :
    (t.scanned x).Respects R := by
  have hown : t.requireOwn.Respects R := respects_of_state_eq fun s => by rw [run_requireOwn]
  refine hown.bind fun _ => respects_observed
    (fun s _ => aside (account_counted (Statistics.totals_recordError _) s)) fun s => ?_
  exact trans_of R (hx s) (aside (account_counted (f := (·.recordScan)) (fun _ => rfl) _))

/-! ## Steps from one table to another -/

/-- The step is made of strokes. If it succeeds, it has put one table of the tree in the place of
another, and the writes that are counted have changed so. -/
def Strikes (t : Tree) (T T' : Table) (f : UInt64 × UInt64 → UInt64 × UInt64)
    (x : Attempt Scope α) : Prop :=
  ∀ (s : Scope) (S : Store), S.table? t.name = some T →
    ∃ r s' S', x.run (s.on S) = (r, Scope.on s' S') ∧ t.Strokes (s.on S) (s'.on S') ∧
      ∀ a, r = .ok a → S'.table? t.name = some T' ∧ s'.written = f s.written

variable {f g : UInt64 × UInt64 → UInt64 × UInt64} {T'' : Table}

theorem Strikes.strokes (hx : t.Strikes T T' f x) (s : Scope) (hT : S.table? t.name = some T) :
    t.Strokes (s.on S) (x.run (s.on S)).2 := by
  obtain ⟨r, s', S', hrun, hstrokes, -⟩ := hx s S hT
  have hstate : (x.run (s.on S)).2 = s'.on S' := congrArg Prod.snd hrun
  rwa [hstate]

theorem strikes_fail (e : Failure) : t.Strikes T T' f (.fail e : Attempt Scope α) :=
  fun s S _ => ⟨.error e, s, S, rfl, .refl, nofun⟩

theorem strikes_of_aside (hx : Aside x) : t.Strikes T T id x := by
  intro s S hT
  have hsame := hx (s.on S)
  obtain ⟨S', hs', hplain⟩ := exists_on_of_account hsame
  refine ⟨_, (x.run (s.on S)).2, S', Prod.ext rfl hs', ?_, fun _ _ => ⟨?_, ?_⟩⟩
  · rw [← hs']
    exact .single (.aside hsame)
  · rwa [Store.table?, hplain]
  · exact (written_of_account hsame).symm

theorem strikes_pure (a : α) : t.Strikes T T id (pure a : Attempt Scope α) :=
  strikes_of_aside (respects_pure a)

theorem Strikes.bind {k : α → Attempt Scope β} (hx : t.Strikes T T' f x)
    (hk : ∀ a, t.Strikes T' T'' g (k a)) : t.Strikes T T'' (g ∘ f) (x >>= k) := by
  intro s S hT
  obtain ⟨r, s', S', hrun, hstrokes, hdone⟩ := hx s S hT
  cases r with
  | error e => exact ⟨.error e, s', S', run_bind_error hrun k, hstrokes, nofun⟩
  | ok a =>
    obtain ⟨hT', hwritten⟩ := hdone a rfl
    obtain ⟨r, s'', S'', hrun', hstrokes', hlast⟩ := hk a s' S' hT'
    refine ⟨r, s'', S'', (run_bind_ok hrun k).trans hrun', hstrokes.trans hstrokes', ?_⟩
    intro b hb
    exact ⟨(hlast b hb).1, (hlast b hb).2.trans (congrArg g hwritten)⟩

theorem strikes_aside_bind {k : α → Attempt Scope β} (hx : Aside x)
    (hk : ∀ a, t.Strikes T T' f (k a)) : t.Strikes T T' f (x >>= k) :=
  (strikes_of_aside hx).bind hk

theorem Strikes.then_pure (hx : t.Strikes T T' f x) (b : β) :
    t.Strikes T T' f (do let _ ← x; pure b) :=
  hx.bind fun _ => strikes_pure b

theorem Strikes.observed (hx : t.Strikes T T' f x) : t.Strikes T T' f (Scope.observed x) := by
  intro s S hT
  obtain ⟨r, s', S', hrun, hstrokes, hdone⟩ := hx s S hT
  rw [run_observed, hrun]
  cases r with
  | ok a => exact ⟨.ok a, s', S', rfl, hstrokes, hdone⟩
  | error e =>
    exact ⟨.error e, s'.counted (·.recordError e.code), S', rfl,
      hstrokes.tail (.aside (account_counted (Statistics.totals_recordError _) _)), nofun⟩

theorem Strikes.owned (hx : t.Strikes T T' f x) :
    t.Strikes T T' f (Scope.observed (do t.requireOwn; x)) :=
  (strikes_aside_bind aside_requireOwn fun _ => hx).observed

theorem Strikes.scanned (hx : t.Strikes T T' f x) : t.Strikes T T' f (t.scanned x) := by
  refine strikes_aside_bind aside_requireOwn fun _ => Strikes.observed fun s S hT => ?_
  obtain ⟨r, s', S', hrun, hstrokes, hdone⟩ := hx s S hT
  simp only [Attempt.run] at hrun ⊢
  rw [hrun]
  exact ⟨r, s'.counted (·.recordScan), S', rfl,
    hstrokes.tail (.aside (account_counted (fun _ => rfl) _)), hdone⟩

theorem strikes_openTable_bind {k : Table → Attempt Scope α} (hk : t.Strikes T T' f (k T)) :
    t.Strikes T T' f (openTable t.name >>= k) := by
  intro s S hT
  rw [run_bind, run_openTable, hT]
  exact hk s S hT

theorem strikes_openTableToWrite_bind {k : Table → Attempt Scope α}
    (hk : t.Strikes T T' f (k T)) : t.Strikes T T' f (openTableToWrite t.name >>= k) := by
  intro s S hT
  rw [run_bind, run_openTableToWrite, hT]
  exact hk s S hT

/-- What opens the table to write has it at hand, or does nothing. -/
theorem strokes_openTableToWrite_bind {k : Table → Attempt Scope α}
    (hk : ∀ T, ∃ T' f, t.Strikes T T' f (k T)) :
    (openTableToWrite t.name >>= k).Respects t.Strokes := by
  rw [openTableToWrite, bind_assoc]
  refine respects_writable_bind fun s S => ?_
  cases hT : S.table? t.name with
  | none => exact .refl
  | some T =>
    obtain ⟨T', f, hstrikes⟩ := hk T
    exact hstrikes.strokes s hT

section Count
variable {f : Statistics → Statistics} (aside : ∀ s, (f s).totals = s.totals)
include aside

theorem written_counted (s : Scope) : (s.counted f).written = s.written :=
  (written_of_account (account_counted aside s)).symm

theorem strikes_added (absent : T.get? key = none) (value : Bytes) :
    t.Strikes T (T.insert key value) (wrote false) (do
      putTable t.name (T.insert key value)
      bump 1
      count fun s => (f s).recordInsert 0 false) := by
  intro s S hT
  have hnoted : t.Stroke (s.on S) ((s.counted f).on S) := .aside (account_counted aside (s.on S))
  exact ⟨.ok (), ((s.counted f).bumped 1).counted (·.recordInsert 0 false), _, rfl,
    .tail (.single hnoted) (.added value hT absent), fun _ _ =>
      ⟨Store.table?_putTable_self .., congrArg (wrote false) (written_counted aside s)⟩⟩

theorem strikes_replaced {old : Bytes} (present : T.get? key = some old) (value : Bytes) :
    t.Strikes T (T.insert key value) (wrote true) (do
      putTable t.name (T.insert key value)
      count fun s => (f s).recordInsert 0 true) := by
  intro s S hT
  have hnoted : t.Stroke (s.on S) ((s.counted f).on S) := .aside (account_counted aside (s.on S))
  exact ⟨.ok (), (s.counted f).counted (·.recordInsert 0 true), _, rfl,
    .tail (.single hnoted) (.replaced value hT present), fun _ _ =>
      ⟨Store.table?_putTable_self .., congrArg (wrote true) (written_counted aside s)⟩⟩

end Count

theorem strikes_removed {old : Bytes} (present : T.get? key = some old) :
    t.Strikes T (T.erase key) id (do
      putTable t.name (T.erase key)
      bump (-1)
      count (·.recordDelete 0)) := by
  intro s S hT
  refine ⟨.ok (), (s.bumped (-1)).counted (·.recordDelete 0), S.putTable t.name (T.erase key), ?_,
    .single (.removed hT present), fun _ _ =>
      ⟨Store.table?_putTable_self .., written_recordDelete s (-1)⟩⟩
  rw [run_bind_ok (run_putTable ..), run_bind_ok (run_bump ..), run_count]

/-! ## Calls on entries -/

/-- A key that is present is refused before anything is written. -/
theorem strikes_inserting (T : Table) (key value : Bytes) :
    t.Strikes T (T.insert key value) (wrote (T.contains key)) (do
      .require (!T.contains key) .keyPresent
      let keys ← t.preparedKeys key value
      t.addPairs key keys
      putTable t.name (T.insert key value)
      bump 1
      count (·.recordInsert 0 false)) := by
  cases hk : T.get? key with
  | some old =>
    rw [OrderedMap.contains, hk]
    exact strikes_fail .keyPresent
  | none =>
    rw [OrderedMap.contains, hk]
    refine strikes_aside_bind (respects_require _ _) fun _ => ?_
    refine strikes_aside_bind (aside_preparedKeys key value) fun keys => ?_
    refine strikes_aside_bind (aside_addPairs key keys) fun _ => ?_
    exact strikes_added (f := id) (fun _ => rfl) hk value

theorem strokes_insert (key value : Bytes) : (t.insert key value).Respects t.Strokes := by
  refine strokes_owned ?_
  simp only [insertEntry, bind_assoc]
  exact (strokes_of_aside (respects_require _ _)).bind fun _ =>
    strokes_openTableToWrite_bind fun T => ⟨_, _, strikes_inserting T key value⟩

theorem strikes_insert (T : Table) (key value : Bytes) :
    t.Strikes T (T.insert key value) (wrote (T.contains key)) (t.insert key value) := by
  refine Strikes.owned ?_
  simp only [insertEntry, bind_assoc]
  exact strikes_aside_bind (respects_require _ _) fun _ =>
    strikes_openTableToWrite_bind (strikes_inserting T key value)

section Count
variable {f : Statistics → Statistics} (aside : ∀ s, (f s).totals = s.totals)
include aside

theorem strikes_replacing (T : Table) (key value : Bytes) :
    t.Strikes T (T.insert key value) (wrote (T.contains key)) (do
      let keys ← t.preparedKeys key value
      (match T.get? key with
        | some old => do
          t.removePairs key old
          t.addPairs key keys
          putTable t.name (T.insert key value)
          pure true
        | none => do
          t.addPairs key keys
          putTable t.name (T.insert key value)
          bump 1
          pure false : Attempt Scope Bool) >>= fun replaced =>
        count fun s => (f s).recordInsert 0 replaced) := by
  refine strikes_aside_bind (aside_preparedKeys key value) fun keys => ?_
  cases hk : T.get? key with
  | some old =>
    rw [OrderedMap.contains, hk]
    simp only [bind_assoc, pure_bind]
    refine strikes_aside_bind (aside_removePairs key old) fun _ => ?_
    refine strikes_aside_bind (aside_addPairs key keys) fun _ => ?_
    exact strikes_replaced aside hk value
  | none =>
    rw [OrderedMap.contains, hk]
    simp only [bind_assoc, pure_bind]
    refine strikes_aside_bind (aside_addPairs key keys) fun _ => ?_
    exact strikes_added aside hk value

theorem strokes_replaceEntry_bind (key value : Bytes) :
    (t.replaceEntry key value >>= fun replaced => count fun s =>
      (f s).recordInsert 0 replaced).Respects t.Strokes := by
  simp only [replaceEntry, bind_assoc]
  exact (strokes_of_aside (respects_require _ _)).bind fun _ =>
    strokes_openTableToWrite_bind fun T => ⟨_, _, strikes_replacing aside T key value⟩

theorem strikes_replaceEntry_bind (T : Table) (key value : Bytes) :
    t.Strikes T (T.insert key value) (wrote (T.contains key))
      (t.replaceEntry key value >>= fun replaced => count fun s =>
        (f s).recordInsert 0 replaced) := by
  simp only [replaceEntry, bind_assoc]
  exact strikes_aside_bind (respects_require _ _) fun _ =>
    strikes_openTableToWrite_bind (strikes_replacing aside T key value)

theorem strokes_mergeEntry_bind (key value : Bytes) :
    (t.mergeEntry key value >>= fun replaced => count fun s =>
      (f s).recordInsert 0 replaced).Respects t.Strokes := by
  unfold mergeEntry
  cases t.merge? with
  | none => exact strokes_replaceEntry_bind aside key value
  | some merge =>
    simp only [bind_assoc]
    refine (strokes_of_aside (aside_openTable _)).bind fun T => ?_
    cases T.get? key with
    | none => exact strokes_replaceEntry_bind aside key value
    | some old =>
      simp only
      cases merge old value with
      | none => exact respects_of_state_eq fun _ => rfl
      | some merged => exact strokes_replaceEntry_bind aside key merged

theorem strikes_mergeEntry_bind (T : Table) (key value : Bytes) :
    ∃ merged, t.Strikes T (T.insert key merged) (wrote (T.contains key))
      (t.mergeEntry key value >>= fun replaced => count fun s =>
        (f s).recordInsert 0 replaced) := by
  unfold mergeEntry
  cases t.merge? with
  | none => exact ⟨value, strikes_replaceEntry_bind aside T key value⟩
  | some merge =>
    simp only [bind_assoc]
    cases hk : T.get? key with
    | none =>
      refine ⟨value, strikes_openTable_bind ?_⟩
      simp only [hk]
      exact strikes_replaceEntry_bind aside T key value
    | some old =>
      cases hmerged : merge old value with
      | none =>
        refine ⟨value, strikes_openTable_bind ?_⟩
        simp only [hk, hmerged]
        exact strikes_fail .nothingMerged
      | some merged =>
        refine ⟨merged, strikes_openTable_bind ?_⟩
        simp only [hk, hmerged]
        exact strikes_replaceEntry_bind aside T key merged

end Count

theorem strokes_update (key value : Bytes) : (t.update key value).Respects t.Strokes :=
  strokes_owned (strokes_replaceEntry_bind (f := id) (fun _ => rfl) key value)

theorem strikes_update (T : Table) (key value : Bytes) :
    t.Strikes T (T.insert key value) (wrote (T.contains key)) (t.update key value) :=
  (strikes_replaceEntry_bind (f := id) (fun _ => rfl) T key value).owned

theorem strokes_upsert (key value : Bytes) : (t.upsert key value).Respects t.Strokes :=
  strokes_owned (strokes_mergeEntry_bind (f := (·.recordUpsert)) (fun _ => rfl) key value)

theorem strikes_upsert (T : Table) (key value : Bytes) :
    ∃ merged, t.Strikes T (T.insert key merged) (wrote (T.contains key))
      (t.upsert key value) := by
  obtain ⟨merged, h⟩ :=
    strikes_mergeEntry_bind (t := t) (f := (·.recordUpsert)) (fun _ => rfl) T key value
  exact ⟨merged, h.owned⟩

theorem exists_strikes_removing (T : Table) (key : Bytes) :
    ∃ T', t.Strikes T T' id
      ((match T.get? key with
        | none => pure false
        | some old => do
          t.removePairs key old
          putTable t.name (T.erase key)
          bump (-1)
          pure true : Attempt Scope Bool) >>= fun removed => do
        if removed then count (·.recordDelete 0)
        pure removed) := by
  cases hk : T.get? key with
  | none => exact ⟨T, strikes_pure false⟩
  | some old =>
    simp only [bind_assoc, pure_bind, if_true]
    refine ⟨T.erase key, strikes_aside_bind (aside_removePairs key old) fun _ => ?_⟩
    simpa only [bind_assoc] using (strikes_removed hk).then_pure true

theorem strokes_delete (key : Bytes) : (t.delete key).Respects t.Strokes := by
  refine strokes_owned ?_
  simp only [removeEntry, bind_assoc]
  refine strokes_openTableToWrite_bind fun T => ?_
  obtain ⟨T', h⟩ := exists_strikes_removing (t := t) T key
  exact ⟨T', id, h⟩

theorem exists_strikes_delete (T : Table) (key : Bytes) :
    ∃ T', t.Strikes T T' id (t.delete key) := by
  obtain ⟨T', h⟩ := exists_strikes_removing (t := t) T key
  refine ⟨T', Strikes.owned ?_⟩
  simp only [removeEntry, bind_assoc]
  exact strikes_openTableToWrite_bind h

theorem strokes_modify (key : Bytes) (f : Option Bytes → Option Bytes) :
    (t.modify key f).Respects t.Strokes := by
  have hcurrent : Aside (t.current key) := aside_requireOwn.bind fun _ =>
    aside_writable.bind fun _ => (aside_openTable _).bind fun _ => respects_pure _
  refine (strokes_of_aside hcurrent).bind fun old? => ?_
  cases f old? with
  | some value => exact strokes_update key value
  | none =>
    simp only
    split
    · exact (strokes_delete key).discard
    · exact respects_pure ()

theorem strikes_current_bind {k : Option Bytes → Attempt Scope α}
    (hk : t.Strikes T T' f (k (T.get? key))) : t.Strikes T T' f (t.current key >>= k) := by
  simp only [current, bind_assoc, pure_bind]
  exact strikes_aside_bind aside_requireOwn fun _ => strikes_aside_bind aside_writable fun _ =>
    strikes_openTable_bind hk

theorem strikes_removeMatch {e : Entry} (present : T.get? e.1 = some e.2) :
    t.Strikes T (T.erase e.1) id (t.removeMatch e) :=
  strikes_aside_bind (aside_removePairs e.1 e.2) fun _ =>
    strikes_openTableToWrite_bind (strikes_removed present)

/-- The chosen entries have different keys, so each is still there when its turn comes. -/
theorem exists_strikes_removeMatches {chosen : List Entry} (hkeys : (chosen.map Prod.fst).Nodup)
    (hin : ∀ e ∈ chosen, T.get? e.1 = some e.2) :
    ∃ T', t.Strikes T T' id (chosen.forM t.removeMatch) := by
  induction chosen generalizing T with
  | nil => exact ⟨T, strikes_pure ()⟩
  | cons e rest ih =>
    rw [List.map_cons, List.nodup_cons] at hkeys
    have hrest : ∀ e' ∈ rest, (T.erase e.1).get? e'.1 = some e'.2 := by
      intro e' he'
      have hne : e'.1 ≠ e.1 := fun h => hkeys.1 (h ▸ List.mem_map_of_mem he')
      rw [OrderedMap.get?_erase_ne _ hne]
      exact hin e' (List.mem_cons_of_mem _ he')
    obtain ⟨T', h⟩ := ih hkeys.2 hrest
    exact ⟨T', (strikes_removeMatch (hin e List.mem_cons_self)).bind fun _ => h⟩

section Deleting
variable {σ : Type} (low high : Option Bytes) (holds : Condition σ) (a : σ)

theorem exists_strikes_matching (T : Table) :
    ∃ T', t.Strikes T T' id (do
      let (chosen, a) ← t.matching low high holds a 0
      chosen.forM t.removeMatch
      pure (chosen.length, a)) := by
  have hsub := (pick_sublist holds 0 a _).trans (ascending_sublist t low high T)
  obtain ⟨T', h⟩ := exists_strikes_removeMatches (t := t) (T.nodup_keys.sublist (hsub.map Prod.fst))
    fun e he => OrderedMap.get?_eq_some_iff.mpr (hsub.subset he)
  refine ⟨T', ?_⟩
  rw [matching, bind_assoc]
  exact strikes_openTable_bind (h.then_pure _)

theorem strokes_deleting : (t.deleting low high holds a).Respects t.Strokes := by
  refine respects_scanned (fun h => .single (.aside h)) (respects_writable_bind fun s S => ?_)
  cases hT : S.table? t.name with
  | none =>
    rw [matching, run_bind, run_bind, run_openTable, hT]
  | some T =>
    obtain ⟨T', h⟩ := exists_strikes_matching (t := t) low high holds a T
    exact h.strokes s hT

theorem exists_strikes_deleting (T : Table) :
    ∃ T', t.Strikes T T' id (t.deleting low high holds a) := by
  obtain ⟨T', h⟩ := exists_strikes_matching (t := t) low high holds a T
  exact ⟨T', (strikes_aside_bind aside_writable fun _ => h).scanned⟩

end Deleting

theorem strokes_call (c : EntryCall) : (c.step t).Respects t.Strokes := by
  cases c with
  | insert key value => exact strokes_insert key value
  | update key value => exact strokes_update key value
  | upsert key value => exact strokes_upsert key value
  | delete key => exact (strokes_delete key).discard
  | modify key f => exact strokes_modify key f
  | insertMany items => exact chained_respects.forM fun e _ => strokes_insert e.1 e.2
  | upsertMany items => exact chained_respects.forM fun e _ => strokes_upsert e.1 e.2
  | deleteIf low high holds start => exact ((strokes_deleting low high holds start).map _).discard

theorem aside_contains (key : Bytes) : Aside (t.contains key) := by
  have hopen : Aside (do t.requireOwn; Scope.openTable t.name : Attempt Scope Table) :=
    aside_requireOwn.bind fun _ => aside_openTable _
  intro s
  have hstep := hopen s
  simp only [Attempt.run, contains, Order.Preimage] at hstep ⊢
  split <;> rename_i hrun <;> rwa [hrun] at hstep

theorem strokes_request (r : Request) : (r.step t).Respects t.Strokes := by
  have hread : ∀ {α : Type} (f : Table → α),
      Aside (t.scanned do let table ← Scope.openTable t.name; pure (f table)) := fun f =>
    respects_scanned id ((aside_openTable _).bind fun _ => respects_pure _)
  cases r with
  | entry c => exact strokes_call c
  | get key =>
    refine (strokes_owned (strokes_of_aside ((aside_openTable _).bind fun T => ?_))).discard
    cases T.get? key with
    | none => exact respects_fail _
    | some value => exact (aside_count fun _ => rfl).bind fun _ => respects_pure value
  | contains key => exact strokes_of_aside (aside_contains key).discard
  | getMany keys =>
    exact strokes_of_aside (aside_requireOwn.bind fun _ => (aside_openTable _).bind fun _ =>
      respects_pure _).discard
  | containsMany keys =>
    exact strokes_of_aside (aside_requireOwn.bind fun _ => (aside_openTable _).bind fun _ =>
      respects_pure _).discard
  | scanRange low high visit start => exact strokes_of_aside (hread _).discard
  | scanReverse high low visit start => exact strokes_of_aside (hread _).discard
  | scanExtending stem visit start => exact strokes_of_aside (hread _).discard
  | collectRange low high holds start max =>
    exact strokes_of_aside ((respects_scanned id
      ((aside_openTable _).bind fun _ => respects_pure _)).map _).discard

end Tree

/-! ## Calls with a cursor -/

namespace Cursor
variable {t : Tree} {c : Cursor} {s s' : Scope} {S : Store}

theorem aside_look (c : Cursor) (p : Place) : Aside (c.look t p) := by
  unfold look
  cases c.index? with
  | none => exact (aside_openTable _).bind fun _ => respects_pure _
  | some i => exact (aside_openPairs _).bind fun _ => respects_pure _

theorem aside_landing (c : Cursor) (p : Place) : Aside (c.landing t p) := by
  unfold landing
  split
  · exact (aside_look c _).bind fun _ => respects_pure _
  · exact aside_look c _

theorem account_moveTo (c : Cursor) (p : Place) (s : Scope) :
    s.account = ((moveTo t p).run (c, s)).2.2.account := by
  have hstep := aside_landing (t := t) c p s
  simp only [Order.Preimage, Attempt.run, moveTo] at hstep ⊢
  split <;> rename_i hrun <;> rwa [hrun] at hstep

theorem account_next (c : Cursor) (s : Scope) : s.account = ((next t).run (c, s)).2.2.account := by
  have hmove := fun e => account_moveTo (t := t) c (.after e) s
  simp only [Attempt.run, next] at hmove ⊢
  split
  · rfl
  · exact hmove _

theorem account_prev (c : Cursor) (s : Scope) : s.account = ((prev t).run (c, s)).2.2.account := by
  have hmove := fun e => account_moveTo (t := t) c (.before e) s
  simp only [Attempt.run, prev] at hmove ⊢
  split
  · rfl
  · exact hmove _

theorem account_replaced {x : Attempt Scope Cursor} (hx : Aside x) (c : Cursor) (s : Scope) :
    s.account = ((replaced x).run (c, s)).2.2.account := by
  have hstep := hx s
  simp only [Order.Preimage, Attempt.run, replaced] at hstep ⊢
  split <;> rename_i hrun <;> rwa [hrun] at hstep

theorem aside_seekIndex (n : String) (key : Bytes) (p : Bytes → Place) :
    Aside (seekIndex t n key p) := by
  refine (respects_ofExcept _).bind fun i => ?_
  cases key with
  | nil => exact respects_pure _
  | cons b rest =>
    intro s
    have hmove := account_moveTo (t := t) ⟨some i, none⟩ (p (b :: rest)) s
    simp only [Order.Preimage, Attempt.run, List.isEmpty_cons, Bool.false_eq_true,
      ↓reduceIte] at hmove ⊢
    split <;> rename_i hrun <;> rwa [hrun] at hmove

/-- A cursor over the tree takes out the entry under a key, if it is there, and counts only for the
handle. -/
inductive Cut (t : Tree) : Scope → Scope → Prop
  | cut {s : Scope} {S : Store} {T : Table} (key : Bytes) (entries : S.table? t.name = some T) :
    Cut t (s.on S) ((s.bumped (-1)).on (S.putTable t.name (T.erase key)))

theorem cut_remove (c : Cursor) (e : Entry) (s : Scope) :
    ∃ s₁ : Scope, s.account = s₁.account ∧
      (((c.remove t e).run s).2 = s₁ ∨ Cut t s₁ ((c.remove t e).run s).2) := by
  unfold remove
  cases c.index? with
  | some i =>
    have haside : Aside (do
        let pairs ← openPairsToWrite (t.indexTable i)
        putPairs (t.indexTable i) (pairs.erase e)) :=
      (aside_openPairsToWrite _).bind fun _ => aside_putPairs _ _
    exact ⟨_, haside s, .inl rfl⟩
  | none =>
    have hpairs := Tree.aside_removePairs (t := t) e.1 e.2 s
    rcases hrun : (t.removePairs e.1 e.2).run s with ⟨f | _, s₁⟩ <;> rw [hrun] at hpairs
    · exact ⟨s₁, hpairs, .inl (congrArg Prod.snd (run_bind_error hrun _))⟩
    · refine ⟨s₁, hpairs, ?_⟩
      simp only [run_bind_ok hrun]
      cases hview : s₁.txn.view with
      | working S =>
        rw [eq_on hview, run_bind, run_openTableToWrite]
        cases hT : S.table? t.name with
        | none => exact .inl rfl
        | some T => exact .inr (.cut e.1 hT)
      | _ =>
        left
        simp only [Attempt.run, bind, openTableToWrite, writable, hview]

/-- A deletion by a cursor is a cut, if it comes to one, between steps that leave the plain tables
and the totals. -/
theorem cut_delete (c : Cursor) (s : Scope) :
    ∃ s₁ s₂ : Scope, s.account = s₁.account ∧ (s₂ = s₁ ∨ Cut t s₁ s₂) ∧
      s₂.account = ((delete t).run (c, s)).2.2.account := by
  cases hc : c.position with
  | none =>
    refine ⟨s, s, rfl, .inl rfl, ?_⟩
    simp only [Attempt.run, delete, hc]
  | some e =>
    obtain ⟨s₁, hsame, hcut⟩ := cut_remove (t := t) c e s
    simp only [Attempt.run, delete, hc] at hcut ⊢
    split
    · exact ⟨s, s, rfl, .inl rfl, rfl⟩
    · split <;> rename_i hrun <;> rw [hrun] at hcut
      · exact ⟨s₁, _, hsame, hcut, rfl⟩
      · rename_i s₂
        refine ⟨s₁, s₂, hsame, hcut, ?_⟩
        change s₂.account = ((discard (moveTo t (.after e)) :
          Attempt (Cursor × Scope) Unit).run (c, s₂)).2.2.account
        rw [run_discard]
        exact account_moveTo c (.after e) s₂

end Cursor

/-- All other calls are made of strokes. -/
theorem CursorCall.strokes_step {t : Tree} {x : CursorCall} (other : x ≠ .delete) (c : Cursor)
    (s : Scope) : t.Strokes s ((x.step t).run (c, s)).2.2 := by
  cases x with
  | request r => exact Tree.strokes_request r s
  | overTree =>
    exact .single (.aside (Cursor.account_replaced
      (Tree.aside_requireOwn.bind fun _ => respects_pure _) c s))
  | overIndex name =>
    exact .single (.aside (Cursor.account_replaced
      (Tree.aside_requireOwn.bind fun _ => (respects_ofExcept _).bind fun _ =>
        respects_pure _) c s))
  | seekIndex name key place =>
    exact .single (.aside (Cursor.account_replaced (Cursor.aside_seekIndex name key place) c s))
  | moveTo p =>
    rw [step, run_discard]
    exact .single (.aside (Cursor.account_moveTo c p s))
  | next =>
    rw [step, run_discard]
    exact .single (.aside (Cursor.account_next c s))
  | prev =>
    rw [step, run_discard]
    exact .single (.aside (Cursor.account_prev c s))
  | delete => exact absurd rfl other

end IndexedStore
