import IndexedStore.Tree.Scan
import IndexedStore.Proofs.Agreement
import Mathlib.Logic.Relation

/-! # Calls are made of touches

Whatever a call does to entries, it does one entry at a time: it writes an entry that no unique
index refuses, or removes one that is there, each with its pairs. What a touch preserves is
therefore preserved by every call, and by a call that fails halfway too. The entry count of the
handle moves along with the number of entries.
-/
namespace IndexedStore

/-- A call that may change entries. -/
inductive EntryCall
  | insert (key value : Bytes)
  | update (key value : Bytes)
  | upsert (key value : Bytes)
  | delete (key : Bytes)
  | modify (key : Bytes) (f : Option Bytes → Option Bytes)
  | insertMany (items : List (Bytes × Bytes))
  | upsertMany (items : List (Bytes × Bytes))
  | deleteIf {σ : Type} (low high : Option Bytes) (holds : Condition σ) (start : σ)

/-- Makes the call inside a transaction. -/
def EntryCall.step (t : Tree) : EntryCall → Attempt Scope Unit
  | insert key value => t.insert key value
  | update key value => t.update key value
  | upsert key value => t.upsert key value
  | delete key => discard (t.delete key)
  | modify key f => t.modify key f
  | insertMany items => t.insertMany items
  | upsertMany items => t.upsertMany items
  | deleteIf low high holds start => discard (t.deleteIf low high holds start)

namespace Tree
open Scope (observed)
variable {t : Tree} {S S' : Store} {T : Table} {α β : Type}

/-- One entry is written, or one that is there is removed. -/
inductive Touch (t : Tree) : Store → Store → Prop
  | write {S T key value} (entries : S.table? t.name = some T)
      (free : t.clash? S key value = none) : t.Touch S (t.afterWrite key value T S)
  | removal {S T key value} (entries : S.table? t.name = some T)
      (present : T.get? key = some value) : t.Touch S (t.afterRemoval (key, value) T S)

/-- Entries are touched one after another. -/
abbrev Touches (t : Tree) : Store → Store → Prop := Relation.ReflTransGen t.Touch

theorem Touch.furnished (h : t.Touch S S') : t.Furnished S' := by
  cases h with
  | write =>
    unfold afterWrite
    exact furnished_reindexed _ _
  | removal => exact furnished_reindexed _ _

theorem Touches.furnished (h : t.Touches S S') (hS : t.Furnished S) : t.Furnished S' := by
  induction h with
  | refl => exact hS
  | tail _ h => exact h.furnished

/-- How many entries a store holds for the tree. -/
def entriesIn (t : Tree) (S : Store) : Nat := ((S.table? t.name).map OrderedMap.size).getD 0

/-- How many entries the tree has more in the second store. -/
def gained (t : Tree) (S S' : Store) : Int := t.entriesIn S' - t.entriesIn S

/-- The entry count has moved with the number of entries. -/
def Counts (t : Tree) (s : Scope) (S : Store) (s' : Scope) (S' : Store) : Prop :=
  s'.entryCount = s.entryCount + .ofInt (t.gained S S')

variable {s s' s'' : Scope} {S'' : Store}

theorem counts_self (h : s'.entryCount = s.entryCount) : t.Counts s S s' S := by
  rw [Counts, h, gained, Int.sub_self]
  exact (Int64.add_zero _).symm

/-- Past a stretch that is counted, only what comes after it matters. -/
theorem Counts.iff_of_start (h : t.Counts s S s' S') :
    t.Counts s S s'' S'' ↔ t.Counts s' S' s'' S'' := by
  have hsum : t.gained S S'' = t.gained S S' + t.gained S' S'' := by
    unfold gained
    omega
  unfold Counts at h ⊢
  rw [h, hsum, Int64.ofInt_add, Int64.add_assoc]

/-- Entries are touched and counted. -/
structure Moves (t : Tree) (s : Scope) (S : Store) (s' : Scope) (S' : Store) : Prop where
  touches : t.Touches S S'
  counted : t.Counts s S s' S'

theorem Moves.refl (h : s'.entryCount = s.entryCount) : t.Moves s S s' S := ⟨.refl, counts_self h⟩

theorem Moves.trans (h : t.Moves s S s' S') (h' : t.Moves s' S' s'' S'') : t.Moves s S s'' S'' :=
  ⟨h.touches.trans h'.touches, h.counted.iff_of_start.mpr h'.counted⟩

/-- From a store with a table for every attached index the step leaves one that is reached by
touches, with the count moved along, whether it succeeds or fails. -/
def Touching (t : Tree) (x : Attempt Scope α) : Prop :=
  ∀ (s : Scope) (S : Store), t.Furnished S →
    ∃ r s' S', x.run (s.on S) = (r, Scope.on s' S') ∧ t.Moves s S s' S'

theorem touching_pure (a : α) : t.Touching (pure a : Attempt Scope α) :=
  fun s S _ => ⟨.ok a, s, S, rfl, .refl rfl⟩

theorem Touching.bind {x : Attempt Scope α} {f : α → Attempt Scope β} (hx : t.Touching x)
    (hf : ∀ a, t.Touching (f a)) : t.Touching (x >>= f) := by
  intro s S hS
  obtain ⟨r, s', S', hrun, hto⟩ := hx s S hS
  cases r with
  | error e => exact ⟨.error e, s', S', Attempt.run_bind_error hrun f, hto⟩
  | ok a =>
    obtain ⟨r, s'', S'', hrun', hto'⟩ := hf a s' S' (hto.touches.furnished hS)
    exact ⟨r, s'', S'', (Attempt.run_bind_ok hrun f).trans hrun', hto.trans hto'⟩

theorem chained_touching : Attempt.Chained fun _ x => t.Touching x :=
  ⟨touching_pure, Touching.bind⟩

theorem Touching.discard {x : Attempt Scope α} (hx : t.Touching x) :
    t.Touching (discard x : Attempt Scope PUnit) := hx.bind fun _ => touching_pure _

theorem Touching.map {x : Attempt Scope α} (hx : t.Touching x) (f : α → β) :
    t.Touching (f <$> x) := hx.bind fun a => touching_pure (f a)

/-! ## Calls on one entry -/

theorem ifOwn_eq_ok {d : String} {r : Except Failure α} {a : α} (h : t.ifOwn d r = .ok a) :
    r = .ok a := by
  rw [ifOwn] at h
  split at h
  · exact h
  · cases h

theorem entriesIn_of_table? (h : S.table? t.name = some T) : t.entriesIn S = T.size := by
  rw [entriesIn, h]
  rfl

theorem gained_afterWrite (hT : S.table? t.name = some T) (key value : Bytes) :
    t.gained S (t.afterWrite key value T S) = if T.contains key then 0 else 1 := by
  rw [gained, entriesIn_of_table? hT, entriesIn_of_table? table?_afterWrite, OrderedMap.contains]
  cases hk : T.get? key with
  | none =>
    rw [OrderedMap.size_insert_of_absent hk]
    simp only [Option.isSome_none, Bool.false_eq_true, if_false]
    omega
  | some old =>
    rw [OrderedMap.size_insert_of_present hk]
    simp

theorem gained_afterRemoval (hT : S.table? t.name = some T) (e : Bytes × Bytes) :
    t.gained S (t.afterRemoval e T S) = if T.contains e.1 then -1 else 0 := by
  rw [gained, entriesIn_of_table? hT, entriesIn_of_table? table?_afterRemoval,
    OrderedMap.contains]
  cases hk : T.get? e.1 with
  | none =>
    rw [OrderedMap.erase_of_get?_eq_none hk]
    simp
  | some old =>
    have hsize := OrderedMap.size_erase hk
    simp only [Option.isSome_some, if_true]
    omega

theorem touch_of_writing {key value : Bytes} {r : Bool × Store}
    (h : t.writing key value S = .ok r) :
    t.Touch S r.2 ∧ t.gained S r.2 = if r.1 then 0 else 1 := by
  simp only [writing] at h
  split at h
  · cases h
  · cases hT : S.table? t.name with
    | none => simp [hT] at h
    | some T =>
      simp only [hT] at h
      cases hc : t.clash? S key value with
      | some i => simp [hc] at h
      | none =>
        simp only [hc] at h
        cases h
        exact ⟨.write hT hc, gained_afterWrite hT key value⟩

theorem touch_of_inserting {key value : Bytes} (h : t.inserting key value S = .ok S') :
    t.Touch S S' ∧ t.gained S S' = 1 := by
  simp only [inserting] at h
  split at h
  · cases h
  · cases hT : S.table? t.name with
    | none => simp [hT] at h
    | some T =>
      simp only [hT] at h
      split at h
      · cases h
      · rename_i hnew
        cases hw : t.writing key value S with
        | error e => simp [hw, Except.map] at h
        | ok r =>
          simp only [hw, Except.map] at h
          cases h
          have hr : r.1 = false := by
            simp only [writing, hT] at hw
            split at hw
            · cases hw
            · split at hw <;> cases hw
              simpa using hnew
          have hto := touch_of_writing hw
          rw [hr] at hto
          exact hto

theorem touch_of_merging {key value : Bytes} {r : Bool × Store}
    (h : t.merging key value S = .ok r) :
    t.Touch S r.2 ∧ t.gained S r.2 = if r.1 then 0 else 1 := by
  simp only [merging] at h
  cases hm : t.merge? with
  | none =>
    simp only [hm] at h
    exact touch_of_writing h
  | some merge =>
    simp only [hm] at h
    cases hT : S.table? t.name with
    | none => simp [hT] at h
    | some T =>
      simp only [hT] at h
      cases hk : T.get? key with
      | none =>
        simp only [hk] at h
        exact touch_of_writing h
      | some old =>
        simp only [hk] at h
        cases hv : merge old value with
        | none => simp [hv] at h
        | some merged =>
          simp only [hv] at h
          exact touch_of_writing h

theorem touches_of_removing {key : Bytes} {removed : Bool}
    (h : t.removing key S = .ok (removed, S')) :
    t.Touches S S' ∧ t.gained S S' = if removed then -1 else 0 := by
  simp only [removing] at h
  cases hT : S.table? t.name with
  | none => simp [hT] at h
  | some T =>
    simp only [hT] at h
    cases hk : T.get? key with
    | none =>
      simp only [hk] at h
      cases h
      exact ⟨.refl, Int.sub_self _⟩
    | some old =>
      simp only [hk] at h
      cases h
      refine ⟨.single (.removal hT hk), (gained_afterRemoval hT (key, old)).trans ?_⟩
      simp [OrderedMap.contains, hk]

theorem touching_insert (key value : Bytes) : t.Touching (t.insert key value) := by
  intro s S hS
  have hrun := run_insert (s := s) hS key value
  cases h : t.ifOwn s.txn.database (t.inserting key value S) with
  | error e => exact ⟨_, s.counted (·.recordError e.code), S, h ▸ hrun, .refl rfl⟩
  | ok S' =>
    obtain ⟨hto, hgained⟩ := touch_of_inserting (ifOwn_eq_ok h)
    refine ⟨_, _, S', h ▸ hrun, .single hto, ?_⟩
    rw [Counts, hgained]
    rfl

/-- An entry that replaces one leaves the count, and one that is new adds to it. -/
theorem Moves.written {replaced : Bool}
    (h : t.Touch S S' ∧ t.gained S S' = if replaced then 0 else 1)
    (hs : s'.entryCount = (if replaced then s else s.bumped 1).entryCount) :
    t.Moves s S s' S' := by
  refine ⟨.single h.1, ?_⟩
  rw [Counts, hs, h.2]
  cases replaced with
  | true => exact (Int64.add_zero _).symm
  | false => rfl

theorem touching_update (key value : Bytes) : t.Touching (t.update key value) := by
  intro s S hS
  have hrun := run_update (s := s) hS key value
  cases h : t.ifOwn s.txn.database (t.writing key value S) with
  | error e => exact ⟨_, s.counted (·.recordError e.code), S, h ▸ hrun, .refl rfl⟩
  | ok r =>
    have hto := touch_of_writing (ifOwn_eq_ok h)
    refine ⟨_, _, r.2, h ▸ hrun, ?_⟩
    exact .written hto rfl

theorem touching_upsert (key value : Bytes) : t.Touching (t.upsert key value) := by
  intro s S hS
  have hrun := run_upsert (s := s) hS key value
  cases h : t.ifOwn s.txn.database (t.merging key value S) with
  | error e => exact ⟨_, s.counted (·.recordError e.code), S, h ▸ hrun, .refl rfl⟩
  | ok r =>
    have hto := touch_of_merging (ifOwn_eq_ok h)
    refine ⟨_, _, r.2, h ▸ hrun, ?_⟩
    exact .written hto rfl

theorem touching_delete (key : Bytes) : t.Touching (t.delete key) := by
  intro s S hS
  have hrun := run_delete (s := s) hS key
  cases h : t.ifOwn s.txn.database (t.removing key S) with
  | error e => exact ⟨_, s.counted (·.recordError e.code), S, h ▸ hrun, .refl rfl⟩
  | ok r =>
    obtain ⟨removed, S'⟩ := r
    obtain ⟨hto, hgained⟩ := touches_of_removing (ifOwn_eq_ok h)
    cases removed with
    | false =>
      refine ⟨_, _, S', h ▸ hrun, hto, ?_⟩
      rw [Counts, hgained]
      exact (Int64.add_zero _).symm
    | true =>
      refine ⟨_, _, S', h ▸ hrun, hto, ?_⟩
      rw [Counts, hgained]
      rfl

theorem touching_current (key : Bytes) : t.Touching (t.current key) :=
  fun s S _ => ⟨_, _, S, run_current t key s S, .refl rfl⟩

theorem touching_modify (key : Bytes) (f : Option Bytes → Option Bytes) :
    t.Touching (t.modify key f) := by
  refine (touching_current key).bind fun old? => ?_
  cases f old? with
  | some value => exact touching_update key value
  | none =>
    simp only
    split
    · exact (touching_delete key).discard
    · exact touching_pure ()

/-! ## Removing by a condition -/

theorem pick_sublist {σ : Type} (holds : Condition σ) (left : Nat) (a : σ) (l : List Entry) :
    (pick holds left a l).1.Sublist l := by
  induction l generalizing left a with
  | nil => exact .slnil
  | cons e rest ih =>
    rw [pick]
    split
    · split
      · exact (List.nil_sublist rest).cons_cons e
      · exact (ih ..).cons_cons e
    · exact (ih ..).cons e

theorem ascending_sublist (t : Tree) (low high : Option Bytes) (T : Table) :
    (t.ascending low high T).Sublist T.toList :=
  (List.takeWhile_sublist _).trans List.filter_sublist

theorem run_removeMatch (hS : t.Furnished S) (hT : S.table? t.name = some T) (s : Scope)
    (e : Entry) :
    (t.removeMatch e).run (s.on S) =
      (.ok (), ((s.bumped (-1)).counted (·.recordDelete 0)).on (t.afterRemoval e T S)) := by
  have hopen := Scope.run_openTableToWrite s (t.reindexed (Index.withoutPair e.1 e.2) S) t.name
  rw [table?_reindexed, hT] at hopen
  rw [removeMatch, Attempt.run_bind_ok (run_removePairs hS e.1 e.2), Attempt.run_bind_ok hopen,
    Attempt.run_bind_ok (Scope.run_putTable ..), Attempt.run_bind_ok (Scope.run_bump ..),
    Scope.run_count]
  rfl

/-- The chosen entries have different keys, so each is still there when its turn comes. -/
theorem touches_removeMatches (hS : t.Furnished S) (hT : S.table? t.name = some T)
    {chosen : List Entry} (hkeys : (chosen.map Prod.fst).Nodup)
    (hin : ∀ e ∈ chosen, T.get? e.1 = some e.2) (s : Scope) :
    ∃ s' S', (chosen.forM t.removeMatch).run (s.on S) = (.ok (), Scope.on s' S') ∧
      t.Moves s S s' S' := by
  induction chosen generalizing S T s with
  | nil => exact ⟨s, S, rfl, .refl rfl⟩
  | cons e rest ih =>
    rw [List.map_cons, List.nodup_cons] at hkeys
    have hpresent := hin e List.mem_cons_self
    have htouch : t.Touch S (t.afterRemoval e T S) := .removal hT hpresent
    have hgained : t.gained S (t.afterRemoval e T S) = -1 := by
      rw [gained_afterRemoval hT, OrderedMap.contains, hpresent]
      rfl
    have hmoves : t.Moves s S ((s.bumped (-1)).counted (·.recordDelete 0))
        (t.afterRemoval e T S) := by
      refine ⟨.single htouch, ?_⟩
      rw [Counts, hgained]
      rfl
    have hrest : ∀ e' ∈ rest, (T.erase e.1).get? e'.1 = some e'.2 := by
      intro e' he'
      have hne : e'.1 ≠ e.1 := fun h => hkeys.1 (h ▸ List.mem_map_of_mem he')
      rw [OrderedMap.get?_erase_ne _ hne]
      exact hin e' (List.mem_cons_of_mem _ he')
    obtain ⟨s', S', hrun, hto⟩ := ih htouch.furnished table?_afterRemoval hkeys.2 hrest _
    exact ⟨s', S', (Attempt.run_bind_ok (run_removeMatch hS hT s e) _).trans hrun, hmoves.trans hto⟩

theorem run_scanned (t : Tree) (x : Attempt Scope α) (s : Scope) :
    (t.scanned x).run s =
      match t.ifOwn s.txn.database (.ok ()), x.run s with
      | .error e, _ => (.error e, s)
      | .ok (), (.ok a, s) => (.ok a, s.counted (·.recordScan))
      | .ok (), (.error e, s) =>
        (.error e, (s.counted (·.recordScan)).counted (·.recordError e.code)) := by
  rw [scanned, Attempt.run_bind, run_requireOwn]
  cases t.ifOwn s.txn.database (.ok ()) with
  | error e => rfl
  | ok _ =>
    simp only [Attempt.run, observed]
    rcases x s with ⟨_ | _, _⟩ <;> rfl

theorem Touching.scanned {x : Attempt Scope α} (hx : t.Touching x) : t.Touching (t.scanned x) := by
  intro s S hS
  obtain ⟨r, s', S', hrun, hto⟩ := hx s S hS
  rw [run_scanned, hrun]
  cases t.ifOwn (s.on S).txn.database (.ok ()) with
  | error e => exact ⟨_, s, S, rfl, .refl rfl⟩
  | ok _ =>
    cases r with
    | ok a => exact ⟨_, s'.counted (·.recordScan), S', rfl, hto.touches, hto.counted⟩
    | error e =>
      exact ⟨_, (s'.counted (·.recordScan)).counted (·.recordError e.code), S', rfl, hto.touches,
        hto.counted⟩

theorem touching_deleting {σ : Type} (low high : Option Bytes) (holds : Condition σ) (a : σ) :
    t.Touching (t.deleting low high holds a) := by
  refine Touching.scanned fun s S hS => ?_
  rw [Attempt.run_bind_ok (Scope.run_writable s S), matching, Attempt.run_bind, Attempt.run_bind,
    Scope.run_openTable]
  cases hT : S.table? t.name with
  | none => exact ⟨_, s, S, rfl, .refl rfl⟩
  | some T =>
    have hsub := (pick_sublist holds 0 a _).trans (ascending_sublist t low high T)
    obtain ⟨s', S', hrun, hto⟩ := touches_removeMatches hS hT
      (T.nodup_keys.sublist (hsub.map Prod.fst))
      (fun e he => OrderedMap.get?_eq_some_iff.mpr (hsub.subset he)) s
    exact ⟨_, s', S', Attempt.run_bind_ok hrun _, hto⟩

/-- Every call, with every outcome, comes down to touches, and is counted. -/
theorem touching_call (c : EntryCall) : t.Touching (c.step t) := by
  cases c with
  | insert key value => exact touching_insert key value
  | update key value => exact touching_update key value
  | upsert key value => exact touching_upsert key value
  | delete key => exact (touching_delete key).discard
  | modify key f => exact touching_modify key f
  | insertMany items => exact chained_touching.forM fun e _ => touching_insert e.1 e.2
  | upsertMany items => exact chained_touching.forM fun e _ => touching_upsert e.1 e.2
  | deleteIf low high holds start => exact ((touching_deleting low high holds start).map _).discard

end Tree
end IndexedStore
