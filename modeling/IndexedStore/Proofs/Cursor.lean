import IndexedStore.Cursor
import IndexedStore.Proofs.Calls
import IndexedStore.Proofs.PlainMap

/-! # Deleting under a cursor

A cursor over a tree deletes by what it remembers of the entry it stands on. That is right as long
as the entry is still there and gives rise to no pair that the remembered value does not give rise
to. A cursor that has just moved remembers the entry as it is; a write to the entry under it may
take this away, and then a deletion leaves a pair behind or is counted without removing anything.
-/
namespace IndexedStore

/-- Without the pair of a remembered value an index is exact for the other entries, unless the
stored value gives rise to another pair. -/
theorem Index.exact_withoutPair_iff {i : Index} {T : Table} {P : PairTable} {e : Entry}
    (h : i.Exact T P) :
    i.Exact (T.erase e.1) (i.withoutPair e.1 e.2 P) ↔
      ∀ value, T.get? e.1 = some value →
        ∀ k, i.extract value = some k → i.extract e.2 = some k := by
  constructor
  · intro hexact value hv k hk
    by_contra hne
    have hpair : (k, e.1) ∈ P.pairs := (h (k, e.1)).mpr ⟨value, hv, hk⟩
    have hleft : (k, e.1) ∈ (i.withoutPair e.1 e.2 P).pairs :=
      mem_withoutPair.mpr ⟨hpair, fun hremoved => hne hremoved.1⟩
    exact (derives_erase.mp ((hexact (k, e.1)).mp hleft)).2 rfl
  · intro hcovers p
    rw [mem_withoutPair, derives_erase, h p]
    constructor
    · rintro ⟨⟨value, hv, hk⟩, hkept⟩
      exact ⟨⟨value, hv, hk⟩, fun hp => hkept ⟨hcovers value (hp ▸ hv) p.1 hk, hp⟩⟩
    · rintro ⟨hd, hne⟩
      exact ⟨hd, fun hremoved => hne hremoved.2⟩

namespace Tree
variable {t : Tree} {s : Scope} {S S' : Store} {T : Table} {e : Entry}

/-- The store holds the tree, and the pairs of every attached index are those of its entries. -/
def Indexed (t : Tree) (S : Store) : Prop :=
  ∃ T, S.table? t.name = some T ∧
    ∀ i ∈ t.indexes, ∃ P, S.pairs? (t.indexTable i) = some P ∧ i.Exact T P

/-- An entry under the remembered key is stored, and every pair that it gives rise to is one that
the remembered value gives rise to. -/
def Fresh (t : Tree) (S : Store) (e : Entry) : Prop :=
  ∃ T value, S.table? t.name = some T ∧ T.get? e.1 = some value ∧
    ∀ i ∈ t.indexes, ∀ k, i.extract value = some k → i.extract e.2 = some k

theorem fresh_of_get? (hT : S.table? t.name = some T) (he : T.get? e.1 = some e.2) :
    t.Fresh S e := ⟨T, e.2, hT, he, fun _ _ _ hk => hk⟩

theorem Indexed.furnished (h : t.Indexed S) : t.Furnished S := by
  intro i hi
  obtain ⟨T, -, hall⟩ := h
  obtain ⟨P, hP, -⟩ := hall i hi
  rw [hP, Option.isSome_some]

theorem Indexed.touch (h : t.Indexed S) (hto : t.Touch S S') : t.Indexed S' := by
  obtain ⟨T, hT, hall⟩ := h
  cases hto with
  | @write T' key value entries free =>
    obtain rfl : T = T' := Option.some.inj (hT.symm.trans entries)
    refine ⟨_, table?_afterWrite, fun i hi => ?_⟩
    obtain ⟨P, hP, hexact⟩ := hall i hi
    have ⟨hsound, hcomplete⟩ := Index.exact_iff.mp hexact
    exact ⟨_, pairs?_afterWrite hi hP,
      Index.exact_iff.mpr ⟨hsound.write, hcomplete.write hsound⟩⟩
  | @removal T' key value entries present =>
    obtain rfl : T = T' := Option.some.inj (hT.symm.trans entries)
    refine ⟨_, table?_afterRemoval, fun i hi => ?_⟩
    obtain ⟨P, hP, hexact⟩ := hall i hi
    have ⟨hsound, hcomplete⟩ := Index.exact_iff.mp hexact
    exact ⟨_, pairs?_afterRemoval hi hP present,
      Index.exact_iff.mpr ⟨hsound.removal, hcomplete.removal hsound⟩⟩

theorem Indexed.touches (h : t.Indexed S) (hto : t.Touches S S') : t.Indexed S' := by
  induction hto with
  | refl => exact h
  | tail _ hto ih => exact ih.touch hto

theorem indexed_iff (hT : S.table? t.name = some T) :
    t.Indexed S ↔ ∀ i ∈ t.indexes, ∃ P, S.pairs? (t.indexTable i) = some P ∧ i.Exact T P := by
  constructor
  · rintro ⟨T', hT', hall⟩
    obtain rfl : T' = T := Option.some.inj (hT'.symm.trans hT)
    exact hall
  · exact fun hall => ⟨T, hT, hall⟩

theorem Indexed.afterRemoval_iff (h : t.Indexed S) (hT : S.table? t.name = some T) :
    t.Indexed (t.afterRemoval e T S) ↔ ∀ i ∈ t.indexes, ∀ value, T.get? e.1 = some value →
      ∀ k, i.extract value = some k → i.extract e.2 = some k := by
  rw [indexed_iff table?_afterRemoval]
  refine forall₂_congr fun i hi => ?_
  obtain ⟨P, hP, hexact⟩ := (indexed_iff hT).mp h i hi
  have hpairs : (t.afterRemoval e T S).pairs? (t.indexTable i) =
      some (i.withoutPair e.1 e.2 P) := by
    rw [afterRemoval, Store.pairs?_putTable, pairs?_reindexed _ _ hi, pairsOf_of_pairs? hP]
  rw [← Index.exact_withoutPair_iff hexact]
  simp only [hpairs, Option.some.injEq, exists_eq_left']

/-- A deletion is always counted, so the count is right just when there was an entry. -/
theorem counts_afterRemoval_iff (hT : S.table? t.name = some T) (s : Scope) :
    t.Counts s S (s.bumped (-1)) (t.afterRemoval e T S) ↔ ∃ value, T.get? e.1 = some value := by
  have hmoved : (s.bumped (-1)).entryCount = s.entryCount + -1 := rfl
  rw [Counts, gained_afterRemoval hT, hmoved, Int64.add_right_inj, OrderedMap.contains,
    ← Option.isSome_iff_exists]
  cases (T.get? e.1).isSome <;> decide

/-- After an entry was removed by what was remembered of it, both the indexes and the count are
right just when what was remembered is fresh. -/
theorem Indexed.removal_iff_fresh (h : t.Indexed S) (hT : S.table? t.name = some T) (s : Scope) :
    t.Indexed (t.afterRemoval e T S) ∧ t.Counts s S (s.bumped (-1)) (t.afterRemoval e T S) ↔
      t.Fresh S e := by
  rw [h.afterRemoval_iff hT, counts_afterRemoval_iff hT]
  constructor
  · rintro ⟨hpairs, value, hv⟩
    exact ⟨T, value, hT, hv, fun i hi => hpairs i hi value hv⟩
  · rintro ⟨T', value, hT', hv, hpairs⟩
    obtain rfl : T' = T := Option.some.inj (hT'.symm.trans hT)
    refine ⟨fun i hi value' hv' => ?_, value, hv⟩
    obtain rfl : value = value' := Option.some.inj (hv.symm.trans hv')
    exact hpairs i hi

end Tree

theorem Table.get?_of_entryAt {T : Table} {p : Place} {e : Entry} (h : T.entryAt p = some e) :
    T.get? e.1 = some e.2 := by
  cases p with
  | first => exact OrderedMap.get?_eq_some_iff.mpr (List.mem_of_head? h)
  | last => exact OrderedMap.get?_eq_some_iff.mpr (List.mem_of_getLast? h)
  | after e' => exact OrderedMap.get?_eq_some_iff.mpr (List.mem_of_find?_eq_some h)
  | before e' =>
    exact OrderedMap.get?_eq_some_iff.mpr (List.mem_reverse.mp (List.mem_of_find?_eq_some h))
  | exactly key =>
    obtain ⟨value, hv, rfl⟩ := Option.map_eq_some_iff.mp h
    exact hv
  | notBelow key => exact OrderedMap.get?_eq_some_iff.mpr (List.mem_of_find?_eq_some h)

namespace Cursor
variable {t : Tree} {c : Cursor} {s : Scope} {S : Store} {T : Table} {e : Entry} {p : Place}

theorem run_look (onMain : c.index? = none) (hT : S.table? t.name = some T) (p : Place) :
    (c.look t p).run (s.on S) = (.ok (T.entryAt p), s.on S) := by
  rw [look, onMain]
  simp only
  rw [Attempt.run_bind, Scope.run_openTable, hT]
  rfl

/-- What a cursor lands on is stored as it remembers it. -/
theorem run_landing (onMain : c.index? = none) (hT : S.table? t.name = some T) (p : Place) :
    ∃ e?, (c.landing t p).run (s.on S) = (.ok e?, s.on S) ∧
      ∀ e, e? = some e → T.get? e.1 = some e.2 := by
  unfold landing
  split
  · rename_i key compare _
    refine ⟨_, Attempt.run_bind_ok (run_look onMain hT _) _, fun e he => ?_⟩
    exact Table.get?_of_entryAt (Option.filter_eq_some_iff.mp he).1
  · exact ⟨_, run_look onMain hT _, fun e he => Table.get?_of_entryAt he⟩

theorem run_moveTo_of_landing {s s' : Scope} {e? : Option Entry}
    (h : (c.landing t p).run s = (.ok e?, s')) :
    (moveTo t p).run (c, s) = (.ok e?.isSome, ({ c with position := e? }, s')) := by
  simp only [Attempt.run] at h ⊢
  simp only [moveTo, h]

theorem run_moveTo (onMain : c.index? = none) (hT : S.table? t.name = some T) (p : Place) :
    ∃ e?, (moveTo t p).run (c, s.on S) =
        (.ok e?.isSome, ({ c with position := e? }, s.on S)) ∧
      ∀ e, e? = some e → T.get? e.1 = some e.2 := by
  obtain ⟨e?, hrun, hstored⟩ := run_landing (s := s) onMain hT p
  exact ⟨e?, run_moveTo_of_landing hrun, hstored⟩

theorem run_remove (onMain : c.index? = none) (hS : t.Furnished S) (hT : S.table? t.name = some T)
    (e : Entry) :
    (c.remove t e).run (s.on S) = (.ok (), (s.bumped (-1)).on (t.afterRemoval e T S)) := by
  have hopen := Scope.run_openTableToWrite s (t.reindexed (Index.withoutPair e.1 e.2) S) t.name
  rw [Tree.table?_reindexed, hT] at hopen
  rw [remove, onMain]
  simp only
  rw [Attempt.run_bind_ok (Tree.run_removePairs hS e.1 e.2), Attempt.run_bind_ok hopen,
    Attempt.run_bind_ok (Scope.run_putTable ..), Scope.run_bump]
  rfl

theorem run_delete (onMain : c.index? = none) (hS : t.Furnished S) (hT : S.table? t.name = some T)
    (on_entry : c.position = some e) (s : Scope) :
    ∃ e?, (delete t).run (c, s.on S) =
      (.ok (), ({ c with position := e? }, (s.bumped (-1)).on (t.afterRemoval e T S))) := by
  obtain ⟨e?, hmove, -⟩ :=
    run_moveTo (t := t) (s := s.bumped (-1)) (S := t.afterRemoval e T S) onMain
      Tree.table?_afterRemoval (.after e)
  refine ⟨e?, ?_⟩
  have hremove := run_remove (s := s) onMain hS hT e
  have hnext := Attempt.run_discard (moveTo t (.after e))
    (c, (s.bumped (-1)).on (t.afterRemoval e T S))
  rw [hmove] at hnext
  simp only [Attempt.run] at hremove hnext ⊢
  have hreader : (s.on S).txn.isReader = false := rfl
  simp only [delete, on_entry, hreader, hremove, hnext]
  rfl

/-! ## A cursor in a transaction that writes -/

/-- What can happen to a cursor and the transaction it is in: it is moved, entries are written or
removed by calls, and the entry under it is deleted while what it remembers is fresh. -/
inductive Step (t : Tree) : Cursor × Scope → Cursor × Scope → Prop
  | move (σ : Cursor × Scope) (p : Place) : Step t σ ((moveTo t p).run σ).2
  | next (σ : Cursor × Scope) : Step t σ ((next t).run σ).2
  | prev (σ : Cursor × Scope) : Step t σ ((prev t).run σ).2
  | entry (σ : Cursor × Scope) (call : EntryCall) :
    Step t σ (σ.1, ((call.step t).run σ.2).2)
  | delete (σ : Cursor × Scope)
    (fresh : ∀ S e, σ.2.txn.view = .working S → σ.1.position = some e → t.Fresh S e) :
    Step t σ ((delete t).run σ).2

/-- The cursor runs over the tree, whose indexes are exact and whose entries have been counted. -/
inductive Kept (t : Tree) (s₀ : Scope) (S₀ : Store) : Cursor × Scope → Prop
  | intro {c : Cursor} {s : Scope} {S : Store} (onMain : c.index? = none) (indexed : t.Indexed S)
    (counted : t.Counts s₀ S₀ s S) : Kept t s₀ S₀ (c, s.on S)

variable {s₀ : Scope} {S₀ : Store} {σ σ' : Cursor × Scope}

theorem Kept.move (h : Kept t s₀ S₀ σ) (p : Place) : Kept t s₀ S₀ ((moveTo t p).run σ).2 := by
  cases h with
  | @intro c s S onMain indexed counted =>
    have ⟨T, hT, _⟩ := indexed
    obtain ⟨e?, hrun, -⟩ := run_moveTo (s := s) onMain hT p
    rw [hrun]
    exact .intro onMain indexed counted

theorem Kept.entry (h : Kept t s₀ S₀ σ) (call : EntryCall) :
    Kept t s₀ S₀ (σ.1, ((call.step t).run σ.2).2) := by
  cases h with
  | @intro c s S onMain indexed counted =>
    obtain ⟨r, s', S', hrun, hmoves⟩ := Tree.touching_call call s S indexed.furnished
    rw [hrun]
    exact .intro onMain (indexed.touches hmoves.touches) (counted.iff_of_start.mpr hmoves.counted)

/-- Whether a deletion leaves the indexes exact and the count right depends on what is recalled. -/
theorem kept_delete_iff (onMain : c.index? = none) (indexed : t.Indexed S)
    (counted : t.Counts s₀ S₀ s S) (on_entry : c.position = some e) :
    ∃ c' s' S', (delete t).run (c, s.on S) = (.ok (), (c', Scope.on s' S')) ∧ c'.index? = none ∧
      (t.Indexed S' ∧ t.Counts s₀ S₀ s' S' ↔ t.Fresh S e) := by
  have ⟨T, hT, _⟩ := indexed
  obtain ⟨e?, hrun⟩ := run_delete onMain indexed.furnished hT on_entry s
  refine ⟨_, _, _, hrun, onMain, ?_⟩
  rw [counted.iff_of_start]
  exact indexed.removal_iff_fresh hT s

theorem Kept.step (h : Kept t s₀ S₀ σ) (hstep : Step t σ σ') : Kept t s₀ S₀ σ' := by
  cases hstep with
  | move p => exact h.move p
  | next =>
    cases hc : σ.1.position with
    | none => simpa only [Attempt.run, next, hc] using h
    | some e => simpa only [Attempt.run, next, hc] using h.move (.after e)
  | prev =>
    cases hc : σ.1.position with
    | none => simpa only [Attempt.run, prev, hc] using h
    | some e => simpa only [Attempt.run, prev, hc] using h.move (.before e)
  | entry call => exact h.entry call
  | delete fresh =>
    cases hc : σ.1.position with
    | none => simpa only [Attempt.run, delete, hc] using h
    | some e =>
      cases h with
      | @intro c s S onMain indexed counted =>
        obtain ⟨c', s', S', hrun, onMain', hkept⟩ := kept_delete_iff onMain indexed counted hc
        obtain ⟨indexed', counted'⟩ := hkept.mpr (fresh S e rfl hc)
        rw [hrun]
        exact .intro onMain' indexed' counted'

theorem Kept.run (h : Kept t s₀ S₀ σ) (hrun : Relation.ReflTransGen (Step t) σ σ') :
    Kept t s₀ S₀ σ' := by
  induction hrun with
  | refl => exact h
  | tail _ hstep ih => exact ih.step hstep

/-- Where a cursor has just landed, what it remembers is fresh. -/
theorem fresh_of_moveTo (onMain : c.index? = none) (hT : S.table? t.name = some T) (p : Place)
    (h : ((moveTo t p).run (c, s.on S)).2.1.position = some e) : t.Fresh S e := by
  obtain ⟨e?, hrun, hstored⟩ := run_moveTo (s := s) onMain hT p
  rw [hrun] at h
  exact Tree.fresh_of_get? hT (hstored e h)

/-- In a write transaction a cursor over a tree and calls that write entries go on in any order.
The indexes stay exact and the entries counted, and a deletion under the cursor goes through and
keeps them so just when what the cursor remembers is fresh, as it is wherever the cursor has just
been moved. -/
theorem delete_keeps_indexes_iff_fresh (onMain : c.index? = none) (indexed : t.Indexed S₀)
    (run : Relation.ReflTransGen (Step t) (c, s₀.on S₀) σ) :
    ∃ s S, σ.2 = s.on S ∧ t.Indexed S ∧ t.Counts s₀ S₀ s S ∧
      (∀ p e, ((moveTo t p).run σ).2.1.position = some e → t.Fresh S e) ∧
      ∀ e, σ.1.position = some e →
        ∃ c' s' S', (delete t).run σ = (.ok (), (c', Scope.on s' S')) ∧
          (t.Indexed S' ∧ t.Counts s₀ S₀ s' S' ↔ t.Fresh S e) := by
  have h : Kept t s₀ S₀ σ := (Kept.intro onMain indexed (Tree.counts_self rfl)).run run
  cases h with
  | @intro c s S onMain indexed counted =>
    have ⟨T, hT, _⟩ := indexed
    refine ⟨s, S, rfl, indexed, counted, fun p e => fresh_of_moveTo onMain hT p,
      fun e on_entry => ?_⟩
    obtain ⟨c', s', S', hrun, -, hkept⟩ := kept_delete_iff onMain indexed counted on_entry
    exact ⟨c', s', S', hrun, hkept⟩

/-- A scope that works on the empty tables of `wholeIndexed`. -/
def wholeScope : Scope := ⟨⟨"db", .working Tree.wholeIndexedStore⟩, 0, {}⟩

/-- A cursor that stands on the one entry written there. -/
def onEntry : Cursor × Scope :=
  ((moveTo Tree.wholeIndexed .first).run
    (⟨none, none⟩, ((Tree.wholeIndexed.insert [0] [1]).run wholeScope).2)).2

theorem indexed_wholeIndexedStore : Tree.wholeIndexed.Indexed Tree.wholeIndexedStore :=
  ⟨.empty, Tree.holds_wholeIndexedStore.entries, Tree.holds_wholeIndexedStore.exact⟩

theorem delete_keeps_indexes_iff_fresh_wholeIndexed :
    onEntry.1.position = some ([0], [1]) ∧ ∃ c' s' S',
      (delete Tree.wholeIndexed).run onEntry = (.ok (), (c', Scope.on s' S')) ∧
        Tree.wholeIndexed.Indexed S' ∧
        Tree.wholeIndexed.Counts wholeScope Tree.wholeIndexedStore s' S' := by
  have position : onEntry.1.position = some ([0], [1]) := rfl
  have run : Relation.ReflTransGen (Step Tree.wholeIndexed)
      (⟨none, none⟩, wholeScope.on Tree.wholeIndexedStore) onEntry :=
    .tail (.single (.entry _ (.insert [0] [1]))) (.move _ .first)
  obtain ⟨s, S, hs, -, -, -, hdelete⟩ :=
    delete_keeps_indexes_iff_fresh rfl indexed_wholeIndexedStore run
  obtain ⟨c', s', S', hrun, hkept⟩ := hdelete _ position
  have hview : onEntry.2.txn.view =
      .working (Tree.wholeIndexed.afterWrite [0] [1] .empty Tree.wholeIndexedStore) := rfl
  rw [hs] at hview
  obtain rfl := View.working.inj hview
  exact ⟨position, c', s', S', hrun, hkept.mpr (Tree.fresh_of_get? Tree.table?_afterWrite rfl)⟩

def onUpdated : Cursor × Scope :=
  (onEntry.1, ((Tree.wholeIndexed.update [0] [2]).run onEntry.2).2)

/-- A store without entries and with one pair. -/
def strayPair : Store :=
  (Store.empty.putTable "t" .empty).putPairs (indexTableName "t" "whole")
    (.insert .empty ([2], [0]) ())

/-- When the updated entry is deleted through the cursor, the entry goes and the pair of its last
value stays. -/
theorem delete_after_update_leaves_pair :
    ((Tree.wholeIndexed.update [0] [2]).run onEntry.2).1 = .ok () ∧
      ((delete Tree.wholeIndexed).run onUpdated).1 = .ok () ∧
      ((delete Tree.wholeIndexed).run onUpdated).2.2.txn.view = .working strayPair ∧
      ¬ Tree.wholeIndexed.Indexed strayPair := by
  refine ⟨rfl, rfl, rfl, ?_⟩
  rintro ⟨T, hT, hall⟩
  obtain ⟨P, hP, hexact⟩ := hall _ List.mem_cons_self
  obtain rfl : .empty = T := Option.some.inj hT
  obtain rfl : .insert .empty ([2], [0]) () = P := Option.some.inj hP
  obtain ⟨value, hv, -⟩ := (hexact ([2], [0])).mp (by decide)
  cases hv

end Cursor
end IndexedStore
