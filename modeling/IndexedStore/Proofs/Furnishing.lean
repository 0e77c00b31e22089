import IndexedStore.Proofs.Calls

/-! # Missing index tables

A handle may hold an index whose table was dropped through another handle. Write transactions open
the table anew, and it is empty then, so no step of an upsert tells a missing table from an empty
one: it gives the same answer and writes the same entries and pairs as if the table had been there.
-/
namespace IndexedStore.Tree
variable {t : Tree} {S S' S'' : Store} {i : Index} {α β : Type}

/-- Every attached index has its table or can be given one: no plain table stands in its place. -/
def Openable (t : Tree) (S : Store) : Prop :=
  ∀ i ∈ t.indexes, (S.pairs? (t.indexTable i)).isSome ∨ S.table? (t.indexTable i) = none

theorem Openable.openPairs (h : t.Openable S) (hi : i ∈ t.indexes) :
    S.openPairs (t.indexTable i) = .ok (t.pairsOf S i) := by
  unfold Store.openPairs pairsOf
  cases hP : S.pairs? (t.indexTable i) with
  | some P => rfl
  | none =>
    have hnone : S.table? (t.indexTable i) = none := (h i hi).resolve_left (by simp [hP])
    simp only [Store.table?] at hnone
    simp [OrderedMap.contains, hnone]

/-- The store with an empty table for every attached index that lacks one. -/
def furnish (t : Tree) (S : Store) : Store := t.reindexed (fun _ P => P) S

theorem furnished_furnish (t : Tree) (S : Store) : t.Furnished (t.furnish S) :=
  furnished_reindexed _ S

@[simp] theorem table?_furnish (S : Store) (n : String) : (t.furnish S).table? n = S.table? n :=
  table?_reindexed _ S n

theorem pairs?_furnish (hi : i ∈ t.indexes) :
    (t.furnish S).pairs? (t.indexTable i) = some (t.pairsOf S i) := pairs?_reindexed _ S hi

theorem pairs?_furnish_ne {n : String} (h : ∀ i ∈ t.indexes, n ≠ t.indexTable i) :
    (t.furnish S).pairs? n = S.pairs? n := pairs?_reindexed_ne _ S h

/-- A store is made by its plain tables, the pairs of the attached indexes and the other tables. -/
theorem eq_furnish {F : Store} (hplain : ∀ n, F.table? n = S.table? n)
    (hpairs : ∀ i ∈ t.indexes, F.pairs? (t.indexTable i) = some (t.pairsOf S i))
    (hother : ∀ n, (∀ i ∈ t.indexes, n ≠ t.indexTable i) → F.pairs? n = S.pairs? n) :
    F = t.furnish S := by
  refine Store.ext_tables (fun n => (hplain n).trans (table?_furnish S n).symm) fun n => ?_
  by_cases h : ∃ i ∈ t.indexes, n = t.indexTable i
  · obtain ⟨i, hi, rfl⟩ := h
    rw [hpairs i hi, pairs?_furnish hi]
  · have hn : ∀ i ∈ t.indexes, n ≠ t.indexTable i := fun i hi heq => h ⟨i, hi, heq⟩
    rw [hother n hn, pairs?_furnish_ne hn]

/-- A store in which no table is missing is left alone. -/
theorem Furnished.furnish (h : t.Furnished S) : t.furnish S = S :=
  (eq_furnish (fun _ => rfl) (fun _ hi => h.pairs? hi) fun _ _ => rfl).symm

theorem Furnished.openable (h : t.Furnished S) : t.Openable S :=
  fun i hi => .inl (h i hi)

theorem furnish_putTable (S : Store) (n : String) (T : Table) :
    t.furnish (S.putTable n T) = (t.furnish S).putTable n T := by
  refine (eq_furnish (fun m => ?_) (fun i hi => ?_) fun m hm => ?_).symm
  · by_cases h : m = n
    · rw [h, Store.table?_putTable_self, Store.table?_putTable_self]
    · rw [Store.table?_putTable_ne _ _ h, Store.table?_putTable_ne _ _ h, table?_furnish]
  · exact pairs?_furnish hi
  · exact pairs?_furnish_ne hm

theorem furnish_putPairs (S : Store) (hi : i ∈ t.indexes) (P : PairTable) :
    t.furnish (S.putPairs (t.indexTable i) P) = (t.furnish S).putPairs (t.indexTable i) P := by
  refine (eq_furnish (fun m => ?_) (fun j hj => ?_) fun m hm => ?_).symm
  · exact table?_furnish S m
  · by_cases h : t.indexTable j = t.indexTable i
    · rw [h, Store.pairs?_putPairs_self, indexTable_inj hj hi h, pairsOf,
        Store.pairs?_putPairs_self, Option.getD_some]
    · rw [Store.pairs?_putPairs_ne _ _ h, pairs?_furnish hj, pairsOf, pairsOf,
        Store.pairs?_putPairs_ne _ _ h]
  · rw [Store.pairs?_putPairs_ne _ _ (hm i hi), Store.pairs?_putPairs_ne _ _ (hm i hi),
      pairs?_furnish_ne hm]

/-- Opening a missing table anew leaves a store that differs in no other way. -/
theorem furnish_opened (hi : i ∈ t.indexes) :
    t.furnish (S.putPairs (t.indexTable i) (t.pairsOf S i)) = t.furnish S := by
  rw [furnish_putPairs S hi, Store.putPairs_pairs? (pairs?_furnish hi)]

/-- What a later store keeps of an earlier one: tables that are there stay, the others can still be
opened. -/
structure Retains (t : Tree) (S S' : Store) : Prop where
  openable : t.Openable S → t.Openable S'
  furnished : t.Furnished S → t.Furnished S'

theorem Retains.refl (t : Tree) (S : Store) : t.Retains S S := ⟨id, id⟩

theorem Retains.trans (h : t.Retains S S') (h' : t.Retains S' S'') : t.Retains S S'' :=
  ⟨fun hS => h'.openable (h.openable hS), fun hS => h'.furnished (h.furnished hS)⟩

theorem indexTable_ne_name (t : Tree) (i : Index) : t.indexTable i ≠ t.name := by
  intro h
  have hlength := congrArg String.length h
  have hstem : indexTableStem.length = 4 := rfl
  simp only [indexTable, indexTableName, String.length_append] at hlength
  omega

theorem retains_putTable (S : Store) (T : Table) : t.Retains S (S.putTable t.name T) := by
  refine ⟨fun h i hi => ?_, fun h => h⟩
  rw [Store.table?_putTable_ne _ _ (t.indexTable_ne_name i)]
  exact h i hi

theorem retains_putPairs (S : Store) (i : Index) (P : PairTable) :
    t.Retains S (S.putPairs (t.indexTable i) P) := by
  have hsome : ∀ j, (S.pairs? (t.indexTable j)).isSome →
      ((S.putPairs (t.indexTable i) P).pairs? (t.indexTable j)).isSome := by
    intro j hj
    by_cases h : t.indexTable j = t.indexTable i
    · rw [h, Store.pairs?_putPairs_self, Option.isSome_some]
    · rwa [Store.pairs?_putPairs_ne _ _ h]
  exact ⟨fun h j hj => (h j hj).imp (hsome j) id, fun h j hj => hsome j (h j hj)⟩

/-! ## Steps that cannot tell -/

/-- The step gives the same answer whether or not missing index tables are supplied beforehand, and
leaves stores that differ in nothing else. -/
def Oblivious (t : Tree) (x : Attempt Scope α) : Prop :=
  ∀ (s : Scope) (S : Store), t.Openable S →
    ∃ r s' S', x.run (s.on S) = (r, Scope.on s' S') ∧
      x.run (s.on (t.furnish S)) = (r, Scope.on s' (t.furnish S')) ∧ t.Retains S S'

/-- A step that does not look at the store. -/
theorem oblivious_of_on {x : Attempt Scope α}
    (h : ∀ s : Scope, ∃ r s', ∀ S, x.run (s.on S) = (r, Scope.on s' S)) : t.Oblivious x := by
  intro s S _
  obtain ⟨r, s', hx⟩ := h s
  exact ⟨r, s', S, hx S, hx (t.furnish S), .refl t S⟩

theorem oblivious_pure (a : α) : t.Oblivious (pure a : Attempt Scope α) :=
  oblivious_of_on fun s => ⟨.ok a, s, fun _ => rfl⟩

theorem Oblivious.bind {x : Attempt Scope α} {f : α → Attempt Scope β} (hx : t.Oblivious x)
    (hf : ∀ a, t.Oblivious (f a)) : t.Oblivious (x >>= f) := by
  intro s S hS
  obtain ⟨r, s', S', hrun, hrun', hkeep⟩ := hx s S hS
  cases r with
  | error e =>
    exact ⟨.error e, s', S', Attempt.run_bind_error hrun f, Attempt.run_bind_error hrun' f, hkeep⟩
  | ok a =>
    obtain ⟨r, s'', S'', hlater, hlater', hkeep'⟩ := hf a s' S' (hkeep.openable hS)
    exact ⟨r, s'', S'', (Attempt.run_bind_ok hrun f).trans hlater,
      (Attempt.run_bind_ok hrun' f).trans hlater', hkeep.trans hkeep'⟩

theorem chained_oblivious : Attempt.Chained fun _ x => t.Oblivious x :=
  ⟨oblivious_pure, Oblivious.bind⟩

theorem oblivious_require (holds : Bool) (e : Failure) :
    t.Oblivious (.require holds e : Attempt Scope Unit) :=
  oblivious_of_on fun s => ⟨_, s, fun _ => Attempt.run_require ..⟩

theorem oblivious_openTable (n : String) : t.Oblivious (Scope.openTable n) := by
  intro s S _
  rw [Scope.run_openTable, Scope.run_openTable, table?_furnish]
  cases S.table? n with
  | none => exact ⟨_, s, S, rfl, rfl, .refl t S⟩
  | some T => exact ⟨_, s, S, rfl, rfl, .refl t S⟩

theorem oblivious_openTableToWrite (n : String) : t.Oblivious (Scope.openTableToWrite n) := by
  intro s S _
  rw [Scope.run_openTableToWrite, Scope.run_openTableToWrite, table?_furnish]
  cases S.table? n with
  | none => exact ⟨_, s, S, rfl, rfl, .refl t S⟩
  | some T => exact ⟨_, s, S, rfl, rfl, .refl t S⟩

theorem oblivious_putTable (T : Table) : t.Oblivious (Scope.putTable t.name T) := by
  intro s S _
  rw [Scope.run_putTable, Scope.run_putTable, ← furnish_putTable]
  exact ⟨_, s, _, rfl, rfl, retains_putTable S T⟩

theorem oblivious_openPairsToWrite (hi : i ∈ t.indexes) :
    t.Oblivious (Scope.openPairsToWrite (t.indexTable i)) := by
  intro s S hS
  refine ⟨.ok (t.pairsOf S i), s, S.putPairs (t.indexTable i) (t.pairsOf S i), ?_, ?_,
    retains_putPairs S i _⟩
  · simp only [Scope.run_openPairsToWrite, hS.openPairs hi]
  · rw [Scope.run_openPairsToWrite_of_pairs? (pairs?_furnish hi), furnish_opened hi]

theorem oblivious_openPairs (hi : i ∈ t.indexes) :
    t.Oblivious (Scope.openPairs (t.indexTable i)) := by
  intro s S hS
  rw [Scope.run_openPairs, Scope.run_openPairs]
  exact oblivious_openPairsToWrite hi s S hS

theorem oblivious_putPairs (hi : i ∈ t.indexes) (P : PairTable) :
    t.Oblivious (Scope.putPairs (t.indexTable i) P) := by
  intro s S _
  rw [Scope.run_putPairs, Scope.run_putPairs, ← furnish_putPairs S hi]
  exact ⟨_, s, _, rfl, rfl, retains_putPairs S i P⟩

/-! ## Upserts -/

theorem oblivious_preparedKeys (key value : Bytes) : t.Oblivious (t.preparedKeys key value) :=
  chained_preparedKeys chained_oblivious (fun _ hi _ => oblivious_openPairs hi)
    (fun _ _ _ _ => oblivious_require _ _) value

theorem oblivious_removePairs (key value : Bytes) : t.Oblivious (t.removePairs key value) := by
  refine chained_removePairs chained_oblivious (fun i hi indexKey => ?_) value
  exact (oblivious_openPairsToWrite hi).bind fun _ => oblivious_putPairs hi _

theorem oblivious_addPairs (key : Bytes) (keys : List (Option Bytes)) :
    t.Oblivious (t.addPairs key keys) := by
  refine chained_addPairs chained_oblivious (fun i hi indexKey => ?_) keys
  exact (oblivious_openPairsToWrite hi).bind fun _ => oblivious_putPairs hi _

theorem oblivious_replaceEntry (key value : Bytes) : t.Oblivious (t.replaceEntry key value) := by
  refine (oblivious_require _ _).bind fun _ => (oblivious_openTableToWrite _).bind fun T =>
    (oblivious_preparedKeys key value).bind fun keys => ?_
  cases T.get? key with
  | some old =>
    exact (oblivious_removePairs key old).bind fun _ => (oblivious_addPairs key keys).bind fun _ =>
      (oblivious_putTable _).bind fun _ => oblivious_pure true
  | none =>
    exact (oblivious_addPairs key keys).bind fun _ => (oblivious_putTable _).bind fun _ =>
      (oblivious_of_on fun s => ⟨_, _, fun S => Scope.run_bump s S 1⟩).bind fun _ =>
        oblivious_pure false

theorem oblivious_mergeEntry (key value : Bytes) : t.Oblivious (t.mergeEntry key value) := by
  unfold mergeEntry
  cases t.merge? with
  | none => exact oblivious_replaceEntry key value
  | some merge =>
    refine (oblivious_openTable _).bind fun T => ?_
    cases T.get? key with
    | none => exact oblivious_replaceEntry key value
    | some old =>
      simp only
      cases merge old value with
      | none => exact oblivious_of_on fun s => ⟨_, s, fun _ => rfl⟩
      | some merged => exact oblivious_replaceEntry key merged

theorem Oblivious.observed {x : Attempt Scope α} (hx : t.Oblivious x) :
    t.Oblivious (Scope.observed x) := by
  intro s S hS
  obtain ⟨r, s', S', hrun, hrun', hkeep⟩ := hx s S hS
  rw [Scope.run_observed, Scope.run_observed, hrun, hrun']
  cases r with
  | ok a => exact ⟨_, s', S', rfl, rfl, hkeep⟩
  | error e => exact ⟨_, s'.counted (·.recordError e.code), S', rfl, rfl, hkeep⟩

theorem oblivious_upsert (key value : Bytes) : t.Oblivious (t.upsert key value) := by
  refine Oblivious.observed (.bind (oblivious_of_on fun s => ?_) fun _ =>
    (oblivious_mergeEntry key value).bind fun replaced => oblivious_of_on fun s => ?_)
  · exact ⟨t.ifOwn s.txn.database (.ok ()), s, fun S => run_requireOwn t (s.on S)⟩
  · exact ⟨_, _, fun S => Scope.run_count s S _⟩

end IndexedStore.Tree
