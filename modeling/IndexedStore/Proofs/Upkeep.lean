import IndexedStore.Index.Upkeep
import IndexedStore.Proofs.Steps

/-! # What keeping indexes in step does to a store

When every attached index has its table, the upkeep of a write is a function of the store: the check
of the unique indexes changes nothing, and removing or adding the pairs of an entry rewrites the
table of each attached index and no other table.
-/
namespace IndexedStore

namespace Index

/-- The pairs of an index without the one of an entry. -/
def withoutPair (key value : Bytes) (i : Index) (P : PairTable) : PairTable :=
  match i.extract value with
  | none => P
  | some indexKey => P.erase (indexKey, key)

/-- The pairs of an index with the one of an entry. -/
def withPair (key value : Bytes) (i : Index) (P : PairTable) : PairTable :=
  match i.extract value with
  | none => P
  | some indexKey => P.insert (indexKey, key) ()

/-- Whether the index is unique and maps the index key of a value to an entry other than `key`. -/
def clashes (key value : Bytes) (i : Index) (P : PairTable) : Bool :=
  i.unique && (i.extract value).any fun indexKey => !Tree.admits P key indexKey

theorem mem_withoutPair {key value : Bytes} {i : Index} {P : PairTable} {p : Pair} :
    p ∈ (i.withoutPair key value P).pairs ↔
      p ∈ P.pairs ∧ ¬ (i.extract value = some p.1 ∧ p.2 = key) := by
  unfold withoutPair
  cases h : i.extract value with
  | none => simp
  | some indexKey =>
    simp only [PairTable.mem_pairs_erase, Option.some.injEq, ne_eq, Prod.ext_iff, eq_comm]

theorem mem_withPair {key value : Bytes} {i : Index} {P : PairTable} {p : Pair} :
    p ∈ (i.withPair key value P).pairs ↔
      p ∈ P.pairs ∨ i.extract value = some p.1 ∧ p.2 = key := by
  unfold withPair
  cases h : i.extract value with
  | none => simp
  | some indexKey =>
    simp only [PairTable.mem_pairs_insert, Option.some.injEq, Prod.ext_iff, eq_comm, or_comm]

theorem clashes_iff {key value : Bytes} {i : Index} {P : PairTable} :
    i.clashes key value P = true ↔
      i.unique = true ∧ ∃ p ∈ P.pairs, i.extract value = some p.1 ∧ p.2 ≠ key := by
  simp only [clashes, Bool.and_eq_true, Option.any_eq_true, Tree.admits, Bool.not_eq_true',
    List.all_eq_false, beq_iff_eq, PairTable.mem_primaryKeys]
  constructor
  · rintro ⟨hu, indexKey, he, pk, hp, hne⟩
    exact ⟨hu, (indexKey, pk), hp, he, hne⟩
  · rintro ⟨hu, p, hp, he, hne⟩
    exact ⟨hu, p.1, he, p.2, hp, hne⟩

end Index

theorem indexTableName_inj (tree : String) {a b : String} :
    indexTableName tree a = indexTableName tree b ↔ a = b := by
  simp [indexTableName]

namespace Tree
variable {t : Tree} {S : Store} {s : Scope}

/-- Attached indexes have different tables. -/
theorem indexTable_inj {i j : Index} (hi : i ∈ t.indexes) (hj : j ∈ t.indexes)
    (h : t.indexTable i = t.indexTable j) : i = j :=
  List.inj_on_of_nodup_map t.distinct hi hj ((indexTableName_inj t.name).mp h)

/-- Every attached index has its table. -/
def Furnished (t : Tree) (S : Store) : Prop :=
  ∀ i ∈ t.indexes, (S.pairs? (t.indexTable i)).isSome

instance (t : Tree) (S : Store) : Decidable (t.Furnished S) :=
  inferInstanceAs (Decidable (∀ i ∈ t.indexes, (S.pairs? (t.indexTable i)).isSome))

/-- The pairs of an index, none if its table is missing. -/
def pairsOf (t : Tree) (S : Store) (i : Index) : PairTable :=
  (S.pairs? (t.indexTable i)).getD .empty

theorem Furnished.pairs? (h : t.Furnished S) {i : Index} (hi : i ∈ t.indexes) :
    S.pairs? (t.indexTable i) = some (t.pairsOf S i) := by
  obtain ⟨P, hP⟩ := Option.isSome_iff_exists.mp (h i hi)
  rw [pairsOf, hP, Option.getD_some]

theorem pairsOf_of_pairs? {i : Index} {P : PairTable} (h : S.pairs? (t.indexTable i) = some P) :
    t.pairsOf S i = P := by
  rw [pairsOf, h, Option.getD_some]

/-- Writes the table of one index anew. -/
def reindex (t : Tree) (f : Index → PairTable → PairTable) (S : Store) (i : Index) : Store :=
  S.putPairs (t.indexTable i) (f i (t.pairsOf S i))

/-- Writes the table of each attached index anew. -/
def reindexed (t : Tree) (f : Index → PairTable → PairTable) (S : Store) : Store :=
  t.indexes.foldl (t.reindex f) S

theorem table?_foldl_reindex (f : Index → PairTable → PairTable) (l : List Index) (S : Store)
    (n : String) : (l.foldl (t.reindex f) S).table? n = S.table? n := by
  induction l generalizing S with
  | nil => rfl
  | cons i rest ih => rw [List.foldl_cons, ih, reindex, Store.table?_putPairs]

theorem pairs?_foldl_reindex_ne (f : Index → PairTable → PairTable) {l : List Index} {S : Store}
    {n : String} (h : ∀ i ∈ l, n ≠ t.indexTable i) :
    (l.foldl (t.reindex f) S).pairs? n = S.pairs? n := by
  induction l generalizing S with
  | nil => rfl
  | cons i rest ih =>
    rw [List.foldl_cons, ih fun j hj => h j (List.mem_cons_of_mem _ hj), reindex,
      Store.pairs?_putPairs_ne _ _ (h i List.mem_cons_self)]

theorem pairs?_foldl_reindex (f : Index → PairTable → PairTable) {l : List Index} {S : Store}
    (hl : (l.map Index.name).Nodup) {i : Index} (hi : i ∈ l) :
    (l.foldl (t.reindex f) S).pairs? (t.indexTable i) = some (f i (t.pairsOf S i)) := by
  induction l generalizing S with
  | nil => simp at hi
  | cons j rest ih =>
    rw [List.map_cons, List.nodup_cons] at hl
    have hne : ∀ k ∈ rest, t.indexTable j ≠ t.indexTable k := by
      intro k hk heq
      exact hl.1 (List.mem_map.mpr ⟨k, hk, ((indexTableName_inj t.name).mp heq).symm⟩)
    rw [List.foldl_cons]
    rcases List.mem_cons.mp hi with rfl | hi
    · rw [pairs?_foldl_reindex_ne f hne, reindex, Store.pairs?_putPairs_self]
    · rw [ih hl.2 hi, pairsOf, reindex, Store.pairs?_putPairs_ne _ _ (hne i hi).symm, pairsOf]

@[simp] theorem table?_reindexed (f : Index → PairTable → PairTable) (S : Store) (n : String) :
    (t.reindexed f S).table? n = S.table? n := table?_foldl_reindex f t.indexes S n

theorem pairs?_reindexed (f : Index → PairTable → PairTable) (S : Store) {i : Index}
    (hi : i ∈ t.indexes) :
    (t.reindexed f S).pairs? (t.indexTable i) = some (f i (t.pairsOf S i)) :=
  pairs?_foldl_reindex f t.distinct hi

theorem pairs?_reindexed_ne (f : Index → PairTable → PairTable) (S : Store) {n : String}
    (h : ∀ i ∈ t.indexes, n ≠ t.indexTable i) : (t.reindexed f S).pairs? n = S.pairs? n :=
  pairs?_foldl_reindex_ne f h

theorem furnished_reindexed (f : Index → PairTable → PairTable) (S : Store) :
    t.Furnished (t.reindexed f S) := by
  intro i hi
  rw [pairs?_reindexed f S hi, Option.isSome_some]

/-- A loop over indexes that rewrites each table in turn. -/
theorem run_forM_reindex {step : Index → Attempt Scope Unit} {f : Index → PairTable → PairTable}
    (hstep : ∀ (i : Index) (s : Scope) (S : Store) (P : PairTable),
      S.pairs? (t.indexTable i) = some P →
        (step i).run (s.on S) = (.ok (), s.on (S.putPairs (t.indexTable i) (f i P))))
    {l : List Index} (hl : ∀ i ∈ l, (S.pairs? (t.indexTable i)).isSome) :
    (l.forM step).run (s.on S) = (.ok (), s.on (l.foldl (t.reindex f) S)) := by
  induction l generalizing S with
  | nil => rfl
  | cons i rest ih =>
    obtain ⟨P, hP⟩ := Option.isSome_iff_exists.mp (hl i List.mem_cons_self)
    -- the first table has been written anew, so every later index still finds its own
    have hrest : ∀ j ∈ rest, ((t.reindex f S i).pairs? (t.indexTable j)).isSome := by
      intro j hj
      by_cases h : t.indexTable j = t.indexTable i
      · rw [h, reindex, Store.pairs?_putPairs_self, Option.isSome_some]
      · rw [reindex, Store.pairs?_putPairs_ne _ _ h]
        exact hl j (List.mem_cons_of_mem _ hj)
    have hi := hstep i s S P hP
    rw [← pairsOf_of_pairs? hP] at hi
    change (step i >>= fun _ => rest.forM step).run (s.on S) = _
    rw [Attempt.run_bind_ok hi]
    exact ih hrest

theorem run_removePairs (h : t.Furnished S) (key value : Bytes) :
    (t.removePairs key value).run (s.on S) =
      (.ok (), s.on (t.reindexed (Index.withoutPair key value) S)) := by
  refine run_forM_reindex (fun i s S P hP => ?_) h
  unfold Index.withoutPair
  cases i.extract value with
  | none => exact congrArg (Prod.mk _) (congrArg s.on (Store.putPairs_pairs? hP).symm)
  | some indexKey =>
    change (t.removePair key i indexKey).run (s.on S) = _
    rw [removePair, Attempt.run_bind_ok (Scope.run_openPairsToWrite_of_pairs? hP)]
    exact Scope.run_putPairs ..

theorem run_addPairs (h : t.Furnished S) (key value : Bytes) :
    (t.addPairs key (t.indexes.map (·.extract value))).run (s.on S) =
      (.ok (), s.on (t.reindexed (Index.withPair key value) S)) := by
  rw [addPairs, ← List.map_prod_left_eq_zip, List.forM_eq_forM, List.forM_map, ← List.forM_eq_forM]
  refine run_forM_reindex (fun i s S P hP => ?_) h
  unfold Index.withPair
  cases i.extract value with
  | none => exact congrArg (Prod.mk _) (congrArg s.on (Store.putPairs_pairs? hP).symm)
  | some indexKey =>
    change (t.addPair key i indexKey).run (s.on S) = _
    rw [addPair, Attempt.run_bind_ok (Scope.run_openPairsToWrite_of_pairs? hP)]
    exact Scope.run_putPairs ..

/-- The first attached index that a write of an entry would leave with a repeated key. -/
def clash? (t : Tree) (S : Store) (key value : Bytes) : Option Index :=
  t.indexes.find? fun i => i.clashes key value (t.pairsOf S i)

theorem run_preparedKey {i : Index} {P : PairTable} (hP : S.pairs? (t.indexTable i) = some P)
    (key value : Bytes) :
    (t.preparedKey key value i).run (s.on S) =
      (if i.clashes key value P then .error (.duplicateKey i.name) else .ok (i.extract value),
        s.on S) := by
  unfold preparedKey Index.clashes
  cases i.extract value with
  | none => simp
  | some indexKey =>
    cases i.unique with
    | false => rfl
    | true =>
      simp only [if_true, Option.any_some, Bool.true_and]
      rw [Attempt.run_bind_ok ((Scope.run_openPairs s S _).trans
        (Scope.run_openPairsToWrite_of_pairs? hP)), Attempt.run_bind, Attempt.run_require]
      cases admits P key indexKey <;> rfl

theorem run_mapM_preparedKey (key value : Bytes) {l : List Index}
    (hl : ∀ i ∈ l, S.pairs? (t.indexTable i) = some (t.pairsOf S i)) :
    (l.mapM (t.preparedKey key value)).run (s.on S) =
      (match l.find? fun i => i.clashes key value (t.pairsOf S i) with
        | some i => .error (.duplicateKey i.name)
        | none => .ok (l.map (·.extract value)), s.on S) := by
  induction l with
  | nil => rfl
  | cons i rest ih =>
    have hi := run_preparedKey (s := s) (hl i List.mem_cons_self) key value
    have ih := ih fun j hj => hl j (List.mem_cons_of_mem _ hj)
    rw [List.mapM_cons, Attempt.run_bind, hi, List.find?_cons]
    cases hc : i.clashes key value (t.pairsOf S i) with
    | true => rfl
    | false =>
      simp only [Bool.false_eq_true, if_false]
      rw [Attempt.run_bind, ih]
      cases rest.find? fun i => i.clashes key value (t.pairsOf S i) <;> rfl

/-- The check of a write finds the first clash and leaves the store as it is. -/
theorem run_preparedKeys (h : t.Furnished S) (key value : Bytes) :
    (t.preparedKeys key value).run (s.on S) =
      (match t.clash? S key value with
        | some i => .error (.duplicateKey i.name)
        | none => .ok (t.indexes.map (·.extract value)), s.on S) :=
  run_mapM_preparedKey key value fun _ hi => h.pairs? hi

section Chained
variable {P : (α : Type) → Attempt Scope α → Prop} (h : Attempt.Chained P) {key : Bytes}
include h

/-- The keys are prepared by opening the tables of unique indexes and checking them. -/
theorem chained_preparedKeys
    (opens : ∀ i ∈ t.indexes, i.unique = true → P PairTable (Scope.openPairs (t.indexTable i)))
    (checks : ∀ i ∈ t.indexes, i.unique = true →
      ∀ holds, P Unit (.require holds (.duplicateKey i.name)))
    (value : Bytes) : P (List (Option Bytes)) (t.preparedKeys key value) := by
  refine h.mapM fun i hi => ?_
  unfold preparedKey
  cases i.extract value with
  | none => exact h.pure none
  | some indexKey =>
    cases hu : i.unique with
    | false => exact h.pure (some indexKey)
    | true =>
      refine h.bind (opens i hi hu) fun _ => h.bind (checks i hi hu _) fun _ => ?_
      exact h.pure (some indexKey)

theorem chained_addPairs (adds : ∀ i ∈ t.indexes, ∀ indexKey, P Unit (t.addPair key i indexKey))
    (keys : List (Option Bytes)) : P Unit (t.addPairs key keys) := by
  refine h.forM fun p hp => ?_
  rcases p with ⟨i, indexKey?⟩
  have hi : i ∈ t.indexes := (List.of_mem_zip hp).1
  cases indexKey? with
  | none => exact h.pure ()
  | some indexKey => exact adds i hi indexKey

theorem chained_removePairs
    (removes : ∀ i ∈ t.indexes, ∀ indexKey, P Unit (t.removePair key i indexKey))
    (value : Bytes) : P Unit (t.removePairs key value) := by
  refine h.forM fun i hi => ?_
  cases i.extract value with
  | none => exact h.pure ()
  | some indexKey => exact removes i hi indexKey

end Chained

end Tree
end IndexedStore
