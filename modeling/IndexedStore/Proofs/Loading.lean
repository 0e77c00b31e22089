import IndexedStore.Tree.Lifecycle
import IndexedStore.Proofs.Consistency
import IndexedStore.Proofs.Transactions

/-! # What opening a tree attaches

An index is found again by its name, its record, the extractor registered for it and its table; if
one of these is missing the index is left out. Opening a tree attaches every index that is on file
under one of the recorded names.
-/
namespace IndexedStore

namespace Index

/-- The index that a record stands for. -/
def ofRecord (name : String) (r : IndexRecord) (x : Extractor) : Index :=
  ⟨name, r.extractorId, x, r.userData, r.isUnique, r.isSparse, none⟩

/-- What a database keeps under a name suffices to attach the index. -/
def OnFile (d : Database) (tree name : String) (i : Index) : Prop :=
  Index.validName name = true ∧ (d.store.pairs? (indexTableName tree name)).isSome = true ∧
    ∃ r x, Catalog.read d.store tree name = .ok (some r) ∧
      d.registry.get? r.extractorId = some x ∧ i = ofRecord name r x

variable {d : Database} {tree name : String} {i j : Index}

theorem OnFile.name_eq (h : OnFile d tree name i) : i.name = name := by
  obtain ⟨-, -, r, x, -, -, rfl⟩ := h
  rfl

theorem OnFile.unique (hi : OnFile d tree name i) (hj : OnFile d tree name j) : i = j := by
  obtain ⟨-, -, r, x, hr, hx, rfl⟩ := hi
  obtain ⟨-, -, r', x', hr', hx', rfl⟩ := hj
  obtain rfl : r = r' := Option.some.inj (Except.ok.inj (hr.symm.trans hr'))
  obtain rfl : x = x' := Option.some.inj (hx.symm.trans hx')
  rfl

end Index

namespace Tree
variable {t t' : Tree} {d : Database} {i : Index} {name : String}

theorem onFile_of_loadIndex (h : t.loadIndex d name = .ok (some t')) :
    ∃ i free, Index.OnFile d t.name name i ∧ t' = t.attach i free := by
  unfold loadIndex at h
  cases hvalid : Index.validName name with
  | false => simp [hvalid, bind, Except.bind] at h
  | true =>
    simp only [hvalid, Bool.not_true, Bool.false_eq_true, if_false] at h
    split at h
    · cases h
    · rename_i free
      cases hread : Catalog.read d.store t.name name with
      | error e => simp [hread, bind, Except.bind] at h
      | ok r? =>
        simp only [hread, bind, Except.bind] at h
        cases r? with
        | none => cases h
        | some r =>
          simp only at h
          cases hx : d.registry.get? r.extractorId with
          | none => simp [hx] at h
          | some x =>
            cases hP : d.store.pairs? (indexTableName t.name name) with
            | none => simp [hx, hP] at h
            | some P =>
              simp only [hx, hP] at h
              cases h
              have hsome := Option.isSome_iff_exists.mpr ⟨P, hP⟩
              exact ⟨Index.ofRecord name r x, free, ⟨hvalid, hsome, r, x, hread, hx, rfl⟩, rfl⟩

theorem loadIndex_of_onFile (h : Index.OnFile d t.name name i) (free : t.hasIndex i.name = false) :
    t.loadIndex d name = .ok (some (t.attach i free)) := by
  obtain ⟨hvalid, hP, r, x, hread, hx, rfl⟩ := h
  unfold loadIndex
  simp only [hvalid, Bool.not_true, Bool.false_eq_true, if_false]
  split
  · rename_i held
    exact absurd (held.symm.trans free) (by decide)
  · simp only [hread, bind, Except.bind, hx]
    rw [Option.isNone_eq_false_iff.mpr hP]
    rfl

/-- The tree after one more of the recorded names has been tried. -/
def loadNext (d : Database) (t : Tree) (name : String) : Tree :=
  match t.loadIndex d name with
  | .ok (some t) => t
  | _ => t

theorem loadRecorded_eq (t : Tree) (d : Database) :
    t.loadRecorded d = (Catalog.names d.store t.name).foldl (loadNext d) t := rfl

@[simp] theorem name_loadNext (d : Database) (t : Tree) (n : String) :
    (loadNext d t n).name = t.name := by
  unfold loadNext
  split
  · rename_i h
    obtain ⟨i, free, -, rfl⟩ := onFile_of_loadIndex h
    rfl
  · rfl

theorem database_loadNext (d : Database) (t : Tree) (n : String) :
    (loadNext d t n).database = t.database := by
  unfold loadNext
  split
  · rename_i h
    obtain ⟨i, free, -, rfl⟩ := onFile_of_loadIndex h
    rfl
  · rfl

theorem mem_loadNext {n : String} :
    i ∈ (loadNext d t n).indexes ↔
      i ∈ t.indexes ∨ t.hasIndex n = false ∧ Index.OnFile d t.name n i := by
  unfold loadNext
  split
  · rename_i t' h
    obtain ⟨j, free, hj, rfl⟩ := onFile_of_loadIndex h
    have hfree : t.hasIndex n = false := hj.name_eq ▸ free
    change i ∈ t.indexes ++ [j] ↔ _
    rw [List.mem_append, List.mem_singleton]
    refine or_congr_right ⟨?_, fun hi => hi.2.unique hj⟩
    rintro rfl
    exact ⟨hfree, hj⟩
  · rename_i hnone
    refine ⟨.inl, fun hi => hi.resolve_right fun ⟨free, hi⟩ => ?_⟩
    rw [← hi.name_eq] at free
    exact hnone _ (loadIndex_of_onFile hi free)

theorem hasIndex_eq_true_iff : t.hasIndex name = true ↔ ∃ i ∈ t.indexes, i.name = name := by
  rw [← Bool.not_eq_false, hasIndex_eq_false_iff]
  simp

/-- Beyond what is attached already, what is on file under the names that are tried is attached. -/
theorem mem_foldl_loadNext {names : List String} :
    i ∈ (names.foldl (loadNext d) t).indexes ↔
      i ∈ t.indexes ∨ t.hasIndex i.name = false ∧ ∃ n ∈ names, Index.OnFile d t.name n i := by
  induction names generalizing t with
  | nil => simp
  | cons n rest ih =>
    rw [List.foldl_cons, ih, name_loadNext, mem_loadNext]
    constructor
    · rintro ((hi | ⟨free, hi⟩) | ⟨free, m, hm, hi⟩)
      · exact .inl hi
      · exact .inr ⟨hi.name_eq ▸ free, n, List.mem_cons_self, hi⟩
      · refine .inr ⟨hasIndex_eq_false_iff.mpr fun j hj => ?_, m, List.mem_cons_of_mem _ hm, hi⟩
        exact hasIndex_eq_false_iff.mp free j (mem_loadNext.mpr (.inl hj))
    · rintro (hi | ⟨free, m, hm, hi⟩)
      · exact .inl (.inl hi)
      · rcases List.mem_cons.mp hm with rfl | hm
        · exact .inl (.inr ⟨hi.name_eq ▸ free, hi⟩)
        -- what holds the name by now can only be the index itself
        · cases hheld : (loadNext d t n).hasIndex i.name with
          | false => exact .inr ⟨rfl, m, hm, hi⟩
          | true =>
            obtain ⟨j, hj, hname⟩ := hasIndex_eq_true_iff.mp hheld
            have hj' := mem_loadNext.mp hj
            rcases hj' with hj' | ⟨hfree, hj'⟩
            · exact absurd hname (hasIndex_eq_false_iff.mp free j hj')
            · obtain rfl : n = m := hj'.name_eq.symm.trans (hname.trans hi.name_eq)
              exact .inl (.inr ⟨hfree, hi⟩)

theorem name_loadRecorded (t : Tree) (d : Database) : (t.loadRecorded d).name = t.name := by
  rw [loadRecorded_eq]
  induction Catalog.names d.store t.name generalizing t with
  | nil => rfl
  | cons n rest ih => rw [List.foldl_cons, ih, name_loadNext]

theorem database_loadRecorded (t : Tree) (d : Database) :
    (t.loadRecorded d).database = t.database := by
  rw [loadRecorded_eq]
  induction Catalog.names d.store t.name generalizing t with
  | nil => rfl
  | cons n rest ih => rw [List.foldl_cons, ih, database_loadNext]

theorem loadRecorded_of_not_onFile (h : ∀ n i, ¬ Index.OnFile d t.name n i) :
    t.loadRecorded d = t := by
  have hnext : ∀ n, loadNext d t n = t := by
    intro n
    unfold loadNext
    split
    · rename_i hload
      obtain ⟨i, free, hi, -⟩ := onFile_of_loadIndex hload
      exact absurd hi (h n i)
    · rfl
  rw [loadRecorded_eq]
  induction Catalog.names d.store t.name with
  | nil => rfl
  | cons n rest ih => rw [List.foldl_cons, hnext, ih]

/-- A tree that is opened has the indexes that are on file, and no other. -/
theorem mem_loadRecorded_bare {path : String} :
    i ∈ ((Tree.bare path name).loadRecorded d).indexes ↔
      ∃ n ∈ Catalog.names d.store name, Index.OnFile d name n i := by
  rw [loadRecorded_eq, mem_foldl_loadNext]
  have hnone : i ∉ (Tree.bare path name).indexes := List.not_mem_nil
  have hfree : (Tree.bare path name).hasIndex i.name = false := rfl
  simp only [hnone, hfree, false_or, true_and]
  rfl

end Tree

/-- The store after a tree has been created, for which there was a free slot. -/
theorem Database.createTree_ok {allocated : Nat} {d d' : Database} {name : String}
    (fresh : d.store.table? name = none)
    (h : (Database.write allocated (d.createTree name)).run d = (.ok (), d')) :
    d'.store = d.store.putTable name .empty ∧ d.store.tableCount < d.maxTables := by
  obtain ⟨s, hstep, hstore⟩ := Database.store_of_write_ok h
  rw [Database.writer_on, Database.createTree, Attempt.run_bind_ok (Scope.run_writable ..)] at hstep
  simp only [fresh, Option.isNone_none, if_true] at hstep
  rw [Attempt.run_bind_eq_ok] at hstep
  obtain ⟨_, _, hslot, hstep⟩ := hstep
  obtain ⟨hfree, rfl⟩ := Attempt.run_ofExcept_eq_ok.mp hslot
  rw [Attempt.run_bind_eq_ok] at hstep
  obtain ⟨T, _, hopen, hstep⟩ := hstep
  obtain ⟨hT, rfl⟩ := Attempt.run_ofExcept_eq_ok.mp hopen
  obtain rfl := Store.openTable_eq_ok hT
  rw [Scope.run_putTable] at hstep
  cases hstep
  rw [hstore _ rfl, fresh]
  exact ⟨rfl, slot_of_requireSlot hfree⟩

/-- A tree that is there is opened without a change to the database. -/
theorem Database.run_openTree_of_hasTree {allocated : Nat} {d : Database} {name : String}
    {create : Bool} (named : checkTreeName name = .ok ()) (there : d.hasTree name = true) :
    (Database.openTree allocated name create).run d =
      (.ok ((Tree.bare d.path name).loadRecorded d), d) := by
  rw [Database.openTree, named]
  simp only [Attempt.run_bind, Attempt.run_ofExcept, Attempt.run_state, there]
  rfl

/-- An opened tree has what was on file attached, and was there or has been created. -/
theorem Database.run_openTree_ok {allocated : Nat} {d d' : Database} {name : String}
    {create : Bool} {t : Tree}
    (h : (Database.openTree allocated name create).run d = (.ok t, d')) :
    checkTreeName name = .ok () ∧ t = (Tree.bare d'.path name).loadRecorded d' ∧
      ((d.store.table? name).isSome = true ∧ d' = d ∨
        d.store.table? name = none ∧
          (Database.write allocated (d.createTree name)).run d = (.ok (), d')) := by
  cases hname : checkTreeName name with
  | error e =>
    rw [Database.openTree, hname] at h
    cases h
  | ok _ =>
    cases hthere : d.hasTree name with
    | true =>
      rw [run_openTree_of_hasTree hname hthere] at h
      cases h
      exact ⟨rfl, rfl, .inl ⟨hthere, rfl⟩⟩
    | false =>
      have fresh : d.store.table? name = none := by simpa [hasTree] using hthere
      rw [Database.openTree, hname, Attempt.run_bind_ok (Attempt.run_ofExcept ..),
        Attempt.run_bind_ok (Attempt.run_state d)] at h
      simp only [hthere, Bool.not_false, if_true] at h
      rw [Attempt.run_bind_eq_ok] at h
      obtain ⟨_, d₁, hrequire, h⟩ := h
      rw [Attempt.run_require] at hrequire
      obtain ⟨-, rfl⟩ := Prod.mk.inj hrequire
      rw [Attempt.run_bind_eq_ok] at h
      obtain ⟨_, d₂, hwrite, h⟩ := h
      rw [Attempt.run_bind_ok (Attempt.run_state d₂)] at h
      cases h
      exact ⟨rfl, rfl, .inr ⟨fresh, hwrite⟩⟩

/-- A tree that has been created is empty. -/
theorem Database.openTree_ok {allocated : Nat} {d d' : Database} {name : String}
    {create : Bool} {t : Tree}
    (h : (Database.openTree allocated name create).run d = (.ok t, d')) :
    checkTreeName name = .ok () ∧ t = (Tree.bare d'.path name).loadRecorded d' ∧
      ((d.store.table? name).isSome = true ∧ d' = d ∨
        d.store.table? name = none ∧ d'.store = d.store.putTable name .empty) := by
  obtain ⟨hname, ht, hsame | ⟨fresh, hwrite⟩⟩ := run_openTree_ok h
  · exact ⟨hname, ht, .inl hsame⟩
  · exact ⟨hname, ht, .inr ⟨fresh, (createTree_ok fresh hwrite).1⟩⟩

/-- A tree that is opened where nothing of its name is left starts bare and empty. -/
theorem Database.openTree_bare {allocated : Nat} {d d' : Database} {name : String}
    {create : Bool} {t : Tree}
    (fresh : d.store.table? name = none)
    (unused : ∀ n, d.store.pairs? (indexTableName name n) = none)
    (h : (Database.openTree allocated name create).run d = (.ok t, d')) :
    t = Tree.bare d'.path name ∧ d'.store = d.store.putTable name .empty := by
  obtain ⟨-, ht, ⟨hthere, -⟩ | ⟨-, hstore⟩⟩ := Database.openTree_ok h
  · rw [fresh] at hthere
    cases hthere
  · have hbare : ∀ n i, ¬ Index.OnFile d' name n i := by
      rintro n i ⟨-, hsome, -⟩
      rw [hstore, Store.pairs?_putTable, unused n] at hsome
      cases hsome
    rw [Tree.loadRecorded_of_not_onFile (t := Tree.bare d'.path name) hbare] at ht
    exact ⟨ht, hstore⟩

end IndexedStore
