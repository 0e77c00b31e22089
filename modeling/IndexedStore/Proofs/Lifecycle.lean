import IndexedStore.Proofs.Consistency
import IndexedStore.Proofs.Transactions

/-! # What adding, populating and dropping leave behind

A failed change of the indexes leaves both the store and the handle as they were. One that succeeds
replaces the table of the one index and otherwise touches nothing but the table of records.
-/
namespace IndexedStore

namespace Session
variable {α : Type} {step : Attempt Scope α} {σ : Session}

/-- What touches the entries in a transaction of its own touches the committed ones or nothing. -/
theorem touches_of_write (allocated : Nat) {t : Tree} (hstep : t.Touching step)
    (hS : t.Furnished σ.database.store) :
    t.Touches σ.database.store ((write allocated step).run σ).2.database.store := by
  cases hw : (write allocated step).run σ with
  | mk r σ' =>
    cases r with
    | error e =>
      rw [store_of_write_error hw]
    | ok a =>
      obtain ⟨s, hrun, hstore⟩ := store_of_write_ok hw
      obtain ⟨r, s', S', hrun', hto⟩ := hstep σ.writer σ.database.store hS
      obtain ⟨-, rfl⟩ := Prod.mk.inj (hrun.symm.trans hrun')
      rw [hstore S' rfl]
      exact hto.touches

end Session

namespace Catalog
variable {s s' : Scope} {S : Store} {tree index : String} {n : String}

/-- The store after the record of an index has been saved. -/
def saved (tree : String) (i : Index) (S : Store) : Store :=
  S.putTable recordTable
    (((S.table? recordTable).getD .empty).insert (key tree i.name) i.record.encode)

/-- The store after the record of an index has been removed, if there was one. -/
def removed (tree index : String) (S : Store) : Store :=
  match S.table? recordTable with
  | none => S
  | some R => S.putTable recordTable (R.erase (key tree index))

theorem table?_saved_ne (i : Index) (h : n ≠ recordTable) :
    (saved tree i S).table? n = S.table? n := Store.table?_putTable_ne _ _ h

@[simp] theorem pairs?_removed (tree index : String) (S : Store) (n : String) :
    (removed tree index S).pairs? n = S.pairs? n := by
  unfold removed
  cases S.table? recordTable <;> rfl

theorem table?_removed_ne (h : n ≠ recordTable) :
    (removed tree index S).table? n = S.table? n := by
  unfold removed
  cases S.table? recordTable with
  | none => rfl
  | some R => exact Store.table?_putTable_ne _ _ h

theorem run_save_ok {i : Index} (h : (save tree i).run (s.on S) = (.ok (), s')) :
    s' = s.on (saved tree i S) := by
  rw [save, Attempt.run_bind_ok (Scope.run_writable s S), Attempt.run_bind_eq_ok] at h
  obtain ⟨T, s₁, hopen, h⟩ := h
  obtain ⟨hT, rfl⟩ := Attempt.run_ofExcept_eq_ok.mp hopen
  obtain rfl := Store.openTable_eq_ok hT
  rw [Scope.run_putTable] at h
  cases h
  rfl

theorem run_remove (tree index : String) (s : Scope) (S : Store) :
    (remove tree index).run (s.on S) = (.ok (), s.on (removed tree index S)) := by
  rw [remove, Attempt.run_bind_ok (Scope.run_writable s S), removed]
  cases S.table? recordTable <;> rfl

end Catalog

namespace Tree
variable {t t' : Tree} {s s' : Scope} {S : Store} {d d' : Database} {i : Index} {name : String}
  {allocated : Nat}

/-- The store after an index has been added. A table of its name that is already there stays. -/
def created (t : Tree) (i : Index) (S : Store) : Store :=
  Catalog.saved t.name i (S.putPairs (t.indexTable i) (t.pairsOf S i))

/-- The store after an index has been dropped. -/
def dropped (t : Tree) (name : String) (S : Store) : Store :=
  Catalog.removed t.name name { S with paired := S.paired.erase (indexTableName t.name name) }

theorem refitted_putPairs (t : Tree) (i : Index) (P : PairTable) (S : Store) :
    t.Refitted i.name (some P) S (S.putPairs (t.indexTable i) P) :=
  ⟨Store.pairs?_putPairs_self .., fun _ hm => Store.pairs?_putPairs_ne _ _ hm, fun _ _ => rfl⟩

theorem refitted_created (t : Tree) (i : Index) (S : Store) :
    t.Refitted i.name (some (t.pairsOf S i)) S (t.created i S) := by
  have h := refitted_putPairs t i (t.pairsOf S i) S
  exact ⟨h.self, h.paired, fun m hm => (Catalog.table?_saved_ne i hm).trans (h.plain m hm)⟩

theorem refitted_dropped (t : Tree) (name : String) (S : Store) :
    t.Refitted name none S (t.dropped name S) := by
  refine ⟨?_, fun m hm => ?_, fun m hm => Catalog.table?_removed_ne hm⟩
  · rw [dropped, Catalog.pairs?_removed]
    exact OrderedMap.get?_erase_self ..
  · rw [dropped, Catalog.pairs?_removed]
    exact OrderedMap.get?_erase_ne _ hm

/-- The table of a new index comes first and its record after it. What has to be created for them
has found a free slot. -/
theorem run_createIndex_ok (h : (t.createIndex d i).run (s.on S) = (.ok (), s')) :
    s' = s.on (t.created i S) ∧
      (S.pairs? (t.indexTable i) = none → S.tableCount < d.maxTables) ∧
      (S.table? recordTable = none →
        (S.putPairs (t.indexTable i) (t.pairsOf S i)).tableCount < d.maxTables) := by
  have hsave : ∀ {s₁ : Scope}, s₁ = s.on (S.putPairs (t.indexTable i) (t.pairsOf S i)) →
      (do let store ← Scope.writable
          if (store.table? recordTable).isNone then .ofExcept (d.requireSlot store)
          Catalog.save t.name i : Attempt Scope Unit).run s₁ = (.ok (), s') →
      s' = s.on (t.created i S) ∧ (S.table? recordTable = none →
        (S.putPairs (t.indexTable i) (t.pairsOf S i)).tableCount < d.maxTables) := by
    rintro _ rfl hs
    rw [Attempt.run_bind_ok (Scope.run_writable s _)] at hs
    split at hs
    · rw [Attempt.run_bind_eq_ok] at hs
      obtain ⟨_, _, hslot, hs⟩ := hs
      obtain ⟨hfree, rfl⟩ := Attempt.run_ofExcept_eq_ok.mp hslot
      exact ⟨Catalog.run_save_ok hs, fun _ => Database.slot_of_requireSlot hfree⟩
    · rename_i hthere
      refine ⟨Catalog.run_save_ok hs, fun hnone => absurd ?_ hthere⟩
      rw [Store.table?_putPairs, hnone]
      rfl
  unfold createIndex at h
  rw [Attempt.run_bind_ok (Scope.run_writable s S)] at h
  split at h
  · rw [Attempt.run_bind_eq_ok] at h
    obtain ⟨_, _, hslot, h⟩ := h
    obtain ⟨hfree, rfl⟩ := Attempt.run_ofExcept_eq_ok.mp hslot
    rw [Attempt.run_bind_eq_ok] at h
    obtain ⟨_, s₁, hopen, h⟩ := h
    have hput : s₁ = s.on (S.putPairs (t.indexTable i) (t.pairsOf S i)) := by
      rw [Attempt.run_discard, Scope.run_openPairsToWrite] at hopen
      cases hP : S.openPairs (t.indexTable i) with
      | error e =>
        simp only [hP] at hopen
        cases hopen
      | ok P =>
        obtain rfl : P = t.pairsOf S i := Store.openPairs_eq_ok hP
        simp only [hP] at hopen
        cases hopen
        rfl
    obtain ⟨hs', hrecord⟩ := hsave hput h
    exact ⟨hs', fun _ => Database.slot_of_requireSlot hfree, hrecord⟩
  · rename_i hthere
    have hsome : S.pairs? (t.indexTable i) ≠ none := by simpa using hthere
    obtain ⟨P, hP⟩ := Option.ne_none_iff_exists'.mp hsome
    have hput : s.on S = s.on (S.putPairs (t.indexTable i) (t.pairsOf S i)) := by
      rw [pairsOf_of_pairs? hP, Store.putPairs_pairs? hP]
    obtain ⟨hs', hrecord⟩ := hsave hput h
    exact ⟨hs', fun hnone => absurd hnone hsome, hrecord⟩

theorem createIndex_ok (h : (Database.write allocated (t.createIndex d i)).run d = (.ok (), d')) :
    d'.store = t.created i d.store ∧
      (d.store.pairs? (t.indexTable i) = none → d.store.tableCount < d.maxTables) ∧
      (d.store.table? recordTable = none →
        (d.store.putPairs (t.indexTable i) (t.pairsOf d.store i)).tableCount < d.maxTables) := by
  obtain ⟨s, hstep, hstore⟩ := Database.store_of_write_ok h
  rw [Database.writer_on] at hstep
  obtain ⟨rfl, hslots⟩ := run_createIndex_ok hstep
  exact ⟨hstore _ rfl, hslots⟩

/-- An index is added by one transaction that creates it, and attached under its free name. -/
theorem run_addIndex_ok {c : IndexConfig} (h : (t.addIndex allocated c).run d = (.ok t', d')) :
    ∃ i free, t' = t.attach i free ∧ i.name = c.name ∧ i.userData = c.userData ∧
      Index.validName c.name = true ∧
      (Database.write allocated (t.createIndex d i)).run d = (.ok (), d') := by
  rw [addIndex, Attempt.run_bind_eq_ok] at h
  obtain ⟨_, d₁, hvalid, h⟩ := h
  rw [Attempt.run_require] at hvalid
  obtain ⟨hanswer, rfl⟩ := Prod.mk.inj hvalid
  split at h
  · cases h
  · rename_i free
    rw [Attempt.run_bind_ok (Attempt.run_state d)] at h
    simp only at h
    cases hx : d.registry.get? (extractorId d.version c.flags) with
    | none => simp [hx] at h
    | some extractor =>
      simp only [hx] at h
      rw [Attempt.run_bind_eq_ok] at h
      obtain ⟨_, d₂, hwrite, h⟩ := h
      cases h
      refine ⟨_, free, rfl, rfl, rfl, ?_, hwrite⟩
      split at hanswer
      · assumption
      · cases hanswer

/-- The table of an added index keeps the pairs it had before. -/
theorem addIndex_ok {c : IndexConfig} (h : (t.addIndex allocated c).run d = (.ok t', d')) :
    ∃ i free, t' = t.attach i free ∧ i.name = c.name ∧ i.userData = c.userData ∧
      Index.validName c.name = true ∧ d'.store = t.created i d.store := by
  obtain ⟨i, free, ht', hname, hdata, hvalid, hwrite⟩ := run_addIndex_ok h
  exact ⟨i, free, ht', hname, hdata, hvalid, (createIndex_ok hwrite).1⟩

/-- Beginning with what a name stands for, a failed change of the indexes changes nothing. -/
theorem store_of_addIndex_error {c : IndexConfig} {e : Failure}
    (h : (t.addIndex allocated c).run d = (.error e, d')) : d'.store = d.store := by
  rw [addIndex, Attempt.run_bind, Attempt.run_require] at h
  cases hv : Index.validName c.name with
  | false =>
    simp only [hv] at h
    cases h
    rfl
  | true =>
    simp only [hv, if_true] at h
    split at h
    · cases h
      rfl
    · rw [Attempt.run_bind_ok (Attempt.run_state d)] at h
      cases hx : d.registry.get? (extractorId d.version c.flags) with
      | none =>
        simp only [hx] at h
        cases h
        rfl
      | some extractor =>
        simp only [hx] at h
        rw [Attempt.run_bind] at h
        split at h
        · cases h
        · rename_i hw
          cases h
          exact Database.store_of_write_error hw

theorem index?_eq_some (h : t.index? name = some i) : i ∈ t.indexes ∧ i.name = name := by
  refine ⟨List.mem_of_find?_eq_some h, ?_⟩
  simpa using List.find?_some h

theorem index?_of_mem (hi : i ∈ t.indexes) : t.index? i.name = some i := by
  have hsome : (t.index? i.name).isSome := List.find?_isSome.mpr ⟨i, hi, beq_self_eq_true _⟩
  obtain ⟨j, hj⟩ := Option.isSome_iff_exists.mp hsome
  obtain ⟨hmem, hname⟩ := index?_eq_some hj
  rwa [List.inj_on_of_nodup_map t.distinct hmem hi hname] at hj

theorem attached_eq_ok_iff : t.attached name = .ok i ↔ t.index? name = some i := by
  unfold attached
  cases t.index? name <;> simp

/-- Populating adds the pairs of the entries to those that the table of the index has. -/
theorem populate_ok (h : (t.populate allocated name).run d = (.ok (), d')) :
    ∃ i T P', t.index? name = some i ∧ d.store.table? t.name = some T ∧
      i.populated T.toList (t.pairsOf d.store i) = .ok P' ∧
      d'.store = d.store.putPairs (t.indexTable i) P' := by
  rw [populate, Attempt.run_bind_eq_ok] at h
  obtain ⟨i, _, hfind, h⟩ := h
  obtain ⟨hi, rfl⟩ := Attempt.run_ofExcept_eq_ok.mp hfind
  obtain ⟨s, hstep, hstore⟩ := Database.store_of_write_ok h
  rw [Database.writer_on, Attempt.run_bind, Scope.run_openTable] at hstep
  cases hT : d.store.table? t.name with
  | none => simp [hT] at hstep
  | some T =>
    simp only [hT] at hstep
    rw [Attempt.run_bind, Scope.run_openPairsToWrite] at hstep
    cases hP : d.store.openPairs (t.indexTable i) with
    | error e => simp [hP] at hstep
    | ok P =>
      obtain rfl : P = t.pairsOf d.store i := Store.openPairs_eq_ok hP
      simp only [hP] at hstep
      rw [Attempt.run_bind_eq_ok] at hstep
      obtain ⟨P', _, hrun, hstep⟩ := hstep
      obtain ⟨hpop, rfl⟩ := Attempt.run_ofExcept_eq_ok.mp hrun
      rw [Scope.run_putPairs, Store.putPairs_putPairs] at hstep
      cases hstep
      exact ⟨i, T, P', attached_eq_ok_iff.mp hi, rfl, hpop, hstore _ rfl⟩

theorem store_of_populate_error {e : Failure}
    (h : (t.populate allocated name).run d = (.error e, d')) : d'.store = d.store := by
  rw [populate, Attempt.run_bind, Attempt.run_ofExcept] at h
  cases hi : t.attached name with
  | error e =>
    simp only [hi] at h
    cases h
    rfl
  | ok i =>
    simp only [hi] at h
    exact Database.store_of_write_error h

/-- A dropped index is detached, and its table and its record are gone. -/
theorem dropIndex_ok (h : (t.dropIndex allocated name).run d = (.ok t', d')) :
    t' = t.detach name ∧ d'.store = t.dropped name d.store := by
  rw [dropIndex, Attempt.run_bind_eq_ok] at h
  obtain ⟨i, _, hfind, h⟩ := h
  obtain ⟨hi, rfl⟩ := Attempt.run_ofExcept_eq_ok.mp hfind
  obtain ⟨-, rfl⟩ := index?_eq_some (attached_eq_ok_iff.mp hi)
  rw [Attempt.run_bind_eq_ok] at h
  obtain ⟨_, d₁, hwrite, h⟩ := h
  cases h
  obtain ⟨s, hstep, hstore⟩ := Database.store_of_write_ok hwrite
  rw [Database.writer_on, Attempt.run_bind_ok (Scope.run_writable ..),
    Attempt.run_bind_eq_ok] at hstep
  obtain ⟨S₁, _, hdropped, hstep⟩ := hstep
  obtain ⟨hdrop, rfl⟩ := Attempt.run_ofExcept_eq_ok.mp hdropped
  rw [Attempt.run_bind_ok (Scope.run_put ..), Catalog.run_remove] at hstep
  cases hstep
  refine ⟨rfl, (hstore _ rfl).trans ?_⟩
  unfold Store.dropPairs at hdrop
  split at hdrop
  · cases hdrop
  · cases hdrop
    rfl

theorem store_of_dropIndex_error {e : Failure}
    (h : (t.dropIndex allocated name).run d = (.error e, d')) : d'.store = d.store := by
  rw [dropIndex, Attempt.run_bind, Attempt.run_ofExcept] at h
  cases hi : t.attached name with
  | error e =>
    simp only [hi] at h
    cases h
    rfl
  | ok i =>
    simp only [hi] at h
    rw [Attempt.run_bind] at h
    split at h
    · cases h
    · rename_i hw
      cases h
      exact Database.store_of_write_error hw

theorem setIndexCompare_ok {c : Comparator} (h : t.setIndexCompare name c = .ok t') :
    t'.name = t.name ∧ t'.database = t.database ∧ t'.indexNames = t.indexNames := by
  unfold setIndexCompare at h
  cases hfind : t.attached name with
  | error e =>
    simp only [hfind, bind, Except.bind] at h
    cases h
  | ok i =>
    simp only [hfind, bind, Except.bind] at h
    cases h
    refine ⟨rfl, rfl, ?_⟩
    change (t.indexes.map _).map Index.name = t.indexes.map Index.name
    rw [List.map_map]
    exact List.map_congr_left fun i _ => Index.comparing_name name c i

end Tree
end IndexedStore
