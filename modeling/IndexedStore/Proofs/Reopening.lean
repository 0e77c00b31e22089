import IndexedStore.Proofs.Catalog
import IndexedStore.Proofs.Lifetime
import IndexedStore.Proofs.Verification

/-! # What a tree is when it is opened again

While a tree is written through a handle, every index attached to it stays on file: its table is
there, and so is a record that the index can be made from again. When the tree is next opened with
the same extractors each of them is attached again. All that is not kept is a comparator, which
belongs to the handle, and data of no bytes, which is read back as none.
-/
namespace IndexedStore

namespace Index

/-- The index as it is made from its record. -/
def reopened (i : Index) : Index :=
  { i with userData := IndexRecord.storedData i.userData, compare? := none }

/-- The index has its table, and a record that it can be made from. -/
def Filed (S : Store) (tree : String) (i : Index) : Prop :=
  validName i.name = true ∧ (S.pairs? (indexTableName tree i.name)).isSome = true ∧
    ∃ r, Catalog.read S tree i.name = .ok (some r) ∧ ofRecord i.name r i.extractor = i.reopened

/-- Loading an index of that name finds the same in both stores. -/
def SameFile (S S' : Store) (tree name : String) : Prop :=
  Catalog.read S' tree name = Catalog.read S tree name ∧
    (S'.pairs? (indexTableName tree name)).isSome = (S.pairs? (indexTableName tree name)).isSome

/-- In the database there was nothing to load under that name, and what there was has stayed. -/
def PassedOver (d : Database) (S : Store) (tree name : String) : Prop :=
  (∀ i, ¬ OnFile d tree name i) ∧ SameFile d.store S tree name

variable {S S' S'' : Store} {tree name : String} {i : Index} {d d' : Database}

theorem SameFile.trans (h : SameFile S S' tree name) (h' : SameFile S' S'' tree name) :
    SameFile S S'' tree name := ⟨h'.1.trans h.1, h'.2.trans h.2⟩

theorem PassedOver.congr (h : PassedOver d S tree name) (same : SameFile S S' tree name) :
    PassedOver d S' tree name := ⟨h.1, h.2.trans same⟩

/-- It is passed over again as long as no more extractors are registered. -/
theorem PassedOver.not_onFile (h : PassedOver d d'.store tree name)
    (known : ∀ id, d.registry.get? id = none → d'.registry.get? id = none) :
    ¬ OnFile d' tree name i := by
  rintro ⟨hvalid, hP, r, x, hread, hx, -⟩
  obtain ⟨hnone, hrecord, hpairs⟩ := h
  cases hfirst : d.registry.get? r.extractorId with
  | none =>
    rw [known _ hfirst] at hx
    cases hx
  | some y =>
    have honfile : OnFile d tree name (ofRecord name r y) :=
      ⟨hvalid, hpairs.symm.trans hP, r, y, hrecord.symm.trans hread, hfirst, rfl⟩
    exact hnone _ honfile

theorem Filed.onFile (h : i.Filed d.store tree)
    (registered : d.registry.get? i.extractorId = some i.extractor) :
    OnFile d tree i.name i.reopened := by
  obtain ⟨hvalid, hP, r, hread, hr⟩ := h
  have hid : r.extractorId = i.extractorId := congrArg Index.extractorId hr
  exact ⟨hvalid, hP, r, i.extractor, hread, hid ▸ registered, hr.symm⟩

theorem Filed.congr (h : i.Filed S tree) (same : SameFile S S' tree i.name) :
    i.Filed S' tree := by
  obtain ⟨hvalid, hP, r, hr, hi⟩ := h
  exact ⟨hvalid, same.2.trans hP, r, same.1.trans hr, hi⟩

theorem indexFlags_unique (unique sparse : Bool) :
    (indexFlags unique sparse &&& uniqueFlag != 0) = unique := by
  cases unique <;> cases sparse <;> decide

theorem indexFlags_sparse (unique sparse : Bool) :
    (indexFlags unique sparse &&& sparseFlag != 0) = sparse := by
  cases unique <;> cases sparse <;> decide

theorem ofRecord_record (i : Index) :
    ofRecord i.name { i.record with userData := IndexRecord.storedData i.userData } i.extractor =
      i.reopened := by
  simp only [ofRecord, IndexRecord.isUnique, IndexRecord.isSparse, record, reopened,
    indexFlags_unique, indexFlags_sparse]

/-- An index that was attached from its record is on file as it is. -/
theorem OnFile.filed (h : OnFile d tree name i) : i.Filed d.store tree := by
  obtain ⟨hvalid, hP, r, x, hread, -, rfl⟩ := h
  refine ⟨hvalid, hP, r, hread, ?_⟩
  have hdata : IndexRecord.storedData r.userData = r.userData :=
    IndexRecord.storedData_eq_self (Catalog.userData_of_read hread)
  rw [reopened]
  simp only [ofRecord, hdata]

theorem reopened_extract (h : i.userData ≠ some []) (value : Bytes) :
    i.reopened.extract value = i.extract value := by
  rw [extract, reopened, IndexRecord.storedData_eq_self h]
  rfl

theorem exact_reopened_iff {T : Table} {P : PairTable} (h : i.userData ≠ some []) :
    i.reopened.Exact T P ↔ i.Exact T P := by
  simp only [Exact, Derives, reopened_extract h]

end Index

namespace Tree
variable {t : Tree} {d : Database} {S S' : Store} {i : Index} {name : String}

/-- Every attached index is on file. Under other names there is nothing on record, or what was
passed over in the database that the tree was opened in. -/
structure Filed (t : Tree) (d : Database) (S : Store) : Prop where
  table : (S.table? t.name).isSome = true
  indexes : ∀ i ∈ t.indexes, i.Filed S t.name
  others : ∀ n, t.hasIndex n = false →
    Catalog.read S t.name n = .ok none ∨ Index.PassedOver d S t.name n

theorem Filed.furnished (h : t.Filed d S) : t.Furnished S := fun i hi => (h.indexes i hi).2.1

theorem Filed.congr (h : t.Filed d S) (table : (S'.table? t.name).isSome = true)
    (same : ∀ n, Index.SameFile S S' t.name n) : t.Filed d S' := by
  refine ⟨table, fun i hi => (h.indexes i hi).congr (same i.name), fun n hn => ?_⟩
  rcases h.others n hn with hnone | hpassed
  · exact .inl ((same n).1.trans hnone)
  · exact .inr (hpassed.congr (same n))

theorem sameFile_touch (named : t.name ≠ recordTable) (hS : t.Furnished S) (hto : t.Touch S S')
    (n : String) : Index.SameFile S S' t.name n := by
  have hrecords : S'.table? recordTable = S.table? recordTable := by
    cases hto with
    | write => exact table?_afterWrite_ne named.symm
    | removal => exact table?_afterRemoval_ne named.symm
  refine ⟨Catalog.read_congr hrecords, ?_⟩
  -- only the tables of attached indexes are written, and those are there before and after
  cases hheld : t.hasIndex n with
  | true =>
    obtain ⟨i, hi, rfl⟩ := hasIndex_eq_true_iff.mp hheld
    exact (hto.furnished i hi).trans (hS i hi).symm
  | false =>
    have hne : ∀ i ∈ t.indexes, indexTableName t.name n ≠ t.indexTable i := fun i hi =>
      indexTableName_ne_indexTable hheld hi
    cases hto with
    | write => rw [pairs?_afterWrite_ne hne]
    | removal => rw [pairs?_afterRemoval_ne hne]

theorem Filed.touch (named : t.name ≠ recordTable) (h : t.Filed d S) (hto : t.Touch S S') :
    t.Filed d S' := by
  refine h.congr ?_ (sameFile_touch named h.furnished hto)
  cases hto with
  | write => rw [table?_afterWrite, Option.isSome_some]
  | removal => rw [table?_afterRemoval, Option.isSome_some]

theorem Filed.touches (named : t.name ≠ recordTable) (h : t.Filed d S) (hto : t.Touches S S') :
    t.Filed d S' := by
  induction hto with
  | refl => exact h
  | tail _ hto ih => exact ih.touch named hto

theorem sameFile_created {n : String} (h : n ≠ i.name) :
    Index.SameFile S (t.created i S) t.name n := by
  refine ⟨?_, congrArg Option.isSome ((refitted_created t i S).pairs?_ne h)⟩
  rw [created, Catalog.read_saved_ne h]
  exact Catalog.read_congr rfl

theorem sameFile_dropped {n : String} (h : n ≠ name) :
    Index.SameFile S (t.dropped name S) t.name n := by
  refine ⟨?_, congrArg Option.isSome ((refitted_dropped t name S).pairs?_ne h)⟩
  rw [dropped, Catalog.read_removed_ne h]
  exact Catalog.read_congr rfl

theorem sameFile_putPairs (hP : (S.pairs? (t.indexTable i)).isSome = true) (P : PairTable)
    (n : String) : Index.SameFile S (S.putPairs (t.indexTable i) P) t.name n := by
  refine ⟨Catalog.read_congr rfl, ?_⟩
  by_cases heq : indexTableName t.name n = t.indexTable i
  · rw [heq, Store.pairs?_putPairs_self, hP, Option.isSome_some]
  · rw [Store.pairs?_putPairs_ne _ _ heq]

theorem Filed.attach (named : t.name ≠ recordTable) (h : t.Filed d S)
    (valid : Index.validName i.name = true) (fits : IndexRecord.Fits i.userData)
    (free : t.hasIndex i.name = false) : (t.attach i free).Filed d (t.created i S) := by
  have hrefit := refitted_created t i S
  refine ⟨?_, fun j hj => ?_, fun n hn => ?_⟩
  · change ((t.created i S).table? t.name).isSome = true
    rw [hrefit.plain _ named]
    exact h.table
  -- names of attached indexes differ, so the new record takes no other one's place
  · rcases List.mem_append.mp hj with hj | hj
    · exact (h.indexes j hj).congr (sameFile_created (name_ne_of_hasIndex free hj))
    · obtain rfl : j = i := List.mem_singleton.mp hj
      refine ⟨valid, ?_, _, Catalog.read_saved_self fits, Index.ofRecord_record j⟩
      exact Option.isSome_iff_exists.mpr ⟨_, hrefit.self⟩
  · rw [hasIndex_eq_false_iff] at hn
    have hne : n ≠ i.name := (hn i (List.mem_append_right _ (List.mem_singleton_self i))).symm
    have hfree : t.hasIndex n = false :=
      hasIndex_eq_false_iff.mpr fun j hj => hn j (List.mem_append_left _ hj)
    have hsame : Index.SameFile S (t.created i S) t.name n := sameFile_created hne
    exact (h.others n hfree).imp hsame.1.trans fun hpassed => hpassed.congr hsame

/-- A dropped index is taken off file, and no other is. -/
theorem Filed.detach (named : t.name ≠ recordTable) (h : t.Filed d S) (name : String) :
    (t.detach name).Filed d (t.dropped name S) := by
  refine ⟨?_, fun j hj => ?_, fun n hn => ?_⟩
  · change ((t.dropped name S).table? t.name).isSome = true
    rw [(refitted_dropped t name S).plain _ named]
    exact h.table
  · obtain ⟨hj, hne⟩ := List.mem_filter.mp hj
    exact (h.indexes j hj).congr (sameFile_dropped (by simpa using hne))
  · by_cases hname : n = name
    · rw [hname]
      exact .inl (Catalog.read_removed_self ..)
    · have hfree : t.hasIndex n = false := by
        refine hasIndex_eq_false_iff.mpr fun j hj hjn => ?_
        refine hasIndex_eq_false_iff.mp hn j (List.mem_filter.mpr ⟨hj, ?_⟩) hjn
        simpa [hjn] using hname
      have hsame : Index.SameFile S (t.dropped name S) t.name n := sameFile_dropped hname
      exact (h.others n hfree).imp hsame.1.trans fun hpassed => hpassed.congr hsame

theorem filed_of_openTree {allocated : Nat} {d d' : Database} {create : Bool}
    (h : (Database.openTree allocated name create).run d = (.ok t, d')) :
    checkTreeName t.name = .ok () ∧ t.Filed d' d'.store := by
  obtain ⟨hname, ht, hstore⟩ := Database.openTree_ok h
  have htree : t.name = name := ht ▸ name_loadRecorded ..
  have hmem : ∀ i, i ∈ t.indexes ↔ ∃ n ∈ Catalog.names d'.store name, Index.OnFile d' name n i := by
    intro i
    rw [ht]
    exact mem_loadRecorded_bare
  rw [htree]
  refine ⟨hname, ?_, fun i hi => ?_, fun n hn => .inr ⟨fun i hi => ?_, rfl, rfl⟩⟩
  · rw [htree]
    rcases hstore with ⟨hthere, rfl⟩ | ⟨-, hcreated⟩
    · exact hthere
    · rw [hcreated, Store.table?_putTable_self, Option.isSome_some]
  · obtain ⟨n, -, hi⟩ := (hmem i).mp hi
    rw [htree]
    exact hi.filed
  -- what is on file has been attached
  · rw [htree] at hi
    have hrecorded : n ∈ Catalog.names d'.store name := by
      obtain ⟨-, -, r, x, hread, -⟩ := hi
      refine Catalog.mem_names ?_
      rw [hread]
      simp
    exact hasIndex_eq_false_iff.mp hn i ((hmem i).mpr ⟨n, hrecorded, hi⟩) hi.name_eq

end Tree

/-! ## While a handle is in use -/

/-- A call that hands an index no more data than a record has room for. -/
def Call.Fits : Call → Prop
  | .addIndex c => IndexRecord.Fits c.userData
  | _ => True

namespace Site

/-- What can happen next: a call through the handle, or a change by others that leaves the tables
and the records of the tree alone. -/
inductive Tending : Site → Site → Prop
  | call (w : Site) (allocated : Nat) (c : Call) (fits : c.Fits) :
    Tending w (w.perform allocated c)
  | elsewhere (w : Site) {d : Database} (same : w.tree.SameWithin w.session.database.store d.store)
    (filed : ∀ n, Catalog.read d.store w.tree.name n =
      Catalog.read w.session.database.store w.tree.name n) : Tending w (w.withDatabase d)

/-- The indexes of the tree are on file in the committed store and within an open transaction. -/
structure Filed (d : Database) (w : Site) : Prop extends Everywhere (w.tree.Filed d) w where
  named : checkTreeName w.tree.name = .ok ()

variable {allocated : Nat} {d : Database} {w w' : Site}

theorem Filed.refused {d' : Database} (h : w.Filed d)
    (hd : d'.store = w.session.database.store) : (w.withDatabase d').Filed d :=
  ⟨⟨hd ▸ h.committed, h.opened⟩, h.named⟩

theorem Filed.same_handle (h : w.Filed d) {c : Call} (hc : c.KeepsHandle) :
    (w.perform allocated c).Filed d := by
  have named := Tree.name_ne_of_checkTreeName h.named
  have hall : (w.perform allocated c).Everywhere (w.tree.Filed d) :=
    h.toEverywhere.perform (fun _ hS => hS.furnished) (fun _ _ hS => hS.touches named) hc
  obtain ⟨htree, -⟩ := w.handle_perform allocated hc
  refine ⟨?_, ?_⟩
  · rw [htree]
    exact hall
  · rw [htree]
    exact h.named

theorem Filed.addIndex (h : w.Filed d) {c : IndexConfig} (fits : IndexRecord.Fits c.userData) :
    (w.perform allocated (.addIndex c)).Filed d := by
  obtain ⟨d', hd, he⟩ | ⟨hx, i, free, d', hname, hdata, hvalid, hstore, he⟩ :=
    w.perform_addIndex_cases allocated c
  · exact he ▸ h.refused hd
  · have named := Tree.name_ne_of_checkTreeName h.named
    have hfiled := h.committed.attach named (hname ▸ hvalid) (hdata ▸ fits) free
    rw [← hstore] at hfiled
    rw [he]
    exact ⟨everywhere_of_closed hx hfiled, h.named⟩

theorem Filed.populate (h : w.Filed d) (name : String) :
    (w.perform allocated (.populate name)).Filed d := by
  obtain ⟨d', hd, he⟩ | ⟨hx, i, T, P, d', hi, -, -, hstore, he⟩ :=
    w.perform_populate_cases allocated name
  · exact he ▸ h.refused hd
  · have hP := h.committed.furnished i (Tree.index?_eq_some hi).1
    have hfiled : w.tree.Filed d d'.store := by
      rw [hstore]
      exact h.committed.congr h.committed.table (Tree.sameFile_putPairs hP P)
    rw [he]
    exact ⟨everywhere_of_closed hx hfiled, h.named⟩

theorem Filed.dropIndex (h : w.Filed d) (name : String) :
    (w.perform allocated (.dropIndex name)).Filed d := by
  obtain ⟨d', hd, he⟩ | ⟨hx, d', hstore, he⟩ := w.perform_dropIndex_cases allocated name
  · exact he ▸ h.refused hd
  · have hfiled := h.committed.detach (Tree.name_ne_of_checkTreeName h.named) name
    rw [← hstore] at hfiled
    rw [he]
    exact ⟨everywhere_of_closed hx hfiled, h.named⟩

theorem Filed.step (h : w.Filed d) (hstep : Tending w w') : w'.Filed d := by
  cases hstep with
  | call allocated c fits =>
    cases c with
    | entry c => exact h.same_handle (.inl ⟨c, rfl⟩)
    | begin => exact h.same_handle (.inr (.inl rfl))
    | commit => exact h.same_handle (.inr (.inr (.inl rfl)))
    | abort => exact h.same_handle (.inr (.inr (.inr rfl)))
    | addIndex c => exact h.addIndex fits
    | populate name => exact h.populate name
    | dropIndex name => exact h.dropIndex name
    | setMerge m =>
      exact ⟨⟨⟨h.committed.1, h.committed.2, h.committed.3⟩, fun x hx =>
        (h.opened x hx).imp fun S hS => ⟨hS.1, ⟨hS.2.1, hS.2.2, hS.2.3⟩⟩⟩, h.named⟩
    | setCompare c =>
      exact ⟨⟨⟨h.committed.1, h.committed.2, h.committed.3⟩, fun x hx =>
        (h.opened x hx).imp fun S hS => ⟨hS.1, ⟨hS.2.1, hS.2.2, hS.2.3⟩⟩⟩, h.named⟩
  | elsewhere same filed =>
    refine ⟨⟨h.committed.congr ?_ fun n => ⟨filed n, ?_⟩, h.opened⟩, h.named⟩
    · exact (congrArg Option.isSome same.1).trans h.committed.table
    · exact congrArg Option.isSome (same.2 n)

theorem Filed.run (h : w.Filed d) (hrun : Relation.ReflTransGen Tending w w') :
    w'.Filed d := by
  induction hrun with
  | refl => exact h
  | tail _ hstep ih => exact ih.step hstep

/-! ## Opening the tree again -/

section
variable {d' : Database} (h : w.Filed d) (stored : d'.store = w.session.database.store)
  (registered : ∀ i ∈ w.tree.indexes, d'.registry.get? i.extractorId = some i.extractor)
include h stored registered

theorem Filed.onFile {i : Index} (hi : i ∈ w.tree.indexes) :
    Index.OnFile d' w.tree.name i.name i.reopened :=
  (stored ▸ h.committed.indexes i hi).onFile (registered i hi)

theorem Filed.reopened_mem {i : Index} (hi : i ∈ w.tree.indexes) :
    i.reopened ∈ ((Tree.bare d'.path w.tree.name).loadRecorded d').indexes := by
  have hfile := h.onFile stored registered hi
  refine Tree.mem_loadRecorded_bare.mpr ⟨i.name, Catalog.mem_names ?_, hfile⟩
  obtain ⟨-, -, r, x, hread, -, -⟩ := hfile
  rw [hread]
  simp

/-- No other index is attached, as long as no more extractors are registered. -/
theorem Filed.eq_reopened (known : ∀ id, d.registry.get? id = none → d'.registry.get? id = none)
    {j : Index} (hj : j ∈ ((Tree.bare d'.path w.tree.name).loadRecorded d').indexes) :
    ∃ i ∈ w.tree.indexes, j = i.reopened := by
  obtain ⟨n, -, hj⟩ := Tree.mem_loadRecorded_bare.mp hj
  have hheld : w.tree.hasIndex n = true := by
    by_contra hfree
    rcases stored ▸ h.committed.others n (Bool.eq_false_iff.mpr hfree) with hnone | hpassed
    · obtain ⟨-, -, r, x, hread, -, -⟩ := hj
      rw [hnone] at hread
      cases hread
    · exact hpassed.not_onFile known hj
  obtain ⟨i, hi, rfl⟩ := Tree.hasIndex_eq_true_iff.mp hheld
  exact ⟨i, hi, hj.unique (h.onFile stored registered hi)⟩

theorem Filed.verify (known : ∀ id, d.registry.get? id = none → d'.registry.get? id = none)
    (keep : ∀ i ∈ w.tree.indexes, i.userData ≠ some [])
    (verified : w.tree.verify d'.store = .ok ()) :
    ((Tree.bare d'.path w.tree.name).loadRecorded d').verify d'.store = .ok () := by
  obtain ⟨T, hT⟩ := Option.isSome_iff_exists.mp (stored ▸ h.committed.table)
  have hname : ((Tree.bare d'.path w.tree.name).loadRecorded d').name = w.tree.name :=
    Tree.name_loadRecorded ..
  rw [Tree.verify_eq_ok_iff hT] at verified
  rw [Tree.verify_eq_ok_iff (hname ▸ hT)]
  intro j hj
  obtain ⟨i, hi, rfl⟩ := h.eq_reopened stored registered known hj
  obtain ⟨P, hP, hexact, hsingle⟩ := verified i hi
  refine ⟨P, ?_, (Index.exact_reopened_iff (keep i hi)).mpr hexact, hsingle⟩
  rw [Tree.indexTable, hname]
  exact hP

end

/-- A tree that is opened again, on the store that was left and with the extractors of its indexes
registered, has every index attached that was attached before, over the same table and with the same
extractor and flags. Unless its data was of no bytes, an index makes of every value what it made of
it before. So, with no more extractors registered than at first, verification passes the tree if it
did before. -/
theorem reopening_restores_indexes {name : String} {create : Bool} {d d₁ d' : Database} {t : Tree}
    {hint : Nat} (created : (Database.openTree allocated name create).run d = (.ok t, d₁))
    (run : Relation.ReflTransGen Tending (opened d₁ t hint) w)
    (stored : d'.store = w.session.database.store)
    (registered : ∀ i ∈ w.tree.indexes, d'.registry.get? i.extractorId = some i.extractor)
    (reallocated : Nat) (again : Bool) :
    ∃ t', (Database.openTree reallocated w.tree.name again).run d' = (.ok t', d') ∧
      t'.name = w.tree.name ∧
      (∀ i ∈ w.tree.indexes, i.reopened ∈ t'.indexes ∧
        (i.userData ≠ some [] → ∀ value, i.reopened.extract value = i.extract value)) ∧
      ((∀ id, d₁.registry.get? id = none → d'.registry.get? id = none) →
        (∀ i ∈ w.tree.indexes, i.userData ≠ some []) →
        w.tree.verify d'.store = .ok () → t'.verify d'.store = .ok ()) := by
  obtain ⟨named, hfiled⟩ := Tree.filed_of_openTree created
  have h₀ : (opened d₁ t hint).Filed d₁ := ⟨⟨hfiled, nofun⟩, named⟩
  have h := h₀.run run
  have hthere : d'.hasTree w.tree.name = true := by
    rw [Database.hasTree, stored]
    exact h.committed.table
  refine ⟨_, Database.run_openTree_of_hasTree h.named hthere, Tree.name_loadRecorded .., ?_, ?_⟩
  · intro i hi
    exact ⟨h.reopened_mem stored registered hi, Index.reopened_extract⟩
  · intro known keep verified
    exact h.verify stored registered known keep verified

theorem tending_calls (allocated : Nat) (w : Site) {calls : List Call}
    (fits : ∀ c ∈ calls, c.Fits) :
    Relation.ReflTransGen Tending w (calls.foldl (perform allocated) w) := by
  induction calls generalizing w with
  | nil => exact .refl
  | cons c rest ih =>
    have hrest := ih (w.perform allocated c) fun c hc => fits c (List.mem_cons_of_mem _ hc)
    exact hrest.head (.call w allocated c (fits c List.mem_cons_self))

def withData : Extractor := fun value data => data.bind fun _ => some value

def dataDatabase (S : Store) : Database :=
  ⟨"db", defaultMapSize, defaultMaxTables, schemaVersion 1 0, ⟨false, false⟩,
    Registry.register .empty (schemaVersion 1 0) (indexFlags true false) withData, {}, S⟩

/-- A new tree with an index that was given data, and one entry. -/
def dataSite (data : Bytes) : Site :=
  [.addIndex { name := "whole", userData := some data, unique := true },
    .entry (.insert [0] [1])].foldl (perform 4096)
      (opened ((Database.openTree 4096 "t" true).run (dataDatabase .empty)).2 (.bare "db" "t") 0)

theorem reopening_restores_indexes_dataSite :
    let w := dataSite [7]
    let d' := dataDatabase w.session.database.store
    w.tree.indexNames = ["whole"] ∧ w.tree.verify d'.store = .ok () ∧
      ∃ t', (Database.openTree 4096 "t" false).run d' = (.ok t', d') ∧
        (∀ i ∈ w.tree.indexes, i.reopened ∈ t'.indexes) ∧ t'.verify d'.store = .ok () := by
  have created : (Database.openTree 4096 "t" true).run (dataDatabase .empty) =
    (.ok (.bare "db" "t"), ((Database.openTree 4096 "t" true).run (dataDatabase .empty)).2) := rfl
  have fits : ∀ c ∈ [Call.addIndex { name := "whole", userData := some [7], unique := true },
      .entry (.insert [0] [1])], c.Fits := by
    simp [Call.Fits, IndexRecord.Fits]
  have verified : (dataSite [7]).tree.verify (dataSite [7]).session.database.store = .ok () := rfl
  have stored : (dataDatabase (dataSite [7]).session.database.store).store =
    (dataSite [7]).session.database.store := rfl
  obtain ⟨t', hrun, -, hindexes, hverify⟩ := reopening_restores_indexes created
    (tending_calls 4096 (opened _ _ 0) fits) stored (List.forall_mem_singleton.mpr rfl) 4096 false
  exact ⟨rfl, verified, t', hrun, fun i hi => (hindexes i hi).1,
    hverify (fun _ hid => hid) (List.forall_mem_singleton.mpr (by decide)) verified⟩

/-- The tree as it is opened again if the data was of no bytes. -/
def dataLost : Tree :=
  (Tree.bare "db" "t").attach
    ⟨"whole", extractorId (schemaVersion 1 0) (indexFlags true false), withData, none, true, false,
      none⟩ rfl

/-- Data of no bytes is handed to the extractor until the tree is closed. After that the extractor
is given none, makes something else of the value, and verification fails where it passed. -/
theorem empty_data_not_restored :
    let w := dataSite []
    let d' := dataDatabase w.session.database.store
    w.tree.indexNames = ["whole"] ∧ w.tree.verify d'.store = .ok () ∧
      (Database.openTree 4096 "t" false).run d' = (.ok dataLost, d') ∧
      (∀ i ∈ w.tree.indexes, i.extract [1] = some [1]) ∧
      (∀ i ∈ dataLost.indexes, i.extract [1] = none) ∧
      dataLost.verify d'.store = .error (.stalePair "whole") := by
  exact ⟨rfl, rfl, Prod.ext rfl rfl, List.forall_mem_singleton.mpr rfl,
    List.forall_mem_singleton.mpr rfl, rfl⟩

end Site
end IndexedStore
