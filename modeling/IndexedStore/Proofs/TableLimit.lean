import IndexedStore.Proofs.Hall
import Mathlib.Data.List.Perm.Subperm

/-! # The limit on tables

A table comes into being with a tree, with an index and with the first record, and each of them asks
for a free slot. One way past the limit is left: a write transaction that opens a paired table which
is missing brings it into being, unasked. A handle may go on to list an index whose table has been
dropped through another one, and its next write revives the table. Apart from tables revived in this
way there are never more than the limit.
-/
namespace IndexedStore

theorem OrderedMap.length_keys {κ α : Type} {cmp : κ → κ → Ordering} (m : OrderedMap cmp α) :
    m.keys.length = m.size := List.length_map _

/-! ## Counting tables -/

namespace Store
variable {S S' : Store} {l l' : List String} {n : String}

/-- How many tables there are, apart from paired ones of certain names. -/
def tablesBut (l : List String) (S : Store) : Nat :=
  S.plain.size + (S.paired.keys.filter fun n => n ∉ l).length

/-- The table of records is there. -/
def HasRecords (S : Store) : Prop := (S.table? recordTable).isSome = true

theorem tablesBut_nil (S : Store) : S.tablesBut [] = S.tableCount := by
  simp [tablesBut, tableCount, OrderedMap.length_keys]

theorem tablesBut_le_tableCount (l : List String) (S : Store) : S.tablesBut l ≤ S.tableCount := by
  have hfilter := List.length_filter_le (fun n => n ∉ l) S.paired.keys
  rw [OrderedMap.length_keys] at hfilter
  unfold tablesBut tableCount
  omega

/-- A store counts for no more than another that has its tables. -/
theorem tablesBut_le (plain : ∀ n, (S'.table? n).isSome → (S.table? n).isSome)
    (paired : ∀ n, n ∉ l' → (S'.pairs? n).isSome → n ∉ l ∧ (S.pairs? n).isSome) :
    S'.tablesBut l' ≤ S.tablesBut l := by
  have hplain : S'.plain.size ≤ S.plain.size := by
    rw [← OrderedMap.length_keys, ← OrderedMap.length_keys]
    refine (List.subperm_of_subset S'.plain.nodup_keys fun n hn => ?_).length_le
    rw [OrderedMap.mem_keys, ← Option.isSome_iff_exists] at hn ⊢
    exact plain n hn
  have hsubset : (S'.paired.keys.filter fun n => n ∉ l') ⊆ S.paired.keys.filter fun n => n ∉ l := by
    intro n hn
    simp only [List.mem_filter, decide_eq_true_eq, OrderedMap.mem_keys,
      ← Option.isSome_iff_exists] at hn ⊢
    exact (paired n hn.2 hn.1).symm
  have hpaired := (List.subperm_of_subset (S'.paired.nodup_keys.filter fun n => n ∉ l')
    hsubset).length_le
  exact Nat.add_le_add hplain hpaired

theorem tablesBut_mono (h : l ⊆ l') : S.tablesBut l' ≤ S.tablesBut l :=
  tablesBut_le (fun _ hn => hn) fun _ hl hn => ⟨fun hmem => hl (h hmem), hn⟩

theorem tableCount_putTable (T : Table) (h : S.table? n = none) :
    (S.putTable n T).tableCount = S.tableCount + 1 := by
  have hsize : (S.plain.insert n T).size = S.plain.size + 1 :=
    OrderedMap.size_insert_of_absent h T
  change (S.plain.insert n T).size + S.paired.size = _
  rw [hsize, tableCount]
  omega

theorem tableCount_putPairs (P : PairTable) (h : S.pairs? n = none) :
    (S.putPairs n P).tableCount = S.tableCount + 1 := by
  have hsize : (S.paired.insert n P).size = S.paired.size + 1 :=
    OrderedMap.size_insert_of_absent h P
  change S.plain.size + (S.paired.insert n P).size = _
  rw [hsize, tableCount]
  omega

end Store

/-! ## Tables that are revived -/

namespace Tree
variable {t : Tree} {S S' : Store} {l : List String}

/-- Tables of attached indexes that are missing from the store. -/
def missing (t : Tree) (S : Store) : List String :=
  (t.indexes.map t.indexTable).filter fun n => (S.pairs? n).isNone

/-- The plain tables have the same names, and a new paired table is that of an attached index. -/
structure Grows (t : Tree) (S S' : Store) : Prop where
  plain : ∀ n, (S'.table? n).isSome ↔ (S.table? n).isSome
  paired : ∀ n, (S'.pairs? n).isSome → (S.pairs? n).isSome ∨ ∃ i ∈ t.indexes, n = t.indexTable i

instance (t : Tree) : IsPreorder Store t.Grows where
  refl _ := ⟨fun _ => Iff.rfl, fun _ hn => .inl hn⟩
  trans _ _ _ h h' :=
    ⟨fun n => (h'.plain n).trans (h.plain n), fun n hn => (h'.paired n hn).elim (h.paired n) .inr⟩

theorem grows_putPairs {i : Index} (hi : i ∈ t.indexes) (S : Store) (P : PairTable) :
    t.Grows S (S.putPairs (t.indexTable i) P) where
  plain _ := Iff.rfl
  paired n hn := ((S.isSome_pairs?_putPairs _ P n).mp hn).elim (fun h => .inr ⟨i, hi, h⟩) .inl

theorem grows_putTable (S : Store) (T : Table) (there : (S.table? t.name).isSome) :
    t.Grows S (S.putTable t.name T) where
  plain n := Store.isSome_table?_replaced there T n
  paired _ hn := .inl hn

theorem writes_grows (t : Tree) : t.Writes t.Grows :=
  ⟨fun S T there => grows_putTable S T there, fun _ hi S P _ => grows_putPairs hi S P⟩

/-- A cursor from the handle writes no more than the handle does. -/
theorem cursor_writes_grows {c : Cursor} (hc : ∀ i ∈ c.index?, i ∈ t.indexes) :
    c.Writes t t.Grows :=
  ⟨fun i hi S P => grows_putPairs (hc i hi) S P,
    fun _ _ => ⟨fun _ hi S P => grows_putPairs hi S P, fun S T there => grows_putTable S T there⟩⟩

theorem Grows.hasRecords (h : t.Grows S S') : S'.HasRecords ↔ S.HasRecords := h.plain recordTable

theorem Grows.tablesBut_le (h : t.Grows S S') :
    S'.tablesBut (l ++ t.missing S) ≤ S.tablesBut l := by
  refine Store.tablesBut_le (fun n => (h.plain n).mp) fun n hn hsome => ?_
  obtain ⟨hl, hmissing⟩ := not_or.mp (List.mem_append.not.mp hn)
  refine ⟨hl, (h.paired n hsome).elim id ?_⟩
  rintro ⟨i, hi, rfl⟩
  by_contra hnone
  refine hmissing (List.mem_filter.mpr ⟨List.mem_map_of_mem hi, ?_⟩)
  simpa using hnone

/-! ## Tables that ask for a slot -/

variable {d d' : Database} {i : Index} {n : String} {max : Nat}

theorem hasRecords_saved (a : String) (i : Index) (S : Store) : (Catalog.saved a i S).HasRecords :=
  (Store.isSome_table?_putTable ..).mpr (.inl rfl)

theorem tablesBut_saved (a : String) (i : Index) (h : S.HasRecords) :
    (Catalog.saved a i S).tablesBut l ≤ S.tablesBut l := by
  exact Store.tablesBut_le (fun m => (Store.isSome_table?_replaced h _ m).mp)
    fun _ hl hm => ⟨hl, hm⟩

/-- A new index takes up free slots only. -/
theorem tablesBut_created (h : S.tablesBut l ≤ max)
    (table : S.pairs? (t.indexTable i) = none → S.tableCount < max)
    (records : S.table? recordTable = none →
      (S.putPairs (t.indexTable i) (t.pairsOf S i)).tableCount < max) :
    (t.created i S).tablesBut l ≤ max := by
  have htable : (S.putPairs (t.indexTable i) (t.pairsOf S i)).tablesBut l ≤ max := by
    cases hP : S.pairs? (t.indexTable i) with
    | some P => rwa [pairsOf_of_pairs? hP, Store.putPairs_pairs? hP]
    | none =>
      refine Nat.le_trans (Store.tablesBut_le_tableCount l _) ?_
      rw [Store.tableCount_putPairs _ hP]
      exact table hP
  by_cases hR : S.HasRecords
  · exact Nat.le_trans (tablesBut_saved t.name i hR) htable
  · have hnone : (S.putPairs (t.indexTable i) (t.pairsOf S i)).table? recordTable = none := by
      simpa [Store.HasRecords] using hR
    refine Nat.le_trans (Store.tablesBut_le_tableCount l _) ?_
    rw [created, Catalog.saved, Store.tableCount_putTable _ hnone]
    exact records hnone

theorem isSome_table?_removed (a n : String) (S : Store) (m : String) :
    ((Catalog.removed a n S).table? m).isSome ↔ (S.table? m).isSome := by
  unfold Catalog.removed
  cases hR : S.table? recordTable with
  | none => rfl
  | some R =>
    exact Store.isSome_table?_replaced (hR ▸ rfl) _ m

theorem hasRecords_dropped (t : Tree) (n : String) (S : Store) :
    (t.dropped n S).HasRecords ↔ S.HasRecords := isSome_table?_removed ..

theorem tablesBut_dropped (t : Tree) (n : String) (S : Store) :
    (t.dropped n S).tablesBut l ≤ S.tablesBut l := by
  have hplain : ∀ m, ((t.dropped n S).table? m).isSome → (S.table? m).isSome :=
    fun m => (isSome_table?_removed t.name n _ m).mp
  refine Store.tablesBut_le hplain fun m hl hm => ⟨hl, ?_⟩
  have hrefit := t.refitted_dropped n S
  by_cases hmn : m = indexTableName t.name n
  · simp [hmn, hrefit.self] at hm
  · rwa [hrefit.paired m hmn] at hm

/-- What is on file is on record. -/
theorem hasRecords_of_onFile {a : String} (h : Index.OnFile d a n i) : d.store.HasRecords := by
  obtain ⟨-, -, r, x, hread, -⟩ := h
  rw [Catalog.read_eq, Catalog.lookup] at hread
  unfold Store.HasRecords
  cases hR : d.store.table? recordTable with
  | some R => rfl
  | none =>
    rw [hR] at hread
    cases hread

end Tree

namespace Database
variable {allocated : Nat} {d d' : Database} {name : String} {l : List String}

/-- Deleting a tree brings no name into being, and leaves the table of records. -/
theorem names_of_dropTree (h : (dropTree allocated name).run d = (.ok (), d')) :
    (d'.store.HasRecords ↔ d.store.HasRecords) ∧ d'.store.tablesBut l ≤ d.store.tablesBut l := by
  obtain ⟨hname, -, S, hdrop, hlast⟩ := dropTree_ok h
  obtain ⟨hplain, hnone, hsame⟩ := Store.foldlM_dropPairs_ok hdrop
  have hcleared : ∀ n, ((Catalog.cleared name S).table? n).isSome ↔ (d.store.table? n).isSome := by
    intro n
    have hS : S.table? n = d.store.table? n := by rw [Store.table?, hplain, Store.table?]
    rw [← hS]
    unfold Catalog.cleared
    cases hR : S.table? recordTable with
    | none => rfl
    | some R =>
      exact Store.isSome_table?_replaced (hR ▸ rfl) _ n
  have herased : ∀ n, n ≠ name → d'.store.table? n = (Catalog.cleared name S).table? n := by
    intro n hn
    rw [Store.eq_of_dropTable hlast]
    exact OrderedMap.get?_erase_ne _ hn
  refine ⟨?_, Store.tablesBut_le (fun n hn => ?_) fun n hl hn => ⟨hl, ?_⟩⟩
  · unfold Store.HasRecords
    rw [herased _ (checkTreeName_eq_ok hname).1.symm]
    exact hcleared recordTable
  · by_cases hname : n = name
    · have hgone := (gone_of_dropTree h).1
      rw [hname, hgone] at hn
      cases hn
    · exact (hcleared n).mp (herased n hname ▸ hn)
  · have hpairs : d'.store.pairs? n = S.pairs? n := by
      rw [Store.eq_of_dropTable hlast]
      exact Catalog.pairs?_cleared name S n
    rw [hpairs] at hn
    by_cases hmem : n ∈ indexTablesOf d.store name
    · rw [hnone n hmem] at hn
      cases hn
    · rwa [hsame n hmem] at hn

end Database

namespace IndexCall
variable {d d' : Database} {t t' : Tree} {k : IndexCall} {l : List String}

/-- A change of the indexes keeps to the limit. Only populating an index opens a table without
asking for a slot, and only adding one may create the table of records. -/
theorem Changes.limited (h : k.Changes t d t' d') (room : d.store.tablesBut l ≤ d.maxTables)
    (recorded : t.indexes ≠ [] → d.store.HasRecords) :
    (d'.store.tablesBut l ≤ d.maxTables ∨
      (∃ n, k = .populate n) ∧ d'.store.tablesBut (l ++ t.missing d.store) ≤ d.maxTables) ∧
    (t'.indexes ≠ [] → d'.store.HasRecords) ∧
    ((d'.store.HasRecords ↔ d.store.HasRecords) ∨
      (∃ c, k = .addIndex c) ∧ d'.store.HasRecords) := by
  cases h with
  | @added c i _ _ _ _ table records store =>
    have hrecords : d'.store.HasRecords := store ▸ Tree.hasRecords_saved ..
    exact ⟨.inl (store ▸ Tree.tablesBut_created room table records), fun _ => hrecords,
      .inr ⟨⟨c, rfl⟩, hrecords⟩⟩
  | @populated n i _ P _ attached _ store =>
    have hgrows := Tree.grows_putPairs (Tree.index?_eq_some attached).1 d.store P
    rw [← store] at hgrows
    exact ⟨.inr ⟨⟨n, rfl⟩, Nat.le_trans hgrows.tablesBut_le room⟩,
      fun hne => hgrows.hasRecords.mpr (recorded hne), .inl hgrows.hasRecords⟩
  | @dropped n _ store =>
    have hrecords : d'.store.HasRecords ↔ d.store.HasRecords :=
      store ▸ Tree.hasRecords_dropped t n d.store
    refine ⟨.inl (store ▸ Nat.le_trans (Tree.tablesBut_dropped t n d.store) room),
      fun hne => hrecords.mpr (recorded fun hnil => hne ?_), .inl hrecords⟩
    change t.indexes.filter _ = []
    rw [hnil, List.filter_nil]
  | @saved _ i _ attached store =>
    have hold := recorded (List.ne_nil_of_mem (Tree.index?_eq_some attached).1)
    have hnew : d'.store.HasRecords := store ▸ Tree.hasRecords_saved ..
    exact ⟨.inl (store ▸ Nat.le_trans (Tree.tablesBut_saved t.name i hold) room), fun _ => hnew,
      .inl (iff_of_true hnew hold)⟩
  | loaded _ onFile =>
    exact ⟨.inl room, fun _ => Tree.hasRecords_of_onFile onFile, .inl Iff.rfl⟩
  | passedOver => exact ⟨.inl room, recorded, .inl Iff.rfl⟩

end IndexCall

/-! ## Runs -/

/-- Whether a write transaction of the call may bring a missing table of an index into being. -/
def HallCall.reopens : HallCall → Bool
  | inside _ _ _ => true
  | write _ _ _ => true
  | index _ (.populate _) _ => true
  | _ => false

namespace Hall

/-- The missing tables of indexes attached to the handle that a call goes through, if a write
transaction of the call may bring them into being. -/
def revives (w : Hall) (c : HallCall) : List String :=
  match w.waits c, c.reopens, w.aim c with
  | false, true, some (t, S) => t.missing S
  | _, _, _ => []

/-- The committed store and what a writer would commit keep to the limit, apart from certain paired
tables. Where a handle has indexes there are records, and a writer sees the table of records just
when it is there. -/
structure Limited (l : List String) (w : Hall) : Prop where
  committed : w.store.tablesBut l ≤ w.database.maxTables
  working : ∀ o ∈ w.opened, ∀ S, o.txn.view = .working S →
    S.tablesBut l ≤ w.database.maxTables ∧ (S.HasRecords ↔ w.store.HasRecords)
  recorded : ∀ t ∈ w.handles, t.indexes ≠ [] → w.store.HasRecords

variable {w : Hall} {l l' : List String} {c : HallCall} {d : Database} {hs : List Tree}

theorem Limited.mono (h : w.Limited l) (hl : l ⊆ l') : w.Limited l' where
  committed := Nat.le_trans (Store.tablesBut_mono hl) h.committed
  working o ho S hview :=
    (h.working o ho S hview).imp_left fun hS => Nat.le_trans (Store.tablesBut_mono hl) hS
  recorded := h.recorded

theorem revives_eq {t : Tree} {S : Store} (hc : w.waits c = false) (hreopens : c.reopens = true)
    (haim : w.aim c = some (t, S)) : w.revives c = t.missing S := by
  rw [revives, hc, hreopens, haim]

/-- What a call that need not wait does to the committed store and the handles. -/
theorem Limited.effect (h : w.Limited l) (hc : w.waits c = false) (heff : w.Effect c d hs) :
    d.store.tablesBut (l ++ w.revives c) ≤ w.database.maxTables ∧
      (∀ t ∈ hs, t.indexes ≠ [] → d.store.HasRecords) ∧
      ((d.store.HasRecords ↔ w.store.HasRecords) ∨
        ∃ n k allocated, c = .index n k allocated ∧ w.writing = false) := by
  have hmono : ∀ {S : Store}, S.tablesBut l ≤ w.database.maxTables →
      S.tablesBut (l ++ w.revives c) ≤ w.database.maxTables :=
    fun hS => Nat.le_trans (Store.tablesBut_mono (List.subset_append_left ..)) hS
  have hnew : ∀ t', (t'.indexes ≠ [] → d.store.HasRecords) →
      (w.store.HasRecords → d.store.HasRecords) →
      ∀ t ∈ w.handles ++ [t'], t.indexes ≠ [] → d.store.HasRecords := by
    intro t' ht' hstays t ht hne
    rcases List.mem_append.mp ht with ht | ht
    · exact hstays (h.recorded t ht hne)
    · exact ht' (List.mem_singleton.mp ht ▸ hne)
  cases heff with
  | same store _ =>
    rw [store]
    exact ⟨hmono h.committed, h.recorded, .inl Iff.rfl⟩
  | committed opened view store _ =>
    obtain ⟨hroom, hrecords⟩ := h.working _ opened _ view
    rw [store]
    exact ⟨hmono hroom, fun t ht hne => hrecords.mpr (h.recorded t ht hne), .inl hrecords⟩
  | @written n allocated r t handle =>
    have hgrows : t.Grows w.store
        ((Database.write allocated (r.step t)).run w.database).2.store :=
      Session.rel_write (r.within t.writes_grows) ⟨w.database, 0⟩
    have hrevives : w.revives (.write n r allocated) = t.missing w.store :=
      revives_eq hc rfl (by rw [aim, handle]; rfl)
    rw [hrevives]
    exact ⟨Nat.le_trans hgrows.tablesBut_le h.committed,
      fun t ht hne => hgrows.hasRecords.mpr (h.recorded t ht hne), .inl hgrows.hasRecords⟩
  | @indexed n allocated k t t' _ handle run =>
    obtain ⟨hroom, ht', hrecords⟩ := (IndexCall.changes_of_step_ok run).limited h.committed
      (h.recorded t (List.mem_of_getElem? handle))
    refine ⟨?_, hnew t' ht' fun hold => hrecords.elim (fun hiff => hiff.mpr hold) And.right, ?_⟩
    · obtain hroom | ⟨⟨name, rfl⟩, hroom⟩ := hroom
      · exact hmono hroom
      · have hrevives : w.revives (.index n (.populate name) allocated) = t.missing w.store :=
          revives_eq hc rfl (by rw [aim, handle]; rfl)
        rwa [hrevives]
    · obtain hiff | ⟨⟨c', rfl⟩, -⟩ := hrecords
      · exact .inl hiff
      · exact .inr ⟨n, _, allocated, rfl, writes_of_not_waits hc rfl⟩
  | @tuned _ t t' handle name _ indexes =>
    refine ⟨hmono h.committed, hnew t' (fun hne => h.recorded t handle fun hnil => hne ?_) id,
      .inl Iff.rfl⟩
    have hnames : t'.indexes.map Index.name = t.indexes.map Index.name := indexes
    rwa [hnil, List.map_nil, List.map_eq_nil_iff] at hnames
  | @treeOpened name create allocated t _ run =>
    obtain ⟨hname, rfl, hopened⟩ := Database.run_openTree_ok run
    have hattached : ((Tree.bare d.path name).loadRecorded d).indexes ≠ [] →
        d.store.HasRecords := by
      intro hne
      obtain ⟨i, hi⟩ := List.exists_mem_of_ne_nil _ hne
      obtain ⟨n, -, honfile⟩ := Tree.mem_loadRecorded_bare.mp hi
      exact Tree.hasRecords_of_onFile honfile
    obtain ⟨-, rfl⟩ | ⟨fresh, hwrite⟩ := hopened
    · exact ⟨hmono h.committed, hnew _ hattached id, .inl Iff.rfl⟩
    · obtain ⟨hstore, hslot⟩ := Database.createTree_ok fresh hwrite
      have hrecords : d.store.HasRecords ↔ w.store.HasRecords := by
        rw [hstore, Store.HasRecords,
          Store.table?_putTable_ne _ _ (checkTreeName_eq_ok hname).1.symm]
        rfl
      refine ⟨hmono (Nat.le_trans (Store.tablesBut_le_tableCount l _) ?_),
        hnew _ hattached hrecords.mpr, .inl hrecords⟩
      rw [hstore, Store.tableCount_putTable _ fresh]
      exact hslot
  | treeDropped run =>
    obtain ⟨hrecords, hroom⟩ := Database.names_of_dropTree run
    exact ⟨hmono (Nat.le_trans hroom h.committed),
      fun t ht hne => hrecords.mpr (h.recorded t ht hne), .inl hrecords⟩

theorem Limited.perform (sound : w.Sound) (h : w.Limited l) (hc : w.waits c = false) :
    (w.perform c).Limited (l ++ w.revives c) := by
  have heff := w.effect_perform c
  have hmax : (w.perform c).database.maxTables = w.database.maxTables :=
    congrArg (fun x => x.2.1) heff.settings
  obtain ⟨hroom, hrecorded, hflag⟩ := h.effect hc heff
  have hl := h.mono (List.subset_append_left l (w.revives c))
  rw [← hmax] at hroom
  refine ⟨hroom, ?_, hrecorded⟩
  obtain hflag | ⟨n, k, allocated, rfl, hclosed⟩ := hflag
  · rw [hmax]
    refine working_perform (Q := fun S _ => S.tablesBut (l ++ w.revives c) ≤ w.database.maxTables ∧
      (S.HasRecords ↔ (w.perform c).store.HasRecords)) (fun o ho S hview => ?_) c
      ⟨hl.committed, hflag.symm⟩ (fun _ _ _ _ hS => hS) ?_
    · exact (hl.working o ho S hview).imp_right fun hS => hS.trans hflag.symm
    · rintro x p k o t c' S S' rfl hx hp hview - σ hview'
      have hplace := (sound.opened o (List.mem_of_getElem? hx)).2 _ (List.mem_of_getElem? hp)
      have hrel := k.rel_step t.writes_grows (Tree.cursor_writes_grows hplace.2)
        (fun n _ i hi S P => Tree.grows_putPairs (Tree.index?_eq_some hi).1 S P)
        (w.database.scope o.txn 0)
      have hgrows : t.Grows S S' := hrel.of_working hview hview'
      have hrevives : w.revives (.inside x p k) = t.missing S :=
        revives_eq hc rfl (aim_inside hx hp hview)
      obtain ⟨hcommits, hrecords⟩ := h.working o (List.mem_of_getElem? hx) S hview
      rw [hrevives]
      exact ⟨Nat.le_trans hgrows.tablesBut_le hcommits,
        (hgrows.hasRecords.trans hrecords).trans hflag.symm⟩
  -- no writer is open when an index is added
  · intro o ho S hview
    have hopened : (w.perform (.index n k allocated)).opened = w.opened := by
      simp only [Hall.perform, through, answered]
      split
      · split <;> rfl
      · rfl
    exact absurd hview (not_working hclosed (hopened ▸ ho) S)

theorem Limited.act (sound : w.Sound) (h : w.Limited l) (c : HallCall) :
    (w.act c).Limited (l ++ w.revives c) := by
  unfold Hall.act
  cases hc : w.waits c with
  | true => exact h.mono (List.subset_append_left ..)
  | false => exact h.perform sound hc

theorem Limited.run (sound : w.Sound) (h : w.Limited l) (calls : List HallCall) :
    (w.run calls).Limited (l ++ w.noted revives calls) := by
  induction calls generalizing w l with
  | nil => exact h.mono (List.subset_append_left ..)
  | cons c rest ih =>
    rw [noted, ← List.append_assoc]
    exact ih (sound.act c) (h.act sound c)

/-- From a database within its limit on, whatever is called through whatever handles, the committed
store has no more tables than the limit, apart from those that were missing, though attached as
indexes to the handle of a write. So the limit is kept if every write finds the tables of the
indexes that are attached to its handle. -/
theorem table_limit_kept {d : Database} (room : d.store.tableCount ≤ d.maxTables)
    (calls : List HallCall) :
    let w := (fresh d).run calls
    let revived := (fresh d).noted revives calls
    w.database.maxTables = d.maxTables ∧ w.store.tablesBut revived ≤ d.maxTables ∧
      (revived = [] → w.store.tableCount ≤ d.maxTables) := by
  intro w revived
  have hmax : w.database.maxTables = d.maxTables :=
    congrArg (fun x => x.2.1) (settings_run (fresh d) calls)
  have hstart : (fresh d).Limited [] := ⟨(Store.tablesBut_nil _).trans_le room, nofun, nofun⟩
  have hcommitted := (hstart.run (sound_fresh d) calls).committed
  rw [List.nil_append, hmax] at hcommitted
  refine ⟨hmax, hcommitted, fun hnone => ?_⟩
  rwa [show (fresh d).noted revives calls = [] from hnone, Store.tablesBut_nil] at hcommitted

/-- One handle keeps an index that another drops, and writes once its table's slot is taken by a
second index. -/
def slotReused : List HallCall :=
  [.openTree "t" true 4096, .index 0 (.addIndex { name := "a", unique := true }) 4096,
    .openTree "t" false 4096, .index 2 (.dropIndex "a") 4096,
    .index 3 (.addIndex { name := "b", unique := true }) 4096,
    .write 1 (.entry (.insert [1] [2])) 4096]

theorem table_limit_kept_slotReused :
    let d := IndexCall.threeTables
    d.store.tableCount ≤ d.maxTables ∧
      (fresh d).noted revives slotReused = [indexTableName "t" "a"] ∧
      ((fresh d).run slotReused).store.tablesBut [indexTableName "t" "a"] ≤ d.maxTables := by
  intro d
  have room : d.store.tableCount ≤ d.maxTables := by decide
  have hrevived : (fresh d).noted revives slotReused = [indexTableName "t" "a"] := by
    decide +kernel
  obtain ⟨-, hkept, -⟩ := table_limit_kept room slotReused
  exact ⟨room, hrevived, hrevived ▸ hkept⟩

/-- The limit of three tables is exceeded by one. -/
theorem revived_table_exceeds_limit :
    let w := (fresh IndexCall.threeTables).run slotReused
    IndexCall.threeTables.store.tableCount = 0 ∧ w.database.maxTables = 3 ∧
      w.store.tableCount = 4 := by
  decide +kernel

end Hall
end IndexedStore
