import IndexedStore.Proofs.Isolation
import IndexedStore.Proofs.Lifetime

/-! # Where the indexes of a tree are listed

A handle lists the indexes attached to it, the catalog lists those on record, and each has a table.
When one handle creates a tree and makes all changes to its indexes the three lists agree. A change
commits the table and the record together and the handle follows only then, so one that fails, no
matter where, leaves each of the three as it was.
-/
namespace IndexedStore

namespace Catalog
variable {a n : String} {i : Index} {S : Store} {k : Bytes}

theorem lookup_saved_self (a : String) (i : Index) (S : Store) :
    lookup (saved a i S) (key a i.name) = some i.record.encode := by
  rw [lookup, saved, Store.table?_putTable_self, Option.bind_some, OrderedMap.get?_insert_self]

theorem lookup_saved_ne (h : k ≠ key a i.name) : lookup (saved a i S) k = lookup S k := by
  rw [lookup, saved, Store.table?_putTable_self, Option.bind_some, OrderedMap.get?_insert_ne _ _ h,
    lookup_eq_getD]

theorem lookup_removed_self (a n : String) (S : Store) :
    lookup (removed a n S) (key a n) = none := by
  unfold lookup removed
  cases hR : S.table? recordTable with
  | none => simp only [hR, Option.bind_none]
  | some R =>
    rw [Store.table?_putTable_self, Option.bind_some, OrderedMap.get?_erase_self]

theorem lookup_removed_ne (h : k ≠ key a n) : lookup (removed a n S) k = lookup S k := by
  unfold lookup removed
  cases hR : S.table? recordTable with
  | none => simp only [hR]
  | some R =>
    rw [Store.table?_putTable_self, Option.bind_some, OrderedMap.get?_erase_ne _ h,
      Option.bind_some]

/-- If every key on record under a tree is that of a name, the names are listed. -/
theorem mem_names_iff (h : ∀ k, stem a <+: k → (lookup S k).isSome → ∃ m, k = key a m) :
    n ∈ names S a ↔ (lookup S (key a n)).isSome := by
  rw [names_eq, List.mem_map]
  constructor
  · rintro ⟨x, hx, rfl⟩
    obtain ⟨hkeys, hstem⟩ := mem_map_suffixes.mp (List.mem_map.mpr ⟨x, hx, rfl⟩)
    obtain ⟨raw, hraw⟩ := OrderedMap.mem_keys.mp hkeys
    have hsome : (lookup S (stem a ++ x)).isSome := by
      rw [lookup_eq_getD, hraw, Option.isSome_some]
    obtain ⟨m, hm⟩ := h _ hstem hsome
    obtain rfl : x = Bytes.ofText m := List.append_cancel_left (hm.trans (key_eq a m))
    rwa [Bytes.toText_ofText, key_eq]
  · intro hsome
    obtain ⟨raw, hraw⟩ := Option.isSome_iff_exists.mp hsome
    rw [lookup_eq_getD, key_eq] at hraw
    exact ⟨_, mem_suffixes (OrderedMap.mem_keys.mpr ⟨raw, hraw⟩), Bytes.toText_ofText n⟩

theorem read_eq (S : Store) (a n : String) :
    read S a n = match lookup S (key a n) with
      | none => .ok none
      | some raw => (IndexRecord.decode raw).map some := rfl

end Catalog

/-! ## What the three lists have in common -/

namespace Tree
variable {allocated : Nat} {t t' : Tree} {S S' : Store} {d d' : Database} {i : Index} {n : String}

theorem mem_indexNames : n ∈ t.indexNames ↔ ∃ i ∈ t.indexes, i.name = n := List.mem_map

/-- The indexes that have a table are those attached, the keys on record are theirs, and each record
is that of its index. -/
structure Listed (t : Tree) (S : Store) : Prop where
  tables : ∀ n, (S.pairs? (indexTableName t.name n)).isSome ↔ n ∈ t.indexNames
  keys : ∀ k, Catalog.stem t.name <+: k → (Catalog.lookup S k).isSome →
    ∃ n ∈ t.indexNames, k = Catalog.key t.name n
  records : ∀ i ∈ t.indexes, Catalog.lookup S (Catalog.key t.name i.name) = some i.record.encode
  fits : ∀ i ∈ t.indexes, IndexRecord.Fits i.userData

theorem Listed.congr (h : t.Listed S)
    (tables : ∀ n, (S'.pairs? (indexTableName t.name n)).isSome =
      (S.pairs? (indexTableName t.name n)).isSome)
    (records : ∀ k, Catalog.stem t.name <+: k → Catalog.lookup S' k = Catalog.lookup S k) :
    t.Listed S' where
  tables n := by rw [tables, h.tables]
  keys k hk hsome := h.keys k hk (records k hk ▸ hsome)
  records i hi := (records _ (Catalog.stem_prefix_key ..)).trans (h.records i hi)
  fits := h.fits

theorem Listed.names (h : t.Listed S) (n : String) :
    n ∈ Catalog.names S t.name ↔ n ∈ t.indexNames := by
  rw [Catalog.mem_names_iff fun k hk hsome => (h.keys k hk hsome).imp fun _ hm => hm.2]
  constructor
  · intro hsome
    obtain ⟨m, hm, heq⟩ := h.keys _ (Catalog.stem_prefix_key ..) hsome
    rwa [Catalog.key_inj heq]
  · intro hn
    obtain ⟨i, hi, rfl⟩ := mem_indexNames.mp hn
    rw [h.records i hi, Option.isSome_some]

theorem Listed.read (h : t.Listed S) (hi : i ∈ t.indexes) :
    Catalog.read S t.name i.name =
      .ok (some { i.record with userData := IndexRecord.storedData i.userData }) := by
  rw [Catalog.read_eq, h.records i hi]
  simp only
  rw [IndexRecord.decode_encode i.record (h.fits i hi)]
  rfl

/-- A tree without indexes is in agreement where none has a table or a record. -/
theorem listed_bare {path name : String} (tables : ∀ n, S.pairs? (indexTableName name n) = none)
    (records : ∀ k, Catalog.stem name <+: k → Catalog.lookup S k = none) :
    (bare path name).Listed S where
  tables n := by simp [tables n, indexNames, bare]
  keys k hk hsome := by simp [records k hk] at hsome
  records i hi := nomatch hi
  fits i hi := nomatch hi

/-- Saving the record of an attached index again changes nothing that is listed. -/
theorem Listed.saved (h : t.Listed S) (hi : i ∈ t.indexes) :
    t.Listed (Catalog.saved t.name i S) := by
  refine h.congr (fun _ => rfl) fun k _ => ?_
  by_cases hk : k = Catalog.key t.name i.name
  · rw [hk, Catalog.lookup_saved_self, h.records i hi]
  · exact Catalog.lookup_saved_ne hk

theorem mem_indexNames_attach (free : t.hasIndex i.name = false) :
    n ∈ (t.attach i free).indexNames ↔ n = i.name ∨ n ∈ t.indexNames := by
  simp [indexNames, attach, or_comm]

theorem mem_indexNames_detach {m : String} :
    n ∈ (t.detach m).indexNames ↔ n ≠ m ∧ n ∈ t.indexNames := by
  simp only [mem_indexNames, detach, List.mem_filter, bne_iff_ne]
  constructor
  · rintro ⟨i, ⟨hi, hne⟩, rfl⟩
    exact ⟨hne, i, hi, rfl⟩
  · rintro ⟨hne, i, hi, rfl⟩
    exact ⟨i, ⟨hi, hne⟩, rfl⟩

/-- A new index gets its table and its record, and no other index loses one. -/
theorem Listed.attach (h : t.Listed S) (free : t.hasIndex i.name = false)
    (fits : IndexRecord.Fits i.userData) : (t.attach i free).Listed (t.created i S) := by
  have hrefit := refitted_created t i S
  refine ⟨fun n => ?_, fun k hk hsome => ?_, fun j hj => ?_, fun j hj => ?_⟩
  · rw [mem_indexNames_attach]
    change ((t.created i S).pairs? (indexTableName t.name n)).isSome ↔ _
    by_cases hn : n = i.name
    · simp [hn, hrefit.self]
    · simp [hn, hrefit.pairs?_ne hn, h.tables]
  · by_cases hkey : k = Catalog.key t.name i.name
    · exact ⟨i.name, (mem_indexNames_attach free).mpr (.inl rfl), hkey⟩
    · have hsame : Catalog.lookup (t.created i S) k = Catalog.lookup S k :=
        Catalog.lookup_saved_ne hkey
      obtain ⟨n, hn, heq⟩ := h.keys k hk (hsame ▸ hsome)
      exact ⟨n, (mem_indexNames_attach free).mpr (.inr hn), heq⟩
  · rcases List.mem_append.mp hj with hj | hj
    · have hkey : Catalog.key t.name j.name ≠ Catalog.key t.name i.name := fun heq =>
        name_ne_of_hasIndex free hj (Catalog.key_inj heq)
      exact (Catalog.lookup_saved_ne hkey).trans (h.records j hj)
    · obtain rfl : j = i := List.mem_singleton.mp hj
      exact Catalog.lookup_saved_self ..
  · rcases List.mem_append.mp hj with hj | hj
    · exact h.fits j hj
    · rwa [List.mem_singleton.mp hj]

theorem Listed.detach (h : t.Listed S) (n : String) : (t.detach n).Listed (t.dropped n S) := by
  have hrefit := refitted_dropped t n S
  refine ⟨fun m => ?_, fun k hk hsome => ?_, fun j hj => ?_, fun j hj => ?_⟩
  · rw [mem_indexNames_detach]
    change ((t.dropped n S).pairs? (indexTableName t.name m)).isSome ↔ _
    by_cases hm : m = n
    · simp [hm, hrefit.self]
    · simp [hm, hrefit.pairs?_ne hm, h.tables]
  · have hkey : k ≠ Catalog.key t.name n := by
      rintro rfl
      simp [dropped, Catalog.lookup_removed_self] at hsome
    have hsame : Catalog.lookup (t.dropped n S) k = Catalog.lookup S k :=
      Catalog.lookup_removed_ne hkey
    obtain ⟨m, hm, heq⟩ := h.keys k hk (hsame ▸ hsome)
    exact ⟨m, mem_indexNames_detach.mpr ⟨fun hmn => hkey (hmn ▸ heq), hm⟩, heq⟩
  · obtain ⟨hj, hne⟩ := List.mem_filter.mp hj
    have hkey : Catalog.key t.name j.name ≠ Catalog.key t.name n := fun heq =>
      (bne_iff_ne.mp hne) (Catalog.key_inj heq)
    exact (Catalog.lookup_removed_ne hkey).trans (h.records j hj)
  · exact h.fits j (List.mem_filter.mp hj).1

/-! ## Changes of the indexes -/

theorem saveIndex_ok (h : (t.saveIndex allocated n).run d = (.ok (), d')) :
    ∃ i, t.index? n = some i ∧ d'.store = Catalog.saved t.name i d.store := by
  rw [saveIndex, Attempt.run_bind_eq_ok] at h
  obtain ⟨i, _, hfind, h⟩ := h
  obtain ⟨hi, rfl⟩ := Attempt.run_ofExcept_eq_ok.mp hfind
  obtain ⟨s, hstep, hstore⟩ := Database.store_of_write_ok h
  rw [Database.writer_on] at hstep
  obtain rfl := Catalog.run_save_ok hstep
  exact ⟨i, attached_eq_ok_iff.mp hi, hstore _ rfl⟩

theorem store_of_saveIndex_error {e : Failure}
    (h : (t.saveIndex allocated n).run d = (.error e, d')) : d'.store = d.store := by
  rw [saveIndex, Attempt.run_bind, Attempt.run_ofExcept] at h
  cases hi : t.attached n with
  | error e =>
    simp only [hi] at h
    cases h
    rfl
  | ok i =>
    simp only [hi] at h
    exact Database.store_of_write_error h

/-- Every index that has a table is attached, so none is left to load. -/
theorem Listed.not_onFile (h : t.Listed d.store) (free : t.hasIndex i.name = false) :
    ¬ Index.OnFile d t.name n i := by
  intro honfile
  obtain ⟨j, hj, hname⟩ := mem_indexNames.mp ((h.tables n).mp honfile.2.1)
  exact name_ne_of_hasIndex free hj (hname.trans honfile.name_eq.symm)

end Tree

/-- A change of the indexes of a tree. -/
inductive IndexCall
  | addIndex (c : IndexConfig)
  | populate (name : String)
  | dropIndex (name : String)
  | saveIndex (name : String)
  | loadIndex (name : String)

/-- Makes the change through a handle and answers with the handle as it is then. -/
def IndexCall.step (allocated : Nat) (t : Tree) : IndexCall → Attempt Database Tree
  | addIndex c => t.addIndex allocated c
  | populate name => do
    t.populate allocated name
    pure t
  | dropIndex name => t.dropIndex allocated name
  | saveIndex name => do
    t.saveIndex allocated name
    pure t
  | loadIndex name => do
    let d ← .state
    let t? ← .ofExcept (t.loadIndex d name)
    pure (t?.getD t)

namespace IndexCall
variable {allocated : Nat} {t t' : Tree} {d d' : Database}

theorem store_of_step_error {c : IndexCall} {e : Failure}
    (h : (c.step allocated t).run d = (.error e, d')) : d'.store = d.store := by
  cases c with
  | addIndex c => exact Tree.store_of_addIndex_error h
  | populate name =>
    change (t.populate allocated name >>= fun _ => pure t).run d = _ at h
    rw [Attempt.run_bind] at h
    split at h
    · cases h
    · rename_i hrun
      cases h
      exact Tree.store_of_populate_error hrun
  | dropIndex name => exact Tree.store_of_dropIndex_error h
  | saveIndex name =>
    change (t.saveIndex allocated name >>= fun _ => pure t).run d = _ at h
    rw [Attempt.run_bind] at h
    split at h
    · cases h
    · rename_i hrun
      cases h
      exact Tree.store_of_saveIndex_error hrun
  | loadIndex name =>
    rw [step, Attempt.run_bind_ok (Attempt.run_state d), Attempt.run_bind,
      Attempt.run_ofExcept] at h
    cases hload : t.loadIndex d name with
    | ok t? => simp [hload] at h
    | error e =>
      simp only [hload] at h
      cases h
      rfl

/-- What a change that goes through has done. -/
inductive Changes (t : Tree) (d : Database) : IndexCall → Tree → Database → Prop
  | added {c : IndexConfig} {i : Index} {d' : Database} (free : t.hasIndex i.name = false)
    (name : i.name = c.name) (data : i.userData = c.userData)
    (table : d.store.pairs? (t.indexTable i) = none → d.store.tableCount < d.maxTables)
    (records : d.store.table? recordTable = none →
      (d.store.putPairs (t.indexTable i) (t.pairsOf d.store i)).tableCount < d.maxTables)
    (store : d'.store = t.created i d.store) : Changes t d (.addIndex c) (t.attach i free) d'
  | populated {n : String} {i : Index} {T : Table} {P : PairTable} {d' : Database}
    (attached : t.index? n = some i) (entries : d.store.table? t.name = some T)
    (store : d'.store = d.store.putPairs (t.indexTable i) P) : Changes t d (.populate n) t d'
  | dropped {n : String} {d' : Database} (store : d'.store = t.dropped n d.store) :
    Changes t d (.dropIndex n) (t.detach n) d'
  | saved {n : String} {i : Index} {d' : Database} (attached : t.index? n = some i)
    (store : d'.store = Catalog.saved t.name i d.store) : Changes t d (.saveIndex n) t d'
  | loaded {n : String} {i : Index} (free : t.hasIndex i.name = false)
    (onFile : Index.OnFile d t.name n i) : Changes t d (.loadIndex n) (t.attach i free) d
  | passedOver {n : String} : Changes t d (.loadIndex n) t d

theorem changes_of_step_ok {c : IndexCall} (h : (c.step allocated t).run d = (.ok t', d')) :
    c.Changes t d t' d' := by
  cases c with
  | addIndex c =>
    obtain ⟨i, free, rfl, hname, hdata, -, hwrite⟩ := Tree.run_addIndex_ok h
    obtain ⟨hstore, table, records⟩ := Tree.createIndex_ok hwrite
    exact .added free hname hdata table records hstore
  | populate name =>
    rw [step, Attempt.run_bind_eq_ok] at h
    obtain ⟨_, d₁, hrun, h⟩ := h
    cases h
    obtain ⟨i, T, P, hfind, hT, -, hstore⟩ := Tree.populate_ok hrun
    exact .populated hfind hT hstore
  | dropIndex name =>
    obtain ⟨rfl, hstore⟩ := Tree.dropIndex_ok h
    exact .dropped hstore
  | saveIndex name =>
    rw [step, Attempt.run_bind_eq_ok] at h
    obtain ⟨_, d₁, hrun, h⟩ := h
    cases h
    obtain ⟨i, hfind, hstore⟩ := Tree.saveIndex_ok hrun
    exact .saved hfind hstore
  | loadIndex name =>
    rw [step, Attempt.run_bind_ok (Attempt.run_state d), Attempt.run_bind_eq_ok] at h
    obtain ⟨t?, d₁, hrun, h⟩ := h
    obtain ⟨hload, rfl⟩ := Attempt.run_ofExcept_eq_ok.mp hrun
    cases h
    cases t? with
    | none => exact .passedOver
    | some t₁ =>
      obtain ⟨i, free, honfile, rfl⟩ := Tree.onFile_of_loadIndex hload
      exact .loaded free honfile

/-- A change answers with a handle on the same tree. -/
theorem Changes.handle {c : IndexCall} (h : c.Changes t d t' d') :
    t'.name = t.name ∧ t'.database = t.database := by
  cases h <;> exact ⟨rfl, rfl⟩

/-- A change writes what one of the operations on indexes writes. -/
theorem respects_step {Q : Database → Database → Prop} [IsPreorder Database Q]
    (add : ∀ c, (t.addIndex allocated c).Respects Q)
    (populate : ∀ n, (t.populate allocated n).Respects Q)
    (drop : ∀ n, (t.dropIndex allocated n).Respects Q)
    (save : ∀ n, (t.saveIndex allocated n).Respects Q)
    (c : IndexCall) : (c.step allocated t).Respects Q := by
  cases c with
  | addIndex c => exact add c
  | populate name => exact (populate name).bind fun _ => Attempt.respects_pure t
  | dropIndex name => exact drop name
  | saveIndex name => exact (save name).bind fun _ => Attempt.respects_pure t
  | loadIndex name =>
    exact Attempt.respects_state.bind fun _ => (Attempt.respects_ofExcept _).bind fun _ =>
      Attempt.respects_pure _

theorem keepsSettings_step (c : IndexCall) (t : Tree) :
    Database.KeepsSettings (c.step allocated t) :=
  respects_step Tree.keepsSettings_addIndex Tree.keepsSettings_populate Tree.keepsSettings_dropIndex
    Tree.keepsSettings_saveIndex c

theorem confined_step (c : IndexCall) (t : Tree) :
    Database.Confined t.name (c.step allocated t) :=
  respects_step Tree.confined_addIndex Tree.confined_populate Tree.confined_dropIndex
    Tree.confined_saveIndex c

/-- A change that goes through keeps the lists in agreement. -/
theorem Changes.listed {c : IndexCall} (h : c.Changes t d t' d') (listed : t.Listed d.store)
    (fits : ∀ c', c = addIndex c' → IndexRecord.Fits c'.userData) : t'.Listed d'.store := by
  cases h with
  | @added c i _ free _ data _ _ store =>
    exact store ▸ listed.attach free (data ▸ fits c rfl)
  | @populated n i T P _ attached _ store =>
    have hrefit := t.refitted_putPairs i P d.store
    refine store ▸ listed.congr (fun m => ?_) fun _ _ => rfl
    by_cases hm : m = i.name
    · have hi := (Tree.index?_eq_some attached).1
      rw [hm, hrefit.self, (listed.tables i.name).mpr (Tree.mem_indexNames.mpr ⟨i, hi, rfl⟩),
        Option.isSome_some]
    · rw [hrefit.pairs?_ne hm]
  | @dropped n _ store => exact store ▸ listed.detach n
  | saved attached store => exact store ▸ listed.saved (Tree.index?_eq_some attached).1
  | loaded free onFile => exact absurd onFile (listed.not_onFile free)
  | passedOver => exact listed

/-! ## Runs -/

/-- What the storage below refuses for reasons of its own: the failure, and the counters then. -/
abbrev Refusal := IndexCall → Database → Tree → Option (Failure × Statistics)

/-- No value is kept that is too long for its length to be written in four bytes. -/
def Refusal.Bounded (refuse : Refusal) : Prop :=
  ∀ c d t, ¬ IndexRecord.Fits c.userData → (refuse (addIndex c) d t).isSome

/-- Makes a change through the handle at hand, unless the storage refuses it. -/
def attempt (allocated : Nat) (refuse : Refusal) (c : IndexCall) :
    Attempt (Database × Tree) Unit := fun (d, t) =>
  match refuse c d t with
  | some (e, statistics) => (.error e, { d with statistics := statistics }, t)
  | none =>
    match (c.step allocated t).run d with
    | (.ok t, d) => (.ok (), d, t)
    | (.error e, d) => (.error e, d, t)

/-- What can happen next to a database and a handle: a change through the handle, or anything that
leaves alone what belongs to the tree. -/
inductive Step (refuse : Refusal) : Database × Tree → Database × Tree → Prop
  | call (h : Database × Tree) (c : IndexCall) (allocated : Nat) :
    Step refuse h ((c.attempt allocated refuse).run h).2
  | elsewhere (h : Database × Tree) {d : Database} (same : h.1.store.SameTree h.2.name d.store) :
    Step refuse h (d, h.2)

variable {allocated : Nat} {refuse : Refusal} {h h' : Database × Tree} {name : String}

/-- A change that fails leaves the handle and the store as they were. -/
theorem unchanged_of_attempt_error {c : IndexCall} {e : Failure}
    (hrun : (c.attempt allocated refuse).run h = (.error e, h')) :
    h'.2 = h.2 ∧ h'.1.store = h.1.store := by
  simp only [Attempt.run, attempt] at hrun
  split at hrun
  · cases hrun
    exact ⟨rfl, rfl⟩
  · split at hrun
    · cases hrun
    · rename_i hstep
      cases hrun
      exact ⟨rfl, store_of_step_error hstep⟩

/-- The handle is on the tree of the name, and the lists agree. -/
structure Kept (name : String) (h : Database × Tree) : Prop where
  named : h.2.name = name
  listed : h.2.Listed h.1.store

theorem Kept.attempt (bounded : refuse.Bounded) (hk : Kept name h) (c : IndexCall)
    (allocated : Nat) :
    Kept name ((c.attempt allocated refuse).run h).2 := by
  cases hrun : (c.attempt allocated refuse).run h with
  | mk r h' =>
    cases r with
    | error e =>
      obtain ⟨hhandle, hstore⟩ := unchanged_of_attempt_error hrun
      refine ⟨hhandle ▸ hk.named, ?_⟩
      rw [hhandle, hstore]
      exact hk.listed
    | ok _ =>
      simp only [Attempt.run, IndexCall.attempt] at hrun
      split at hrun
      · cases hrun
      · rename_i accepted
        split at hrun
        · rename_i hstep
          cases hrun
          -- what the storage has not refused has room in a record
          have fits : ∀ c', c = addIndex c' → IndexRecord.Fits c'.userData := by
            rintro c' rfl
            by_contra hlong
            simpa [accepted] using bounded c' h.1 h.2 hlong
          have hchanges := changes_of_step_ok hstep
          exact ⟨hchanges.handle.1.trans hk.named, hchanges.listed hk.listed fits⟩
        · cases hrun

theorem Kept.step (bounded : refuse.Bounded) (hk : Kept name h) (hstep : Step refuse h h') :
    Kept name h' := by
  cases hstep with
  | call c allocated => exact hk.attempt bounded c allocated
  | elsewhere same =>
    exact ⟨hk.named, hk.listed.congr (fun n => by rw [same.indexes]) same.records⟩

theorem Kept.run (bounded : refuse.Bounded) (hk : Kept name h)
    (hrun : Relation.ReflTransGen (Step refuse) h h') : Kept name h' := by
  induction hrun with
  | refl => exact hk
  | tail _ hstep ih => exact ih.step bounded hstep

/-- Of a tree that is created where nothing belongs to its name, the attached indexes, those on
record and those with a table are the same, whatever changes have been made through the handle and
however they ended. A change that fails leaves all of this as it was. -/
theorem index_lists_agree {d d' : Database} {t : Tree} (bounded : refuse.Bounded)
    (clear : d.store.Without name)
    (created : (Database.openTree allocated name true).run d = (.ok t, d'))
    (run : Relation.ReflTransGen (Step refuse) (d', t) h) :
    h.2.indexNames.Nodup ∧
      (∀ n, n ∈ Catalog.names h.1.store name ↔ n ∈ h.2.indexNames) ∧
      (∀ n, (h.1.store.pairs? (indexTableName name n)).isSome ↔ n ∈ h.2.indexNames) ∧
      (∀ i ∈ h.2.indexes, Catalog.read h.1.store name i.name = .ok (some
        ⟨i.extractorId, indexFlags i.unique i.sparse, IndexRecord.storedData i.userData⟩)) ∧
      ∀ allocated c e h', (attempt allocated refuse c).run h = (.error e, h') →
        h'.2 = h.2 ∧ h'.1.store = h.1.store := by
  have named := (checkTreeName_eq_ok (Database.openTree_ok created).1).1
  obtain ⟨rfl, hstore⟩ := Database.openTree_bare clear.table clear.indexes created
  have hstart : Kept name (d', Tree.bare d'.path name) := by
    refine ⟨rfl, Tree.listed_bare (fun n => ?_) fun k hk => ?_⟩
    · rw [hstore, Store.pairs?_putTable, clear.indexes]
    · rw [hstore, Catalog.lookup, Store.table?_putTable_ne _ _ named.symm]
      exact clear.records k hk
  obtain ⟨rfl, listed⟩ := hstart.run bounded run
  exact ⟨h.2.distinct, listed.names, listed.tables, fun i hi => listed.read hi,
    fun _ c e h' => unchanged_of_attempt_error⟩

/-- Values of more than three gibibytes are refused. -/
def overThreeGibibytes : Refusal := fun c d _ =>
  match c with
  | addIndex c =>
    let bytes := IndexRecord.headerSize + (c.userData.getD []).length
    if 3221225472 < bytes then some (.valueTooLarge bytes, d.statistics) else none
  | _ => none

theorem bounded_overThreeGibibytes : Refusal.Bounded overThreeGibibytes := by
  intro c d t hlong
  have hbytes : 3221225472 < IndexRecord.headerSize + (c.userData.getD []).length := by
    unfold IndexRecord.Fits at hlong
    omega
  simp only [overThreeGibibytes, if_pos hbytes, Option.isSome_some]

/-- An empty database with room for three tables. -/
def threeTables : Database := { Site.freshDatabase with maxTables := 3 }

/-- A new tree in it. -/
def crowded : Database × Tree :=
  (((Database.openTree 4096 "t" true).run threeTables).2, .bare "db" "t")

/-- The second index finds no free slot, and takes that of the first one when it is gone. -/
def crowdedCalls : List IndexCall :=
  [.addIndex { name := "a", unique := true }, .addIndex { name := "b", unique := true },
    .saveIndex "a", .loadIndex "a", .dropIndex "a", .addIndex { name := "b", unique := true }]

/-- Calls made one after another are a run. -/
theorem run_calls (allocated : Nat) (refuse : Refusal) (h : Database × Tree)
    (calls : List IndexCall) : Relation.ReflTransGen (Step refuse) h
      (calls.foldl (fun h c => ((c.attempt allocated refuse).run h).2) h) := by
  induction calls generalizing h with
  | nil => exact .refl
  | cons c rest ih => exact (ih _).head (.call h c allocated)

theorem index_lists_agree_crowded :
    let h := crowdedCalls.foldl (fun h c => ((c.attempt 4096 overThreeGibibytes).run h).2) crowded
    let (r, h') :=
      (attempt 4096 overThreeGibibytes (.addIndex { name := "c", unique := true })).run h
    h.2.indexNames = ["b"] ∧ r = .error (.tableLimit 3) ∧ h'.2 = h.2 ∧
      h'.1.store = h.1.store ∧ "b" ∈ Catalog.names h.1.store "t" ∧
      "a" ∉ Catalog.names h.1.store "t" ∧ (h.1.store.pairs? (indexTableName "t" "b")).isSome := by
  intro h
  have clear : threeTables.store.Without "t" := ⟨rfl, fun _ => rfl, fun _ _ => rfl, rfl⟩
  have created : (Database.openTree 4096 "t" true).run threeTables =
      (.ok (.bare "db" "t"), crowded.1) := rfl
  obtain ⟨-, hnames, htables, -, hfailed⟩ := index_lists_agree bounded_overThreeGibibytes clear
    created (run_calls 4096 overThreeGibibytes crowded crowdedCalls)
  have hattached : h.2.indexNames = ["b"] := rfl
  have hrefused :
      (attempt 4096 overThreeGibibytes (.addIndex { name := "c", unique := true })).run h =
        (.error (.tableLimit 3), _) := rfl
  obtain ⟨hhandle, hstore⟩ := hfailed _ _ _ _ hrefused
  refine ⟨hattached, rfl, hhandle, hstore, (hnames "b").mpr ?_, fun ha => ?_, (htables "b").mpr ?_⟩
  · exact hattached ▸ List.mem_cons_self
  · have hmem := (hnames "a").mp ha
    rw [hattached] at hmem
    exact absurd hmem (by decide)
  · exact hattached ▸ List.mem_cons_self

end IndexCall
end IndexedStore
