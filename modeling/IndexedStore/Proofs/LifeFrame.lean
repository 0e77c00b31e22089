import IndexedStore.Tree.Lifecycle
import IndexedStore.Proofs.Frame
import IndexedStore.Proofs.Transactions

/-! # How far the life of indexes and trees reaches

Adding, populating, saving and dropping indexes and opening and deleting a tree stay within what
belongs to the tree, too. A deletion finds all of it: the index tables by the beginning of their
names, and the records because they lie together in the order of their keys.
-/
namespace IndexedStore
open Attempt

/-- Of several keys that are erased none is left, and no other is touched. -/
theorem OrderedMap.get?_foldl_erase {κ α : Type} {cmp : κ → κ → Ordering} [Std.LawfulEqCmp cmp]
    (l : List κ) (m : OrderedMap cmp α) (k : κ) :
    (k ∈ l → (l.foldl (fun m k => m.erase k) m).get? k = none) ∧
      (k ∉ l → (l.foldl (fun m k => m.erase k) m).get? k = m.get? k) := by
  induction l generalizing m with
  | nil => exact ⟨nofun, fun _ => rfl⟩
  | cons k' rest ih =>
    rw [List.foldl_cons]
    by_cases hrest : k ∈ rest
    · exact ⟨fun _ => (ih _).1 hrest, fun h => absurd (List.mem_cons_of_mem _ hrest) h⟩
    · rw [(ih _).2 hrest, List.mem_cons]
      refine ⟨fun h => ?_, fun h => get?_erase_ne m fun hk => h (.inl hk)⟩
      rw [h.resolve_right hrest, get?_erase_self]

namespace Catalog
variable {a : String} {S : Store}

theorem lookup_eq_getD (S : Store) (k : Bytes) :
    lookup S k = ((S.table? recordTable).getD .empty).get? k := by
  unfold lookup
  cases S.table? recordTable <;> rfl

theorem confined_save (i : Index) : Scope.Confined a (save a i) := by
  refine Scope.within_writable_bind fun s S => ?_
  rw [run_bind, run_ofExcept]
  cases hR : S.openTable recordTable with
  | error e => exact .refl _
  | ok R =>
    refine ⟨rfl, .working (Store.sameOutside_putRecords fun k hk => ?_)⟩
    have hne : k ≠ key a i.name := fun h => hk (h ▸ stem_prefix_key a i.name)
    rw [OrderedMap.get?_insert_ne _ _ hne, lookup_eq_getD, Store.openTable_eq_ok hR]

theorem confined_remove (i : String) : Scope.Confined a (remove a i) := by
  refine Scope.within_writable_bind fun s S => ?_
  cases hR : S.table? recordTable with
  | none => exact .refl _
  | some R =>
    refine ⟨rfl, .working (Store.sameOutside_putRecords fun k hk => ?_)⟩
    have hne : k ≠ key a i := fun h => hk (h ▸ stem_prefix_key a i)
    rw [OrderedMap.get?_erase_ne _ hne, lookup, hR, Option.bind_some]

theorem map_suffixes (stem : Bytes) (R : Table) :
    (suffixes stem R).map (fun x => stem ++ x) =
      (R.keys.filter fun k => (Bytes.cmp stem k).isLE).takeWhile fun k => stem.isPrefixOf k := by
  rw [suffixes, List.map_map]
  refine (List.map_congr_left fun k hk => ?_).trans (List.map_id _)
  have hstem : stem <+: k := by
    rw [← List.isPrefixOf_iff_prefix]
    exact List.all_eq_true.mp List.all_takeWhile k hk
  exact List.prefix_iff_eq_append.mp hstem

/-- All keys that begin in the way asked for are found, and no other. -/
theorem mem_map_suffixes {stem k : Bytes} {R : Table} :
    k ∈ (suffixes stem R).map (fun x => stem ++ x) ↔ k ∈ R.keys ∧ stem <+: k := by
  constructor
  · intro h
    obtain ⟨x, -, rfl⟩ := List.mem_map.mp h
    rw [map_suffixes] at h
    have hkeys := ((List.takeWhile_sublist _).trans List.filter_sublist).subset h
    exact ⟨hkeys, List.prefix_append ..⟩
  · rintro ⟨hk, x, rfl⟩
    exact List.mem_map.mpr ⟨x, mem_suffixes hk, rfl⟩

theorem ordered_map_suffixes (stem : Bytes) (R : Table) :
    ((suffixes stem R).map fun x => stem ++ x).Pairwise fun k l => Bytes.cmp k l = .lt := by
  rw [map_suffixes]
  exact (List.pairwise_map.mpr R.ordered).sublist
    ((List.takeWhile_sublist _).trans List.filter_sublist)

/-- They are found in their order, so they are determined by which of them are there. -/
theorem suffixes_congr {stem : Bytes} {R R' : Table}
    (h : ∀ k, stem <+: k → R'.get? k = R.get? k) : suffixes stem R' = suffixes stem R := by
  have hmem : ∀ k, k ∈ (suffixes stem R').map (fun x => stem ++ x) ↔
      k ∈ (suffixes stem R).map fun x => stem ++ x := by
    intro k
    rw [mem_map_suffixes, mem_map_suffixes, OrderedMap.mem_keys, OrderedMap.mem_keys]
    exact and_congr_left fun hk => by rw [h k hk]
  refine List.map_injective_iff.mpr (List.append_right_injective stem)
    (List.Perm.eq_of_pairwise ?_ (ordered_map_suffixes ..) (ordered_map_suffixes ..)
      ((List.perm_ext_iff_of_nodup ((ordered_map_suffixes ..).imp OrderedMap.ne_of_lt)
        ((ordered_map_suffixes ..).imp OrderedMap.ne_of_lt)).mpr hmem))
  intro k l _ _ hkl hlk
  rw [Std.OrientedCmp.gt_of_lt hkl] at hlk
  cases hlk

theorem names_eq (S : Store) (a : String) :
    names S a = (suffixes (stem a) ((S.table? recordTable).getD .empty)).map Bytes.toText := by
  unfold names
  cases S.table? recordTable <;> rfl

theorem names_congr {S' : Store} (h : ∀ k, stem a <+: k → lookup S' k = lookup S k) :
    names S' a = names S a := by
  simp only [lookup_eq_getD] at h
  rw [names_eq, names_eq, suffixes_congr h]

/-- The store after every record of a tree has been removed. -/
def cleared (a : String) (S : Store) : Store :=
  match S.table? recordTable with
  | none => S
  | some R =>
    S.putTable recordTable
      (((suffixes (stem a) R).map fun x => stem a ++ x).foldl (fun R k => R.erase k) R)

theorem run_removeAll (a : String) (s : Scope) (S : Store) :
    (removeAll a).run (s.on S) = (.ok (), s.on (cleared a S)) := by
  rw [removeAll, run_bind_ok (Scope.run_writable s S), cleared]
  cases S.table? recordTable <;> rfl

theorem pairs?_cleared (a : String) (S : Store) (n : String) :
    (cleared a S).pairs? n = S.pairs? n := by
  unfold cleared
  cases S.table? recordTable <;> rfl

theorem lookup_cleared (a : String) (S : Store) (k : Bytes) :
    (stem a <+: k → lookup (cleared a S) k = none) ∧
      (¬ stem a <+: k → lookup (cleared a S) k = lookup S k) := by
  unfold cleared
  cases hR : S.table? recordTable with
  | none => simp [lookup, hR]
  | some R =>
    have herase := OrderedMap.get?_foldl_erase
      ((suffixes (stem a) R).map fun x => stem a ++ x) R k
    simp only [lookup, Store.table?_putTable_self, hR, Option.bind_some]
    refine ⟨fun hk => ?_, fun hk => herase.2 fun hmem => hk (mem_map_suffixes.mp hmem).2⟩
    by_cases hmem : k ∈ (suffixes (stem a) R).map fun x => stem a ++ x
    · exact herase.1 hmem
    -- what begins in this way and is not found is not there
    · rw [herase.2 hmem]
      by_contra hsome
      obtain ⟨raw, hraw⟩ := Option.ne_none_iff_exists'.mp hsome
      exact hmem (mem_map_suffixes.mpr ⟨OrderedMap.mem_keys.mpr ⟨raw, hraw⟩, hk⟩)

theorem sameOutside_cleared (a : String) (S : Store) : S.SameOutside a (cleared a S) where
  plain n _ hr := by
    unfold cleared
    cases S.table? recordTable with
    | none => rfl
    | some R => exact Store.table?_putTable_ne S _ hr
  paired n _ := pairs?_cleared a S n
  records k hk := (lookup_cleared a S k).2 hk

end Catalog

namespace Store
variable {a : String} {S S' : Store}

/-- Of several paired tables that are dropped none is left, and no other is touched. -/
theorem foldlM_dropPairs_ok {l : List String} (h : l.foldlM (fun S n => S.dropPairs n) S = .ok S') :
    S'.plain = S.plain ∧ (∀ n ∈ l, S'.pairs? n = none) ∧ ∀ n ∉ l, S'.pairs? n = S.pairs? n := by
  induction l generalizing S with
  | nil =>
    cases h
    exact ⟨rfl, nofun, fun _ _ => rfl⟩
  | cons m rest ih =>
    rw [List.foldlM_cons] at h
    cases hdrop : S.dropPairs m with
    | error e =>
      rw [hdrop] at h
      cases h
    | ok S₁ =>
      rw [hdrop] at h
      obtain ⟨hplain, hnone, hsame⟩ := ih h
      obtain rfl := eq_of_dropPairs hdrop
      refine ⟨hplain, fun n hn => ?_, fun n hn => ?_⟩
      · by_cases hrest : n ∈ rest
        · exact hnone n hrest
        · rw [hsame n hrest, (List.mem_cons.mp hn).resolve_right hrest]
          exact OrderedMap.get?_erase_self ..
      · rw [hsame n fun hrest => hn (List.mem_cons_of_mem _ hrest)]
        exact OrderedMap.get?_erase_ne _ fun hnm => hn (hnm ▸ List.mem_cons_self)

end Store

namespace Session
variable {α : Type} {R : Store → Store → Prop} [IsPreorder Store R] {step : Attempt Scope α}
  {allocated : Nat}

/-- What holds between the stores of a transaction holds between the committed stores. -/
theorem rel_write (h : Scope.Within R step) (σ : Session) :
    R σ.database.store ((write allocated step).run σ).2.database.store := by
  cases hw : (write allocated step).run σ with
  | mk r σ' =>
    cases r with
    | error e =>
      rw [store_of_write_error hw]
      exact refl_of R _
    | ok b =>
      obtain ⟨s, hrun, hstore⟩ := store_of_write_ok hw
      have hrel : σ.writer.txn.Rel R s.txn := by
        have hstep := h σ.writer
        rwa [Order.Preimage, hrun] at hstep
      cases hs : s.txn.view with
      | working S =>
        rw [hstore S hs]
        exact hrel.of_working rfl hs
      -- a writer stays one
      | _ =>
        have hview : View.Rel R (.working σ.database.store) s.txn.view := hrel.view
        rw [hs] at hview
        cases hview

end Session

namespace Database
variable {α : Type} {a : String} {step : Attempt Scope α} {allocated : Nat}

theorem confined_write (h : Scope.Confined a step) : Confined a (write allocated step) :=
  fun d => Session.rel_write h ⟨d, 0⟩

end Database

namespace Tree
variable {t : Tree} {allocated : Nat}

theorem confined_createIndex (d : Database) (i : Index) :
    Scope.Confined t.name (t.createIndex d i) := by
  have hrecord : Scope.Confined t.name (do
      let store ← Scope.writable
      if (store.table? recordTable).isNone then .ofExcept (d.requireSlot store)
      Catalog.save t.name i : Attempt Scope Unit) := by
    refine Scope.within_writable.bind fun S => ?_
    split
    · exact (respects_ofExcept _).bind fun _ => Catalog.confined_save i
    · exact Catalog.confined_save i
  refine Scope.within_writable.bind fun S => ?_
  split
  · exact (respects_ofExcept _).bind fun _ =>
      (Scope.confined_openPairsToWrite i.name).discard.bind fun _ => hrecord
  · exact hrecord

/-- Adding an index writes in one transaction, which creates the index. -/
theorem respects_addIndex {Q : Database → Database → Prop} [IsPreorder Database Q] (c : IndexConfig)
    (h : ∀ d i, (Database.write allocated (t.createIndex d i)).Respects Q) :
    (t.addIndex allocated c).Respects Q := by
  refine (respects_require _ _).bind fun _ => ?_
  split
  · exact respects_fail _
  · refine respects_state.bind fun d => ?_
    simp only
    split
    · exact respects_fail _
    · exact (h d _).bind fun _ => respects_pure _

theorem confined_addIndex (c : IndexConfig) : Database.Confined t.name (t.addIndex allocated c) :=
  respects_addIndex c fun d i => Database.confined_write (confined_createIndex d i)

theorem confined_populate (n : String) : Database.Confined t.name (t.populate allocated n) :=
  (respects_ofExcept _).bind fun i => Database.confined_write <|
    (Scope.within_openTable _).bind fun _ =>
      (Scope.confined_openPairsToWrite i.name).bind fun _ =>
        (respects_ofExcept _).bind fun _ => Scope.confined_putPairs i.name _

theorem confined_dropIndex (n : String) : Database.Confined t.name (t.dropIndex allocated n) := by
  refine (respects_ofExcept _).bind fun i => Respects.bind (Database.confined_write ?_) fun _ =>
    respects_pure _
  refine Scope.within_writable_bind fun s S => ?_
  rw [run_bind, run_ofExcept]
  cases hdrop : S.dropPairs (t.indexTable i) with
  | error e => exact .refl _
  | ok S' =>
    have hput : Txn.Rel (Store.SameOutside t.name) (s.on S).txn (s.on S').txn :=
      ⟨rfl, .working (Store.sameOutside_of_dropPairs hdrop)⟩
    exact trans_of (Txn.Rel _) hput (Catalog.confined_remove n (s.on S'))

theorem confined_saveIndex (n : String) : Database.Confined t.name (t.saveIndex allocated n) :=
  (respects_ofExcept _).bind fun i => Database.confined_write (Catalog.confined_save i)

end Tree

namespace Database
variable {a : String} {allocated : Nat}

/-- Opening a tree writes in one transaction at most, which creates the tree. -/
theorem respects_openTree {Q : Database → Database → Prop} [IsPreorder Database Q] (create : Bool)
    (h : checkTreeName a = .ok () → ∀ d : Database, (write allocated (d.createTree a)).Respects Q) :
    (openTree allocated a create).Respects Q := by
  cases hname : checkTreeName a with
  | error e =>
    rw [openTree, hname]
    exact respects_fail e
  | ok _ =>
    refine (respects_ofExcept _).bind fun _ => respects_state.bind fun d => ?_
    have hrest : (do
        let d ← .state
        pure ((Tree.bare d.path a).loadRecorded d) : Attempt Database Tree).Respects Q :=
      respects_state.bind fun _ => respects_pure _
    split
    · exact (respects_require _ _).bind fun _ => (h hname d).bind fun _ => hrest
    · exact hrest

theorem confined_openTree (create : Bool) : Confined a (openTree allocated a create) := by
  refine respects_openTree create fun hname d => confined_write ?_
  refine Scope.within_writable.bind fun S => ?_
  split
  · exact (respects_ofExcept _).bind fun _ => (respects_ofExcept _).bind fun T =>
      Scope.confined_putTable (checkTreeName_eq_ok hname).1 T
  · exact respects_pure _

theorem store_of_openTree_error {d d' : Database} {create : Bool} {e : Failure}
    (h : (openTree allocated a create).run d = (.error e, d')) : d'.store = d.store := by
  rw [openTree, run_bind, run_ofExcept] at h
  cases hname : checkTreeName a with
  | error e =>
    rw [hname] at h
    cases h
    rfl
  | ok _ =>
    simp only [hname, run_bind_ok (run_state d)] at h
    split at h
    · cases hallowed : create && !d.flags.readOnly with
      | false =>
        rw [run_bind, run_require, hallowed] at h
        cases h
        rfl
      | true =>
        rw [hallowed, run_bind_ok (run_require ..), run_bind] at h
        split at h
        · cases h
        · rename_i hwrite
          cases h
          exact store_of_write_error hwrite
    · cases h

/-- A deleted tree was there, and its tables and records go in one transaction. -/
theorem dropTree_ok {d d' : Database} (h : (dropTree allocated a).run d = (.ok (), d')) :
    checkTreeName a = .ok () ∧ (d.store.table? a).isSome = true ∧
      ∃ S, (indexTablesOf d.store a).foldlM (fun S n => S.dropPairs n) d.store = .ok S ∧
        (Catalog.cleared a S).dropTable a = .ok d'.store := by
  rw [dropTree, run_bind_eq_ok] at h
  obtain ⟨_, _, hchecked, h⟩ := h
  obtain ⟨hname, rfl⟩ := run_ofExcept_eq_ok.mp hchecked
  obtain ⟨s, hstep, hstore⟩ := store_of_write_ok h
  rw [writer_on, run_bind_ok (Scope.run_writable ..), run_bind_eq_ok] at hstep
  obtain ⟨_, _, hthere, hstep⟩ := hstep
  rw [run_require] at hthere
  obtain ⟨hanswer, rfl⟩ := Prod.mk.inj hthere
  rw [run_bind_eq_ok] at hstep
  obtain ⟨S, _, hdropped, hstep⟩ := hstep
  obtain ⟨hdrop, rfl⟩ := run_ofExcept_eq_ok.mp hdropped
  rw [run_bind_ok (Scope.run_put ..), run_bind_ok (Catalog.run_removeAll ..),
    run_bind_ok (Scope.run_writable ..), run_bind_eq_ok] at hstep
  obtain ⟨S', _, hended, hstep⟩ := hstep
  obtain ⟨hlast, rfl⟩ := run_ofExcept_eq_ok.mp hended
  rw [Scope.run_put] at hstep
  cases hstep
  refine ⟨hname, ?_, S, hdrop, ?_⟩
  · split at hanswer
    · assumption
    · cases hanswer
  · rw [hstore S' rfl]
    exact hlast

theorem writable_of_dropTree {d d' : Database} (h : (dropTree allocated a).run d = (.ok (), d')) :
    d.flags.readOnly = false := by
  rw [dropTree, run_bind_eq_ok] at h
  obtain ⟨_, _, hchecked, h⟩ := h
  obtain ⟨-, rfl⟩ := run_ofExcept_eq_ok.mp hchecked
  exact writable_of_write_ok h

theorem mem_indexTablesOf {S : Store} {n : String} :
    n ∈ indexTablesOf S a ↔ (S.pairs? n).isSome = true ∧ ∃ i, n = indexTableName a i := by
  rw [indexTablesOf, List.mem_filter, OrderedMap.mem_keys, List.isPrefixOf_iff_prefix,
    exists_eq_indexTableName_iff, Option.isSome_iff_exists]
  rfl

theorem store_of_dropTree_error {d d' : Database} {e : Failure}
    (h : (dropTree allocated a).run d = (.error e, d')) : d'.store = d.store := by
  rw [dropTree, run_bind, run_ofExcept] at h
  cases hname : checkTreeName a with
  | error e =>
    rw [hname] at h
    cases h
    rfl
  | ok _ =>
    rw [hname] at h
    exact store_of_write_error h

theorem confined_dropTree : Confined a (dropTree allocated a) := by
  intro d
  change d.store.SameOutside a ((dropTree allocated a).run d).2.store
  cases hrun : (dropTree allocated a).run d with
  | mk r d' =>
    cases r with
    | error e =>
      rw [store_of_dropTree_error hrun]
      exact .refl a _
    | ok _ =>
      obtain ⟨hname, -, S, hdrop, hlast⟩ := dropTree_ok hrun
      obtain ⟨hplain, -, hsame⟩ := Store.foldlM_dropPairs_ok hdrop
      have hpaired : d.store.SameOutside a S := by
        refine ⟨fun n _ _ => ?_, fun n hn => ?_, fun k _ => ?_⟩
        · rw [Store.table?, Store.table?, hplain]
        · exact hsame n fun hmem => (mem_indexTablesOf.mp hmem).2.elim hn
        · rw [Catalog.lookup, Catalog.lookup, Store.table?, Store.table?, hplain]
      exact (hpaired.trans (Catalog.sameOutside_cleared a S)).trans
        (Store.sameOutside_of_dropTable (checkTreeName_eq_ok hname).1 hlast)

/-- Nothing that belongs to a deleted tree is left. -/
theorem gone_of_dropTree {d d' : Database} (h : (dropTree allocated a).run d = (.ok (), d')) :
    d'.store.table? a = none ∧ (∀ i, d'.store.pairs? (indexTableName a i) = none) ∧
      ∀ k, Catalog.stem a <+: k → Catalog.lookup d'.store k = none := by
  obtain ⟨hname, -, S, hdrop, hlast⟩ := dropTree_ok h
  have named := (checkTreeName_eq_ok hname).1
  obtain ⟨-, hnone, hsame⟩ := Store.foldlM_dropPairs_ok hdrop
  have hS : d'.store = { Catalog.cleared a S with plain := (Catalog.cleared a S).plain.erase a } :=
    Store.eq_of_dropTable hlast
  rw [hS]
  refine ⟨OrderedMap.get?_erase_self .., fun i => ?_, fun k hk => ?_⟩
  · change (Catalog.cleared a S).pairs? _ = none
    rw [Catalog.pairs?_cleared]
    by_cases hmem : indexTableName a i ∈ indexTablesOf d.store a
    · exact hnone _ hmem
    · rw [hsame _ hmem]
      by_contra hsome
      exact hmem (mem_indexTablesOf.mpr ⟨Option.isSome_iff_ne_none.mpr hsome, i, rfl⟩)
  · have hother := OrderedMap.get?_erase_ne (Catalog.cleared a S).plain named.symm
    have hlookup := (Catalog.lookup_cleared a S k).1 hk
    unfold Catalog.lookup Store.table? at hlookup ⊢
    rwa [hother]

end Database

/-! ## What stays while a database is open -/

namespace Database
variable {α : Type} {allocated : Nat}

/-- Where the database lies, how many tables it may have and how it was opened. -/
def settings (d : Database) : String × Nat × OpenFlags := (d.path, d.maxTables, d.flags)

/-- The step leaves the settings of the database. -/
abbrev KeepsSettings (x : Attempt Database α) : Prop :=
  x.Respects (Order.Preimage settings (· = ·))

theorem KeepsSettings.settings_eq {x : Attempt Database α} (h : KeepsSettings x) {d d' : Database}
    {r : Except Failure α} (hrun : x.run d = (r, d')) : d'.settings = d.settings := by
  have hstep : d.settings = (x.run d).2.settings := h d
  rw [hrun] at hstep
  exact hstep.symm

theorem settings_commit (allocated : Nat) (x : Txn) (d : Database) :
    ((commit allocated x).run d).2.settings = d.settings := by
  rw [state_commit]
  rfl

theorem settings_abort (x : Txn) (d : Database) : (d.abort x).settings = d.settings := by
  unfold abort
  split <;> rfl

theorem settings_settle (x : Txn) (r : Except Failure α) (d : Database) :
    ((settle allocated x r).run d).2.settings = d.settings := by
  cases r with
  | error e => exact settings_abort x d
  | ok a =>
    have hcommit := settings_commit allocated x d
    simp only [settle, Attempt.run] at hcommit ⊢
    split <;> rename_i hrun <;> rwa [hrun] at hcommit

theorem keepsSettings_write (step : Attempt Scope α) : KeepsSettings (write allocated step) := by
  intro d
  change d.settings = ((write allocated step).run d).2.settings
  rw [run_write, Session.run_write]
  split
  · rfl
  · rcases step.run _ with ⟨r, s⟩
    exact (settings_settle s.txn r { d with statistics := s.statistics }).symm

theorem keepsSettings_openTree (name : String) (create : Bool) :
    KeepsSettings (openTree allocated name create) :=
  respects_openTree create fun _ _ => keepsSettings_write _

theorem respects_resize {Q : Database → Database → Prop} [IsPreorder Database Q] (size : Nat)
    (h : ∀ d : Database, Q d { d with mapSize := size }) : (resize size).Respects Q :=
  (respects_require _ _).bind fun _ => (respects_update h).bind fun _ => respects_pure size

theorem keepsSettings_dropTree (name : String) : KeepsSettings (dropTree allocated name) :=
  (respects_ofExcept _).bind fun _ => keepsSettings_write _

end Database

namespace Tree
variable {t : Tree} {allocated : Nat}

theorem keepsSettings_addIndex (c : IndexConfig) :
    Database.KeepsSettings (t.addIndex allocated c) :=
  respects_addIndex c fun _ _ => Database.keepsSettings_write _

theorem keepsSettings_populate (n : String) : Database.KeepsSettings (t.populate allocated n) :=
  (respects_ofExcept _).bind fun _ => Database.keepsSettings_write _

theorem keepsSettings_dropIndex (n : String) : Database.KeepsSettings (t.dropIndex allocated n) :=
  (respects_ofExcept _).bind fun _ => (Database.keepsSettings_write _).bind fun _ => respects_pure _

theorem keepsSettings_saveIndex (n : String) : Database.KeepsSettings (t.saveIndex allocated n) :=
  (respects_ofExcept _).bind fun _ => Database.keepsSettings_write _

end Tree
end IndexedStore
