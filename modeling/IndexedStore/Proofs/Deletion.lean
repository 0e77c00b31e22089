import IndexedStore.Proofs.Hall

/-! # A deleted tree stays deleted

A deletion takes the table of a tree, the tables of its indexes and their records. Handles on the
tree stay, but none of them can bring its table back, so nothing is read or written through them.
Two things still get past the missing table. Adding or saving an index puts its record on file, and
the table of an index comes into being when the index is added or when a cursor runs over it in a
write transaction. Nothing else of the tree returns.
-/
namespace IndexedStore

/-! ## What is left of a tree -/

/-- Nothing is left of the tree of a name but tables and records of certain indexes. -/
structure Store.Residue (a : String) (l : List String) (S : Store) : Prop where
  table : S.table? a = none
  indexes : ∀ n, (S.pairs? (indexTableName a n)).isSome → n ∈ l
  records : ∀ k, Catalog.stem a <+: k → (Catalog.lookup S k).isSome →
    ∃ n ∈ l, k = Catalog.key a n

/-- If no more than certain indexes is left of the tree, it stays so. -/
def Store.KeepsResidue (a : String) (l : List String) (S S' : Store) : Prop :=
  S.Residue a l → S'.Residue a l

namespace Store
variable {a n : String} {l l' : List String} {S S' : Store}

instance (a : String) (l : List String) : IsPreorder Store (KeepsResidue a l) where
  refl _ := id
  trans _ _ _ h h' := h' ∘ h

theorem Residue.mono (h : S.Residue a l) (hl : l ⊆ l') : S.Residue a l' where
  table := h.table
  indexes n hn := hl (h.indexes n hn)
  records k hk hsome := (h.records k hk hsome).imp fun _ => And.imp_left (@hl _)

theorem Residue.congr (h : S.Residue a l) (same : S.SameTree a S') : S'.Residue a l where
  table := same.table.trans h.table
  indexes n hn := h.indexes n (same.indexes n ▸ hn)
  records k hk hsome := h.records k hk (same.records k hk ▸ hsome)

/-- Without indexes that may be left nothing is. -/
theorem residue_nil_iff : S.Residue a [] ↔ S.Without a := by
  refine ⟨fun h => ?_, fun h => ⟨h.table, fun n hn => ?_, fun k hk hsome => ?_⟩⟩
  · have hrecords : ∀ k, Catalog.stem a <+: k → Catalog.lookup S k = none := by
      intro k hk
      by_contra hsome
      obtain ⟨_, hmem, -⟩ := h.records k hk (Option.isSome_iff_ne_none.mpr hsome)
      cases hmem
    refine ⟨h.table, fun n => ?_, hrecords, Catalog.names_congr (S := Store.empty) hrecords⟩
    by_contra hsome
    cases h.indexes n (Option.isSome_iff_ne_none.mpr hsome)
  · simp [h.indexes n] at hn
  · simp [h.records k hk] at hsome

theorem Residue.putPairs (ha : checkTreeName a = .ok ()) (h : S.Residue a l) (hn : n ∈ l)
    (P : PairTable) : (S.putPairs (indexTableName a n) P).Residue a l where
  table := h.table
  indexes m hm := by
    obtain ⟨-, -, hcolon⟩ := checkTreeName_eq_ok ha
    rcases (S.isSome_pairs?_putPairs _ P _).mp hm with heq | hm
    · rwa [((indexTableName_eq_iff hcolon hcolon).mp heq).2]
    · exact h.indexes m hm
  records k hk hsome := h.records k hk hsome

theorem Residue.saved (ha : checkTreeName a = .ok ()) (h : S.Residue a l) {i : Index}
    (hi : i.name ∈ l) : (Catalog.saved a i S).Residue a l where
  table := (Catalog.table?_saved_ne i (checkTreeName_eq_ok ha).1).trans h.table
  indexes m hm := h.indexes m hm
  records k hk hsome := by
    by_cases hkey : k = Catalog.key a i.name
    · exact ⟨i.name, hi, hkey⟩
    · exact h.records k hk (Catalog.lookup_saved_ne hkey ▸ hsome)

theorem Residue.dropped {t : Tree} (ha : checkTreeName t.name = .ok ()) (h : S.Residue t.name l)
    (n : String) : (t.dropped n S).Residue t.name l := by
  have hrefit := t.refitted_dropped n S
  refine ⟨(hrefit.plain _ (checkTreeName_eq_ok ha).1).trans h.table, fun m hm => ?_,
    fun k hk hsome => ?_⟩
  · by_cases hmn : m = n
    · simp [hmn, hrefit.self] at hm
    · rw [hrefit.pairs?_ne hmn] at hm
      exact h.indexes m hm
  · by_cases hkey : k = Catalog.key t.name n
    · simp [hkey, Tree.dropped, Catalog.lookup_removed_self] at hsome
    · have hsame : Catalog.lookup (t.dropped n S) k = Catalog.lookup S k :=
        Catalog.lookup_removed_ne hkey
      exact h.records k hk (hsame ▸ hsome)

/-- What is written to an index table of the tree is one that may be left. -/
theorem keepsResidue_putPairs {b : String} (ha : checkTreeName a = .ok ())
    (hb : checkTreeName b = .ok ()) (S : Store) (P : PairTable) (left : b = a → n ∈ l) :
    S.KeepsResidue a l (S.putPairs (indexTableName b n) P) := by
  intro hS
  by_cases hba : b = a
  · exact hba ▸ (hba ▸ hS).putPairs hb (left hba) P
  · exact hS.congr ((sameOutside_putPairs b n S P).sameTree hb ha hba)

/-- The table of the tree is not there to be written. -/
theorem keepsResidue_putTable {b : String} (ha : checkTreeName a = .ok ())
    (hb : checkTreeName b = .ok ()) (S : Store) (T : Table) (there : (S.table? b).isSome) :
    S.KeepsResidue a l (S.putTable b T) := by
  intro hS
  have hba : b ≠ a := by
    rintro rfl
    simp [hS.table] at there
  exact hS.congr ((sameOutside_putTable (checkTreeName_eq_ok hb).1 S T).sameTree hb ha hba)

end Store

/-- A cursor over a tree that is gone stands on no entry, and one over an index is over one that may
be left. -/
structure Cursor.Adrift (l : List String) (c : Cursor) : Prop where
  nowhere : c.index? = none → c.position = none
  within : ∀ i ∈ c.index?, i.name ∈ l

section Writes
variable {a : String} {l l' : List String} {t : Tree} {c : Cursor}

theorem Cursor.adrift_new (l : List String) : Adrift l ⟨none, none⟩ := ⟨fun _ => rfl, nofun⟩

theorem Cursor.Adrift.mono (h : c.Adrift l) (hl : l ⊆ l') : c.Adrift l' :=
  ⟨h.nowhere, fun i hi => hl (h.within i hi)⟩

theorem Tree.writes_keepsResidue (ha : checkTreeName a = .ok ())
    (ht : checkTreeName t.name = .ok ()) :
    t.Writes (Store.KeepsResidue a l) where
  entries S T there := S.keepsResidue_putTable ha ht T there
  pairs i _ S P there hS := by
    refine S.keepsResidue_putPairs ha ht P (fun hta => ?_) hS
    simp [hta, hS.table] at there

theorem Cursor.writes_keepsResidue (ha : checkTreeName a = .ok ())
    (ht : checkTreeName t.name = .ok ()) (adrift : t.name = a → c.Adrift l) :
    c.Writes t (Store.KeepsResidue a l) where
  pairs i hi S P := S.keepsResidue_putPairs ha ht P fun hta => (adrift hta).within i hi
  deletion hi hposition := by
    have hta : t.name ≠ a := fun hta => by simp [(adrift hta).nowhere hi] at hposition
    exact ⟨fun i _ S P => S.keepsResidue_putPairs ha ht P fun h => absurd h hta,
      fun S T there => S.keepsResidue_putTable ha ht T there⟩

end Writes

/-! ## Changes of the indexes -/

/-- The index that a change may bring back where the tree is gone. -/
def IndexCall.raised? : IndexCall → Option String
  | addIndex c => some c.name
  | saveIndex name => some name
  | _ => none

theorem IndexCall.Changes.residue {k : IndexCall} {t t' : Tree} {d d' : Database}
    {l : List String} (h : k.Changes t d t' d') (ht : checkTreeName t.name = .ok ())
    (left : d.store.Residue t.name l) (raised : ∀ n ∈ k.raised?, n ∈ l) :
    d'.store.Residue t.name l := by
  cases h with
  | @added c i _ _ name _ _ _ store =>
    have hi : i.name ∈ l := name ▸ raised c.name rfl
    exact store ▸ (left.putPairs ht hi _).saved ht hi
  | populated _ entries _ => cases left.table.symm.trans entries
  | @dropped n _ store => exact store ▸ left.dropped ht n
  | @saved n i _ attached store =>
    exact store ▸ left.saved ht ((Tree.index?_eq_some attached).2 ▸ raised n rfl)
  | loaded _ _ => exact left
  | passedOver => exact left

/-! ## Calls on one entry -/

/-- The key of a call that may change one entry. -/
def EntryCall.key? : EntryCall → Option Bytes
  | insert key _ => some key
  | update key _ => some key
  | upsert key _ => some key
  | delete key => some key
  | modify key _ => some key
  | _ => none

namespace Tree
open Scope (observed)
variable {t : Tree} {α β : Type} {x : Attempt Scope α} {key : Bytes}

/-- In a write transaction of its database the step fails for want of the table of the tree. -/
def Misses (t : Tree) (x : Attempt Scope α) : Prop :=
  ∀ (s : Scope) (S : Store), s.txn.database = t.database → S.table? t.name = none →
    (x.run (s.on S)).1 = .error (.tableMissing t.name)

theorem Misses.bind (hx : t.Misses x) (f : α → Attempt Scope β) : t.Misses (x >>= f) := by
  intro s S own missing
  rw [Attempt.run_bind]
  have hfails := hx s S own missing
  split <;> rename_i hrun <;> rw [hrun] at hfails
  · cases hfails
  · cases hfails
    rfl

theorem Misses.discard (hx : t.Misses x) : t.Misses (discard x : Attempt Scope Unit) := hx.bind _

theorem Misses.observed (hx : t.Misses x) : t.Misses (observed x) := by
  intro s S own missing
  rw [Scope.run_observed]
  have hfails := hx s S own missing
  split <;> rename_i hrun <;> rw [hrun] at hfails
  · cases hfails
  · exact hfails

theorem Misses.owned (hx : t.Misses x) : t.Misses (do t.requireOwn; x) := by
  intro s S own missing
  have hown : t.requireOwn.run (s.on S) = (.ok (), s.on S) := by
    rw [run_requireOwn, Scope.on_database, own, ifOwn_self]
  rw [Attempt.run_bind_ok hown]
  exact hx s S own missing

theorem Misses.keyed (hx : t.Misses x) (hkey : key ≠ []) : t.Misses (do requireKey key; x) := by
  intro s S own missing
  have hchecked : (requireKey key).run (s.on S) = (.ok (), s.on S) := by
    rw [run_requireKey, List.isEmpty_eq_false_iff.mpr hkey]
    rfl
  rw [Attempt.run_bind_ok hchecked]
  exact hx s S own missing

theorem misses_openTable : t.Misses (Scope.openTable t.name) := by
  intro s S _ missing
  rw [Scope.run_openTable, missing]

theorem misses_openTableToWrite : t.Misses (Scope.openTableToWrite t.name) := by
  intro s S _ missing
  rw [Scope.run_openTableToWrite, missing]

theorem misses_replaceEntry (hkey : key ≠ []) (value : Bytes) :
    t.Misses (t.replaceEntry key value) := (misses_openTableToWrite.bind _).keyed hkey

theorem misses_mergeEntry (hkey : key ≠ []) (value : Bytes) :
    t.Misses (t.mergeEntry key value) := by
  unfold mergeEntry
  cases t.merge? with
  | none => exact misses_replaceEntry hkey value
  | some merge => exact misses_openTable.bind _

theorem misses_current (key : Bytes) : t.Misses (t.current key) := by
  refine Misses.owned fun s S own missing => ?_
  rw [Attempt.run_bind_ok (Scope.run_writable s S)]
  exact misses_openTable.bind _ s S own missing

theorem misses_entryCall {c : EntryCall} (hc : c.key? = some key) (hkey : key ≠ []) :
    t.Misses (c.step t) := by
  cases c with
  | insert _ value =>
    cases hc
    exact (((misses_openTableToWrite.bind _).keyed hkey).bind _).owned.observed
  | update _ value =>
    cases hc
    exact ((misses_replaceEntry hkey value).bind _).owned.observed
  | upsert _ value =>
    cases hc
    exact ((misses_mergeEntry hkey value).bind _).owned.observed
  | delete _ => exact ((misses_openTableToWrite.bind _).bind _).owned.observed.discard
  | modify _ f => exact (misses_current _).bind _
  | _ => cases hc

end Tree

/-! ## Runs -/

/-- The index whose table or record a call may bring back where the tree is gone. -/
def HallCall.raised? : HallCall → Option String
  | inside _ _ c => c.sought?
  | index _ c _ => c.raised?
  | _ => none

namespace Hall

/-- The index that a call through a handle on the tree may bring back. -/
def raises (a : String) (w : Hall) (c : HallCall) : List String :=
  match w.waits c, w.aim c with
  | false, some (t, _) => if t.name = a then c.raised?.toList else []
  | _, _ => []

/-- The tree that a call opens. -/
def opens (w : Hall) : HallCall → List String
  | .openTree n create allocated =>
    match w.waits (.openTree n create allocated),
      ((Database.openTree allocated n create).run w.database).1 with
    | false, .ok _ => [n]
    | _, _ => []
  | _ => []

/-- Something holds of the committed store and of what a writer would commit. -/
structure Everywhere (I : Store → Prop) (w : Hall) : Prop where
  committed : I w.store
  working : ∀ o ∈ w.opened, ∀ S, o.txn.view = .working S → I S

/-- A writer would commit no more of the tree than may be left, and the places in its transaction
that are taken by handles on the tree are adrift. -/
def LeftIn (a : String) (l : List String) (S : Store) (places : List (Tree × Cursor)) : Prop :=
  S.Residue a l ∧ ∀ q ∈ places, q.1.name = a → q.2.Adrift l

/-- No more is left of the tree than tables and records of certain indexes. -/
structure Left (a : String) (l : List String) (w : Hall) : Prop where
  committed : w.store.Residue a l
  working : ∀ o ∈ w.opened, ∀ S, o.txn.view = .working S → LeftIn a l S o.places

variable {w : Hall} {a : String} {l l' : List String} {c : HallCall} {d : Database}
  {hs : List Tree}

theorem Left.mono (h : w.Left a l) (hl : l ⊆ l') : w.Left a l' where
  committed := h.committed.mono hl
  working o ho S hview :=
    ⟨(h.working o ho S hview).1.mono hl,
      fun p hp hpa => ((h.working o ho S hview).2 p hp hpa).mono hl⟩

theorem Left.everywhere (h : w.Left a l) : w.Everywhere fun S => S.Residue a l :=
  ⟨h.committed, fun o ho S hview => (h.working o ho S hview).1⟩

theorem mem_raises {t : Tree} {S : Store} {n : String} (hc : w.waits c = false)
    (haim : w.aim c = some (t, S)) (ht : t.name = a) (hn : n ∈ c.raised?) : n ∈ w.raises a c := by
  rw [raises, hc, haim]
  simpa [ht] using hn

/-- What a call that need not wait does to the committed store. -/
theorem Left.effect (ha : checkTreeName a = .ok ()) (sound : w.Sound) (h : w.Left a l)
    (hc : w.waits c = false) (unopened : a ∉ w.opens c) (heff : w.Effect c d hs) :
    d.store.Residue a (l ++ w.raises a c) := by
  have hleft := h.committed.mono (List.subset_append_left l (w.raises a c))
  have hother : ∀ n, checkTreeName n = .ok () → n ≠ a → w.store.SameOutside n d.store →
      d.store.Residue a (l ++ w.raises a c) :=
    fun n hn hna hout => hleft.congr (hout.sameTree hn ha hna)
  cases heff with
  | same store _ => exact store ▸ hleft
  | committed opened view store _ =>
    exact store ▸ (h.working _ opened _ view).1.mono (List.subset_append_left ..)
  | @written n allocated r t handle =>
    have ht := (sound.handles t (List.mem_of_getElem? handle)).named
    exact Session.rel_write (r.within (Tree.writes_keepsResidue ha ht)) ⟨w.database, 0⟩ hleft
  | @indexed n allocated k t t' _ handle run =>
    have ht := (sound.handles t (List.mem_of_getElem? handle)).named
    by_cases hta : t.name = a
    · have haim : w.aim (.index n k allocated) = some (t, w.store) := by
        rw [aim, handle]
        rfl
      rw [← hta] at hleft ⊢
      exact (IndexCall.changes_of_step_ok run).residue ht hleft fun m hm =>
        List.mem_append_right _ (mem_raises hc haim rfl hm)
    · have hconfined : Database.Confined t.name (k.step allocated t) := k.confined_step t
      have hout := hconfined w.database
      rw [Order.Preimage, run] at hout
      exact hother _ ht hta hout
  | tuned _ _ _ _ => exact hleft
  | @treeOpened name create allocated t _ run =>
    have hconfined : Database.Confined name (Database.openTree allocated name create) :=
      Database.confined_openTree create
    have hout := hconfined w.database
    rw [Order.Preimage, run] at hout
    refine hother name (Database.openTree_ok run).1 (fun hna => unopened ?_) hout
    rw [opens, hc, run]
    exact List.mem_singleton.mpr hna.symm
  | @treeDropped name allocated _ run =>
    have hconfined : Database.Confined name (Database.dropTree allocated name) :=
      Database.confined_dropTree
    have hout := hconfined w.database
    rw [Order.Preimage, run] at hout
    obtain ⟨hname, hthere, -⟩ := Database.dropTree_ok run
    refine hother name hname (fun hna => ?_) hout
    -- a tree that is gone cannot be deleted again
    rw [hna, h.committed.table] at hthere
    cases hthere

/-- What a call inside the transaction of a writer makes of its store and of the cursor. -/
theorem left_of_step (ha : checkTreeName a = .ok ()) {k : CursorCall} {t : Tree} {c c' : Cursor}
    {s s' : Scope} {S S' : Store} (ht : checkTreeName t.name = .ok ())
    (hs : s.txn.view = .working S) (hstep : ((k.step t).run (c, s)).2 = (c', s'))
    (hs' : s'.txn.view = .working S') (left : S.Residue a l) (adrift : t.name = a → c.Adrift l)
    (sought : t.name = a → ∀ n ∈ k.sought?, n ∈ l) :
    S'.Residue a l ∧ (t.name = a → c'.Adrift l) := by
  have hrel := k.rel_step (Tree.writes_keepsResidue ha ht) (Cursor.writes_keepsResidue ha ht adrift)
    (fun n hn i hi S₁ P => S₁.keepsResidue_putPairs ha ht P fun hta =>
      (Tree.index?_eq_some hi).2 ▸ sought hta n hn) s
  have hbecomes := k.becomes_step t c s
  rw [hstep] at hrel hbecomes
  refine ⟨hrel.of_working hs hs' left, fun hta => ⟨fun hi => ?_, fun i hi => ?_⟩⟩
  · exact hbecomes.position hs (hta ▸ left.table) (adrift hta).nowhere hi
  · obtain hold | ⟨n, hn, hnew⟩ := hbecomes.index? hi
    · exact (adrift hta).within i hold
    · exact (Tree.index?_eq_some hnew).2 ▸ sought hta n hn

theorem Left.perform (ha : checkTreeName a = .ok ()) (sound : w.Sound) (h : w.Left a l)
    (hc : w.waits c = false) (unopened : a ∉ w.opens c) :
    (w.perform c).Left a (l ++ w.raises a c) := by
  have hmono := h.mono (List.subset_append_left l (w.raises a c))
  refine ⟨h.effect ha sound hc unopened (w.effect_perform c), ?_⟩
  refine working_perform (Q := LeftIn a _) hmono.working c
    ⟨hmono.committed, List.forall_mem_nil _⟩ ?_ ?_
  · rintro S places t - ⟨left, adrift⟩
    refine ⟨left, fun q hq hqa => ?_⟩
    rcases List.mem_append.mp hq with hq | hq
    · exact adrift q hq hqa
    · obtain rfl := List.mem_singleton.mp hq
      exact Cursor.adrift_new _
  · rintro x p k o t c' S S' rfl hx hp hS ⟨left, adrift⟩ σ hS'
    have hplace := List.mem_of_getElem? hp
    have ht := ((sound.opened o (List.mem_of_getElem? hx)).2 _ hplace).1.named
    obtain ⟨left', adrift'⟩ := left_of_step ha ht hS rfl hS' left (adrift _ hplace)
      fun hta n hn => List.mem_append_right _ (mem_raises hc (aim_inside hx hp hS) hta hn)
    refine ⟨left', fun q hq hqa => ?_⟩
    rcases List.mem_or_eq_of_mem_set hq with hq | rfl
    · exact adrift q hq hqa
    · exact adrift' hqa

theorem Left.act (ha : checkTreeName a = .ok ()) (sound : w.Sound) (h : w.Left a l)
    (unopened : a ∉ w.opens c) : (w.act c).Left a (l ++ w.raises a c) := by
  unfold Hall.act
  cases hc : w.waits c with
  | true => exact h.mono (List.subset_append_left ..)
  | false => exact h.perform ha sound hc unopened

theorem Left.run (ha : checkTreeName a = .ok ()) (sound : w.Sound) (h : w.Left a l)
    (calls : List HallCall) (unopened : a ∉ w.noted opens calls) :
    (w.run calls).Left a (l ++ w.noted (raises a) calls) := by
  induction calls generalizing w l with
  | nil => exact h.mono (List.subset_append_left ..)
  | cons c rest ih =>
    rw [noted, List.mem_append, not_or] at unopened
    rw [noted, ← List.append_assoc]
    exact ih (sound.act c) (h.act ha sound unopened.1) unopened.2

/-- Right after a deletion nothing is left. -/
theorem left_of_dropTree {allocated : Nat} (quiet : w.writing = false)
    (h : (Database.dropTree allocated a).run w.database = (.ok (), d)) :
    (w.act (.dropTree a allocated)).Left a [] := by
  have hact : w.act (.dropTree a allocated) = w.withDatabase d := by
    simp only [Hall.act, waits, quiet, Bool.false_and, Bool.false_eq_true, if_false,
      Hall.perform, h]
  rw [hact]
  exact ⟨Store.residue_nil_iff.mpr (Database.without_of_dropTree h),
    fun o ho S hview => absurd hview (not_working quiet ho S)⟩

/-- A deleted tree stays deleted. From the deletion on, as long as nobody opens the tree again,
whatever is called through whatever handles, no store that is committed or that a writer would
commit has its table, and none has a table or a record of an index of the tree, except for indexes
that a handle on the tree was asked to add, to save or to run over in a write transaction. Whatever
would change one entry through such a handle fails, because the table is not found. -/
theorem deleted_tree_stays_deleted {allocated : Nat} {d d' : Database} {a : String}
    {before after : List HallCall} (quiet : ((fresh d).run before).writing = false)
    (dropped : (Database.dropTree allocated a).run ((fresh d).run before).database = (.ok (), d'))
    (unopened : a ∉ (((fresh d).run before).act (.dropTree a allocated)).noted opens after) :
    let w₀ := ((fresh d).run before).act (.dropTree a allocated)
    let w := w₀.run after
    let raised := w₀.noted (raises a) after
    w.Everywhere (fun S => S.Residue a raised) ∧
      (raised = [] → w.Everywhere fun S => S.Without a) ∧
      (Failure.tableMissing a).code = .notFound ∧
      ∀ t ∈ w.handles, t.name = a → ∀ (c : EntryCall) (key : Bytes), c.key? = some key → key ≠ [] →
        (∀ allocated, ((Database.write allocated (c.step t)).run w.database).1 =
          .error (.tableMissing a)) ∧
        ∀ o ∈ w.opened, ∀ S, o.txn.view = .working S → ∀ n,
          ((c.step t).run (w.database.scope o.txn n)).1 = .error (.tableMissing a) := by
  intro w₀ w raised
  have ha := (Database.dropTree_ok dropped).1
  have sound₀ : w₀.Sound := ((sound_fresh d).run before).act (.dropTree a allocated)
  have sound : w.Sound := sound₀.run after
  have hleft : w.Left a raised := (left_of_dropTree quiet dropped).run ha sound₀ after unopened
  have hall := hleft.everywhere
  refine ⟨hall, fun hnone => ?_, rfl, ?_⟩
  · rw [hnone] at hall
    exact ⟨Store.residue_nil_iff.mp hall.committed,
      fun o ho S hview => Store.residue_nil_iff.mp (hall.working o ho S hview)⟩
  rintro t ht rfl c key hc hkey
  have hmisses : t.Misses (c.step t) := Tree.misses_entryCall hc hkey
  have hpath := (sound.handles t ht).database
  constructor
  · intro _
    have hwritable : w.database.flags.readOnly = false := by
      have hflags : w.database.flags = ((fresh d).run before).database.flags :=
        congrArg (fun x => x.2.2) ((settings_run w₀ after).trans (settings_act _ _))
      rw [hflags]
      exact Database.writable_of_dropTree dropped
    exact Database.run_write_error hwritable
      (hmisses w.database.writer w.store hpath.symm hall.committed.table)
  · intro o ho S hview n
    have hscope : w.database.scope o.txn n = (w.database.scope o.txn n).on S := Scope.eq_on hview
    rw [hscope]
    exact hmisses _ S ((sound.opened o ho).1.trans hpath.symm) (hall.working o ho S hview).table

/-- A tree with an index and an entry. -/
def planted : List HallCall :=
  [.openTree "t" true 4096, .index 0 (.addIndex { name := "a", unique := true }) 4096,
    .write 1 (.entry (.insert [1] [2])) 4096]

/-- What is tried through its handle later: an entry is written, the index is populated, an entry is
deleted at a cursor, and the index is saved. -/
def belated : List HallCall :=
  [.write 1 (.entry (.insert [3] [4])) 4096, .index 1 (.populate "a") 4096, .begin true,
    .enter 0 1, .inside 0 0 .overTree, .inside 0 0 (.moveTo .first), .inside 0 0 .delete,
    .commit 0 4096, .index 1 (.saveIndex "a") 4096]

theorem deleted_tree_stays_deleted_saved :
    let v := (fresh IndexCall.threeTables).run planted
    let w := v.act (.dropTree "t" 4096)
    v.writing = false ∧ ((Database.dropTree 4096 "t").run v.database).1 = .ok () ∧
      "t" ∉ w.noted opens belated ∧ w.noted (raises "t") belated = ["a"] ∧
      (w.run belated).Everywhere fun S => S.Residue "t" ["a"] := by
  have quiet : ((fresh IndexCall.threeTables).run planted).writing = false := by decide +kernel
  have dropped : ((Database.dropTree 4096 "t").run
      ((fresh IndexCall.threeTables).run planted).database).1 = .ok () := by
    decide +kernel
  have unopened : "t" ∉ (((fresh IndexCall.threeTables).run planted).act
      (.dropTree "t" 4096)).noted opens belated := by
    decide +kernel
  have raised : (((fresh IndexCall.threeTables).run planted).act
      (.dropTree "t" 4096)).noted (raises "t") belated = ["a"] := by
    decide +kernel
  obtain ⟨left, -⟩ := deleted_tree_stays_deleted quiet (by rw [← dropped]) unopened
  rw [raised] at left
  exact ⟨quiet, dropped, unopened, raised, left⟩

/-- An index that is added through a handle on a deleted tree gets its table and its record. -/
theorem stale_handle_revives_index :
    let w := ((fresh IndexCall.threeTables).run [.openTree "t" true 4096]).act (.dropTree "t" 4096)
    let w' := w.act (.index 0 (.addIndex { name := "b", unique := true }) 4096)
    w.store.tableCount = 0 ∧ w'.store.table? "t" = none ∧
      (w'.store.pairs? (indexTableName "t" "b")).isSome ∧
      (Catalog.lookup w'.store (Catalog.key "t" "b")).isSome := by
  decide +kernel

end Hall
end IndexedStore
