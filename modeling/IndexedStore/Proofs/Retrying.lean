import IndexedStore.Proofs.Entries
import IndexedStore.Proofs.Tries

/-! # A refused write is refused again

An upsert that fails may leave traces in its transaction: tables of indexes that were missing, and,
where a plain table stands in the place of one, pairs of its own entry. None of these can be seen by
an upsert of the same entry: the checks of unique indexes pass over the pairs of the entry itself,
and a table that came into being is as empty as one that is missing. So the same upsert fails once
more, and for the same reason.
-/
namespace IndexedStore

namespace Tree

section Admits
variable {P : PairTable} {key : Bytes}

theorem admits_iff {indexKey : Bytes} :
    admits P key indexKey = true ↔ ∀ pk, (indexKey, pk) ∈ P.pairs → pk = key := by
  simp only [admits, List.all_eq_true, beq_iff_eq, PairTable.mem_primaryKeys]

/-- An entry has no rival in itself. -/
theorem admits_insert (P : PairTable) (key own indexKey : Bytes) :
    admits (P.insert (own, key) ()) key indexKey = admits P key indexKey := by
  rw [Bool.eq_iff_iff, admits_iff, admits_iff]
  constructor
  · exact fun h pk hpk => h pk (PairTable.mem_pairs_insert.mpr (.inr hpk))
  · intro h pk hpk
    obtain heq | hpk := PairTable.mem_pairs_insert.mp hpk
    · exact congrArg Prod.snd heq
    · exact h pk hpk

theorem admits_erase (P : PairTable) (key own indexKey : Bytes) :
    admits (P.erase (own, key)) key indexKey = admits P key indexKey := by
  rw [Bool.eq_iff_iff, admits_iff, admits_iff]
  constructor
  · intro h pk hpk
    by_cases heq : (indexKey, pk) = (own, key)
    · exact congrArg Prod.snd heq
    · exact h pk (PairTable.mem_pairs_erase.mpr ⟨hpk, heq⟩)
  · exact fun h pk hpk => h pk (PairTable.mem_pairs_erase.mp hpk).1

end Admits

/-- The stores are alike to an upsert of an entry of that key: they have the same plain tables, and
the tables of attached indexes can be opened in one as in the other and admit the same. -/
structure Alike (t : Tree) (key : Bytes) (S S' : Store) : Prop where
  plain : ∀ n, S'.table? n = S.table? n
  admits : ∀ i ∈ t.indexes, ∀ indexKey,
    (S'.openPairs (t.indexTable i)).map (admits · key indexKey) =
      (S.openPairs (t.indexTable i)).map (admits · key indexKey)

variable {t : Tree} {key : Bytes} {S S' S'' : Store} {i : Index} {α β : Type}

namespace Alike

theorem refl (t : Tree) (key : Bytes) (S : Store) : t.Alike key S S :=
  ⟨fun _ => rfl, fun _ _ _ => rfl⟩

theorem symm (h : t.Alike key S S') : t.Alike key S' S :=
  ⟨fun n => (h.plain n).symm, fun i hi indexKey => (h.admits i hi indexKey).symm⟩

theorem trans (h : t.Alike key S S') (h' : t.Alike key S' S'') : t.Alike key S S'' :=
  ⟨fun n => (h'.plain n).trans (h.plain n), fun i hi indexKey =>
    (h'.admits i hi indexKey).trans (h.admits i hi indexKey)⟩

/-- A table of an index fails to open in both stores, or it opens and admits the same. -/
theorem openPairs (h : t.Alike key S S') (hi : i ∈ t.indexes) :
    (∃ e, S.openPairs (t.indexTable i) = .error e ∧ S'.openPairs (t.indexTable i) = .error e) ∨
      ∃ P P', S.openPairs (t.indexTable i) = .ok P ∧ S'.openPairs (t.indexTable i) = .ok P' ∧
        ∀ indexKey, Tree.admits P' key indexKey = Tree.admits P key indexKey := by
  have hadmits := h.admits i hi
  cases hP : S.openPairs (t.indexTable i) with
  | error e =>
    cases hP' : S'.openPairs (t.indexTable i) with
    | error e' =>
      have heq := hadmits []
      rw [hP, hP'] at heq
      obtain rfl : e' = e := Except.error.inj heq
      exact .inl ⟨e', rfl, rfl⟩
    | ok P' =>
      have heq := hadmits []
      rw [hP, hP'] at heq
      cases heq
  | ok P =>
    cases hP' : S'.openPairs (t.indexTable i) with
    | error e' =>
      have heq := hadmits []
      rw [hP, hP'] at heq
      cases heq
    | ok P' =>
      refine .inr ⟨P, P', rfl, rfl, fun indexKey => ?_⟩
      have heq := hadmits indexKey
      rw [hP, hP'] at heq
      exact Except.ok.inj heq

end Alike

theorem openPairs_putPairs_ne (S : Store) {n m : String} (P : PairTable) (h : m ≠ n) :
    (S.putPairs n P).openPairs m = S.openPairs m := by
  rw [Store.openPairs, Store.openPairs, Store.pairs?_putPairs_ne S P h]
  rfl

/-- The table of an index that can be opened may be replaced by one that admits the same. -/
theorem alike_putPairs {P P' : PairTable} (hP : S.openPairs (t.indexTable i) = .ok P)
    (h : ∀ indexKey, admits P' key indexKey = admits P key indexKey) :
    t.Alike key S (S.putPairs (t.indexTable i) P') := by
  refine ⟨fun n => rfl, fun j hj indexKey => ?_⟩
  by_cases hname : t.indexTable j = t.indexTable i
  · rw [hname, hP, Store.openPairs_of_pairs? (Store.pairs?_putPairs_self ..)]
    exact congrArg Except.ok (h indexKey)
  · rw [openPairs_putPairs_ne S P' hname]

/-- Where the stores are alike, the step gives the same answer and leaves them alike. -/
def Steady (t : Tree) (key : Bytes) (x : Attempt Scope α) : Prop :=
  ∀ (s s' : Scope) (S S' : Store), s'.txn.database = s.txn.database → t.Alike key S S' →
    ∃ r s₁ s₁' S₁ S₁', x.run (s.on S) = (r, Scope.on s₁ S₁) ∧
      x.run (s'.on S') = (r, Scope.on s₁' S₁') ∧ s₁.txn.database = s.txn.database ∧
      s₁'.txn.database = s.txn.database ∧ t.Alike key S S₁ ∧ t.Alike key S₁ S₁'

theorem steady_pure (a : α) : t.Steady key (pure a : Attempt Scope α) :=
  fun s s' S S' hd h => ⟨.ok a, s, s', S, S', rfl, rfl, rfl, hd, .refl t key S, h⟩

theorem Steady.bind {x : Attempt Scope α} {f : α → Attempt Scope β} (hx : t.Steady key x)
    (hf : ∀ a, t.Steady key (f a)) : t.Steady key (x >>= f) := by
  intro s s' S S' hd h
  obtain ⟨r, s₁, s₁', S₁, S₁', hrun, hrun', hd₁, hd₁', hkeep, h₁⟩ := hx s s' S S' hd h
  cases r with
  | error e =>
    exact ⟨.error e, s₁, s₁', S₁, S₁', Attempt.run_bind_error hrun f,
      Attempt.run_bind_error hrun' f, hd₁, hd₁', hkeep, h₁⟩
  | ok a =>
    obtain ⟨r, s₂, s₂', S₂, S₂', hlater, hlater', hd₂, hd₂', hkeep', h₂⟩ :=
      hf a s₁ s₁' S₁ S₁' (hd₁'.trans hd₁.symm) h₁
    exact ⟨r, s₂, s₂', S₂, S₂', (Attempt.run_bind_ok hrun f).trans hlater,
      (Attempt.run_bind_ok hrun' f).trans hlater', hd₂.trans hd₁, hd₂'.trans hd₁,
      hkeep.trans hkeep', h₂⟩

theorem chained_steady : Attempt.Chained fun _ x => t.Steady key x := ⟨steady_pure, Steady.bind⟩

/-- A step that looks at the database and the plain tables at most and changes nothing. -/
theorem steady_of_reads {x : Attempt Scope α}
    {r : String → (String → Option Table) → Except Failure α}
    (h : ∀ (s : Scope) (S : Store), x.run (s.on S) = (r s.txn.database S.table?, s.on S)) :
    t.Steady key x := by
  intro s s' S S' hd hal
  have hplain : S'.table? = S.table? := funext hal.plain
  refine ⟨_, s, s', S, S', h s S, ?_, rfl, hd, .refl t key S, hal⟩
  rw [h s' S', hd, hplain]

theorem steady_requireOwn : t.Steady key t.requireOwn :=
  steady_of_reads (r := fun database _ => t.ifOwn database (.ok ())) fun s S =>
    run_requireOwn t (s.on S)

theorem steady_require (holds : Bool) (e : Failure) :
    t.Steady key (.require holds e : Attempt Scope Unit) :=
  steady_of_reads (r := fun _ _ => _) fun _ _ => Attempt.run_require ..

theorem steady_fail (e : Failure) : t.Steady key (.fail e : Attempt Scope α) :=
  steady_of_reads (r := fun _ _ => .error e) fun _ _ => rfl

/-- What opening a plain table answers in a write transaction. -/
def openedTable (n : String) (table? : String → Option Table) : Except Failure Table :=
  match table? n with
  | some T => .ok T
  | none => .error (.tableMissing n)

theorem steady_openTable (n : String) : t.Steady key (Scope.openTable n) := by
  refine steady_of_reads (r := fun _ => openedTable n) fun s S => ?_
  rw [Scope.run_openTable, openedTable]
  cases S.table? n <;> rfl

theorem steady_openTableToWrite (n : String) : t.Steady key (Scope.openTableToWrite n) := by
  refine steady_of_reads (r := fun _ => openedTable n) fun s S => ?_
  rw [Scope.run_openTableToWrite, openedTable]
  cases S.table? n <;> rfl

/-- The table of an index is opened and may be replaced by one that admits the same; nothing else it
holds plays a part in the answer. -/
theorem steady_openPairsToWrite_bind (hi : i ∈ t.indexes) {f : PairTable → Attempt Scope α}
    {r : (Bytes → Bool) → Except Failure α} {change : PairTable → PairTable}
    (hf : ∀ (P : PairTable) (s : Scope) (S : Store),
      (f P).run (s.on (S.putPairs (t.indexTable i) P)) =
        (r (admits P key), s.on (S.putPairs (t.indexTable i) (change P))))
    (hchange : ∀ P indexKey, admits (change P) key indexKey = admits P key indexKey) :
    t.Steady key (Scope.openPairsToWrite (t.indexTable i) >>= f) := by
  intro s s' S S' hd hal
  obtain ⟨e, he, he'⟩ | ⟨P, P', hP, hP', hsame⟩ := hal.openPairs hi
  · refine ⟨.error e, s, s', S, S', ?_, ?_, rfl, hd, .refl t key S, hal⟩
    · exact Attempt.run_bind_error (by simp only [Scope.run_openPairsToWrite, he]) f
    · exact Attempt.run_bind_error (by simp only [Scope.run_openPairsToWrite, he']) f
  · have hopen : (Scope.openPairsToWrite (t.indexTable i)).run (s.on S) =
        (.ok P, s.on (S.putPairs (t.indexTable i) P)) := by
      simp only [Scope.run_openPairsToWrite, hP]
    have hopen' : (Scope.openPairsToWrite (t.indexTable i)).run (s'.on S') =
        (.ok P', s'.on (S'.putPairs (t.indexTable i) P')) := by
      simp only [Scope.run_openPairsToWrite, hP']
    have hleft := alike_putPairs hP (hchange P)
    have hright := alike_putPairs hP' (hchange P')
    have hanswer : admits P' key = admits P key := funext hsame
    exact ⟨_, s, s', _, _, (Attempt.run_bind_ok hopen f).trans (hf P s S),
      (Attempt.run_bind_ok hopen' f).trans (hanswer ▸ hf P' s' S'), rfl, hd, hleft,
      (hleft.symm.trans hal).trans hright⟩

theorem steady_preparedKey (hi : i ∈ t.indexes) (value : Bytes) :
    t.Steady key (t.preparedKey key value i) := by
  unfold preparedKey
  cases i.extract value with
  | none => exact steady_pure none
  | some indexKey =>
    simp only
    cases i.unique with
    | false => exact steady_pure (some indexKey)
    | true =>
      -- in a write transaction the table is opened for writing
      have hcheck : t.Steady key (Scope.openPairsToWrite (t.indexTable i) >>= fun P =>
          .require (admits P key indexKey) (.duplicateKey i.name) >>= fun _ =>
            pure (some indexKey)) := by
        refine steady_openPairsToWrite_bind (r := fun holds =>
          if holds indexKey then .ok (some indexKey) else .error (.duplicateKey i.name)) hi
          (fun P s S => ?_) fun _ _ => rfl
        cases admits P key indexKey <;> rfl
      exact hcheck

theorem steady_addPair (hi : i ∈ t.indexes) (indexKey : Bytes) :
    t.Steady key (t.addPair key i indexKey) := by
  refine steady_openPairsToWrite_bind (r := fun _ => .ok ()) hi (fun P s S => ?_) fun P own =>
    admits_insert P key indexKey own
  rw [Scope.run_putPairs, Store.putPairs_putPairs]

theorem steady_removePair (hi : i ∈ t.indexes) (indexKey : Bytes) :
    t.Steady key (t.removePair key i indexKey) := by
  refine steady_openPairsToWrite_bind (r := fun _ => .ok ()) hi (fun P s S => ?_) fun P own =>
    admits_erase P key indexKey own
  rw [Scope.run_putPairs, Store.putPairs_putPairs]

theorem steady_preparedKeys (value : Bytes) : t.Steady key (t.preparedKeys key value) :=
  chained_steady.mapM fun _ hi => steady_preparedKey hi value

theorem steady_addPairs (keys : List (Option Bytes)) : t.Steady key (t.addPairs key keys) :=
  chained_addPairs chained_steady (fun _ hi indexKey => steady_addPair hi indexKey) keys

theorem steady_removePairs (value : Bytes) : t.Steady key (t.removePairs key value) :=
  chained_removePairs chained_steady (fun _ hi indexKey => steady_removePair hi indexKey) value

/-! ## Writes of an entry -/

/-- Where the stores are alike, the step gives the same answer, and if it fails it leaves them
alike. -/
def Repeats (t : Tree) (key : Bytes) (x : Attempt Scope α) : Prop :=
  ∀ (s s' : Scope) (S S' : Store), s'.txn.database = s.txn.database → t.Alike key S S' →
    ∃ r s₁ s₁' S₁ S₁', x.run (s.on S) = (r, Scope.on s₁ S₁) ∧
      x.run (s'.on S') = (r, Scope.on s₁' S₁') ∧ s₁.txn.database = s.txn.database ∧
      s₁'.txn.database = s.txn.database ∧
      ∀ e, r = .error e → t.Alike key S S₁ ∧ t.Alike key S₁ S₁'

theorem Steady.repeats {x : Attempt Scope α} (hx : t.Steady key x) : t.Repeats key x := by
  intro s s' S S' hd h
  obtain ⟨r, s₁, s₁', S₁, S₁', hrun, hrun', hd₁, hd₁', hkeep, h₁⟩ := hx s s' S S' hd h
  exact ⟨r, s₁, s₁', S₁, S₁', hrun, hrun', hd₁, hd₁', fun _ _ => ⟨hkeep, h₁⟩⟩

theorem Steady.bind_repeats {x : Attempt Scope α} {f : α → Attempt Scope β} (hx : t.Steady key x)
    (hf : ∀ a, t.Repeats key (f a)) : t.Repeats key (x >>= f) := by
  intro s s' S S' hd h
  obtain ⟨r, s₁, s₁', S₁, S₁', hrun, hrun', hd₁, hd₁', hkeep, h₁⟩ := hx s s' S S' hd h
  cases r with
  | error e =>
    exact ⟨.error e, s₁, s₁', S₁, S₁', Attempt.run_bind_error hrun f,
      Attempt.run_bind_error hrun' f, hd₁, hd₁', fun _ _ => ⟨hkeep, h₁⟩⟩
  | ok a =>
    obtain ⟨r, s₂, s₂', S₂, S₂', hlater, hlater', hd₂, hd₂', hfail⟩ :=
      hf a s₁ s₁' S₁ S₁' (hd₁'.trans hd₁.symm) h₁
    exact ⟨r, s₂, s₂', S₂, S₂', (Attempt.run_bind_ok hrun f).trans hlater,
      (Attempt.run_bind_ok hrun' f).trans hlater', hd₂.trans hd₁, hd₂'.trans hd₁,
      fun e he => ⟨hkeep.trans (hfail e he).1, (hfail e he).2⟩⟩

/-- A step that always gives one answer. -/
def Certain (x : Attempt Scope α) (a : α) : Prop :=
  ∀ (s : Scope) (S : Store), ∃ s' S', x.run (s.on S) = (.ok a, Scope.on s' S') ∧
    s'.txn.database = s.txn.database

theorem Repeats.bind_certain {x : Attempt Scope α} {f : α → Attempt Scope β}
    (hx : t.Repeats key x) {g : α → β} (hf : ∀ a, Certain (f a) (g a)) :
    t.Repeats key (x >>= f) := by
  intro s s' S S' hd h
  obtain ⟨r, s₁, s₁', S₁, S₁', hrun, hrun', hd₁, hd₁', hfail⟩ := hx s s' S S' hd h
  cases r with
  | error e =>
    exact ⟨.error e, s₁, s₁', S₁, S₁', Attempt.run_bind_error hrun f,
      Attempt.run_bind_error hrun' f, hd₁, hd₁', fun _ _ => hfail e rfl⟩
  | ok a =>
    obtain ⟨s₂, S₂, hlater, hd₂⟩ := hf a s₁ S₁
    obtain ⟨s₂', S₂', hlater', hd₂'⟩ := hf a s₁' S₁'
    exact ⟨.ok (g a), s₂, s₂', S₂, S₂', (Attempt.run_bind_ok hrun f).trans hlater,
      (Attempt.run_bind_ok hrun' f).trans hlater', hd₂.trans hd₁, hd₂'.trans hd₁', nofun⟩

theorem repeats_replaceEntry (value : Bytes) : t.Repeats key (t.replaceEntry key value) := by
  refine (steady_require _ _).bind_repeats fun _ => (steady_openTableToWrite _).bind_repeats
    fun T => (steady_preparedKeys value).bind_repeats fun keys => ?_
  -- the entry is written last, and writing it cannot fail
  cases T.get? key with
  | some old =>
    exact (steady_removePairs old).bind_repeats fun _ =>
      (steady_addPairs keys).repeats.bind_certain (g := fun _ => true) fun _ s S =>
        ⟨s, S.putTable t.name (T.insert key value), rfl, rfl⟩
  | none =>
    exact (steady_addPairs keys).repeats.bind_certain (g := fun _ => false) fun _ s S =>
      ⟨s.bumped 1, S.putTable t.name (T.insert key value), rfl, rfl⟩

theorem repeats_mergeEntry (value : Bytes) : t.Repeats key (t.mergeEntry key value) := by
  unfold mergeEntry
  cases t.merge? with
  | none => exact repeats_replaceEntry value
  | some merge =>
    refine (steady_openTable _).bind_repeats fun T => ?_
    cases T.get? key with
    | none => exact repeats_replaceEntry value
    | some old =>
      simp only
      cases merge old value with
      | none => exact (steady_fail _).repeats
      | some merged => exact repeats_replaceEntry merged

theorem Repeats.observed {x : Attempt Scope α} (hx : t.Repeats key x) :
    t.Repeats key (Scope.observed x) := by
  intro s s' S S' hd h
  obtain ⟨r, s₁, s₁', S₁, S₁', hrun, hrun', hd₁, hd₁', hfail⟩ := hx s s' S S' hd h
  rw [Scope.run_observed, Scope.run_observed, hrun, hrun']
  cases r with
  | ok a => exact ⟨_, s₁, s₁', S₁, S₁', rfl, rfl, hd₁, hd₁', hfail⟩
  | error e =>
    exact ⟨_, s₁.counted (·.recordError e.code), s₁'.counted (·.recordError e.code), S₁, S₁', rfl,
      rfl, hd₁, hd₁', hfail⟩

theorem repeats_upsert (value : Bytes) : t.Repeats key (t.upsert key value) := by
  refine Repeats.observed (steady_requireOwn.bind_repeats fun _ => ?_)
  exact (repeats_mergeEntry value).bind_certain (g := fun _ => ()) fun replaced s S =>
    ⟨_, S, Scope.run_count s S _, rfl⟩

end Tree

namespace Ingest
variable {t : Tree} {i : Item} {b b' : Batch} {S : Store}

/-- The transaction is a writer's. -/
def Batch.Writes (b : Batch) : Prop := ∃ S, b.txn.view = .working S

theorem scope_eq_on (hS : b.txn.view = .working S) : b.scope = b.scope.on S := Scope.eq_on hS

/-- What an upsert answers and leaves; if it is refused, what it leaves is alike to the next try. -/
theorem upsert_spec {r : Except Failure Unit} (hS : b.txn.view = .working S)
    (h : b.upsert t i = (r, b')) :
    ((t.upsert i.key i.value).run (b.scope.on S)).1 = r ∧
      ∃ S', b'.txn.view = .working S' ∧ b'.txn.database = b.txn.database ∧
        ∀ e, r = .error e → t.Alike i.key S S' := by
  obtain ⟨hr, hb'⟩ := Prod.mk.inj h
  obtain ⟨r', s₁, _, S₁, _, hrun, -, hd, -, hfail⟩ :=
    Tree.repeats_upsert i.value b.scope b.scope S S rfl (.refl t i.key S)
  change ((t.upsert i.key i.value).run b.scope).1 = r at hr
  have htxn : b'.txn = ((t.upsert i.key i.value).run b.scope).2.txn := hb' ▸ rfl
  rw [scope_eq_on hS, hrun] at hr htxn
  obtain rfl : r' = r := hr
  rw [hrun, htxn]
  exact ⟨rfl, S₁, rfl, hd, fun e he => (hfail e he).1⟩

theorem writes_upsert {r : Except Failure Unit} (hb : b.Writes) (h : b.upsert t i = (r, b')) :
    b'.Writes := by
  obtain ⟨S, hS⟩ := hb
  obtain ⟨-, S', hS', -⟩ := upsert_spec hS h
  exact ⟨S', hS'⟩

/-- Whatever comes of its item, the transaction stays a writer's. -/
theorem writes_write (t : Tree) (i : Item) (left : Nat) (hb : b.Writes) :
    (b.write t i left).2.Writes := by
  fun_induction Batch.write t i left b with
  | case3 b e b' hu config hs left attempt b₁ ih =>
    have hafter : b'.Writes := writes_upsert hb hu
    exact ih hafter
  | case1 left b b' hu | case2 left b e b' hu | case4 b e b' hu | case5 left b e b' hu
  | case6 left b e b' hu =>
    have hafter : b'.Writes := writes_upsert hb hu
    exact hafter

end Ingest
end IndexedStore
