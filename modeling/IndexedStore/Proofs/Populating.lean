import IndexedStore.Proofs.Population
import IndexedStore.Proofs.Windows

/-! # Populating adds all pairs or none

The entries are visited in ascending order, and each is checked against a table that holds the pairs
of the index and those of the entries visited before it. An entry that is refused there has a rival:
another entry, earlier or later, or a pair from before. So the order of the visits does not matter,
and populating succeeds on a table just when no two entries, and no entry and pair, claim one key of
a unique index for two different primary keys.
-/
namespace IndexedStore

/-- The pairs determine a table of pairs. -/
theorem PairTable.ext_pairs {P Q : PairTable} (h : ∀ p, p ∈ P.pairs ↔ p ∈ Q.pairs) : P = Q := by
  refine OrderedMap.ext_get? fun p => ?_
  have hp := h p
  rw [OrderedMap.mem_keys, OrderedMap.mem_keys] at hp
  cases hP : P.get? p with
  | none =>
    rw [hP] at hp
    exact (Option.eq_none_iff_forall_ne_some.mpr fun u hu => nomatch hp.mpr ⟨u, hu⟩).symm
  | some u =>
    obtain ⟨v, hv⟩ := hp.mp ⟨u, hP⟩
    rw [hv]

namespace Index
variable {i : Index} {l rest : List Entry} {e : Entry} {T : Table} {P P' : PairTable} {p : Pair}

def joined (i : Index) (l : List Entry) (P : PairTable) : PairTable :=
  l.foldl (fun P e => i.withPair e.1 e.2 P) P

theorem mem_joined : p ∈ (i.joined l P).pairs ↔
    p ∈ P.pairs ∨ ∃ e ∈ l, i.extract e.2 = some p.1 ∧ p.2 = e.1 := by
  induction l generalizing P with
  | nil => simp [joined]
  | cons e rest ih =>
    have hstep : i.joined (e :: rest) P = i.joined rest (i.withPair e.1 e.2 P) := rfl
    rw [hstep, ih, mem_withPair, List.exists_mem_cons_iff, or_assoc]

theorem mem_joined_toList : p ∈ (i.joined T.toList P).pairs ↔ p ∈ P.pairs ∨ i.Derives T p := by
  rw [mem_joined, exists_mem_derives_iff]

/-- An entry claims an index key that another primary key has, be it in a pair from before or
through another entry. -/
def Rivals (i : Index) (l : List Entry) (P : PairTable) : Prop :=
  i.unique = true ∧
    ∃ e ∈ l, ∃ q ∈ (i.joined l P).pairs, i.extract e.2 = some q.1 ∧ q.2 ≠ e.1

/-- The rival of an entry is found when the entry is visited if it came before, and else when the
rival is visited. -/
theorem rivals_cons : i.Rivals (e :: rest) P ↔
    i.clashes e.1 e.2 P = true ∨ i.Rivals rest (i.withPair e.1 e.2 P) := by
  have hstep : i.joined (e :: rest) P = i.joined rest (i.withPair e.1 e.2 P) := rfl
  rw [clashes_iff]
  constructor
  · rintro ⟨hu, a, ha, q, hq, hkey, hne⟩
    rw [hstep] at hq
    rcases List.mem_cons.mp ha with rfl | ha
    · rcases mem_joined.mp hq with hold | ⟨b, hb, hkey', hqb⟩
      · rcases mem_withPair.mp hold with hold | ⟨-, hself⟩
        · exact .inl ⟨hu, q, hold, hkey, hne⟩
        · exact absurd hself hne
      · -- the rival is still to be visited and will find the pair of this entry
        have hown : (q.1, a.1) ∈ (i.joined rest (i.withPair a.1 a.2 P)).pairs :=
          mem_joined.mpr (.inl (mem_withPair.mpr (.inr ⟨hkey, rfl⟩)))
        refine .inr ⟨hu, b, hb, (q.1, a.1), hown, hkey', ?_⟩
        rw [← hqb]
        exact hne.symm
    · exact .inr ⟨hu, a, ha, q, hq, hkey, hne⟩
  · rintro (⟨hu, q, hq, hkey, hne⟩ | ⟨hu, a, ha, q, hq, hkey, hne⟩)
    · exact ⟨hu, e, List.mem_cons_self, q, mem_joined.mpr (.inl hq), hkey, hne⟩
    · exact ⟨hu, a, List.mem_cons_of_mem e ha, q, hq, hkey, hne⟩

theorem populated_eq_ok_iff : i.populated l P = .ok P' ↔ ¬ i.Rivals l P ∧ P' = i.joined l P := by
  induction l generalizing P with
  | nil =>
    have hnone : ¬ i.Rivals [] P := by
      rintro ⟨-, e, he, -⟩
      cases he
    simp only [populated, hnone, not_false_eq_true, true_and, Except.ok.injEq, joined,
      List.foldl_nil, eq_comm]
  | cons e rest ih =>
    rw [populated_cons_eq_ok, ih, rivals_cons, not_or, Bool.not_eq_true, and_assoc]
    rfl

theorem eq_duplicateKey_of_populated {f : Failure} (h : i.populated l P = .error f) :
    f = .duplicateKey i.name := by
  induction l generalizing P with
  | nil => cases h
  | cons e rest ih =>
    simp only [populated] at h
    split at h
    · exact ih h
    · split at h
      · cases h
        rfl
      · exact ih h

theorem populated_eq_error (h : i.Rivals l P) :
    i.populated l P = .error (.duplicateKey i.name) := by
  cases hpop : i.populated l P with
  | error f => rw [eq_duplicateKey_of_populated hpop]
  | ok P' => exact absurd h (populated_eq_ok_iff.mp hpop).1

/-- An entry gives rise to a pair under an index key that another primary key has as well, in a pair
that is there or in one that an entry gives rise to. -/
def Conflicts (i : Index) (T : Table) (P : PairTable) : Prop :=
  i.unique = true ∧
    ∃ p q, i.Derives T p ∧ (q ∈ P.pairs ∨ i.Derives T q) ∧ q.1 = p.1 ∧ q.2 ≠ p.2

theorem rivals_toList_iff : i.Rivals T.toList P ↔ i.Conflicts T P := by
  refine and_congr_right fun _ => ?_
  constructor
  · rintro ⟨e, he, q, hq, hkey, hne⟩
    refine ⟨(q.1, e.1), q, exists_mem_derives_iff.mp ⟨e, he, hkey, rfl⟩, ?_, rfl, hne⟩
    exact mem_joined_toList.mp hq
  · rintro ⟨p, q, hp, hq, hkey, hne⟩
    obtain ⟨e, he, hkey', hpe⟩ := exists_mem_derives_iff.mpr hp
    refine ⟨e, he, q, mem_joined_toList.mpr hq, ?_, ?_⟩
    · rw [hkey', hkey]
    · rwa [← hpe]

/-- Once the pairs are added there is no more conflict than there was. -/
theorem conflicts_joined_iff : i.Conflicts T (i.joined T.toList P) ↔ i.Conflicts T P := by
  have hsame : ∀ q, (q ∈ (i.joined T.toList P).pairs ∨ i.Derives T q) ↔
      q ∈ P.pairs ∨ i.Derives T q := by
    intro q
    rw [mem_joined_toList, or_assoc, or_self]
  simp only [Conflicts, hsame]

theorem joined_joined : i.joined T.toList (i.joined T.toList P) = i.joined T.toList P := by
  refine PairTable.ext_pairs fun p => ?_
  rw [mem_joined_toList, mem_joined_toList, or_assoc, or_self]

end Index

namespace Tree
variable {t : Tree} {name : String} {i : Index} {d : Database} {T : Table} {P : PairTable}

theorem run_populate_readOnly (allocated : Nat) (attached : t.index? name = some i)
    (closed : d.flags.readOnly = true) :
    (t.populate allocated name).run d = (.error .readOnlyDatabase, d) := by
  rw [populate, Attempt.run_bind, Attempt.run_ofExcept, attached_eq_ok_iff.mpr attached]
  simp only [Database.run_write, Session.run_write, closed, if_true]

/-- Populating in a transaction of its own: it is given up where an entry has a rival, and refused
where too much is allocated. -/
theorem run_populate (allocated : Nat) (attached : t.index? name = some i)
    (entries : d.store.table? t.name = some T)
    (opens : d.store.openPairs (t.indexTable i) = .ok P) (writable : d.flags.readOnly = false) :
    (t.populate allocated name).run d =
      match i.populated T.toList P with
      | .error f => (.error f, d.count (·.recordAbort))
      | .ok P' =>
        if d.mapSize < allocated then
          (.error (.mapFull allocated d.mapSize),
            (d.count (·.recordError .mapFull)).count (·.recordAbort))
        else (.ok (), { d with
          store := d.store.putPairs (t.indexTable i) P' }.count (·.recordCommit)) := by
  have hstep : (do
      let table ← Scope.openTable t.name
      let pairs ← Scope.openPairsToWrite (t.indexTable i)
      let pairs ← .ofExcept (i.populated table.toList pairs)
      Scope.putPairs (t.indexTable i) pairs : Attempt Scope Unit).run (Session.writer ⟨d, 0⟩) =
      match i.populated T.toList P with
      | .error f => (.error f, d.writer.on (d.store.putPairs (t.indexTable i) P))
      | .ok P' => (.ok (), d.writer.on (d.store.putPairs (t.indexTable i) P')) := by
    have htable := Scope.run_openTable d.writer d.store t.name
    have hpairs := Scope.run_openPairsToWrite d.writer d.store (t.indexTable i)
    rw [entries] at htable
    rw [opens] at hpairs
    refine (Attempt.run_bind_ok htable _).trans ((Attempt.run_bind_ok hpairs _).trans ?_)
    rw [Attempt.run_bind, Attempt.run_ofExcept]
    cases i.populated T.toList P with
    | error f => rfl
    | ok P' => simp only [Scope.run_putPairs, Store.putPairs_putPairs]
  rw [populate, Attempt.run_bind, Attempt.run_ofExcept, attached_eq_ok_iff.mpr attached]
  simp only [Database.run_write]
  cases hpop : i.populated T.toList P with
  | error f =>
    rw [hpop] at hstep
    rw [Session.run_write_error writable hstep]
    rfl
  | ok P' =>
    rw [hpop] at hstep
    rw [Session.run_write_ok writable hstep]
    simp only
    split <;> rfl

def filled (t : Tree) (i : Index) (T : Table) (P : PairTable) (S : Store) : Store :=
  S.putPairs (t.indexTable i) (i.joined T.toList P)

theorem filled_filled (S : Store) :
    t.filled i T (i.joined T.toList P) (t.filled i T P S) = t.filled i T P S := by
  rw [filled, filled, Store.putPairs_putPairs, Index.joined_joined]

theorem run_populate_filled (allocated : Nat) (attached : t.index? name = some i)
    (entries : d.store.table? t.name = some T)
    (opens : d.store.openPairs (t.indexTable i) = .ok P) (writable : d.flags.readOnly = false)
    (free : ¬ i.Conflicts T P) :
    (t.populate allocated name).run d =
      if d.mapSize < allocated then
        (.error (.mapFull allocated d.mapSize),
          (d.count (·.recordError .mapFull)).count (·.recordAbort))
      else (.ok (), { d with store := t.filled i T P d.store }.count (·.recordCommit)) := by
  have hok : i.populated T.toList P = .ok (i.joined T.toList P) :=
    Index.populated_eq_ok_iff.mpr ⟨fun h => free (Index.rivals_toList_iff.mp h), rfl⟩
  rw [run_populate allocated attached entries opens writable, hok]
  rfl

/-- In a transaction of its own populating an index adds the pair of every entry or nothing. With
what the table of the index holds it fails just when two primary keys claim one key of a unique
index, be they both of entries or one of a pair that was there. It also fails in a database that
must not be written, and where the engine has allocated more than the size limit by the commit.
Every failure leaves the store. Success changes the one table, and to populate once more changes
nothing, whether that is refused or not. -/
theorem populate_all_or_nothing (allocated : Nat) (attached : t.index? name = some i)
    (entries : d.store.table? t.name = some T)
    (opens : d.store.openPairs (t.indexTable i) = .ok P) :
    ∃ P' : PairTable, (∀ p, p ∈ P'.pairs ↔ p ∈ P.pairs ∨ i.Derives T p) ∧
      let S := d.store.putPairs (t.indexTable i) P'
      (d.flags.readOnly = true →
        (t.populate allocated name).run d = (.error .readOnlyDatabase, d)) ∧
      (d.flags.readOnly = false → i.Conflicts T P →
        ∃ d', (t.populate allocated name).run d = (.error (.duplicateKey i.name), d') ∧
          d'.store = d.store) ∧
      (d.flags.readOnly = false → ¬ i.Conflicts T P → d.mapSize < allocated →
        ∃ d', (t.populate allocated name).run d = (.error (.mapFull allocated d.mapSize), d') ∧
          d'.store = d.store) ∧
      (d.flags.readOnly = false → ¬ i.Conflicts T P → allocated ≤ d.mapSize →
        ∃ d', (t.populate allocated name).run d = (.ok (), d') ∧ d'.store = S ∧
          ∀ later, ((t.populate later name).run d').2.store = S ∧
            (later ≤ d.mapSize → ((t.populate later name).run d').1 = .ok ())) := by
  refine ⟨i.joined T.toList P, fun p => Index.mem_joined_toList, ?_⟩
  refine ⟨run_populate_readOnly allocated attached, fun writable conflict => ?_,
    fun writable free full => ?_, fun writable free fits => ?_⟩
  · have hrun := run_populate allocated attached entries opens writable
    rw [Index.populated_eq_error (Index.rivals_toList_iff.mpr conflict)] at hrun
    exact ⟨_, hrun, rfl⟩
  · have hrun := run_populate_filled allocated attached entries opens writable free
    rw [if_pos full] at hrun
    exact ⟨_, hrun, rfl⟩
  · have hrun := run_populate_filled allocated attached entries opens writable free
    rw [if_neg (Nat.not_lt.mpr fits)] at hrun
    refine ⟨_, hrun, rfl, fun later => ?_⟩
    have hagain := run_populate_filled
      (d := ({ d with store := t.filled i T P d.store } : Database).count (·.recordCommit)) later
      attached entries (Store.openPairs_of_pairs? (Store.pairs?_putPairs_self ..)) writable
      fun h => free (Index.conflicts_joined_iff.mp h)
    simp only [Database.count, filled_filled] at hagain ⊢
    by_cases hfull : d.mapSize < later
    · rw [if_pos hfull] at hagain
      rw [hagain]
      exact ⟨rfl, fun h => absurd hfull (Nat.not_lt.mpr h)⟩
    · rw [if_neg hfull] at hagain
      rw [hagain]
      exact ⟨rfl, fun _ => rfl⟩

/-- Three entries and an index over their values that holds no pair yet, in a database of a given
size limit. -/
def unfilled (mapSize : Nat) : Database :=
  { Cursor.repeatedDatabase with
    mapSize := mapSize
    store := (Store.empty.putTable "t" Cursor.repeatedTable).putPairs
      (indexTableName "t" "value") .empty }

/-- Two of the entries have the same value, which the index allows. -/
theorem populate_all_or_nothing_unfilled :
    ∃ d' P, (Cursor.valueIndexed.populate 4096 "value").run (unfilled 4096) = (.ok (), d') ∧
      d'.store.pairs? (indexTableName "t" "value") = some P ∧ ([7], [0]) ∈ P.pairs ∧
      ([7], [1]) ∈ P.pairs := by
  have attached : Cursor.valueIndexed.index? "value" = some _ := rfl
  have opens : (unfilled 4096).store.openPairs (indexTableName "t" "value") = .ok .empty := rfl
  obtain ⟨P, hmem, -, -, -, hok⟩ := populate_all_or_nothing (d := unfilled 4096) 4096 attached
    rfl opens
  obtain rfl : _ = P := PairTable.ext_pairs fun p => Index.mem_joined_toList.trans (hmem p).symm
  obtain ⟨d', hrun, hstore, -⟩ := hok rfl (fun h => Bool.false_ne_true h.1) (by decide)
  refine ⟨d', _, hrun, ?_, (hmem _).mpr (.inr ⟨[7], rfl, rfl⟩), (hmem _).mpr (.inr ⟨[7], rfl, rfl⟩)⟩
  rw [hstore]
  exact Store.pairs?_putPairs_self ..

/-- An index that is not unique is not populated where a page exceeds the size limit. -/
theorem populate_refused_by_size :
    ∃ i d', Cursor.valueIndexed.index? "value" = some i ∧ i.unique = false ∧
      (unfilled 1).store.table? "t" = some Cursor.repeatedTable ∧
      i.Derives Cursor.repeatedTable ([7], [1]) ∧
      (Cursor.valueIndexed.populate 4096 "value").run (unfilled 1) =
        (.error (.mapFull 4096 1), d') ∧
      d'.store.pairs? (indexTableName "t" "value") = some .empty :=
  ⟨_, _, rfl, rfl, rfl, ⟨[7], rfl, rfl⟩, rfl, rfl⟩

end Tree
end IndexedStore
