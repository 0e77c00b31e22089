import IndexedStore.Proofs.Strokes

/-! # The entry count beside the entries

The entry count is moved by a step of its own, next to the step that writes the table. Every path
that adds or removes an entry therefore has to move it, by as much and in the same cases. The paths
of the calls on entries are made of strokes, and a stroke does both. Here nothing is assumed of the
store, so tables of indexes may be missing or be of the wrong kind and calls fail on them.
-/
namespace IndexedStore

/-- However the step ends, what it leaves is related to what it was made on. -/
def Scope.Relates {α : Type} (R : Scope → Store → Scope → Store → Prop) (x : Attempt Scope α) :
    Prop :=
  ∀ (s : Scope) (S : Store), ∃ r s' S', x.run (s.on S) = (r, Scope.on s' S') ∧ R s S s' S'

namespace Tree
variable {t : Tree} {T T' : Table} {α β : Type} {x : Attempt Scope α} {s s' : Scope}
  {S S' : Store} {key value : Bytes}

/-! ## Steps that leave the entries -/

/-- However the step ends, it has left the entry count and the table of the tree. -/
def Idle (t : Tree) (x : Attempt Scope α) : Prop :=
  Scope.Relates (fun s S s' S' => s'.entryCount = s.entryCount ∧
    S'.table? t.name = S.table? t.name) x

theorem idle_of_aside (hx : Scope.Aside x) : t.Idle x := by
  intro s S
  have hsame := hx (s.on S)
  obtain ⟨S', hs', hplain⟩ := Scope.exists_on_of_account hsame
  have hcount : s.entryCount = (x.run (s.on S)).2.entryCount := congrArg (·.2.1) hsame
  refine ⟨_, (x.run (s.on S)).2, S', Prod.ext rfl hs', hcount.symm, ?_⟩
  rw [Store.table?, hplain, Store.table?]

/-! ## Steps that keep count -/

theorem counts_of_same (hcount : s'.entryCount = s.entryCount)
    (htable : S'.table? t.name = S.table? t.name) : t.Counts s S s' S' := by
  rw [Counts, hcount, gained, entriesIn, entriesIn, htable, Int.sub_self]
  exact (Int64.add_zero _).symm

theorem counts_of_tables {n : Int} (hT : S.table? t.name = some T)
    (hT' : S'.table? t.name = some T') (hsize : (T'.size : Int) = T.size + n)
    (hcount : s'.entryCount = s.entryCount + .ofInt n) : t.Counts s S s' S' := by
  have hgained : t.gained S S' = n := by
    rw [gained, entriesIn_of_table? hT, entriesIn_of_table? hT']
    omega
  rw [Counts, hgained, hcount]

/-- However the step ends, the entry count has moved with the number of entries. -/
def Counting (t : Tree) (x : Attempt Scope α) : Prop := Scope.Relates t.Counts x

theorem Idle.counting (hx : t.Idle x) : t.Counting x := by
  intro s S
  obtain ⟨r, s', S', hrun, hcount, htable⟩ := hx s S
  exact ⟨r, s', S', hrun, counts_of_same hcount htable⟩

theorem counts_bumped {f : Statistics → Statistics} {n : Int} {delta : Int64}
    (hT : S.table? t.name = some T) (hsize : (T'.size : Int) = T.size + n)
    (hdelta : delta = .ofInt n) :
    t.Counts s S (((s.bumped delta).counted f).on (S.putTable t.name T'))
      (S.putTable t.name T') := by
  have hT' : (S.putTable t.name T').table? t.name = some T' := Store.table?_putTable_self ..
  exact counts_of_tables hT hT' hsize (by rw [← hdelta]; rfl)

theorem Stroke.counts (h : t.Stroke s s') (view : s.txn.view = .working S) :
    ∃ S', s'.txn.view = .working S' ∧ t.Counts s S s' S' := by
  cases h with
  | aside same =>
    rw [Scope.eq_on view] at same
    obtain ⟨S', hs', hplain⟩ := Scope.exists_on_of_account same
    refine ⟨S', congrArg (·.txn.view) hs', counts_of_same (congrArg (·.2.1) same).symm ?_⟩
    rw [Store.table?, hplain, Store.table?]
  | @added s S₀ T key value entries absent =>
    obtain rfl := View.working.inj view
    have hsize := OrderedMap.size_insert_of_absent absent value
    exact ⟨_, rfl, counts_bumped entries (n := 1) (by omega) (by decide)⟩
  | @replaced s S₀ T key old value entries present =>
    obtain rfl := View.working.inj view
    have hsize := OrderedMap.size_insert_of_present present value
    exact ⟨_, rfl, counts_of_tables entries (Store.table?_putTable_self ..) (n := 0) (by omega)
      (Int64.add_zero _).symm⟩
  | @removed s S₀ T key old entries present =>
    obtain rfl := View.working.inj view
    have hsize := OrderedMap.size_erase present
    exact ⟨_, rfl, counts_bumped entries (n := -1) (by omega) (by decide)⟩

theorem counts_of_strokes (h : t.Strokes s s') (view : s.txn.view = .working S) :
    ∃ S', s'.txn.view = .working S' ∧ t.Counts s S s' S' := by
  induction h with
  | refl => exact ⟨S, view, counts_self rfl⟩
  | tail _ hstroke ih =>
    obtain ⟨S₁, hview, hcounts⟩ := ih
    obtain ⟨S', hview', hcounts'⟩ := hstroke.counts hview
    exact ⟨S', hview', hcounts.iff_of_start.mpr hcounts'⟩

theorem counting_of_strokes (hx : x.Respects t.Strokes) : t.Counting x := by
  intro s S
  obtain ⟨S', hview, hcounts⟩ := counts_of_strokes (hx (s.on S)) rfl
  exact ⟨_, (x.run (s.on S)).2, S', Prod.ext rfl (Scope.eq_on hview), hcounts⟩

theorem counting_call (c : EntryCall) : t.Counting (c.step t) :=
  counting_of_strokes (strokes_call c)

/-! ## Steps from one table to another -/

/-- The step puts one table in the place of another, unless it fails and leaves that. The entry
count has moved with the number of entries either way. -/
def Replaces (t : Tree) (T T' : Table) (x : Attempt Scope α) : Prop :=
  ∀ (s : Scope) (S : Store), S.table? t.name = some T →
    ∃ r s' S', x.run (s.on S) = (r, Scope.on s' S') ∧ t.Counts s S s' S' ∧
      S'.table? t.name = some (if r.isOk then T' else T)

/-- Nothing before the last steps writes the table, so what fails there has left it. -/
theorem Idle.replaces {f : α → Attempt Scope β} (hx : t.Idle x) (hf : ∀ a, t.Replaces T T' (f a)) :
    t.Replaces T T' (x >>= f) := by
  intro s S hT
  obtain ⟨r, s', S', hrun, hcount, htable⟩ := hx s S
  have hcounts : t.Counts s S s' S' := counts_of_same hcount htable
  cases r with
  | error e => exact ⟨.error e, s', S', Attempt.run_bind_error hrun f, hcounts, htable.trans hT⟩
  | ok a =>
    obtain ⟨r, s'', S'', hrun', hcounts', hT'⟩ := hf a s' S' (htable.trans hT)
    exact ⟨r, s'', S'', (Attempt.run_bind_ok hrun f).trans hrun',
      hcounts.iff_of_start.mpr hcounts', hT'⟩

theorem replaces_putTable_bump {n : Int} {delta : Int64} (hsize : (T'.size : Int) = T.size + n)
    (hdelta : delta = .ofInt n) :
    t.Replaces T T' (do Scope.putTable t.name T'; Scope.bump delta) :=
  fun s S hT => ⟨.ok (), (s.bumped delta).counted id, S.putTable t.name T', rfl,
    counts_bumped (f := id) hT hsize hdelta, Store.table?_putTable_self ..⟩

theorem replaces_erase_present (present : T.get? key = some value) :
    t.Replaces T (T.erase key) (do Scope.putTable t.name (T.erase key); Scope.bump (-1)) := by
  have hsize := OrderedMap.size_erase present
  exact replaces_putTable_bump (n := -1) (by omega) (by decide)

/-- Where the table is there, opening it to write leaves it at hand. -/
theorem replaces_openTableToWrite_bind {f : Table → Attempt Scope α}
    (hf : t.Replaces T T' (f T)) : t.Replaces T T' (Scope.openTableToWrite t.name >>= f) := by
  intro s S hT
  rw [Attempt.run_bind, Scope.run_openTableToWrite, hT]
  exact hf s S hT

end Tree
end IndexedStore
