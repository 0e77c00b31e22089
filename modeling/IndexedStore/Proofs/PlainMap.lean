import IndexedStore.Proofs.Agreement

/-! # An indexed tree is a plain map with guarded writes

A plain map of entries has no indexes. Its writes are guarded by what a unique index means: no other
entry may have the same index key. A tree whose index tables are exact does on every call what the
plain map does, keeps the tables exact, and leaves the store as it was when the plain map refuses.
-/
namespace IndexedStore

namespace PlainMap

/-- Another entry has the index key of the value in one of the unique indexes. -/
def Taken (t : Tree) (key value : Bytes) (M : Table) : Prop :=
  ∃ i ∈ t.indexes, i.unique = true ∧ ∃ e ∈ M.toList, e.1 ≠ key ∧
    (i.extract value).isSome ∧ i.extract e.2 = i.extract value

instance (t : Tree) (key value : Bytes) (M : Table) : Decidable (Taken t key value M) :=
  inferInstanceAs (Decidable (∃ i ∈ t.indexes, i.unique = true ∧ ∃ e ∈ M.toList, e.1 ≠ key ∧
    (i.extract value).isSome ∧ i.extract e.2 = i.extract value))

def store (t : Tree) (key value : Bytes) (M : Table) : Except ErrorCode Table :=
  if key = [] then .error .invalidArg
  else if Taken t key value M then .error .indexError
  else .ok (M.insert key value)

def insert (t : Tree) (key value : Bytes) (M : Table) : Except ErrorCode Table :=
  if key = [] then .error .invalidArg
  else if M.contains key then .error .keyExists
  else store t key value M

/-- Stores a value, merged with the one under its key if there are a merge function and a value. -/
def upsert (t : Tree) (key value : Bytes) (M : Table) : Except ErrorCode Table :=
  if key = [] then .error .invalidArg
  else match t.merge?, M.get? key with
    | some merge, some old =>
      match merge old value with
      | some merged => store t key merged M
      | none => .error .generic
    | _, _ => store t key value M

def modify (t : Tree) (key : Bytes) (f : Option Bytes → Option Bytes) (M : Table) :
    Except ErrorCode Table :=
  match f (M.get? key) with
  | some value => store t key value M
  | none => .ok (M.erase key)

end PlainMap

namespace Tree
variable {t : Tree} {S S' : Store} {s : Scope} {M : Table} {key value : Bytes}

/-- The store holds the entries, none under the empty key, and the table of every attached index is
exact. -/
structure Holds (t : Tree) (M : Table) (S : Store) : Prop where
  entries : S.table? t.name = some M
  keyed : M.get? [] = none
  exact : ∀ i ∈ t.indexes, ∃ P, S.pairs? (t.indexTable i) = some P ∧ i.Exact M P

/-- Only the tables of the tree and of its attached indexes may differ. -/
def SameBeyond (t : Tree) (S S' : Store) : Prop :=
  (∀ n, n ≠ t.name → S'.table? n = S.table? n) ∧
    ∀ n, (∀ i ∈ t.indexes, n ≠ t.indexTable i) → S'.pairs? n = S.pairs? n

/-- A step does to the store what a plain map does to the entries, answering `a` if it succeeds. -/
def CarriesOut {α : Type} (t : Tree) (s : Scope) (S : Store) (x : Attempt Scope α) (a : α)
    (plain : Except ErrorCode Table) : Prop :=
  match plain with
  | .ok M' => ∃ (s' : Scope) (S' : Store),
    x.run (s.on S) = (.ok a, s'.on S') ∧ t.Holds M' S' ∧ t.SameBeyond S S'
  | .error code => ∃ (e : Failure) (s' : Scope),
    x.run (s.on S) = (.error e, s'.on S) ∧ e.code = code

theorem Holds.furnished (h : t.Holds M S) : t.Furnished S := by
  intro i hi
  obtain ⟨P, hP, -⟩ := h.exact i hi
  rw [hP, Option.isSome_some]

theorem sameBeyond_refl (t : Tree) (S : Store) : t.SameBeyond S S :=
  ⟨fun _ _ => rfl, fun _ _ => rfl⟩

theorem Holds.afterWrite (h : t.Holds M S) (hkey : key ≠ []) :
    t.Holds (M.insert key value) (t.afterWrite key value M S) := by
  refine ⟨table?_afterWrite, ?_, fun i hi => ?_⟩
  · rw [OrderedMap.get?_insert_ne _ _ hkey.symm, h.keyed]
  · obtain ⟨P, hP, he⟩ := h.exact i hi
    obtain ⟨hs, hc⟩ := Index.exact_iff.mp he
    exact ⟨_, pairs?_afterWrite hi hP, Index.exact_iff.mpr ⟨hs.write, hc.write hs⟩⟩

theorem Holds.afterRemoval (h : t.Holds M S) (hM : M.get? key = some value) :
    t.Holds (M.erase key) (t.afterRemoval (key, value) M S) := by
  have hkey : [] ≠ key := by
    rintro rfl
    simp [h.keyed] at hM
  refine ⟨table?_afterRemoval, ?_, fun i hi => ?_⟩
  · rw [OrderedMap.get?_erase_ne _ hkey, h.keyed]
  · obtain ⟨P, hP, he⟩ := h.exact i hi
    obtain ⟨hs, hc⟩ := Index.exact_iff.mp he
    exact ⟨_, pairs?_afterRemoval hi hP hM, Index.exact_iff.mpr ⟨hs.removal, hc.removal hs⟩⟩

/-- The check on the index tables decides what the guard says of the entries. -/
theorem Holds.clash?_isSome (h : t.Holds M S) (key value : Bytes) :
    (t.clash? S key value).isSome ↔ PlainMap.Taken t key value M := by
  simp only [clash?, List.find?_isSome, PlainMap.Taken]
  refine exists_congr fun i => and_congr_right fun hi => ?_
  obtain ⟨P, hP, he⟩ := h.exact i hi
  rw [pairsOf_of_pairs? hP, Index.clashes_iff]
  refine and_congr_right fun _ => ?_
  constructor
  · rintro ⟨p, hp, hv, hne⟩
    obtain ⟨held, hget, hheld⟩ := (he p).mp hp
    exact ⟨(p.2, held), OrderedMap.get?_eq_some_iff.mp hget, hne, by simp [hv], by simp [hv, hheld]⟩
  · rintro ⟨e, hmem, hne, hsome, heq⟩
    obtain ⟨indexKey, hv⟩ := Option.isSome_iff_exists.mp hsome
    exact ⟨(indexKey, e.1), (he _).mpr ⟨e.2, OrderedMap.get?_eq_some_iff.mpr hmem, heq.trans hv⟩,
      hv, hne⟩

theorem Holds.writing (h : t.Holds M S) (key value : Bytes) :
    match PlainMap.store t key value M with
    | .ok M' => ∃ S', t.writing key value S = .ok (M.contains key, S') ∧
        t.Holds M' S' ∧ t.SameBeyond S S'
    | .error code => ∃ e, t.writing key value S = .error e ∧ e.code = code := by
  have hclash := h.clash?_isSome key value
  simp only [PlainMap.store, Tree.writing, List.isEmpty_iff, h.entries]
  by_cases hkey : key = []
  · simp only [hkey, if_true]
    exact ⟨_, rfl, rfl⟩
  · simp only [hkey, if_false]
    obtain hc | ⟨i, hc⟩ := Option.eq_none_or_eq_some (t.clash? S key value)
    · have free : ¬ PlainMap.Taken t key value M := by simpa [hc] using hclash
      simp only [free, if_false, hc]
      exact ⟨_, rfl, h.afterWrite hkey, fun _ => table?_afterWrite_ne,
        fun _ => pairs?_afterWrite_ne⟩
    · have taken : PlainMap.Taken t key value M := hclash.mp (by rw [hc, Option.isSome_some])
      simp only [taken, if_true, hc]
      exact ⟨_, rfl, rfl⟩

section Own
variable (h : t.Holds M S) (own : s.txn.database = t.database)
include h own

theorem Holds.update (key value : Bytes) :
    t.CarriesOut s S (t.update key value) () (PlainMap.store t key value M) := by
  have hrun := run_update (s := s) h.furnished key value
  have hw := h.writing key value
  rw [own, ifOwn_self] at hrun
  unfold CarriesOut
  cases hp : PlainMap.store t key value M with
  | error code =>
    obtain ⟨e, he, hcode⟩ := hp ▸ hw
    exact ⟨e, _, by rw [hrun, he], hcode⟩
  | ok M' =>
    obtain ⟨S', hS, hholds⟩ := hp ▸ hw
    exact ⟨_, S', by rw [hrun, hS], hholds⟩

theorem Holds.insert (key value : Bytes) :
    t.CarriesOut s S (t.insert key value) () (PlainMap.insert t key value M) := by
  have hrun := run_insert (s := s) h.furnished key value
  have hw := h.writing key value
  rw [own, ifOwn_self] at hrun
  simp only [inserting, List.isEmpty_iff, h.entries] at hrun
  unfold CarriesOut PlainMap.insert
  by_cases hkey : key = []
  · simp only [hkey, if_true] at hrun ⊢
    exact ⟨_, _, hrun, rfl⟩
  · by_cases hc : M.contains key = true
    · simp only [hkey, hc, if_true, if_false] at hrun ⊢
      exact ⟨_, _, hrun, rfl⟩
    · simp only [hkey, hc, if_false] at hrun ⊢
      cases hp : PlainMap.store t key value M with
      | error code =>
        obtain ⟨e, he, hcode⟩ := hp ▸ hw
        exact ⟨e, _, by rw [hrun, he]; rfl, hcode⟩
      | ok M' =>
        obtain ⟨S', hS, hholds⟩ := hp ▸ hw
        exact ⟨_, S', by rw [hrun, hS]; rfl, hholds⟩

/-- An upsert that comes to a write of the value `w`. -/
theorem Holds.upsert_of (key value w : Bytes) (hm : t.merging key value S = t.writing key w S) :
    t.CarriesOut s S (t.upsert key value) () (PlainMap.store t key w M) := by
  have hrun := run_upsert (s := s) h.furnished key value
  have hw := h.writing key w
  rw [own, ifOwn_self, hm] at hrun
  unfold CarriesOut
  cases hp : PlainMap.store t key w M with
  | error code =>
    obtain ⟨e, he, hcode⟩ := hp ▸ hw
    exact ⟨e, _, by rw [hrun, he], hcode⟩
  | ok M' =>
    obtain ⟨S', hS, hholds⟩ := hp ▸ hw
    exact ⟨_, S', by rw [hrun, hS], hholds⟩

/-- The merge function is asked before the key is looked at. That an empty key is refused all the
same is due to no entry having it. -/
theorem Holds.upsert (key value : Bytes) :
    t.CarriesOut s S (t.upsert key value) () (PlainMap.upsert t key value M) := by
  have hof := h.upsert_of own key value
  simp only [merging, h.entries] at hof
  have hstore : key = [] → PlainMap.store t key value M = .error .invalidArg :=
    fun hkey => if_pos hkey
  unfold PlainMap.upsert
  cases hmerge : t.merge? with
  | none =>
    simp only [hmerge] at hof ⊢
    split
    · exact hstore ‹_› ▸ hof _ rfl
    · exact hof _ rfl
  | some merge =>
    simp only [hmerge] at hof ⊢
    cases hget : M.get? key with
    | none =>
      simp only [hget] at hof ⊢
      split
      · exact hstore ‹_› ▸ hof _ rfl
      · exact hof _ rfl
    | some old =>
      have hkey : key ≠ [] := by
        rintro rfl
        simp [h.keyed] at hget
      simp only [hkey, if_false, hget] at hof ⊢
      cases hmerged : merge old value with
      | some merged =>
        simp only [hmerged] at hof ⊢
        exact hof _ rfl
      | none =>
        have hrun := run_upsert (s := s) h.furnished key value
        simp only [own, ifOwn_self, merging, h.entries, hmerge, hget, hmerged] at hrun
        exact ⟨_, _, hrun, rfl⟩

theorem Holds.delete (key : Bytes) :
    t.CarriesOut s S (t.delete key) (M.contains key) (.ok (M.erase key)) := by
  have hrun := run_delete (s := s) h.furnished key
  simp only [own, ifOwn_self, removing, h.entries] at hrun
  cases hget : M.get? key with
  | none =>
    simp only [hget] at hrun
    rw [OrderedMap.erase_of_get?_eq_none hget, OrderedMap.contains, hget]
    exact ⟨_, S, hrun, h, t.sameBeyond_refl S⟩
  | some old =>
    simp only [hget] at hrun
    rw [OrderedMap.contains, hget]
    exact ⟨_, _, hrun, h.afterRemoval hget, fun _ => table?_afterRemoval_ne,
      fun _ => pairs?_afterRemoval_ne⟩

theorem Holds.modify (key : Bytes) (f : Option Bytes → Option Bytes) :
    t.CarriesOut s S (t.modify key f) () (PlainMap.modify t key f M) := by
  have hrun := run_modify (s := s) own h.entries key f
  unfold PlainMap.modify
  cases hf : f (M.get? key) with
  | some value =>
    simp only [hf] at hrun ⊢
    have hu := h.update own key value
    unfold CarriesOut at hu ⊢
    rwa [hrun]
  | none =>
    simp only [hf] at hrun ⊢
    cases hget : M.get? key with
    | none =>
      simp only [hget, Option.isSome_none, Bool.false_eq_true, if_false] at hrun
      rw [OrderedMap.erase_of_get?_eq_none hget]
      exact ⟨s, S, hrun, h, t.sameBeyond_refl S⟩
    | some old =>
      simp only [hget, Option.isSome_some, if_true] at hrun
      obtain ⟨s', S', hd, hholds⟩ := h.delete own key
      exact ⟨s', S', by rw [hrun, Attempt.run_discard, hd]; rfl, hholds⟩

end Own

theorem holds_empty (hT : S.table? t.name = some .empty)
    (hP : ∀ i ∈ t.indexes, S.pairs? (t.indexTable i) = some .empty) : t.Holds .empty S := by
  refine ⟨hT, OrderedMap.get?_empty _, fun i hi => ⟨.empty, hP i hi, fun p => ?_⟩⟩
  simp [Index.Derives, OrderedMap.get?_empty]

def wholeIndexed : Tree :=
  ⟨"db", "t", [⟨"whole", 0, fun value _ => some value, none, true, false, none⟩], none, none,
    by decide⟩

def wholeIndexedStore : Store :=
  (Store.empty.putTable "t" .empty).putPairs (indexTableName "t" "whole") .empty

theorem holds_wholeIndexedStore : wholeIndexed.Holds .empty wholeIndexedStore :=
  holds_empty rfl (by simp [wholeIndexed, wholeIndexedStore, indexTable])

end Tree
end IndexedStore
