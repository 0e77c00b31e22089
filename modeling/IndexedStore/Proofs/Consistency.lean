import IndexedStore.Tree.Lifecycle
import IndexedStore.Proofs.Calls

/-! # Consistency of a tree with its indexes

Between calls the pairs of every attached index are sound and single, and complete for those indexes
that are known to be filled. No index that is not attached has a table, so that one which is added
starts without pairs. A touch of an entry keeps this up, and so do adding, populating and dropping
an index.
-/
namespace IndexedStore

namespace Index
variable {i : Index} {T : Table} {P : PairTable} {filled : List String}

/-- The pairs are sound and single, and complete if the index is filled. -/
structure Agrees (i : Index) (filled : List String) (T : Table) (P : PairTable) : Prop where
  sound : i.Sound T P
  single : i.Single P
  complete : i.name ∈ filled → i.Complete T P

theorem Agrees.write {key value : Bytes} (h : i.Agrees filled T P)
    (free : i.clashes key value P = false) :
    i.Agrees filled (T.insert key value) (i.withPair key value (i.cleared key T P)) :=
  ⟨h.sound.write, h.single.write h.sound free, fun hf => (h.complete hf).write h.sound⟩

theorem Agrees.removal {key : Bytes} (h : i.Agrees filled T P) :
    i.Agrees filled (T.erase key) (i.cleared key T P) :=
  ⟨h.sound.removal, h.single.cleared h.sound, fun hf => (h.complete hf).removal h.sound⟩

theorem Agrees.of_filled {filled' : List String} (h : i.Agrees filled T P)
    (hf : i.name ∈ filled' → i.name ∈ filled) : i.Agrees filled' T P :=
  ⟨h.sound, h.single, fun h' => h.complete (hf h')⟩

/-- An index without pairs agrees with every table, and covers an empty one. -/
theorem agrees_empty (hf : i.name ∈ filled → T.toList = []) : i.Agrees filled T .empty := by
  refine ⟨fun p hp => absurd hp (PairTable.not_mem_pairs_empty p),
    fun _ p hp => absurd hp (PairTable.not_mem_pairs_empty p), fun h p hp => ?_⟩
  obtain ⟨value, hv, -⟩ := hp
  rw [OrderedMap.get?_eq_some_iff, hf h] at hv
  cases hv

/-- Populating treats an entry as if it were written: the same check, then the same pair. -/
theorem populated_cons_eq_ok {e : Bytes × Bytes} {rest : List (Bytes × Bytes)} {P' : PairTable} :
    i.populated (e :: rest) P = .ok P' ↔
      i.clashes e.1 e.2 P = false ∧ i.populated rest (i.withPair e.1 e.2 P) = .ok P' := by
  simp only [populated, clashes, withPair]
  cases i.extract e.2 with
  | none => simp
  | some indexKey =>
    simp only [Option.any_some]
    cases i.unique && !Tree.admits P e.1 indexKey <;> simp

theorem mem_populated {l : List (Bytes × Bytes)} {P P' : PairTable} {p : Pair}
    (h : i.populated l P = .ok P') :
    p ∈ P'.pairs ↔ p ∈ P.pairs ∨ ∃ e ∈ l, i.extract e.2 = some p.1 ∧ p.2 = e.1 := by
  induction l generalizing P with
  | nil =>
    cases h
    simp
  | cons e rest ih =>
    rw [ih (populated_cons_eq_ok.mp h).2, mem_withPair, List.exists_mem_cons_iff, or_assoc]

/-- Under the index key of an entry a populated unique index holds that entry alone. -/
theorem eq_of_mem_populated {l : List (Bytes × Bytes)} {P P' : PairTable} (hu : i.unique = true)
    (h : i.populated l P = .ok P') {e : Bytes × Bytes} (he : e ∈ l) {p : Pair} (hp : p ∈ P'.pairs)
    (hkey : i.extract e.2 = some p.1) : p.2 = e.1 := by
  induction l generalizing P e p with
  | nil => cases he
  | cons a rest ih =>
    obtain ⟨hfree, h⟩ := populated_cons_eq_ok.mp h
    rcases List.mem_cons.mp he with rfl | he
    · rcases (mem_populated h).mp hp with hold | ⟨b, hb, hkey', hpb⟩
      · rcases mem_withPair.mp hold with hold | ⟨-, hk⟩
        · by_contra hne
          exact Bool.false_ne_true (hfree ▸ clashes_iff.mpr ⟨hu, p, hold, hkey, hne⟩)
        · exact hk
      -- a later entry of the same index key has found the pair of the first one
      · have hfirst : (p.1, e.1) ∈ P'.pairs :=
          (mem_populated h).mpr (.inl (mem_withPair.mpr (.inr ⟨hkey, rfl⟩)))
        have hab : e.1 = b.1 := ih h hb hfirst hkey'
        rw [hpb, hab]
    · exact ih h he hp hkey

theorem exists_mem_derives_iff {p : Pair} :
    (∃ e ∈ T.toList, i.extract e.2 = some p.1 ∧ p.2 = e.1) ↔ i.Derives T p := by
  constructor
  · rintro ⟨e, hmem, hv, hk⟩
    exact ⟨e.2, hk ▸ OrderedMap.get?_eq_some_iff.mpr hmem, hv⟩
  · rintro ⟨value, hv, he⟩
    exact ⟨(p.2, value), OrderedMap.get?_eq_some_iff.mp hv, he, rfl⟩

theorem mem_populated_toList {P' : PairTable} {p : Pair} (h : i.populated T.toList P = .ok P') :
    p ∈ P'.pairs ↔ p ∈ P.pairs ∨ i.Derives T p := by
  rw [mem_populated h, exists_mem_derives_iff]

/-- Populating fails rather than let two entries share a key of a unique index. -/
theorem Sound.single_populated {P' : PairTable} (hs : i.Sound T P)
    (h : i.populated T.toList P = .ok P') : i.Single P' := by
  have hsound : i.Sound T P' := fun p hp => ((mem_populated_toList h).mp hp).elim (hs p) id
  intro hu p hp q hq heq
  obtain ⟨e, he, hkey, hk⟩ := exists_mem_derives_iff.mpr (hsound p hp)
  exact Prod.ext heq (hk.trans (eq_of_mem_populated hu h he hq (heq ▸ hkey)).symm)

theorem Agrees.populated {filled' : List String} {P' : PairTable} (h : i.Agrees filled T P)
    (hp : i.populated T.toList P = .ok P') : i.Agrees filled' T P' :=
  ⟨fun p hp' => ((mem_populated_toList hp).mp hp').elim (h.sound p) id, h.sound.single_populated hp,
    fun _ _ hp' => (mem_populated_toList hp).mpr (.inr hp')⟩

end Index

namespace Tree
variable {t : Tree} {filled filled' : List String} {S S' : Store} {T : Table} {i : Index}

/-- The tree has its table, and that of every attached index agrees with it. -/
def Consistent (t : Tree) (filled : List String) (S : Store) : Prop :=
  ∃ T, S.table? t.name = some T ∧
    ∀ i ∈ t.indexes, ∃ P, S.pairs? (t.indexTable i) = some P ∧ i.Agrees filled T P

/-- The tree is consistent, and no index has a table but those attached. -/
structure Kept (t : Tree) (filled : List String) (S : Store) : Prop where
  consistent : t.Consistent filled S
  unused : ∀ n, t.hasIndex n = false → S.pairs? (indexTableName t.name n) = none

theorem Consistent.furnished (h : t.Consistent filled S) : t.Furnished S := by
  intro i hi
  obtain ⟨T, -, hall⟩ := h
  obtain ⟨P, hP, -⟩ := hall i hi
  rw [hP, Option.isSome_some]

theorem indexTableName_ne_indexTable {n : String} (free : t.hasIndex n = false)
    (hi : i ∈ t.indexes) : indexTableName t.name n ≠ t.indexTable i := fun h =>
  name_ne_of_hasIndex free hi ((indexTableName_inj t.name).mp h).symm

/-- Where the check looks is where a clash would be: one step keeps a tree consistent. -/
theorem Kept.touch (h : t.Kept filled S) (hto : t.Touch S S') : t.Kept filled S' := by
  obtain ⟨⟨T, hT, hall⟩, hunused⟩ := h
  cases hto with
  | @write T' key value entries free =>
    obtain rfl : T = T' := Option.some.inj (hT.symm.trans entries)
    refine ⟨⟨_, table?_afterWrite, fun i hi => ?_⟩, fun n hn => ?_⟩
    · obtain ⟨P, hP, hagrees⟩ := hall i hi
      have hi' := List.find?_eq_none.mp free i hi
      rw [pairsOf_of_pairs? hP] at hi'
      exact ⟨_, pairs?_afterWrite hi hP, hagrees.write (Bool.eq_false_iff.mpr hi')⟩
    · rw [pairs?_afterWrite_ne fun i hi => indexTableName_ne_indexTable hn hi, hunused n hn]
  | @removal T' key value entries present =>
    obtain rfl : T = T' := Option.some.inj (hT.symm.trans entries)
    refine ⟨⟨_, table?_afterRemoval, fun i hi => ?_⟩, fun n hn => ?_⟩
    · obtain ⟨P, hP, hagrees⟩ := hall i hi
      exact ⟨_, pairs?_afterRemoval hi hP present, hagrees.removal⟩
    · rw [pairs?_afterRemoval_ne fun i hi => indexTableName_ne_indexTable hn hi, hunused n hn]

theorem Kept.touches (h : t.Kept filled S) (hto : t.Touches S S') : t.Kept filled S' := by
  induction hto with
  | refl => exact h
  | tail _ hto ih => exact ih.touch hto

/-! ## Adding, populating and dropping -/

variable {P? : Option PairTable} {n : String}

/-- The table of one index is replaced, and beyond it only the table of records may differ. -/
structure Refitted (t : Tree) (n : String) (P? : Option PairTable) (S S' : Store) : Prop where
  self : S'.pairs? (indexTableName t.name n) = P?
  paired : ∀ m, m ≠ indexTableName t.name n → S'.pairs? m = S.pairs? m
  plain : ∀ m, m ≠ recordTable → S'.table? m = S.table? m

theorem Refitted.pairs?_ne {m : String} (h : t.Refitted n P? S S') (hm : m ≠ n) :
    S'.pairs? (indexTableName t.name m) = S.pairs? (indexTableName t.name m) :=
  h.paired _ fun heq => hm ((indexTableName_inj t.name).mp heq)

theorem hasIndex_eq_false_iff : t.hasIndex n = false ↔ ∀ i ∈ t.indexes, i.name ≠ n := by
  refine ⟨fun h i hi => name_ne_of_hasIndex h hi, fun h => ?_⟩
  simpa [hasIndex, index?] using h

/-- A new index starts with an empty table and covers the entries if there are none. -/
theorem Kept.attach (h : t.Kept filled S) (hname : t.name ≠ recordTable)
    (free : t.hasIndex i.name = false) (hS : t.Refitted i.name (some .empty) S S')
    (hold : ∀ j ∈ t.indexes, j.name ∈ filled' → j.name ∈ filled)
    (hnew : i.name ∈ filled' → S.table? t.name = some .empty) :
    (t.attach i free).Kept filled' S' := by
  obtain ⟨⟨T, hT, hall⟩, hunused⟩ := h
  refine ⟨⟨T, (hS.plain _ hname).trans hT, fun j hj => ?_⟩, fun n hn => ?_⟩
  · rcases List.mem_append.mp hj with hj | hj
    · obtain ⟨P, hP, hagrees⟩ := hall j hj
      exact ⟨P, (hS.pairs?_ne (name_ne_of_hasIndex free hj)).trans hP,
        hagrees.of_filled (hold j hj)⟩
    · obtain rfl : j = i := List.mem_singleton.mp hj
      refine ⟨.empty, hS.self, Index.agrees_empty fun hf => ?_⟩
      rw [hT, Option.some.injEq] at hnew
      rw [hnew hf]
      rfl
  · rw [hasIndex_eq_false_iff] at hn
    have hne : n ≠ i.name := (hn i (List.mem_append_right _ (List.mem_singleton_self i))).symm
    rw [show (t.attach i free).name = t.name from rfl, hS.pairs?_ne hne]
    exact hunused n (hasIndex_eq_false_iff.mpr fun j hj => hn j (List.mem_append_left _ hj))

theorem Kept.detach (h : t.Kept filled S) (hname : t.name ≠ recordTable)
    (hS : t.Refitted n none S S') (hold : ∀ j ∈ t.indexes, j.name ∈ filled' → j.name ∈ filled) :
    (t.detach n).Kept filled' S' := by
  obtain ⟨⟨T, hT, hall⟩, hunused⟩ := h
  refine ⟨⟨T, (hS.plain _ hname).trans hT, fun j hj => ?_⟩, fun m hm => ?_⟩
  · obtain ⟨hj, hne⟩ := List.mem_filter.mp hj
    obtain ⟨P, hP, hagrees⟩ := hall j hj
    exact ⟨P, (hS.pairs?_ne (by simpa using hne)).trans hP, hagrees.of_filled (hold j hj)⟩
  · rw [show (t.detach n).name = t.name from rfl]
    by_cases hmn : m = n
    · rw [hmn, hS.self]
    · rw [hS.pairs?_ne hmn]
      refine hunused m (hasIndex_eq_false_iff.mpr fun j hj hjm => ?_)
      refine hasIndex_eq_false_iff.mp hm j (List.mem_filter.mpr ⟨hj, ?_⟩) hjm
      simpa [hjm] using hmn

/-- A populated index covers the entries. -/
theorem Kept.populate {P P' : PairTable} (h : t.Kept filled S) (hi : i ∈ t.indexes)
    (hname : t.name ≠ recordTable) (hT : S.table? t.name = some T)
    (hP : S.pairs? (t.indexTable i) = some P) (hpop : i.populated T.toList P = .ok P')
    (hS : t.Refitted i.name (some P') S S')
    (hold : ∀ j ∈ t.indexes, j ≠ i → j.name ∈ filled' → j.name ∈ filled) :
    t.Kept filled' S' := by
  obtain ⟨⟨T', hT', hall⟩, hunused⟩ := h
  obtain rfl : T' = T := Option.some.inj (hT'.symm.trans hT)
  refine ⟨⟨T', (hS.plain _ hname).trans hT, fun j hj => ?_⟩, fun n hn => ?_⟩
  · obtain ⟨Q, hQ, hagrees⟩ := hall j hj
    by_cases hji : j = i
    · subst hji
      obtain rfl : Q = P := Option.some.inj (hQ.symm.trans hP)
      exact ⟨P', hS.self, hagrees.populated hpop⟩
    · have hne : j.name ≠ i.name := fun heq => hji (List.inj_on_of_nodup_map t.distinct hj hi heq)
      exact ⟨Q, (hS.pairs?_ne hne).trans hQ, hagrees.of_filled (hold j hj hji)⟩
  · rw [hS.pairs?_ne (name_ne_of_hasIndex hn hi).symm, hunused n hn]

end Tree
end IndexedStore
