import IndexedStore.Proofs.Entries

/-! # Agreement of pairs and entries

The pairs of an index are sound when each comes from an entry, complete when each entry has its
pair, and single when a unique index holds no index key twice. Sound pairs are told apart by their
primary keys, so a write that takes the old pair out and puts the new one in touches the pairs of
its own entry and no others. That carries all three properties through a write.
-/
namespace IndexedStore

namespace Index
variable {i : Index} {T : Table} {P : PairTable} {key value : Bytes} {p : Pair}

/-- An entry gives rise to the pair. -/
def Derives (i : Index) (T : Table) (p : Pair) : Prop :=
  ∃ value, T.get? p.2 = some value ∧ i.extract value = some p.1

def Sound (i : Index) (T : Table) (P : PairTable) : Prop := ∀ p ∈ P.pairs, i.Derives T p

def Complete (i : Index) (T : Table) (P : PairTable) : Prop := ∀ p, i.Derives T p → p ∈ P.pairs

def Single (i : Index) (P : PairTable) : Prop :=
  i.unique = true → ∀ p ∈ P.pairs, ∀ q ∈ P.pairs, p.1 = q.1 → p = q

/-- The pairs are those that the entries give rise to. -/
def Exact (i : Index) (T : Table) (P : PairTable) : Prop := ∀ p, p ∈ P.pairs ↔ i.Derives T p

theorem exact_iff : i.Exact T P ↔ i.Sound T P ∧ i.Complete T P :=
  ⟨fun h => ⟨fun p => (h p).mp, fun p => (h p).mpr⟩, fun h p => ⟨h.1 p, h.2 p⟩⟩

theorem derives_insert : i.Derives (T.insert key value) p ↔
    i.Derives T p ∧ p.2 ≠ key ∨ i.extract value = some p.1 ∧ p.2 = key := by
  by_cases h : p.2 = key
  · simp [Derives, h, OrderedMap.get?_insert_self]
  · simp [Derives, h, OrderedMap.get?_insert_ne _ _ h]

theorem derives_erase : i.Derives (T.erase key) p ↔ i.Derives T p ∧ p.2 ≠ key := by
  by_cases h : p.2 = key
  · simp [Derives, h, OrderedMap.get?_erase_self]
  · simp [Derives, h, OrderedMap.get?_erase_ne _ h]

/-- The pairs without the one of the entry under a key, if there is one. -/
def cleared (key : Bytes) (T : Table) (i : Index) (P : PairTable) : PairTable :=
  match T.get? key with
  | some old => i.withoutPair key old P
  | none => P

/-- No sound pair of the entry is left behind, whatever its index key was. -/
theorem mem_cleared (h : i.Sound T P) :
    p ∈ (i.cleared key T P).pairs ↔ p ∈ P.pairs ∧ p.2 ≠ key := by
  unfold cleared
  cases hk : T.get? key with
  | none =>
    refine ⟨fun hp => ⟨hp, ?_⟩, And.left⟩
    rintro rfl
    obtain ⟨_, hv, -⟩ := h p hp
    rw [hk] at hv
    cases hv
  | some old =>
    refine mem_withoutPair.trans
      ⟨fun ⟨hp, hne⟩ => ⟨hp, ?_⟩, fun ⟨hp, hne⟩ => ⟨hp, fun h => hne h.2⟩⟩
    -- a sound pair of the entry is the one that its stored value gives
    rintro rfl
    obtain ⟨value, hv, he⟩ := h p hp
    rw [hk, Option.some.injEq] at hv
    exact hne ⟨hv ▸ he, rfl⟩

theorem mem_rewritten (h : i.Sound T P) : p ∈ (i.withPair key value (i.cleared key T P)).pairs ↔
    p ∈ P.pairs ∧ p.2 ≠ key ∨ i.extract value = some p.1 ∧ p.2 = key := by
  rw [mem_withPair, mem_cleared h]

theorem Sound.write (h : i.Sound T P) :
    i.Sound (T.insert key value) (i.withPair key value (i.cleared key T P)) := by
  intro p hp
  rw [derives_insert]
  exact ((mem_rewritten h).mp hp).imp_left fun ⟨hp, hne⟩ => ⟨h p hp, hne⟩

theorem Complete.write (h : i.Sound T P) (hc : i.Complete T P) :
    i.Complete (T.insert key value) (i.withPair key value (i.cleared key T P)) := by
  intro p hp
  rw [mem_rewritten h]
  exact (derives_insert.mp hp).imp_left fun ⟨hp, hne⟩ => ⟨hc p hp, hne⟩

/-- What makes a new pair the only one of its index key is that the check found no clash. -/
theorem Single.withPair (hs : i.Single P) (hc : i.clashes key value P = false) :
    i.Single (i.withPair key value P) := by
  intro hu p hp q hq heq
  have hfree : ∀ q ∈ P.pairs, i.extract value = some q.1 → q.2 = key := by
    intro q hq he
    by_contra hne
    exact Bool.false_ne_true (hc ▸ clashes_iff.mpr ⟨hu, q, hq, he, hne⟩)
  rcases mem_withPair.mp hp with hp | ⟨hpe, hpk⟩ <;> rcases mem_withPair.mp hq with hq | ⟨hqe, hqk⟩
  · exact hs hu p hp q hq heq
  · exact Prod.ext heq ((hfree p hp (heq ▸ hqe)).trans hqk.symm)
  · exact Prod.ext heq (hpk.trans (hfree q hq (heq ▸ hpe)).symm)
  · exact Prod.ext heq (hpk.trans hqk.symm)

theorem Single.cleared (h : i.Sound T P) (hs : i.Single P) : i.Single (i.cleared key T P) :=
  fun hu p hp q hq => hs hu p ((mem_cleared h).mp hp).1 q ((mem_cleared h).mp hq).1

/-- Clearing an entry takes no clash away but its own. -/
theorem clashes_cleared (h : i.Sound T P) (hc : i.clashes key value P = false) :
    i.clashes key value (i.cleared key T P) = false := by
  refine Bool.eq_false_iff.mpr fun hclash => ?_
  obtain ⟨hu, p, hp, he, hne⟩ := clashes_iff.mp hclash
  exact Bool.false_ne_true (hc ▸ clashes_iff.mpr ⟨hu, p, ((mem_cleared h).mp hp).1, he, hne⟩)

theorem Single.write (h : i.Sound T P) (hs : i.Single P) (hc : i.clashes key value P = false) :
    i.Single (i.withPair key value (i.cleared key T P)) :=
  (hs.cleared h).withPair (clashes_cleared h hc)

theorem Sound.removal (h : i.Sound T P) : i.Sound (T.erase key) (i.cleared key T P) := by
  intro p hp
  rw [derives_erase]
  obtain ⟨hp, hne⟩ := (mem_cleared h).mp hp
  exact ⟨h p hp, hne⟩

theorem Complete.removal (h : i.Sound T P) (hc : i.Complete T P) :
    i.Complete (T.erase key) (i.cleared key T P) := by
  intro p hp
  rw [mem_cleared h]
  obtain ⟨hp, hne⟩ := derives_erase.mp hp
  exact ⟨hc p hp, hne⟩

end Index

namespace Tree
variable {t : Tree} {S : Store} {T : Table} {i : Index} {P : PairTable} {key value : Bytes}

theorem table?_afterWrite :
    (t.afterWrite key value T S).table? t.name = some (T.insert key value) :=
  Store.table?_putTable_self ..

theorem table?_afterRemoval {e : Bytes × Bytes} :
    (t.afterRemoval e T S).table? t.name = some (T.erase e.1) := Store.table?_putTable_self ..

theorem pairs?_afterWrite (hi : i ∈ t.indexes) (hP : S.pairs? (t.indexTable i) = some P) :
    (t.afterWrite key value T S).pairs? (t.indexTable i) =
      some (i.withPair key value (i.cleared key T P)) := by
  unfold afterWrite Index.cleared
  rw [Store.pairs?_putTable, pairs?_reindexed _ _ hi]
  cases T.get? key with
  | none => simp only [pairsOf_of_pairs? hP]
  | some old => simp only [pairsOf_of_pairs? (pairs?_reindexed _ _ hi), pairsOf_of_pairs? hP]

theorem pairs?_afterRemoval (hi : i ∈ t.indexes) (hP : S.pairs? (t.indexTable i) = some P)
    (hT : T.get? key = some value) :
    (t.afterRemoval (key, value) T S).pairs? (t.indexTable i) = some (i.cleared key T P) := by
  rw [afterRemoval, Store.pairs?_putTable, pairs?_reindexed _ _ hi, pairsOf_of_pairs? hP,
    Index.cleared, hT]

theorem table?_afterWrite_ne {n : String} (h : n ≠ t.name) :
    (t.afterWrite key value T S).table? n = S.table? n := by
  rw [afterWrite, Store.table?_putTable_ne _ _ h, table?_reindexed]
  cases T.get? key <;> simp

theorem table?_afterRemoval_ne {e : Bytes × Bytes} {n : String} (h : n ≠ t.name) :
    (t.afterRemoval e T S).table? n = S.table? n := by
  rw [afterRemoval, Store.table?_putTable_ne _ _ h, table?_reindexed]

theorem pairs?_afterWrite_ne {n : String} (h : ∀ i ∈ t.indexes, n ≠ t.indexTable i) :
    (t.afterWrite key value T S).pairs? n = S.pairs? n := by
  rw [afterWrite, Store.pairs?_putTable, pairs?_reindexed_ne _ _ h]
  cases T.get? key with
  | none => rfl
  | some old => exact pairs?_reindexed_ne _ _ h

theorem pairs?_afterRemoval_ne {e : Bytes × Bytes} {n : String}
    (h : ∀ i ∈ t.indexes, n ≠ t.indexTable i) :
    (t.afterRemoval e T S).pairs? n = S.pairs? n := by
  rw [afterRemoval, Store.pairs?_putTable, pairs?_reindexed_ne _ _ h]

end Tree
end IndexedStore
