import IndexedStore.Store
import IndexedStore.Proofs.OrderedMap

/-! # Lookups in stores

A store is determined by the tables found under its names. Writing a table of one kind leaves the
tables of the other kind and of all other names as they are.
-/
namespace IndexedStore

namespace PairTable

theorem mem_pairs_insert {P : PairTable} {p q : Pair} :
    q ∈ PairTable.pairs (P.insert p ()) ↔ q = p ∨ q ∈ P.pairs := OrderedMap.mem_keys_insert

theorem mem_pairs_erase {P : PairTable} {p q : Pair} :
    q ∈ PairTable.pairs (P.erase p) ↔ q ∈ P.pairs ∧ q ≠ p := OrderedMap.mem_keys_erase

@[simp] theorem not_mem_pairs_empty (p : Pair) : p ∉ PairTable.pairs .empty := List.not_mem_nil

theorem mem_primaryKeys {P : PairTable} {indexKey key : Bytes} :
    key ∈ P.primaryKeys indexKey ↔ (indexKey, key) ∈ P.pairs := by
  simp only [primaryKeys, List.mem_map, List.mem_filter, beq_iff_eq]
  constructor
  · rintro ⟨⟨a, b⟩, ⟨hp, rfl⟩, rfl⟩
    exact hp
  · intro hp
    exact ⟨(indexKey, key), ⟨hp, rfl⟩, rfl⟩

end PairTable

namespace Store

theorem ext_tables {s s' : Store} (hplain : ∀ n, s.table? n = s'.table? n)
    (hpaired : ∀ n, s.pairs? n = s'.pairs? n) : s = s' := by
  cases s
  cases s'
  exact congrArg₂ mk (OrderedMap.ext_get? hplain) (OrderedMap.ext_get? hpaired)

@[simp] theorem table?_putTable_self (s : Store) (n : String) (T : Table) :
    (s.putTable n T).table? n = some T := OrderedMap.get?_insert_self ..

theorem table?_putTable_ne (s : Store) {n m : String} (T : Table) (h : m ≠ n) :
    (s.putTable n T).table? m = s.table? m := OrderedMap.get?_insert_ne _ _ h

@[simp] theorem pairs?_putTable (s : Store) (n m : String) (T : Table) :
    (s.putTable n T).pairs? m = s.pairs? m := rfl

@[simp] theorem pairs?_putPairs_self (s : Store) (n : String) (P : PairTable) :
    (s.putPairs n P).pairs? n = some P := OrderedMap.get?_insert_self ..

theorem pairs?_putPairs_ne (s : Store) {n m : String} (P : PairTable) (h : m ≠ n) :
    (s.putPairs n P).pairs? m = s.pairs? m := OrderedMap.get?_insert_ne _ _ h

@[simp] theorem table?_putPairs (s : Store) (n m : String) (P : PairTable) :
    (s.putPairs n P).table? m = s.table? m := rfl

theorem isSome_table?_putTable (s : Store) (n : String) (T : Table) (m : String) :
    ((s.putTable n T).table? m).isSome ↔ m = n ∨ (s.table? m).isSome := by
  by_cases hm : m = n
  · simp [hm]
  · simp [table?_putTable_ne s T hm, hm]

/-- Replacing a table brings no name into being. -/
theorem isSome_table?_replaced {s : Store} {n : String} (there : (s.table? n).isSome) (T : Table)
    (m : String) : ((s.putTable n T).table? m).isSome ↔ (s.table? m).isSome :=
  (s.isSome_table?_putTable n T m).trans (or_iff_right_of_imp fun hm => hm ▸ there)

theorem isSome_pairs?_putPairs (s : Store) (n : String) (P : PairTable) (m : String) :
    ((s.putPairs n P).pairs? m).isSome ↔ m = n ∨ (s.pairs? m).isSome := by
  by_cases hm : m = n
  · simp [hm]
  · simp [pairs?_putPairs_ne s P hm, hm]

theorem putPairs_pairs? {s : Store} {n : String} {P : PairTable} (h : s.pairs? n = some P) :
    s.putPairs n P = s := by
  rw [putPairs, OrderedMap.insert_get? h]

theorem putPairs_putPairs (s : Store) (n : String) (P Q : PairTable) :
    (s.putPairs n P).putPairs n Q = s.putPairs n Q := by
  simp only [putPairs, OrderedMap.insert_insert]

theorem openTable_eq_ok {s : Store} {n : String} {T : Table} (h : s.openTable n = .ok T) :
    T = (s.table? n).getD .empty := by
  unfold openTable at h
  cases hT : s.table? n with
  | some T' =>
    simp only [hT] at h
    cases h
    rfl
  | none =>
    simp only [hT] at h
    split at h <;> cases h
    rfl

theorem openPairs_eq_ok {s : Store} {n : String} {P : PairTable} (h : s.openPairs n = .ok P) :
    P = (s.pairs? n).getD .empty := by
  unfold openPairs at h
  cases hP : s.pairs? n with
  | some P' =>
    simp only [hP] at h
    cases h
    rfl
  | none =>
    simp only [hP] at h
    split at h <;> cases h
    rfl

theorem openPairs_of_pairs? {s : Store} {n : String} {P : PairTable} (h : s.pairs? n = some P) :
    s.openPairs n = .ok P := by
  rw [openPairs, h]

end Store

end IndexedStore
