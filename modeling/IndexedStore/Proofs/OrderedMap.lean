import IndexedStore.OrderedMap
import Mathlib.Data.List.Nodup

/-! # Lookups in ordered maps

An entry list in strict key order holds each key once, so a lookup finds exactly the listed entry.
Writes are described by the lookups after them, and maps that answer all lookups alike are equal.
-/
namespace IndexedStore.OrderedMap
variable {κ α : Type} {cmp : κ → κ → Ordering}

@[simp] theorem get?_empty (k : κ) : (empty : OrderedMap cmp α).get? k = none := rfl

variable [Std.LawfulEqCmp cmp]

theorem ne_of_lt {a b : κ} (h : cmp a b = .lt) : a ≠ b := by
  rintro rfl
  have hself : cmp a a = .eq := Std.ReflCmp.compare_self
  rw [hself] at h
  cases h

theorem nodup_keys (m : OrderedMap cmp α) : m.keys.Nodup :=
  List.pairwise_map.mpr (m.ordered.imp ne_of_lt)

theorem eq_of_mem {m : OrderedMap cmp α} {k : κ} {a b : α} (ha : (k, a) ∈ m.toList)
    (hb : (k, b) ∈ m.toList) : a = b :=
  congrArg Prod.snd (List.inj_on_of_nodup_map m.nodup_keys ha hb rfl)

theorem get?_eq_some_iff {m : OrderedMap cmp α} {k : κ} {a : α} :
    m.get? k = some a ↔ (k, a) ∈ m.toList := by
  constructor
  · intro h
    obtain ⟨e, he, rfl⟩ := Option.map_eq_some_iff.mp h
    have hk : k = e.1 := by simpa using List.find?_some he
    exact hk ▸ List.mem_of_find?_eq_some he
  · intro h
    cases hf : m.toList.find? fun e => cmp k e.1 == .eq with
    | none => simpa using List.find?_eq_none.mp hf _ h
    | some e =>
      have hk : k = e.1 := by simpa using List.find?_some hf
      have he : (k, e.2) ∈ m.toList := hk ▸ List.mem_of_find?_eq_some hf
      rw [get?, hf, Option.map_some, eq_of_mem he h]

theorem get?_eq_none_iff {m : OrderedMap cmp α} {k : κ} :
    m.get? k = none ↔ ∀ a, (k, a) ∉ m.toList := by
  simp [Option.eq_none_iff_forall_ne_some, get?_eq_some_iff]

theorem mem_keys {m : OrderedMap cmp α} {k : κ} : k ∈ m.keys ↔ ∃ a, m.get? k = some a := by
  simp [keys, get?_eq_some_iff]

theorem mem_toList_erase {m : OrderedMap cmp α} {k : κ} {e : κ × α} :
    e ∈ (m.erase k).toList ↔ e ∈ m.toList ∧ e.1 ≠ k := by
  have hk : k ≠ e.1 ↔ e.1 ≠ k := ne_comm
  simpa [erase, List.mem_filter] using fun _ => hk

@[simp] theorem get?_erase_self (m : OrderedMap cmp α) (k : κ) : (m.erase k).get? k = none :=
  get?_eq_none_iff.mpr fun _ h => (mem_toList_erase.mp h).2 rfl

theorem get?_erase_ne (m : OrderedMap cmp α) {k k' : κ} (h : k' ≠ k) :
    (m.erase k).get? k' = m.get? k' := by
  refine Option.ext fun b => ?_
  simp [get?_eq_some_iff, mem_toList_erase, h]

theorem mem_keys_erase {m : OrderedMap cmp α} {k k' : κ} :
    k' ∈ (m.erase k).keys ↔ k' ∈ m.keys ∧ k' ≠ k := by
  by_cases h : k' = k
  · simp [mem_keys, h]
  · simp [mem_keys, get?_erase_ne m h, h]

variable [Std.TransCmp cmp]

/-- Lookups determine a map: the same entries in the same order. -/
theorem ext_get? {m n : OrderedMap cmp α} (h : ∀ k, m.get? k = n.get? k) : m = n := by
  have hmem : ∀ e, e ∈ m.toList ↔ e ∈ n.toList := by
    intro e
    rw [← get?_eq_some_iff (k := e.1) (a := e.2), h, get?_eq_some_iff]
  refine ext (List.Perm.eq_of_pairwise ?_ m.ordered n.ordered
    ((List.perm_ext_iff_of_nodup m.nodup_keys.of_map n.nodup_keys.of_map).mpr hmem))
  intro x y _ _ hxy hyx
  rw [Std.OrientedCmp.gt_of_lt hxy] at hyx
  cases hyx

theorem erase_of_get?_eq_none {m : OrderedMap cmp α} {k : κ} (h : m.get? k = none) :
    m.erase k = m := by
  refine ext_get? fun k' => ?_
  by_cases hk : k' = k
  · rw [hk, get?_erase_self, h]
  · exact get?_erase_ne m hk

theorem mem_toList_insert {m : OrderedMap cmp α} {k : κ} {a : α} {e : κ × α} :
    e ∈ (m.insert k a).toList ↔ e = (k, a) ∨ e.1 ≠ k ∧ e ∈ m.toList := by
  simp only [insert, List.mem_append, List.mem_cons, List.mem_filter, beq_iff_eq]
  constructor
  · rintro (⟨he, hlt⟩ | rfl | ⟨he, hlt⟩)
    · exact .inr ⟨ne_of_lt hlt, he⟩
    · exact .inl rfl
    · exact .inr ⟨(ne_of_lt hlt).symm, he⟩
  · rintro (rfl | ⟨hne, he⟩)
    · exact .inr (.inl rfl)
    · cases hc : cmp e.1 k with
      | lt => exact .inl ⟨he, rfl⟩
      | eq => exact absurd (Std.LawfulEqCmp.eq_of_compare hc) hne
      | gt => exact .inr (.inr ⟨he, Std.OrientedCmp.lt_of_gt hc⟩)

@[simp] theorem get?_insert_self (m : OrderedMap cmp α) (k : κ) (a : α) :
    (m.insert k a).get? k = some a :=
  get?_eq_some_iff.mpr (mem_toList_insert.mpr (.inl rfl))

theorem get?_insert_ne (m : OrderedMap cmp α) {k k' : κ} (a : α) (h : k' ≠ k) :
    (m.insert k a).get? k' = m.get? k' := by
  refine Option.ext fun b => ?_
  simp [get?_eq_some_iff, mem_toList_insert, h]

/-- Storing what is already stored changes nothing. -/
theorem insert_get? {m : OrderedMap cmp α} {k : κ} {a : α} (h : m.get? k = some a) :
    m.insert k a = m := by
  refine ext_get? fun k' => ?_
  by_cases hk : k' = k
  · rw [hk, get?_insert_self, h]
  · exact get?_insert_ne m a hk

/-- Of two values stored under one key the later stays. -/
theorem insert_insert (m : OrderedMap cmp α) (k : κ) (a b : α) :
    (m.insert k a).insert k b = m.insert k b := by
  refine ext_get? fun k' => ?_
  by_cases hk : k' = k
  · rw [hk, get?_insert_self, get?_insert_self]
  · rw [get?_insert_ne _ _ hk, get?_insert_ne _ _ hk, get?_insert_ne _ _ hk]

theorem erase_insert_self (m : OrderedMap cmp α) (k : κ) (a : α) :
    (m.insert k a).erase k = m.erase k := by
  refine ext_get? fun k' => ?_
  by_cases hk : k' = k
  · rw [hk, get?_erase_self, get?_erase_self]
  · rw [get?_erase_ne _ hk, get?_erase_ne _ hk, get?_insert_ne _ _ hk]

theorem erase_insert_ne (m : OrderedMap cmp α) {k k' : κ} (a : α) (h : k ≠ k') :
    (m.insert k a).erase k' = (m.erase k').insert k a := by
  refine ext_get? fun j => ?_
  by_cases hk : j = k
  · rw [hk, get?_erase_ne _ h, get?_insert_self, get?_insert_self]
  · rw [get?_insert_ne _ _ hk]
    by_cases hk' : j = k'
    · rw [hk', get?_erase_self, get?_erase_self]
    · rw [get?_erase_ne _ hk', get?_erase_ne _ hk', get?_insert_ne _ _ hk]

theorem insert_perm (m : OrderedMap cmp α) (k : κ) (a : α) :
    (m.insert k a).toList.Perm ((k, a) :: (m.erase k).toList) := by
  have hfresh : (k, a) ∉ (m.erase k).toList := fun h => (mem_toList_erase.mp h).2 rfl
  have hnodup : ((k, a) :: (m.erase k).toList).Nodup :=
    List.nodup_cons.mpr ⟨hfresh, (nodup_keys _).of_map⟩
  have hmem : ∀ e, e ∈ (m.insert k a).toList ↔ e ∈ (k, a) :: (m.erase k).toList := by
    intro e
    rw [mem_toList_insert, List.mem_cons, mem_toList_erase, and_comm (a := e.1 ≠ k)]
  exact (List.perm_ext_iff_of_nodup (nodup_keys _).of_map hnodup).mpr hmem

theorem size_insert (m : OrderedMap cmp α) (k : κ) (a : α) :
    (m.insert k a).size = (m.erase k).size + 1 := (insert_perm m k a).length_eq

theorem size_erase {m : OrderedMap cmp α} {k : κ} {a : α} (h : m.get? k = some a) :
    (m.erase k).size + 1 = m.size := by
  rw [← size_insert m k a, insert_get? h]

theorem size_insert_of_absent {m : OrderedMap cmp α} {k : κ} (h : m.get? k = none) (a : α) :
    (m.insert k a).size = m.size + 1 := by
  rw [size_insert, erase_of_get?_eq_none h]

theorem size_insert_of_present {m : OrderedMap cmp α} {k : κ} {b : α} (h : m.get? k = some b)
    (a : α) : (m.insert k a).size = m.size := by
  rw [size_insert, size_erase h]

theorem mem_keys_insert {m : OrderedMap cmp α} {k k' : κ} {a : α} :
    k' ∈ (m.insert k a).keys ↔ k' = k ∨ k' ∈ m.keys := by
  by_cases h : k' = k
  · simp [mem_keys, h]
  · simp [mem_keys, get?_insert_ne m a h, h]

end IndexedStore.OrderedMap
