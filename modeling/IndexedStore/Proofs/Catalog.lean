import IndexedStore.Proofs.Lifecycle
import IndexedStore.Proofs.Record

/-! # Finding records

Each index of a tree has a record key of its own. Keys with a common beginning lie together in byte
order, so listing a tree from the first of them on until one begins otherwise finds the names of all
its records.
-/
namespace IndexedStore

namespace Bytes

theorem ofText_append (a b : String) : ofText (a ++ b) = ofText a ++ ofText b := by
  simp only [ofText, String.toUTF8_eq_toByteArray, String.toByteArray_append,
    ByteArray.toList_data_append]

/-- Text that was encoded is read back. -/
@[simp] theorem toText_ofText (s : String) : toText (ofText s) = s := by
  have hbytes : (⟨(ofText s).toArray⟩ : ByteArray) = s.toUTF8 := rfl
  have hread : String.fromUTF8? s.toUTF8 = some s := by
    unfold String.fromUTF8?
    rw [String.toUTF8_eq_toByteArray, dif_pos s.isValidUTF8]
    rfl
  rw [toText, hbytes, hread]

theorem ofText_inj {a b : String} (h : ofText a = ofText b) : a = b := by
  rw [← toText_ofText a, h, toText_ofText]

theorem cmp_cons_cons (b c : UInt8) (k l : Bytes) :
    cmp (b :: k) (c :: l) = (compare b c).then (cmp k l) := List.compareLex_cons_cons

theorem isLE_cmp_append (stem x : Bytes) : (cmp stem (stem ++ x)).isLE = true := by
  induction stem with
  | nil => cases x <;> rfl
  | cons b stem ih =>
    have hself : compare b b = .eq := Std.ReflCmp.compare_self
    rw [List.cons_append, cmp_cons_cons, hself]
    exact ih

/-- From a string on, those that begin with it come before those that do not. -/
theorem cmp_append_of_not_isPrefixOf {stem k : Bytes} (hle : (cmp stem k).isLE = true)
    (hstem : stem.isPrefixOf k = false) (x : Bytes) : cmp (stem ++ x) k = .lt := by
  induction stem generalizing k with
  | nil => cases hstem
  | cons b stem ih =>
    cases k with
    | nil => cases hle
    | cons c k =>
      rw [List.cons_append, cmp_cons_cons]
      rw [cmp_cons_cons] at hle
      cases hbc : compare b c with
      | lt => rfl
      | gt =>
        rw [hbc] at hle
        cases hle
      | eq =>
        obtain rfl : b = c := Std.LawfulEqCmp.eq_of_compare hbc
        rw [hbc] at hle
        refine ih hle ?_
        simpa [List.isPrefixOf] using hstem

end Bytes

namespace Catalog
variable {S S' : Store} {tree index : String} {i : Index} {n : String}

theorem key_eq (tree index : String) : key tree index = stem tree ++ Bytes.ofText index := by
  rw [key, stem, Bytes.ofText_append]

theorem key_inj {a b : String} (h : key tree a = key tree b) : a = b := by
  rw [key_eq, key_eq] at h
  exact Bytes.ofText_inj (List.append_cancel_left h)

/-! ## Reading after a record was saved or removed -/

theorem read_congr (h : S'.table? recordTable = S.table? recordTable) :
    read S' tree n = read S tree n := by
  rw [read, read, h]

theorem read_of_table? {R : Table} (h : S.table? recordTable = some R) :
    read S tree n =
      match R.get? (key tree n) with
      | none => .ok none
      | some raw => (IndexRecord.decode raw).map some := by
  rw [read, h]
  rfl

/-- Data of no bytes is not read. -/
theorem userData_of_read {r : IndexRecord} (h : read S tree n = .ok (some r)) :
    r.userData ≠ some [] := by
  unfold read at h
  split at h
  · cases h
  · rename_i raw _
    cases hraw : IndexRecord.decode raw with
    | error e => simp [hraw, Except.map] at h
    | ok r' =>
      simp only [hraw, Except.map] at h
      cases h
      exact IndexRecord.userData_of_decode hraw

theorem read_saved_self (fits : IndexRecord.Fits i.userData) :
    read (saved tree i S) tree i.name =
      .ok (some { i.record with userData := IndexRecord.storedData i.userData }) := by
  rw [saved, read_of_table? (Store.table?_putTable_self ..), OrderedMap.get?_insert_self]
  simp only
  rw [IndexRecord.decode_encode i.record fits]
  rfl

theorem read_saved_ne (h : n ≠ i.name) : read (saved tree i S) tree n = read S tree n := by
  have hkey : key tree n ≠ key tree i.name := fun hk => h (key_inj hk)
  rw [saved, read_of_table? (Store.table?_putTable_self ..), OrderedMap.get?_insert_ne _ _ hkey,
    read]
  cases S.table? recordTable with
  | none => rfl
  | some R => rfl

theorem read_removed_self (tree n : String) (S : Store) :
    read (removed tree n S) tree n = .ok none := by
  unfold removed
  cases hR : S.table? recordTable with
  | none => rw [read, hR]; rfl
  | some R =>
    simp only
    rw [read_of_table? (Store.table?_putTable_self ..), OrderedMap.get?_erase_self]

theorem read_removed_ne (h : n ≠ index) : read (removed tree index S) tree n = read S tree n := by
  have hkey : key tree n ≠ key tree index := fun hk => h (key_inj hk)
  unfold removed
  cases hR : S.table? recordTable with
  | none => rfl
  | some R =>
    simp only
    rw [read_of_table? (Store.table?_putTable_self ..), OrderedMap.get?_erase_ne _ hkey,
      read_of_table? hR]

/-! ## The names on record -/

/-- What all that comes before an element satisfies, and the element too, keeps it in sight. -/
theorem mem_takeWhile_of_forall_before {α : Type} {r : α → α → Prop} {p : α → Bool} {l : List α}
    {a : α} (sorted : l.Pairwise r) (ha : a ∈ l) (hp : p a = true)
    (before : ∀ b ∈ l, r b a → p b = true) : a ∈ l.takeWhile p := by
  induction l with
  | nil => cases ha
  | cons b rest ih =>
    obtain ⟨hb, sorted⟩ := List.pairwise_cons.mp sorted
    rcases List.mem_cons.mp ha with rfl | ha
    · rw [List.takeWhile_cons_of_pos hp]
      exact List.mem_cons_self
    · rw [List.takeWhile_cons_of_pos (before b List.mem_cons_self (hb a ha))]
      exact List.mem_cons_of_mem _
        (ih sorted ha fun c hc => before c (List.mem_cons_of_mem _ hc))

theorem mem_suffixes {stem x : Bytes} {R : Table} (h : stem ++ x ∈ R.keys) :
    x ∈ suffixes stem R := by
  have hsorted : R.keys.Pairwise fun a b => Bytes.cmp a b = .lt := List.pairwise_map.mpr R.ordered
  have hstem : stem.isPrefixOf (stem ++ x) = true := by
    rw [List.isPrefixOf_iff_prefix]
    exact List.prefix_append stem x
  refine List.mem_map.mpr ⟨stem ++ x, ?_, List.drop_left⟩
  refine mem_takeWhile_of_forall_before (hsorted.filter _)
    (List.mem_filter.mpr ⟨h, Bytes.isLE_cmp_append stem x⟩) hstem fun k hk hlt => ?_
  by_contra hnot
  have hgt := Bytes.cmp_append_of_not_isPrefixOf (List.mem_filter.mp hk).2
    (Bool.eq_false_iff.mpr hnot) x
  rw [Std.OrientedCmp.gt_of_lt hlt] at hgt
  cases hgt

/-- Whatever is on record is listed. -/
theorem mem_names (h : read S tree n ≠ .ok none) : n ∈ names S tree := by
  unfold read at h
  unfold names
  cases hR : S.table? recordTable with
  | none => simp [hR] at h
  | some R =>
    simp only
    cases hk : R.get? (key tree n) with
    | none => simp [hR, hk] at h
    | some raw =>
      have hmem : stem tree ++ Bytes.ofText n ∈ R.keys := by
        rw [← key_eq, OrderedMap.mem_keys]
        exact ⟨raw, hk⟩
      exact List.mem_map.mpr ⟨_, mem_suffixes hmem, Bytes.toText_ofText n⟩

end Catalog
end IndexedStore
