import IndexedStore.Proofs.Catalog

/-! # Names that cannot be confused

The tables and records of all trees lie side by side and are told apart by how their names and keys
begin. No tree has a colon in its name, so the first colon in what follows the common part ends the
name of the tree, and no beginning of one tree is a beginning of another's, not even if the name of
one begins with the other. In UTF-8 the byte of the colon is part of no other character.
-/
namespace IndexedStore

/-- What comes before the first separator is determined. -/
theorem eq_of_append_cons_eq {α : Type} {c : α} {l₁ l₂ r₁ r₂ : List α} (h₁ : c ∉ l₁) (h₂ : c ∉ l₂)
    (h : l₁ ++ c :: r₁ = l₂ ++ c :: r₂) : l₁ = l₂ ∧ r₁ = r₂ := by
  induction l₁ generalizing l₂ with
  | nil =>
    cases l₂ with
    | nil => exact ⟨rfl, List.tail_eq_of_cons_eq h⟩
    | cons b l₂ => exact absurd (List.mem_cons.mpr (.inl (List.head_eq_of_cons_eq h))) h₂
  | cons a l₁ ih =>
    cases l₂ with
    | nil => exact absurd (List.mem_cons.mpr (.inl (List.head_eq_of_cons_eq h).symm)) h₁
    | cons b l₂ =>
      obtain ⟨rfl, hrest⟩ := List.cons_eq_cons.mp h
      obtain ⟨rfl, rfl⟩ := ih (List.not_mem_of_not_mem_cons h₁) (List.not_mem_of_not_mem_cons h₂)
        hrest
      exact ⟨rfl, rfl⟩

namespace Bytes

def colon : UInt8 := 0x3A

theorem ofText_eq_flatMap (s : String) : ofText s = s.toList.flatMap String.utf8EncodeChar := by
  conv_lhs => rw [← String.ofList_toList (s := s)]
  exact List.toList_data_toByteArray

/-- A character of more than one byte has none below `0x80`. -/
theorem colon_notMem_utf8EncodeChar {c : Char} (h : c ≠ ':') : colon ∉ String.utf8EncodeChar c := by
  have hval : c.val.toNat ≠ 58 := fun heq => h (Char.ext (UInt32.toNat_inj.mp heq))
  have hbyte : ∀ n : Nat, colon = UInt8.ofNat n ↔ n % 256 = 58 := by
    intro n
    rw [← UInt8.toNat_inj, UInt8.toNat_ofNat']
    exact eq_comm
  unfold String.utf8EncodeChar
  simp only
  split
  · rw [List.mem_singleton, hbyte]
    omega
  · split
    · simp only [List.mem_cons, hbyte, List.not_mem_nil, or_false]
      omega
    · split <;>
      · simp only [List.mem_cons, hbyte, List.not_mem_nil, or_false]
        omega

theorem colon_notMem_ofText {s : String} (h : ':' ∉ s.toList) : colon ∉ ofText s := by
  rw [ofText_eq_flatMap, List.mem_flatMap]
  rintro ⟨c, hc, hcolon⟩
  exact colon_notMem_utf8EncodeChar (fun heq => h (heq ▸ hc)) hcolon

end Bytes

variable {a b i j : String}

/-- What the check of a name rules out. -/
theorem checkTreeName_eq_ok (h : checkTreeName a = .ok ()) :
    a ≠ recordTable ∧ ¬ indexTableStem.toList <+: a.toList ∧ ':' ∉ a.toList := by
  unfold checkTreeName at h
  split at h
  · cases h
  · split at h
    · cases h
    · split at h
      · cases h
      · rename_i hreserved hcolon
        simp only [Bool.or_eq_true, beq_iff_eq, List.isPrefixOf_iff_prefix, not_or] at hreserved
        exact ⟨hreserved.1, hreserved.2, by simpa using hcolon⟩

theorem toList_indexTableName (a i : String) :
    (indexTableName a i).toList = indexTableStem.toList ++ (a.toList ++ ':' :: i.toList) := by
  simp [indexTableName]

/-- The names of a tree's index tables are those that begin with its own beginning. -/
theorem exists_eq_indexTableName_iff {n : String} :
    (indexTableName a "").toList <+: n.toList ↔ ∃ i, n = indexTableName a i := by
  constructor
  · rintro ⟨rest, h⟩
    refine ⟨String.ofList rest, String.toList_inj.mp ?_⟩
    rw [← h]
    simp [toList_indexTableName]
  · rintro ⟨i, rfl⟩
    simp [toList_indexTableName]

theorem indexTableName_eq_iff (ha : ':' ∉ a.toList) (hb : ':' ∉ b.toList) :
    indexTableName a i = indexTableName b j ↔ a = b ∧ i = j := by
  constructor
  · intro h
    rw [← String.toList_inj, toList_indexTableName, toList_indexTableName] at h
    obtain ⟨hname, hindex⟩ := eq_of_append_cons_eq ha hb (List.append_cancel_left h)
    exact ⟨String.toList_inj.mp hname, String.toList_inj.mp hindex⟩
  · rintro ⟨rfl, rfl⟩
    rfl

namespace Catalog

theorem stem_eq (a : String) : stem a = Bytes.ofText a ++ [Bytes.colon] := Bytes.ofText_append a ":"

/-- No key begins as the records of two trees do. -/
theorem eq_of_stem_prefix (ha : ':' ∉ a.toList) (hb : ':' ∉ b.toList) {k : Bytes}
    (hka : stem a <+: k) (hkb : stem b <+: k) : a = b := by
  obtain ⟨r₁, h₁⟩ := hka
  obtain ⟨r₂, h₂⟩ := hkb
  have h := h₁.trans h₂.symm
  rw [stem_eq, stem_eq, List.append_assoc, List.append_assoc] at h
  exact Bytes.ofText_inj (eq_of_append_cons_eq (Bytes.colon_notMem_ofText ha)
    (Bytes.colon_notMem_ofText hb) h).1

theorem stem_prefix_key (a i : String) : stem a <+: key a i :=
  key_eq a i ▸ List.prefix_append ..

theorem key_eq_iff (ha : ':' ∉ a.toList) (hb : ':' ∉ b.toList) :
    key a i = key b j ↔ a = b ∧ i = j := by
  constructor
  · intro h
    obtain rfl := eq_of_stem_prefix ha hb (stem_prefix_key a i) (h ▸ stem_prefix_key b j)
    exact ⟨rfl, key_inj h⟩
  · rintro ⟨rfl, rfl⟩
    rfl

end Catalog
end IndexedStore
