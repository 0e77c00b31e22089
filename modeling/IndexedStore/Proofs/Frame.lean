import IndexedStore.Proofs.Names
import IndexedStore.Proofs.Writes

/-! # How far the steps of a tree reach

A step of a tree may change the table of the tree, the tables of its indexes and the records under
its name. Whatever the step is, whether it succeeds or fails, and whatever state the store is in,
all else is the same afterwards.
-/
namespace IndexedStore

/-- What is on record under a key, of whatever tree. -/
def Catalog.lookup (S : Store) (k : Bytes) : Option Bytes :=
  (S.table? recordTable).bind fun R => R.get? k

/-- The stores differ at most in the table, the index tables and the records of the tree of a
name. -/
structure Store.SameOutside (a : String) (S S' : Store) : Prop where
  plain : ∀ n, n ≠ a → n ≠ recordTable → S'.table? n = S.table? n
  paired : ∀ n, (∀ i, n ≠ indexTableName a i) → S'.pairs? n = S.pairs? n
  records : ∀ k, ¬ Catalog.stem a <+: k → Catalog.lookup S' k = Catalog.lookup S k

namespace Store
variable {a : String} {S S' S'' : Store}

theorem SameOutside.refl (a : String) (S : Store) : S.SameOutside a S :=
  ⟨fun _ _ _ => rfl, fun _ _ => rfl, fun _ _ => rfl⟩

theorem SameOutside.trans (h : S.SameOutside a S') (h' : S'.SameOutside a S'') :
    S.SameOutside a S'' where
  plain n hn hr := (h'.plain n hn hr).trans (h.plain n hn hr)
  paired n hn := (h'.paired n hn).trans (h.paired n hn)
  records k hk := (h'.records k hk).trans (h.records k hk)

instance (a : String) : IsPreorder Store (SameOutside a) where
  refl := .refl a
  trans _ _ _ := .trans

/-- The table of the tree is replaced or taken away. -/
theorem sameOutside_of_plain (named : a ≠ recordTable)
    (hplain : ∀ n, n ≠ a → S'.table? n = S.table? n) (hpaired : S'.paired = S.paired) :
    S.SameOutside a S' where
  plain n hn _ := hplain n hn
  paired n _ := by rw [pairs?, pairs?, hpaired]
  records k _ := by rw [Catalog.lookup, Catalog.lookup, hplain _ named.symm]

/-- The table of one of its indexes is replaced or taken away. -/
theorem sameOutside_of_paired {i : String} (hplain : S'.plain = S.plain)
    (hpaired : ∀ n, n ≠ indexTableName a i → S'.pairs? n = S.pairs? n) : S.SameOutside a S' where
  plain n _ _ := by rw [table?, table?, hplain]
  paired n hn := hpaired n (hn i)
  records k _ := by rw [Catalog.lookup, Catalog.lookup, table?, table?, hplain]

/-- The table of records is replaced by one with the same records of other trees. -/
theorem sameOutside_putRecords {R : Table}
    (h : ∀ k, ¬ Catalog.stem a <+: k → R.get? k = Catalog.lookup S k) :
    S.SameOutside a (S.putTable recordTable R) where
  plain n _ hr := table?_putTable_ne S R hr
  paired n _ := rfl
  records k hk := by
    rw [← h k hk, Catalog.lookup, table?_putTable_self, Option.bind_some]

theorem sameOutside_putTable (named : a ≠ recordTable) (S : Store) (T : Table) :
    S.SameOutside a (S.putTable a T) :=
  sameOutside_of_plain named (fun _ hn => table?_putTable_ne S T hn) rfl

theorem sameOutside_putPairs (a i : String) (S : Store) (P : PairTable) :
    S.SameOutside a (S.putPairs (indexTableName a i) P) :=
  sameOutside_of_paired rfl fun _ hn => pairs?_putPairs_ne S P hn

theorem eq_of_dropPairs {n : String} (h : S.dropPairs n = .ok S') :
    S' = { S with paired := S.paired.erase n } := by
  unfold dropPairs at h
  split at h
  · cases h
  · cases h
    rfl

theorem eq_of_dropTable {n : String} (h : S.dropTable n = .ok S') :
    S' = { S with plain := S.plain.erase n } := by
  unfold dropTable at h
  split at h
  · cases h
  · cases h
    rfl

theorem sameOutside_of_dropPairs {i : String} (h : S.dropPairs (indexTableName a i) = .ok S') :
    S.SameOutside a S' := by
  rw [eq_of_dropPairs h]
  exact sameOutside_of_paired rfl fun _ hn => OrderedMap.get?_erase_ne _ hn

theorem sameOutside_of_dropTable (named : a ≠ recordTable) (h : S.dropTable a = .ok S') :
    S.SameOutside a S' := by
  rw [eq_of_dropTable h]
  exact sameOutside_of_plain named (fun _ hn => OrderedMap.get?_erase_ne _ hn) rfl

end Store

/-- The step changes nothing in its transaction outside the tree of a name. -/
abbrev Scope.Confined {α : Type} (a : String) (x : Attempt Scope α) : Prop :=
  Scope.Within (Store.SameOutside a) x

/-- The step changes nothing in the committed store outside the tree of a name. -/
abbrev Database.Confined {α : Type} (a : String) (x : Attempt Database α) : Prop :=
  x.Respects (Order.Preimage Database.store (Store.SameOutside a))

namespace Scope
variable {a : String}

theorem confined_putTable (named : a ≠ recordTable) (T : Table) : Confined a (putTable a T) :=
  within_putTable T fun S => S.sameOutside_putTable named T

theorem confined_openPairsToWrite (i : String) :
    Confined a (openPairsToWrite (indexTableName a i)) :=
  within_openPairsToWrite (Store.sameOutside_putPairs a i)

theorem confined_putPairs (i : String) (P : PairTable) :
    Confined a (putPairs (indexTableName a i) P) :=
  within_putPairs P fun S => S.sameOutside_putPairs a i P

end Scope

/-- What the entries of a tree need written belongs to the tree. -/
theorem Tree.writes_sameOutside {t : Tree} (named : t.name ≠ recordTable) :
    t.Writes (Store.SameOutside t.name) where
  entries S T _ := S.sameOutside_putTable named T
  pairs i _ S P _ := S.sameOutside_putPairs t.name i.name P

/-- So does what a cursor needs written, whatever index it runs over. -/
theorem Cursor.writes_sameOutside {t : Tree} (named : t.name ≠ recordTable) (c : Cursor) :
    c.Writes t (Store.SameOutside t.name) where
  pairs i _ S P := S.sameOutside_putPairs t.name i.name P
  deletion _ _ := ⟨fun i _ S P => S.sameOutside_putPairs t.name i.name P,
    fun S T _ => S.sameOutside_putTable named T⟩

end IndexedStore
