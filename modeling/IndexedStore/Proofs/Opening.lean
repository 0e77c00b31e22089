import IndexedStore.Proofs.Listing

/-! # Opening a tree whatever is on record

Nothing that stands in the record table keeps a tree from being opened. What is no record of an
index of the tree, or lacks its extractor or its table, is passed over, and the indexes that are
attached come in the order of their names. The order is why keys have to be text: other bytes are
read as some name that they do not encode, and their places are not those of the names.
-/
namespace IndexedStore

namespace Bytes

theorem isValidUTF8_utf8Encode_append_iff (l : List Char) (b : ByteArray) :
    ByteArray.IsValidUTF8 (l.utf8Encode ++ b) ↔ b.IsValidUTF8 := by
  induction l with
  | nil => simp
  | cons c l ih =>
    rw [List.utf8Encode_cons, ByteArray.append_assoc,
      ByteArray.isValidUTF8_utf8Encode_singleton_append_iff, ih]

theorem exists_ofText_eq_iff (x : Bytes) :
    (∃ s, ofText s = x) ↔ ByteArray.IsValidUTF8 ⟨x.toArray⟩ := by
  constructor
  · rintro ⟨s, rfl⟩
    exact s.isValidUTF8
  · intro h
    exact ⟨.ofByteArray ⟨x.toArray⟩ h, rfl⟩

/-- What text goes on with is text. -/
theorem exists_ofText_of_append {a s : String} {x : Bytes} (h : ofText a ++ x = ofText s) :
    ∃ n, ofText n = x := by
  have htext := (exists_ofText_eq_iff _).mp ⟨s, h.symm⟩
  have hbytes : (⟨(ofText a ++ x).toArray⟩ : ByteArray) = a.toList.utf8Encode ++ ⟨x.toArray⟩ := by
    rw [String.utf8Encode_toList]
    exact ByteArray.ext (by simp [ofText])
  rw [hbytes, isValidUTF8_utf8Encode_append_iff] at htext
  exact (exists_ofText_eq_iff x).mpr htext

theorem cmp_append_append (stem x y : Bytes) : cmp (stem ++ x) (stem ++ y) = cmp x y := by
  induction stem with
  | nil => rfl
  | cons b stem ih =>
    have hself : compare b b = .eq := Std.ReflCmp.compare_self
    rw [List.cons_append, List.cons_append, cmp_cons_cons, hself]
    exact ih

end Bytes

namespace Catalog
variable {S : Store} {tree : String}

theorem ordered_suffixes (stem : Bytes) (R : Table) :
    (suffixes stem R).Pairwise fun x y => Bytes.cmp x y = .lt := by
  simpa only [Bytes.cmp_append_append] using
    List.pairwise_map.mp (ordered_map_suffixes stem R)

/-- Every key of a record is text. -/
def Encoded (S : Store) : Prop := ∀ k, (lookup S k).isSome = true → ∃ s, k = Bytes.ofText s

/-- Names are listed in their own order where all keys are text. -/
theorem Encoded.pairwise_names (h : Encoded S) (tree : String) :
    (names S tree).Pairwise fun m n => Bytes.cmp (Bytes.ofText m) (Bytes.ofText n) = .lt := by
  rw [names_eq, List.pairwise_map]
  have htext : ∀ x ∈ suffixes (stem tree) ((S.table? recordTable).getD .empty),
      ∃ n, Bytes.ofText n = x := by
    intro x hx
    obtain ⟨hkey, -⟩ := mem_map_suffixes.mp (List.mem_map.mpr ⟨x, hx, rfl⟩)
    obtain ⟨raw, hraw⟩ := OrderedMap.mem_keys.mp hkey
    rw [← lookup_eq_getD] at hraw
    obtain ⟨s, hs⟩ := h _ (Option.isSome_of_eq_some hraw)
    exact Bytes.exists_ofText_of_append hs
  refine (ordered_suffixes _ _).imp_of_mem fun hx hy hlt => ?_
  obtain ⟨m, rfl⟩ := htext _ hx
  obtain ⟨n, rfl⟩ := htext _ hy
  rwa [Bytes.toText_ofText, Bytes.toText_ofText]

theorem read_eq_ok_some_iff {r : IndexRecord} {n : String} :
    read S tree n = .ok (some r) ↔
      ∃ raw, lookup S (key tree n) = some raw ∧ IndexRecord.decode raw = .ok r := by
  rw [read_eq]
  cases lookup S (key tree n) with
  | none => simp
  | some raw =>
    simp only [Option.some.injEq, exists_eq_left']
    cases IndexRecord.decode raw <;> simp [Except.map]

end Catalog

namespace Index
variable {d : Database} {tree name : String} {i : Index}

theorem OnFile.mem_names (h : OnFile d tree name i) : name ∈ Catalog.names d.store tree := by
  obtain ⟨-, -, r, x, hread, -, -⟩ := h
  refine Catalog.mem_names fun hnone => ?_
  rw [hread] at hnone
  cases hnone

theorem onFile_iff :
    OnFile d tree name i ↔
      (name ≠ "" ∧ ':' ∉ name.toList) ∧ (d.store.pairs? (indexTableName tree name)).isSome = true ∧
        ∃ raw r x, Catalog.lookup d.store (Catalog.key tree name) = some raw ∧
          IndexRecord.decode raw = .ok r ∧ d.registry.get? r.extractorId = some x ∧
          i = ofRecord name r x := by
  have hvalid : validName name = true ↔ name ≠ "" ∧ ':' ∉ name.toList := by simp [validName]
  rw [OnFile, hvalid]
  refine and_congr_right fun _ => and_congr_right fun _ => ?_
  simp only [Catalog.read_eq_ok_some_iff]
  constructor
  · rintro ⟨r, x, ⟨raw, hraw, hr⟩, hx, rfl⟩
    exact ⟨raw, r, x, hraw, hr, hx, rfl⟩
  · rintro ⟨raw, r, x, hraw, hr, hx, rfl⟩
    exact ⟨r, x, ⟨raw, hraw, hr⟩, hx, rfl⟩

end Index

namespace Tree

theorem indexNames_loadNext (t : Tree) (d : Database) (n : String) :
    (loadNext d t n).indexNames = t.indexNames ∨
      (loadNext d t n).indexNames = t.indexNames ++ [n] := by
  unfold loadNext
  split
  · rename_i h
    obtain ⟨i, free, hi, rfl⟩ := onFile_of_loadIndex h
    right
    rw [← hi.name_eq]
    exact List.map_append
  · exact .inl rfl

/-- Indexes are attached in the order in which their names are tried, if at all. -/
theorem exists_indexNames_foldl (t : Tree) (d : Database) (names : List String) :
    ∃ l, l.Sublist names ∧ (names.foldl (loadNext d) t).indexNames = t.indexNames ++ l := by
  induction names generalizing t with
  | nil => exact ⟨[], .slnil, (List.append_nil _).symm⟩
  | cons n rest ih =>
    obtain ⟨l, hl, hnames⟩ := ih (loadNext d t n)
    rw [List.foldl_cons, hnames]
    rcases indexNames_loadNext t d n with h | h
    · exact ⟨l, hl.cons n, by rw [h]⟩
    · exact ⟨n :: l, hl.cons_cons n, by rw [h, List.append_assoc, List.singleton_append]⟩

theorem sublist_indexNames_loadRecorded (path name : String) (d : Database) :
    ((Tree.bare path name).loadRecorded d).indexNames.Sublist (Catalog.names d.store name) := by
  obtain ⟨l, hl, hnames⟩ :=
    exists_indexNames_foldl (Tree.bare path name) d (Catalog.names d.store name)
  rw [loadRecorded_eq]
  exact hnames ▸ hl

end Tree

namespace Database

/-- Opening a tree that is there succeeds and changes nothing, whatever is on record. It attaches,
in the order of their names, the indexes whose record can be read, whose extractor is registered and
whose table exists, as their records say. -/
theorem openTree_attaches_recorded {d : Database} {name : String} (allocated : Nat)
    (create : Bool) (named : checkTreeName name = .ok ())
    (there : (d.store.table? name).isSome = true) (encoded : Catalog.Encoded d.store) :
    ∃ t, (openTree allocated name create).run d = (.ok t, d) ∧ t.name = name ∧
      t.indexNames.Pairwise (fun m n => Bytes.cmp (Bytes.ofText m) (Bytes.ofText n) = .lt) ∧
      ∀ i, i ∈ t.indexes ↔
        (i.name ≠ "" ∧ ':' ∉ i.name.toList) ∧
          (d.store.pairs? (indexTableName name i.name)).isSome = true ∧
          ∃ raw r x, Catalog.lookup d.store (Bytes.ofText (name ++ ":" ++ i.name)) = some raw ∧
            IndexRecord.decode raw = .ok r ∧ d.registry.get? r.extractorId = some x ∧
            i = Index.ofRecord i.name r x := by
  refine ⟨_, run_openTree_of_hasTree named there, Tree.name_loadRecorded .., ?_, fun i => ?_⟩
  · exact (encoded.pairwise_names name).sublist
      (Tree.sublist_indexNames_loadRecorded d.path name d)
  · refine Iff.trans ?_ Index.onFile_iff
    rw [Tree.mem_loadRecorded_bare]
    constructor
    · rintro ⟨n, -, h⟩
      rwa [h.name_eq]
    · intro h
      exact ⟨i.name, h.mem_names, h⟩

/-- Records of two indexes of the tree `t` in no order, and much that is none: no name, a name with
a colon, an extractor that is not registered, no table, and bytes that do not decode. -/
def disorder : Table :=
  [("t:whole", IndexRecord.encode ⟨7, uniqueFlag, none⟩), ("t:", IndexRecord.encode ⟨7, 0, none⟩),
    ("t:a:b", IndexRecord.encode ⟨7, 0, none⟩), ("t:cut", [7, 0, 0]),
    ("t:gone", IndexRecord.encode ⟨8, 0, none⟩), ("t:lost", IndexRecord.encode ⟨7, 0, none⟩),
    ("t:data", IndexRecord.encode ⟨7, sparseFlag, some [1]⟩)].foldl
      (fun R e => R.insert (Bytes.ofText e.1) e.2) OrderedMap.empty

/-- A store with these records, where every index has a table but `lost`. -/
def disorderedStore : Store :=
  ["whole", "", "a:b", "cut", "gone", "data"].foldl
    (fun S n => S.putPairs (indexTableName "t" n) .empty)
    ((Store.empty.putTable "t" .empty).putTable recordTable disorder)

def disordered : Database :=
  ⟨"db", defaultMapSize, defaultMaxTables, 0, ⟨false, false⟩,
    OrderedMap.insert .empty 7 fun value _ => some value, {}, disorderedStore⟩

theorem openTree_attaches_recorded_disordered :
    ∃ t, (openTree 4096 "t" false).run disordered = (.ok t, disordered) ∧
      t.indexNames = ["data", "whole"] ∧
      Index.ofRecord "whole" ⟨7, uniqueFlag, none⟩ (fun value _ => some value) ∈ t.indexes := by
  have hkeys : disorder.keys =
      ["t:", "t:a:b", "t:cut", "t:data", "t:gone", "t:lost", "t:whole"].map Bytes.ofText := by
    decide +kernel
  have encoded : Catalog.Encoded disordered.store := by
    intro k hk
    have hk : k ∈ disorder.keys := OrderedMap.mem_keys.mpr (Option.isSome_iff_exists.mp hk)
    rw [hkeys] at hk
    obtain ⟨s, -, rfl⟩ := List.mem_map.mp hk
    exact ⟨s, rfl⟩
  have named : checkTreeName "t" = .ok () := rfl
  obtain ⟨t, hrun, -, -, hmem⟩ :=
    openTree_attaches_recorded (d := disordered) 4096 false named rfl encoded
  obtain rfl : (Tree.bare "db" "t").loadRecorded disordered = t :=
    Except.ok.inj (congrArg Prod.fst hrun)
  refine ⟨_, hrun, by decide +kernel, (hmem _).mpr ⟨by decide, rfl, ?_⟩⟩
  exact ⟨_, _, _, rfl, rfl, rfl, rfl⟩

end Database
end IndexedStore
