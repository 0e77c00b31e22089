import IndexedStore.Tree.Lifecycle
import IndexedStore.Proofs.Lifetime
import IndexedStore.Proofs.Verification

/-! # An index that is added and then populated

A new index takes over the table of its name if there is one, and populating it only adds pairs. So
it ends up with what the entries give rise to and with whatever was left in the table. It is exact
when nothing left over is stale, and only then.
-/
namespace IndexedStore

namespace Index
variable {i : Index} {T : Table} {P P' : PairTable}

/-- Populating misses no pair, and takes none away. -/
theorem exact_populated_iff (h : i.populated T.toList P = .ok P') :
    i.Exact T P' ↔ i.Sound T P := by
  constructor
  · intro hexact p hp
    exact (hexact p).mp ((mem_populated_toList h).mpr (.inl hp))
  · intro hsound p
    rw [mem_populated_toList h]
    exact ⟨fun hp => hp.elim (hsound p) id, .inr⟩

theorem check_populated_iff (h : i.populated T.toList P = .ok P') :
    i.check T P' = .ok () ↔ i.Sound T P := by
  rw [check_eq_ok_iff, exact_populated_iff h]
  exact ⟨And.left, fun hsound => ⟨hsound, hsound.single_populated h⟩⟩

end Index

namespace Tree
variable {t t₁ : Tree} {d d₁ d₂ : Database} {c : IndexConfig} {i : Index}
  {allocated allocated' : Nat}

theorem index?_attach (t : Tree) (i : Index) (free : t.hasIndex i.name = false) :
    (t.attach i free).index? i.name = some i := by
  have hnone : t.index? i.name = none := by simpa [hasIndex] using free
  rw [index?] at hnone ⊢
  rw [attach, List.find?_append, hnone]
  simp

/-- Adding an index keeps the pairs left under its name, populating adds those of the entries. -/
theorem table_of_added_index
    (added : (t.addIndex allocated c).run d = (.ok t₁, d₁))
    (populated : (t₁.populate allocated' c.name).run d₁ = (.ok (), d₂)) :
    ∃ i T P, t₁.index? c.name = some i ∧ d₂.store.table? t₁.name = some T ∧
      d₂.store.pairs? (t₁.indexTable i) = some P ∧
      i.populated T.toList (t₁.pairsOf d.store i) = .ok P := by
  obtain ⟨i, free, rfl, hname, -, -, hcreated⟩ := addIndex_ok added
  obtain ⟨j, T, P, hj, hT, hpop, hstore⟩ := populate_ok populated
  obtain rfl : i = j := by
    rw [← hname, index?_attach] at hj
    exact Option.some.inj hj
  have hkept : (t.attach i free).pairsOf d₁.store i = (t.attach i free).pairsOf d.store i := by
    have hself := (refitted_created t i d.store).self
    rw [hcreated]
    exact pairsOf_of_pairs? hself
  rw [hkept] at hpop
  refine ⟨i, T, P, hj, ?_, ?_, hpop⟩
  · rw [hstore, Store.table?_putPairs, hT]
  · rw [hstore, Store.pairs?_putPairs_self]

/-- An index that was added and then populated holds the pairs that the entries give rise to and
those that were left in its table. It is exact, and verification passes it, just when none of these
is stale; so it is whenever there was no table. -/
theorem populated_index_exact_iff_nothing_stale
    (added : (t.addIndex allocated c).run d = (.ok t₁, d₁))
    (populated : (t₁.populate allocated' c.name).run d₁ = (.ok (), d₂)) :
    ∃ i T P, t₁.index? c.name = some i ∧ d₂.store.table? t₁.name = some T ∧
      d₂.store.pairs? (t₁.indexTable i) = some P ∧
      (∀ p, p ∈ P.pairs ↔ p ∈ (t₁.pairsOf d.store i).pairs ∨ i.Derives T p) ∧
      (i.Exact T P ↔ i.Sound T (t₁.pairsOf d.store i)) ∧
      (i.check T P = .ok () ↔ i.Exact T P) ∧
      (d.store.pairs? (t₁.indexTable i) = none → i.Exact T P) := by
  obtain ⟨i, T, P, hi, hT, hP, hpop⟩ := table_of_added_index added populated
  have hexact := Index.exact_populated_iff hpop
  have hcheck := Index.check_populated_iff hpop
  refine ⟨i, T, P, hi, hT, hP, fun p => Index.mem_populated_toList hpop, hexact,
    hcheck.trans hexact.symm, fun hnone => hexact.mpr fun p hp => ?_⟩
  rw [pairsOf, hnone] at hp
  exact absurd hp (PairTable.not_mem_pairs_empty p)

def wholeConfig : IndexConfig := { name := "whole", unique := true }

/-- The tree `t` with that index attached. -/
def wholeTree : Tree :=
  (Tree.bare "db" "t").attach ⟨"whole", extractorId (schemaVersion 1 0) wholeConfig.flags,
    fun value _ => some value, none, true, false, none⟩ rfl

/-- A new tree with one entry and without an index. -/
def singleEntry : Database :=
  ((Database.write 4096 ((Tree.bare "db" "t").insert [0] [1])).run
    ((Database.openTree 4096 "t" true).run Site.freshDatabase).2).2

def wholeAdded : Database := (((Tree.bare "db" "t").addIndex 4096 wholeConfig).run singleEntry).2

theorem populated_index_exact_iff_nothing_stale_singleEntry :
    ((Tree.bare "db" "t").addIndex 4096 wholeConfig).run singleEntry = (.ok wholeTree, wholeAdded) ∧
      ∃ d₂ i T P, (wholeTree.populate 4096 "whole").run wholeAdded = (.ok (), d₂) ∧
        wholeTree.index? "whole" = some i ∧ d₂.store.table? "t" = some T ∧
        d₂.store.pairs? (wholeTree.indexTable i) = some P ∧ i.Exact T P := by
  have added : ((Tree.bare "db" "t").addIndex 4096 wholeConfig).run singleEntry =
    (.ok wholeTree, wholeAdded) := rfl
  have populated : (wholeTree.populate 4096 "whole").run wholeAdded =
    (.ok (), ((wholeTree.populate 4096 "whole").run wholeAdded).2) := Prod.ext rfl rfl
  obtain ⟨i, T, P, hi, hT, hP, -, -, -, hfresh⟩ :=
    populated_index_exact_iff_nothing_stale added populated
  obtain rfl : _ = i := Option.some.inj hi
  exact ⟨added, _, _, T, P, populated, rfl, hT, hP, hfresh rfl⟩

/-- The tree was indexed, written, and is opened again in a database without extractors. -/
def unregistered : Database where
  path := "db"
  mapSize := defaultMapSize
  maxTables := defaultMaxTables
  version := schemaVersion 1 0
  flags := ⟨false, false⟩
  registry := .empty
  statistics := {}
  store := ((Database.write 4096 (wholeTree.insert [0] [1])).run
    (((Tree.bare "db" "t").addIndex 4096 wholeConfig).run
      ((Database.openTree 4096 "t" true).run Site.freshDatabase).2).2).2.store

/-- There the entry was changed, and then the extractor was registered. -/
def neglected : Database :=
  ((Database.register (schemaVersion 1 0) wholeConfig.flags fun value _ => some value).run
    ((Database.write 4096 ((Tree.bare "db" "t").update [0] [2])).run unregistered).2).2

def readded : Database := (((Tree.bare "db" "t").addIndex 4096 wholeConfig).run neglected).2

def repopulated : Database := ((wholeTree.populate 4096 "whole").run readded).2

/-- The pair of the old value is still in the table when the index is added again, and populating
leaves it there. -/
theorem neglected_index_keeps_stale_pair :
    Database.openAt "db" (.closed unregistered.store) {} = .ok unregistered ∧
      (Database.openTree 4096 "t" false).run unregistered = (.ok (.bare "db" "t"), unregistered) ∧
      ((Tree.bare "db" "t").addIndex 4096 wholeConfig).run neglected = (.ok wholeTree, readded) ∧
      (wholeTree.populate 4096 "whole").run readded = (.ok (), repopulated) ∧
      wholeTree.verify repopulated.store = .error (.stalePair "whole") ∧
      ∃ i T P, wholeTree.index? "whole" = some i ∧ repopulated.store.table? "t" = some T ∧
        repopulated.store.pairs? (wholeTree.indexTable i) = some P ∧ ¬ i.Exact T P := by
  have hopened : (Database.openTree 4096 "t" false).run unregistered =
      (.ok (.bare "db" "t"), unregistered) := by
    have hnone : ∀ n i, ¬ Index.OnFile unregistered (Tree.bare unregistered.path "t").name n i := by
      rintro n i ⟨-, -, r, x, -, hx, -⟩
      exact Option.some_ne_none x hx.symm
    rw [Database.run_openTree_of_hasTree rfl rfl, loadRecorded_of_not_onFile hnone]
    rfl
  have hT : repopulated.store.table? "t" = some (.insert .empty [0] [2]) := rfl
  refine ⟨rfl, hopened, Prod.ext rfl rfl, Prod.ext rfl rfl, rfl, _, _, _, rfl, hT, rfl, ?_⟩
  intro hexact
  obtain ⟨value, hv, he⟩ := (hexact ([1], [0])).mp (by decide)
  cases hv
  cases he

end Tree
end IndexedStore
