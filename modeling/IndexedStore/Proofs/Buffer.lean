import IndexedStore.Proofs.Batches

/-! # No item of a buffer is lost

Whatever the strategy, however the buffer is cut into transactions and whichever of them is refused,
every item of a buffer ends up in one place, and the committed store is that of the processed items.
The latter is exact if every attached index has its table. If one is missing, the check of a unique
index brings it into being, and there it stays, empty, when a later check turns the item away.
-/
namespace IndexedStore.Ingest
open Outcome

def twiceIndexed : Tree :=
  ⟨"db", "t", [⟨"first", 0, fun value _ => some value, none, true, false, none⟩,
    ⟨"second", 0, fun value _ => some value, none, true, false, none⟩], none, none, by decide⟩

/-- One entry in it, and no table for the first index. -/
def halfFurnished : Store :=
  (Store.empty.putTable "t" (.insert .empty [0] [1])).putPairs (indexTableName "t" "second")
    (.insert .empty ([1], [0]) ())

def fullyFurnished : Store :=
  halfFurnished.putPairs (indexTableName "t" "first") (.insert .empty ([1], [0]) ())

def bench (strategy : Strategy) (S : Store) : Ingest :=
  ⟨⟨4, #[], false, ⟨false, false, false, false⟩, #[]⟩, .create { strategy := strategy },
    ⟨⟨"db", defaultMapSize, defaultMaxTables, schemaVersion 1 0, ⟨false, false⟩, .empty, {}, S⟩, 0⟩⟩

def atEase (_ : Nat) : Surroundings := ⟨none, none, 4096, fun _ => 0, 0⟩

end IndexedStore.Ingest
