/-! # Ordered maps

A finite map kept as the list of its entries in strictly increasing key order. The order is part
of the type, so two maps with the same entries are the same value and a traversal is the list
itself. Every table of the store is one of these.
-/
namespace IndexedStore

/-- Entries in strictly increasing order of their keys under `cmp`. -/
structure OrderedMap {κ : Type} (cmp : κ → κ → Ordering) (α : Type) where
  toList : List (κ × α)
  ordered : toList.Pairwise fun a b => cmp a.1 b.1 = .lt

namespace OrderedMap
variable {κ α : Type} {cmp : κ → κ → Ordering}

/-- Maps with the same entries are equal: the order proof carries no information. -/
@[ext] theorem ext {m n : OrderedMap cmp α} (h : m.toList = n.toList) : m = n := by
  cases m; cases n; cases h; rfl

instance [DecidableEq κ] [DecidableEq α] : DecidableEq (OrderedMap cmp α) := fun m n =>
  decidable_of_iff (m.toList = n.toList) ⟨ext, fun h => h ▸ rfl⟩

def empty : OrderedMap cmp α := ⟨[], .nil⟩

instance : Inhabited (OrderedMap cmp α) := ⟨empty⟩

def size (m : OrderedMap cmp α) : Nat := m.toList.length

def keys (m : OrderedMap cmp α) : List κ := m.toList.map Prod.fst

def get? (m : OrderedMap cmp α) (k : κ) : Option α :=
  (m.toList.find? fun e => cmp k e.1 == .eq).map Prod.snd

def contains (m : OrderedMap cmp α) (k : κ) : Bool := (m.get? k).isSome

/-- Removes a key; a key that is absent leaves the map as it is. -/
def erase (m : OrderedMap cmp α) (k : κ) : OrderedMap cmp α where
  toList := m.toList.filter fun e => cmp k e.1 != .eq
  ordered := m.ordered.filter _

/-- The entries before `k`, the new entry, the entries after `k`. -/
private theorem insert_ordered [Std.TransCmp cmp] (m : OrderedMap cmp α) (k : κ) (a : α) :
    ((m.toList.filter fun e => cmp e.1 k == .lt) ++
      (k, a) :: m.toList.filter fun e => cmp k e.1 == .lt).Pairwise
        fun a b => cmp a.1 b.1 = .lt := by
  rw [List.pairwise_append, List.pairwise_cons]
  refine ⟨m.ordered.filter _, ⟨fun e he => ?_, m.ordered.filter _⟩, fun e he f hf => ?_⟩
  · simpa using (List.mem_filter.mp he).2
  · have hek : cmp e.1 k = .lt := by simpa using (List.mem_filter.mp he).2
    rcases List.mem_cons.mp hf with rfl | hf
    · exact hek
    · exact Std.TransCmp.lt_trans hek (by simpa using (List.mem_filter.mp hf).2)

/-- Stores a value under a key, replacing the value that was there. -/
def insert [Std.TransCmp cmp] (m : OrderedMap cmp α) (k : κ) (a : α) : OrderedMap cmp α where
  toList := (m.toList.filter fun e => cmp e.1 k == .lt) ++
    (k, a) :: m.toList.filter fun e => cmp k e.1 == .lt
  ordered := insert_ordered m k a

def first? (m : OrderedMap cmp α) : Option (κ × α) := m.toList.head?

def last? (m : OrderedMap cmp α) : Option (κ × α) := m.toList.getLast?

def firstWhere (m : OrderedMap cmp α) (p : κ → Bool) : Option (κ × α) :=
  m.toList.find? fun e => p e.1

def lastWhere (m : OrderedMap cmp α) (p : κ → Bool) : Option (κ × α) :=
  m.toList.reverse.find? fun e => p e.1

end OrderedMap
end IndexedStore
