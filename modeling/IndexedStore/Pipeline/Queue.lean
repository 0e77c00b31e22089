import IndexedStore.Bytes
import IndexedStore.Failure
import IndexedStore.Text.Quoted

/-! # The write queue

Producers put items into a bounded queue; the one consumer takes all of them at once as a buffer and
leaves an empty queue behind. Items are handed on by reference: whoever is done with one releases
it through the queue, which tells the hooks its owner installed. A flushed queue accepts nothing
more but still hands out what it holds.
-/
namespace IndexedStore

structure Item where
  key : Bytes
  value : Bytes
deriving DecidableEq

/-- Which hooks the owner of a queue installed. -/
structure Hooks where
  freeKey : Bool
  freeValue : Bool
  onFull : Bool
  onBatchFlush : Bool
deriving DecidableEq

inductive Notice
  | keyFreed (key : Bytes)
  | valueFreed (value : Bytes)
  | full
  | batchFlushed
deriving DecidableEq

def Hooks.installed (h : Hooks) : Notice → Bool
  | .keyFreed _ => h.freeKey
  | .valueFreed _ => h.freeValue
  | .full => h.onFull
  | .batchFlushed => h.onBatchFlush

inductive Rejection
  | full
  | flushed
deriving DecidableEq

def Rejection.text : Rejection → String
  | full => "queue is full"
  | flushed => "queue has been flushed"

structure Queue where
  capacity : Nat
  /-- items in the order they were accepted -/
  items : Array Item
  flushed : Bool
  hooks : Hooks
  /-- what the hooks have been told, in order -/
  notices : Array Notice
deriving DecidableEq

structure Buffer where
  capacity : Nat
  /-- items in the buffer when it was taken -/
  count : Nat
  rest : List Item
deriving DecidableEq

namespace Buffer

def remaining (b : Buffer) : Nat := b.rest.length

def next (b : Buffer) : Option Item × Buffer :=
  match b.rest with
  | [] => (none, b)
  | i :: rest => (some i, { b with rest := rest })

def describe (b : Buffer) : String :=
  Text.described "SwappedBuffer" [("count", toString b.count),
    ("remaining", toString b.remaining), ("capacity", toString b.capacity)]

end Buffer

namespace Queue

/-- The room that a queue for `wanted` items gets: a power of two in a 64-bit word. A power that
does not fit leaves no room at all. -/
def room (wanted : Nat) : Nat := wanted.nextPowerOfTwo % UInt64.size

/-- A queue for at least `capacity` items, as far as a word can count them. -/
def create (capacity : Nat) (hooks : Hooks) : Except Failure Queue :=
  if capacity = 0 then .error .zeroCapacity
  else .ok ⟨room capacity, #[], false, hooks, #[]⟩

def depth (q : Queue) : Nat := q.items.size

def notify (n : Notice) (q : Queue) : Queue :=
  if q.hooks.installed n then { q with notices := q.notices.push n } else q

/-- Hands an item to the hooks that free it. -/
def release (i : Item) (q : Queue) : Queue :=
  (q.notify (.keyFreed i.key)).notify (.valueFreed i.value)

def releaseAll (items : List Item) (q : Queue) : Queue :=
  items.foldl (fun q i => q.release i) q

/-- Accepts an item, or hands it back with the reason. -/
def enqueue (i : Item) (q : Queue) : Except (Rejection × Item) Unit × Queue :=
  if q.flushed then (.error (.flushed, i), q)
  else if q.capacity ≤ q.depth then (.error (.full, i), q.notify .full)
  else (.ok (), { q with items := q.items.push i })

/-- Takes every item out at once. The empty queue left behind has room for `capacity` items, or as
much room as before if that is zero. -/
def swap (capacity : Nat) (q : Queue) : Buffer × Queue :=
  (⟨q.capacity, q.depth, q.items.toList⟩,
    { q with
      capacity := if capacity = 0 then q.capacity else room capacity
      items := #[] })

def freeBuffer (b : Buffer) (q : Queue) : Queue := q.releaseAll b.rest

def flush (q : Queue) : Queue := { q with flushed := true }

/-- What a wait for items answers: whether there are any; none while there is nothing to say. -/
def awaited (q : Queue) : Option Bool :=
  if 0 < q.depth then some true else if q.flushed then some false else none

/-- Gives up the queue, releasing what it holds. -/
def close (q : Queue) : Queue := { q.releaseAll q.items.toList with items := #[] }

def takeNotices (q : Queue) : List Notice × Queue :=
  (q.notices.toList, { q with notices := #[] })

/-- Items are numbered from the last swap on, so the next number is the depth. -/
def describe (q : Queue) : String :=
  Text.described "WriteQueue" [("capacity", toString q.capacity), ("depth", toString q.depth),
    ("tail", toString q.depth), ("flushed", toString q.flushed)]

end Queue
end IndexedStore
