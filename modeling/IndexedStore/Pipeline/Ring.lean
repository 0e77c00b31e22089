import IndexedStore.Pipeline.Queue

/-! # The ring under a write queue

The items of a queue lie in a ring of slots. They are numbered in the order they come, and the low
bits of its number say which slot an item goes to. A swap hands the whole ring over as a buffer and
puts an empty one in its place, whose numbers begin anew. A buffer is emptied slot by slot.
-/
namespace IndexedStore

def slotOf (capacity number : Nat) : Nat := number &&& (capacity - 1)

structure Ring where
  slots : Array (Option Item)
  capacity : Nat
  /-- the number of the first item -/
  head : Nat
  /-- the number that the next item gets -/
  tail : Nat
  depth : Nat

/-- A ring that was handed over. -/
structure RingBuffer where
  slots : Array (Option Item)
  capacity : Nat
  head : Nat
  count : Nat
  /-- how many of its items have been asked for -/
  taken : Nat

namespace RingBuffer

/-- Takes the item from the first of the next slots that is filled. -/
def takeNext : Nat → RingBuffer → Option Item × RingBuffer
  | 0, b => (none, b)
  | left + 1, b =>
    let slot := slotOf b.capacity (b.head + b.taken)
    let rest := { b with slots := b.slots.setIfInBounds slot none, taken := b.taken + 1 }
    match b.slots[slot]?.join with
    | some i => (some i, rest)
    | none => takeNext left rest

def next (b : RingBuffer) : Option Item × RingBuffer := b.takeNext (b.count - b.taken)

/-- The items that a buffer yields when it is asked so often, in order. -/
def yields : Nat → RingBuffer → List Item
  | 0, _ => []
  | asked + 1, b =>
    match b.next with
    | (none, _) => []
    | (some i, rest) => i :: yields asked rest

end RingBuffer

namespace Ring

def allocate (capacity : Nat) : Ring := ⟨Array.replicate capacity none, capacity, 0, 0, 0⟩

def push (i : Item) (r : Ring) : Ring :=
  { r with
    slots := r.slots.setIfInBounds (slotOf r.capacity r.tail) (some i)
    tail := r.tail + 1
    depth := r.depth + 1 }

def handOver (r : Ring) : RingBuffer := ⟨r.slots, r.capacity, r.head, r.depth, 0⟩

/-- Takes the items out of the slots of some numbers. -/
def takeSlots (capacity : Nat) : List Nat → Array (Option Item) → List Item
  | [], _ => []
  | number :: rest, slots =>
    let slot := slotOf capacity number
    (slots[slot]?.join).toList ++ takeSlots capacity rest (slots.setIfInBounds slot none)

/-- What is still in the ring when the queue is given up. -/
def leftovers (r : Ring) : List Item :=
  takeSlots r.capacity ((List.range r.depth).map fun n => r.head + n) r.slots

end Ring

structure RingQueue where
  ring : Ring
  flushed : Bool
  hooks : Hooks
  notices : Array Notice

namespace RingQueue

def create (capacity : Nat) (hooks : Hooks) : Except Failure RingQueue :=
  if capacity = 0 then .error .zeroCapacity
  else .ok ⟨.allocate (Queue.room capacity), false, hooks, #[]⟩

def notify (n : Notice) (q : RingQueue) : RingQueue :=
  if q.hooks.installed n then { q with notices := q.notices.push n } else q

def release (i : Item) (q : RingQueue) : RingQueue :=
  (q.notify (.keyFreed i.key)).notify (.valueFreed i.value)

def releaseAll (items : List Item) (q : RingQueue) : RingQueue :=
  items.foldl (fun q i => q.release i) q

def enqueue (i : Item) (q : RingQueue) : Except (Rejection × Item) Unit × RingQueue :=
  if q.flushed then (.error (.flushed, i), q)
  else if q.ring.capacity ≤ q.ring.depth then (.error (.full, i), q.notify .full)
  else (.ok (), { q with ring := q.ring.push i })

def swap (capacity : Nat) (q : RingQueue) : RingBuffer × RingQueue :=
  let capacity := if capacity = 0 then q.ring.capacity else Queue.room capacity
  (q.ring.handOver, { q with ring := .allocate capacity })

def freeBuffer (b : RingBuffer) (q : RingQueue) : RingQueue :=
  q.releaseAll (b.yields (b.count - b.taken))

def flush (q : RingQueue) : RingQueue := { q with flushed := true }

/-- Gives up the queue; nothing is left in the ring. -/
def close (q : RingQueue) : RingQueue :=
  { q.releaseAll q.ring.leftovers with ring := .allocate q.ring.capacity }

end RingQueue
end IndexedStore
