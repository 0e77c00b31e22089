import IndexedStore.Pipeline.Ring
import IndexedStore.Proofs.Queue
import Mathlib.Data.List.Basic

/-! # The ring holds the items in order

Since every swap begins the numbers anew, the items of a ring fill its first slots in order, and a
buffer that was handed over is emptied from the first slot on. A mask of low bits is a remainder
because capacities are powers of two, and numbers stay below the capacity. So a queue over a ring
answers as a queue over a list of items does, step by step.
-/
namespace IndexedStore

/-- A capacity that numbers can be masked by; a ring of no capacity holds nothing. -/
def Maskable (capacity : Nat) : Prop := capacity = 0 ∨ capacity.isPowerOfTwo

theorem slotOf_eq {capacity number : Nat} (h : Maskable capacity) (hlt : number < capacity) :
    slotOf capacity number = number := by
  rcases h with rfl | ⟨k, rfl⟩
  · exact absurd hlt (Nat.not_lt_zero _)
  · rw [slotOf, Nat.and_two_pow_sub_one_eq_mod, Nat.mod_eq_of_lt hlt]

/-- The slots of a ring or buffer: so many emptied, then the items, then free ones. -/
def layout (capacity emptied : Nat) (items : List Item) : List (Option Item) :=
  List.replicate emptied none ++ items.map some ++
    List.replicate (capacity - (emptied + items.length)) none

variable {capacity emptied : Nat} {items : List Item} {i : Item}

theorem layout_cons : layout capacity emptied (i :: items) =
    List.replicate emptied none ++ some i :: (items.map some ++
      List.replicate (capacity - (emptied + 1 + items.length)) none) := by
  have hfree : emptied + (i :: items).length = emptied + 1 + items.length := by
    rw [List.length_cons]
    omega
  rw [layout, hfree, List.map_cons, List.append_assoc, List.cons_append]

theorem getElem?_layout_head :
    (layout capacity emptied (i :: items))[emptied]? = some (some i) := by
  rw [layout_cons, List.getElem?_append_right (by simp)]
  simp

theorem set_layout_head :
    (layout capacity emptied (i :: items)).set emptied none =
      layout capacity (emptied + 1) items := by
  rw [layout_cons, List.set_append_right _ _ (by simp), List.length_replicate, Nat.sub_self,
    List.set_cons_zero, layout, List.replicate_succ']
  simp

theorem set_layout_end (hlt : items.length < capacity) :
    (layout capacity 0 items).set items.length (some i) = layout capacity 0 (items ++ [i]) := by
  have hfree : capacity - (0 + items.length) = capacity - (0 + (items ++ [i]).length) + 1 := by
    rw [List.length_append, List.length_singleton]
    omega
  rw [layout, hfree, List.replicate_succ, List.replicate_zero, List.nil_append,
    List.set_append_right _ _ (by simp), List.length_map, Nat.sub_self, List.set_cons_zero, layout]
  simp

/-! ## Ring and buffer -/

/-- The ring holds the items. -/
structure Ring.Holds (r : Ring) (items : List Item) : Prop where
  maskable : Maskable r.capacity
  head : r.head = 0
  tail : r.tail = items.length
  depth : r.depth = items.length
  fits : items.length ≤ r.capacity
  slots : r.slots.toList = layout r.capacity 0 items

/-- The ring that was handed over has the items of the buffer yet to give. -/
structure RingBuffer.Holds (r : RingBuffer) (b : Buffer) : Prop where
  maskable : Maskable r.capacity
  capacity : r.capacity = b.capacity
  head : r.head = 0
  count : r.count = b.count
  taken : r.taken + b.rest.length = r.count
  fits : r.count ≤ r.capacity
  slots : r.slots.toList = layout r.capacity r.taken b.rest

theorem Ring.holds_allocate (h : Maskable capacity) : (Ring.allocate capacity).Holds [] := by
  refine ⟨h, rfl, rfl, rfl, Nat.zero_le _, ?_⟩
  simp [allocate, layout]

theorem Ring.Holds.push {r : Ring} (h : r.Holds items) (hlt : items.length < r.capacity) :
    (r.push i).Holds (items ++ [i]) := by
  have hlength : (items ++ [i]).length = items.length + 1 := by
    rw [List.length_append, List.length_singleton]
  have hslot : slotOf r.capacity r.tail = items.length := by
    rw [h.tail, slotOf_eq h.maskable hlt]
  refine ⟨h.maskable, h.head, ?_, ?_, ?_, ?_⟩
  · rw [Ring.push, h.tail, hlength]
  · rw [Ring.push, h.depth, hlength]
  · rw [hlength]
    exact hlt
  · rw [Ring.push, Array.toList_setIfInBounds, hslot, h.slots, set_layout_end hlt]

theorem Ring.Holds.handOver {r : Ring} (h : r.Holds items) :
    r.handOver.Holds ⟨r.capacity, items.length, items⟩ := by
  refine ⟨h.maskable, rfl, h.head, h.depth, ?_, ?_, h.slots⟩
  · rw [Ring.handOver, h.depth, Nat.zero_add]
  · rw [Ring.handOver, h.depth]
    exact h.fits

theorem RingBuffer.Holds.next {r : RingBuffer} {b : Buffer} (h : r.Holds b) :
    r.next.1 = b.next.1 ∧ r.next.2.Holds b.next.2 := by
  have htaken := h.taken
  have hfits := h.fits
  have hslots := h.slots
  unfold RingBuffer.next Buffer.next
  cases hrest : b.rest with
  | nil =>
    rw [hrest, List.length_nil] at htaken
    have hleft : r.count - r.taken = 0 := by omega
    rw [hleft]
    exact ⟨rfl, h⟩
  | cons i rest =>
    rw [hrest, List.length_cons] at htaken
    rw [hrest] at hslots
    have hleft : r.count - r.taken = rest.length + 1 := by omega
    have hslot : slotOf r.capacity (r.head + r.taken) = r.taken := by
      rw [h.head, Nat.zero_add]
      exact slotOf_eq h.maskable (by omega)
    have hfilled : r.slots[r.taken]?.join = some i := by
      rw [← Array.getElem?_toList, hslots, getElem?_layout_head]
      rfl
    simp only [hleft, takeNext, hslot, hfilled]
    refine ⟨trivial, h.maskable, h.capacity, h.head, h.count, ?_, h.fits, ?_⟩
    · simp only
      omega
    · simp only [Array.toList_setIfInBounds, hslots, set_layout_head]

/-- Asked as often as it has items, a buffer gives them all. -/
theorem RingBuffer.Holds.yields {r : RingBuffer} {b : Buffer} (h : r.Holds b) :
    r.yields (r.count - r.taken) = b.rest := by
  have hleft : r.count - r.taken = b.rest.length := by
    have htaken := h.taken
    omega
  rw [hleft]
  clear hleft
  rcases b with ⟨capacity, count, rest⟩
  induction rest generalizing r with
  | nil => rfl
  | cons i rest ih =>
    obtain ⟨hanswer, hnext⟩ := h.next
    simp only [List.length_cons, RingBuffer.yields]
    rcases hr : r.next with ⟨_ | j, r'⟩
    · rw [hr] at hanswer
      cases hanswer
    · rw [hr] at hanswer hnext
      cases hanswer
      exact congrArg (List.cons i) (ih hnext)

theorem takeSlots_eq {slots : Array (Option Item)} (hcap : Maskable capacity)
    (hfits : emptied + items.length ≤ capacity)
    (hslots : slots.toList = layout capacity emptied items) :
    Ring.takeSlots capacity (List.range' emptied items.length) slots = items := by
  -- a slot that was emptied joins those before it, so the same holds of the rest
  induction items generalizing emptied slots with
  | nil => rfl
  | cons i rest ih =>
    rw [List.length_cons] at hfits
    have hslot : slotOf capacity emptied = emptied := slotOf_eq hcap (by omega)
    have hfilled : slots[emptied]?.join = some i := by
      rw [← Array.getElem?_toList, hslots, getElem?_layout_head]
      rfl
    have hrest :
        (slots.setIfInBounds emptied none).toList = layout capacity (emptied + 1) rest := by
      rw [Array.toList_setIfInBounds, hslots, set_layout_head]
    rw [List.length_cons, List.range'_succ, Ring.takeSlots]
    simp only [hslot, hfilled, Option.toList_some, List.singleton_append]
    rw [ih (by omega) hrest]

theorem Ring.Holds.leftovers {r : Ring} (h : r.Holds items) : r.leftovers = items := by
  have hnumbers : (List.range r.depth).map (fun n => r.head + n) = List.range' 0 items.length := by
    rw [h.head, h.depth, List.range_eq_range', List.map_add_range']
  rw [Ring.leftovers, hnumbers]
  refine takeSlots_eq h.maskable ?_ h.slots
  rw [Nat.zero_add]
  exact h.fits

theorem maskable_room (wanted : Nat) : Maskable (Queue.room wanted) := by
  rcases Nat.lt_or_ge (2 ^ 63) wanted with h | h
  · exact .inl (Queue.room_of_lt h)
  · exact .inr (Queue.room_of_le h).1

/-! ## The queue over a ring -/

/-- The queue over a ring and the queue over a list are in the same state. -/
structure RingQueue.Holds (r : RingQueue) (q : Queue) : Prop where
  ring : r.ring.Holds q.items.toList
  capacity : r.ring.capacity = q.capacity
  flushed : r.flushed = q.flushed
  hooks : r.hooks = q.hooks
  notices : r.notices = q.notices

namespace RingQueue.Holds
variable {r : RingQueue} {q : Queue}

theorem create {hooks : Hooks} (hpos : 0 < capacity) :
    ∃ q r, Queue.create capacity hooks = .ok q ∧ RingQueue.create capacity hooks = .ok r ∧
      r.Holds q ∧ q = ⟨Queue.room capacity, #[], false, hooks, #[]⟩ := by
  have hne : capacity ≠ 0 := Nat.ne_of_gt hpos
  refine ⟨_, _, if_neg hne, if_neg hne, ⟨?_, rfl, rfl, rfl, rfl⟩, rfl⟩
  exact Ring.holds_allocate (maskable_room capacity)

theorem notify (h : r.Holds q) (n : Notice) : (r.notify n).Holds (q.notify n) := by
  have hinstalled : r.hooks.installed n = q.hooks.installed n := by rw [h.hooks]
  unfold RingQueue.notify Queue.notify
  rw [hinstalled]
  split
  · exact ⟨h.ring, h.capacity, h.flushed, h.hooks, congrArg (·.push n) h.notices⟩
  · exact h

theorem release (h : r.Holds q) (i : Item) : (r.release i).Holds (q.release i) :=
  (h.notify _).notify _

theorem releaseAll (h : r.Holds q) (items : List Item) :
    (r.releaseAll items).Holds (q.releaseAll items) := by
  induction items generalizing r q with
  | nil => exact h
  | cons i rest ih => exact ih (h.release i)

theorem enqueue (h : r.Holds q) (i : Item) :
    (r.enqueue i).1 = (q.enqueue i).1 ∧ (r.enqueue i).2.Holds (q.enqueue i).2 := by
  have hdepth : r.ring.depth = q.depth := h.ring.depth
  unfold RingQueue.enqueue Queue.enqueue
  rw [h.flushed, h.capacity, hdepth]
  split
  · exact ⟨rfl, h⟩
  split
  · exact ⟨rfl, h.notify .full⟩
  · rename_i hroom
    refine ⟨rfl, ?_, h.capacity, rfl, h.hooks, h.notices⟩
    have hlt : q.items.toList.length < r.ring.capacity := by
      rw [h.capacity]
      exact Nat.lt_of_not_le hroom
    simpa only [Array.toList_push] using h.ring.push hlt

theorem swap (h : r.Holds q) (wanted : Nat) :
    (r.swap wanted).1.Holds (q.swap wanted).1 ∧ (r.swap wanted).2.Holds (q.swap wanted).2 := by
  have hmask : Maskable (if wanted = 0 then q.capacity else Queue.room wanted) := by
    split
    · exact h.capacity ▸ h.ring.maskable
    · exact maskable_room wanted
  unfold RingQueue.swap Queue.swap
  refine ⟨?_, ?_, ?_, h.flushed, h.hooks, h.notices⟩
  · have hbuffer := h.ring.handOver
    rwa [h.capacity] at hbuffer
  · rw [h.capacity]
    exact Ring.holds_allocate hmask
  · rw [h.capacity]
    rfl

theorem freeBuffer (h : r.Holds q) {b : RingBuffer} {b' : Buffer} (hb : b.Holds b') :
    (r.freeBuffer b).Holds (q.freeBuffer b') := by
  rw [RingQueue.freeBuffer, Queue.freeBuffer, hb.yields]
  exact h.releaseAll b'.rest

theorem flush (h : r.Holds q) : r.flush.Holds q.flush :=
  ⟨h.ring, h.capacity, rfl, h.hooks, h.notices⟩

theorem close (h : r.Holds q) : r.close.Holds q.close := by
  have hreleased := h.releaseAll q.items.toList
  have hcapacity : r.ring.capacity = (q.releaseAll q.items.toList).capacity := by
    rw [Queue.releaseAll_eq, h.capacity]
  unfold RingQueue.close Queue.close
  rw [h.ring.leftovers]
  exact ⟨Ring.holds_allocate h.ring.maskable, hcapacity, hreleased.flushed, hreleased.hooks,
    hreleased.notices⟩

end RingQueue.Holds

/-- The queue with its items read off the slots. -/
def RingQueue.read (r : RingQueue) : Queue :=
  ⟨r.ring.capacity, r.ring.leftovers.toArray, r.flushed, r.hooks, r.notices⟩

/-- The buffer with the rest of its items read off the slots. -/
def RingBuffer.read (r : RingBuffer) : Buffer :=
  ⟨r.capacity, r.count, r.yields (r.count - r.taken)⟩

theorem RingQueue.Holds.read {r : RingQueue} {q : Queue} (h : r.Holds q) : r.read = q := by
  rw [RingQueue.read, h.ring.leftovers, h.capacity, h.flushed, h.hooks, h.notices]

theorem RingBuffer.Holds.read {r : RingBuffer} {b : Buffer} (h : r.Holds b) : r.read = b := by
  rw [RingBuffer.read, h.yields, h.capacity, h.count]

end IndexedStore
