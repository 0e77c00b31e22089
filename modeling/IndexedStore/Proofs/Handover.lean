import IndexedStore.Proofs.Ring
import Mathlib.Data.List.Forall2
import Mathlib.Data.List.Perm.Basic

/-! # A queue hands every item over once and in order

Producers enqueue, the consumer swaps the queue for an empty one and takes items from the buffers it
got, buffers are freed and the queue is flushed, in any order. What was handed over and what is
still queued make up what was accepted, in that order; what nobody took is released, once. All this
holds for whatever capacities are asked for. Only the capacity itself falls short, of a request that
no power of two in a word can meet: such a queue has no room at all.
-/
namespace IndexedStore

/-- What can be done with a queue and with the buffers it hands over, wherever they keep items. -/
structure Handling (Q B : Type) where
  enqueue : Item → Q → Except (Rejection × Item) Unit × Q
  swap : Nat → Q → B × Q
  flush : Q → Q
  next : B → Option Item × B
  /-- what the buffer has yet to give -/
  rest : B → List Item
  free : B → Q → Q

def onList : Handling Queue Buffer :=
  ⟨Queue.enqueue, Queue.swap, Queue.flush, Buffer.next, Buffer.rest, Queue.freeBuffer⟩

def onRing : Handling RingQueue RingBuffer :=
  ⟨RingQueue.enqueue, RingQueue.swap, RingQueue.flush, RingBuffer.next,
    fun b => b.yields (b.count - b.taken), RingQueue.freeBuffer⟩

/-- Buffers are numbered in the order they are handed over. -/
inductive Deed
  | enqueue (producer : Nat) (i : Item)
  | swap (wanted : Nat)
  | flush
  | take (buffer : Nat)
  | free (buffer : Nat)

inductive Handed (B : Type)
  | held (taken : List Item) (b : B)
  | freed (taken released : List Item)

namespace Handed
variable {Q B : Type}

def taken : Handed B → List Item
  | held taken _ => taken
  | freed taken _ => taken

def released : Handed B → List Item
  | held _ _ => []
  | freed _ released => released

/-- What it has given or has yet to give. -/
def yielded : Handed Buffer → List Item
  | held taken b => taken ++ b.rest
  | freed taken released => taken ++ released

def take (on : Handling Q B) : Handed B → Handed B
  | held taken b => held (taken ++ (on.next b).1.toList) (on.next b).2
  | freed taken released => freed taken released

def free (on : Handling Q B) : Handed B → Handed B
  | held taken b => freed taken (on.rest b)
  | freed taken released => freed taken released

def giveBack (on : Handling Q B) (q : Q) : Handed B → Q
  | held _ b => on.free b q
  | freed _ _ => q

end Handed

/-- A queue with what became of the items that producers came with. -/
structure Handover (Q B : Type) where
  queue : Q
  handed : List (Handed B)
  accepted : List (Nat × Item)
  rejected : List (Nat × Rejection × Item)
  /-- the capacity that was last asked for -/
  wanted : Nat

namespace Handover
variable {Q B : Type}

def start (q : Q) (wanted : Nat) : Handover Q B := ⟨q, [], [], [], wanted⟩

def act (on : Handling Q B) (h : Handover Q B) : Deed → Handover Q B
  | .enqueue producer i =>
    match on.enqueue i h.queue with
    | (.ok (), q) => { h with queue := q, accepted := h.accepted ++ [(producer, i)] }
    | (.error e, q) => { h with queue := q, rejected := h.rejected ++ [(producer, e)] }
  | .swap wanted =>
    { h with
      queue := (on.swap wanted h.queue).2
      handed := h.handed ++ [.held [] (on.swap wanted h.queue).1]
      wanted := if wanted = 0 then h.wanted else wanted }
  | .flush => { h with queue := on.flush h.queue }
  | .take buffer => { h with handed := h.handed.modify buffer (Handed.take on) }
  | .free buffer =>
    { h with
      queue := (h.handed[buffer]?).elim h.queue (Handed.giveBack on h.queue)
      handed := h.handed.modify buffer (Handed.free on) }

def run (on : Handling Q B) (h : Handover Q B) (deeds : List Deed) : Handover Q B :=
  deeds.foldl (act on) h

end Handover

/-! ## The ring does as the list does -/

/-- The same buffer, with the same items taken or released. -/
inductive Handed.Holds : Handed RingBuffer → Handed Buffer → Prop
  | held {taken : List Item} {r : RingBuffer} {b : Buffer} (same : r.Holds b) :
    Holds (.held taken r) (.held taken b)
  | freed {taken released : List Item} : Holds (.freed taken released) (.freed taken released)

theorem Handed.Holds.take {d : Handed RingBuffer} {d' : Handed Buffer} (h : d.Holds d') :
    (d.take onRing).Holds (d'.take onList) := by
  cases h with
  | held same =>
    obtain ⟨hitem, hrest⟩ := same.next
    rw [Handed.take, Handed.take]
    change Holds (.held (_ ++ (RingBuffer.next _).1.toList) _) _
    rw [hitem]
    exact .held hrest
  | freed => exact .freed

theorem Handed.Holds.free {d : Handed RingBuffer} {d' : Handed Buffer} (h : d.Holds d') :
    (d.free onRing).Holds (d'.free onList) := by
  cases h with
  | held same =>
    rw [Handed.free, Handed.free]
    change Holds (.freed _ (RingBuffer.yields _ _)) _
    rw [same.yields]
    exact .freed
  | freed => exact .freed

theorem forall₂_modify {α β : Type} {R : α → β → Prop} {f : α → α} {g : β → β}
    (hfg : ∀ a b, R a b → R (f a) (g b)) {l : List α} {m : List β} (h : List.Forall₂ R l m)
    (n : Nat) : List.Forall₂ R (l.modify n f) (m.modify n g) := by
  induction h generalizing n with
  | nil => cases n <;> exact .nil
  | @cons a b l m hab hlm ih =>
    cases n with
    | zero => exact .cons (hfg a b hab) hlm
    | succ n => exact .cons hab (ih n)

/-- The same history, over a ring and over a list. -/
structure Handover.Holds (r : Handover RingQueue RingBuffer) (h : Handover Queue Buffer) :
    Prop where
  queue : r.queue.Holds h.queue
  handed : List.Forall₂ Handed.Holds r.handed h.handed
  accepted : r.accepted = h.accepted
  rejected : r.rejected = h.rejected
  wanted : r.wanted = h.wanted

theorem giveBack_holds {r : RingQueue} {q : Queue} (hq : r.Holds q)
    {l : List (Handed RingBuffer)} {m : List (Handed Buffer)}
    (h : List.Forall₂ Handed.Holds l m) (n : Nat) :
    ((l[n]?).elim r (Handed.giveBack onRing r)).Holds
      ((m[n]?).elim q (Handed.giveBack onList q)) := by
  induction h generalizing n with
  | nil => exact hq
  | @cons d d' l m hd hlm ih =>
    cases n with
    | succ n => exact ih n
    | zero =>
      cases hd with
      | held same => exact hq.freeBuffer same
      | freed => exact hq

theorem Handover.Holds.act {r : Handover RingQueue RingBuffer} {h : Handover Queue Buffer}
    (same : r.Holds h) (d : Deed) : (r.act onRing d).Holds (h.act onList d) := by
  cases d with
  | enqueue producer i =>
    obtain ⟨hanswer, hqueue⟩ := same.queue.enqueue i
    simp only [Handover.act, onRing, onList]
    rcases hr : r.queue.enqueue i with ⟨answer, r'⟩
    rcases hh : h.queue.enqueue i with ⟨answer', q'⟩
    rw [hr, hh] at hanswer hqueue
    cases hanswer
    cases answer with
    | ok => exact ⟨hqueue, same.handed, by rw [same.accepted], same.rejected, same.wanted⟩
    | error e => exact ⟨hqueue, same.handed, same.accepted, by rw [same.rejected], same.wanted⟩
  | swap wanted =>
    obtain ⟨hbuffer, hqueue⟩ := same.queue.swap wanted
    refine ⟨hqueue, ?_, same.accepted, same.rejected, ?_⟩
    · exact List.rel_append same.handed (.cons (.held hbuffer) .nil)
    · simp only [Handover.act, same.wanted]
  | flush => exact ⟨same.queue.flush, same.handed, same.accepted, same.rejected, same.wanted⟩
  | take buffer =>
    refine ⟨same.queue, ?_, same.accepted, same.rejected, same.wanted⟩
    exact forall₂_modify (fun _ _ hd => hd.take) same.handed buffer
  | free buffer =>
    refine ⟨giveBack_holds same.queue same.handed buffer, ?_, same.accepted, same.rejected,
      same.wanted⟩
    exact forall₂_modify (fun _ _ hd => hd.free) same.handed buffer

theorem Handover.Holds.run {r : Handover RingQueue RingBuffer} {h : Handover Queue Buffer}
    (same : r.Holds h) (deeds : List Deed) : (r.run onRing deeds).Holds (h.run onList deeds) := by
  induction deeds generalizing r h with
  | nil => exact same
  | cons d rest ih => exact ih (same.act d)

/-! ## What the list keeps -/

theorem flatMap_modify {α β : Type} {f : α → α} {g : α → List β} (hfg : ∀ a, g (f a) = g a)
    (l : List α) (n : Nat) : (l.modify n f).flatMap g = l.flatMap g := by
  induction l generalizing n with
  | nil => cases n <;> rfl
  | cons a l ih =>
    cases n with
    | zero => exact congrArg (· ++ l.flatMap g) (hfg a)
    | succ n => exact congrArg (g a ++ ·) (ih n)

def Handed.atStake : Handed Buffer → List Item
  | held _ b => b.rest
  | freed _ _ => []

theorem yielded_take (d : Handed Buffer) : (d.take onList).yielded = d.yielded := by
  cases d with
  | freed => rfl
  | held taken b =>
    rcases b with ⟨capacity, count, rest⟩
    cases rest with
    | nil => exact congrArg (· ++ []) (List.append_nil taken)
    | cons i rest => exact List.append_assoc taken [i] rest

theorem yielded_free (d : Handed Buffer) : (d.free onList).yielded = d.yielded := by
  cases d <;> rfl

theorem released_take (d : Handed Buffer) : (d.take onList).released = d.released := by
  cases d <;> rfl

theorem released_free (d : Handed Buffer) :
    (d.free onList).released = d.released ++ d.atStake := by
  cases d with
  | held taken b => rfl
  | freed taken released => exact (List.append_nil released).symm

theorem giveBack_eq (q : Queue) (d : Handed Buffer) :
    d.giveBack onList q = q.releaseAll d.atStake := by
  cases d <;> rfl

theorem released_modify_free (l : List (Handed Buffer)) (n : Nat) :
    ((l.modify n (Handed.free onList)).flatMap Handed.released).Perm
      (l.flatMap Handed.released ++ (l[n]?).elim [] Handed.atStake) := by
  induction l generalizing n with
  | nil => cases n <;> exact .nil
  | cons d l ih =>
    cases n with
    | zero =>
      change ((d.free onList).released ++ l.flatMap Handed.released).Perm
        (d.released ++ l.flatMap Handed.released ++ d.atStake)
      rw [released_free, List.append_assoc, List.append_assoc]
      exact List.perm_append_comm.append_left d.released
    | succ n =>
      change (d.released ++ _).Perm (d.released ++ l.flatMap Handed.released ++ _)
      rw [List.append_assoc]
      exact (ih n).append_left d.released

def Notice.frees : Notice → Bool
  | .keyFreed _ => true
  | .valueFreed _ => true
  | .full => false
  | .batchFlushed => false

theorem filter_farewell (hooks : Hooks) (items : List Item) :
    (items.flatMap (Item.farewell hooks)).filter Notice.frees =
      items.flatMap (Item.farewell hooks) := by
  refine List.filter_eq_self.mpr fun n hn => ?_
  obtain ⟨i, -, hn⟩ := List.mem_flatMap.mp hn
  have hn := (List.mem_filter.mp hn).1
  rcases List.mem_cons.mp hn with rfl | hn
  · rfl
  · obtain rfl := List.mem_singleton.mp hn
    rfl

/-- The notices tell of the release of these items and of no other. -/
def Queue.Freed (q : Queue) (items : List Item) : Prop :=
  q.notices.toList.filter Notice.frees = items.flatMap (Item.farewell q.hooks)

theorem Queue.Freed.releaseAll {q : Queue} {log : List Item} (h : q.Freed log)
    (items : List Item) : (q.releaseAll items).Freed (log ++ items) := by
  unfold Freed at h ⊢
  rw [releaseAll_eq]
  simp only [Array.toList_append, List.filter_append, filter_farewell, h, List.flatMap_append]

theorem Queue.Freed.full {q : Queue} {log : List Item} (h : q.Freed log) :
    (q.notify .full).Freed log := by
  have hquiet : ([Notice.full].filter q.hooks.installed).filter Notice.frees = [] := by
    rw [List.filter_filter]
    exact List.filter_eq_nil_iff.mpr (by simp [Notice.frees])
  unfold Freed at h ⊢
  rw [notify_eq]
  simp only [Array.toList_append, List.filter_append, hquiet, h, List.append_nil]

/-- The items that producers come with, each with its producer. -/
def Deed.offers : Deed → List (Nat × Item)
  | enqueue producer i => [(producer, i)]
  | swap _ => []
  | flush => []
  | take _ => []
  | free _ => []

namespace Handover
variable {h : Handover Queue Buffer} {hooks : Hooks} {offered : List (Nat × Item)}

def taken (h : Handover Queue Buffer) : List Item := h.handed.flatMap Handed.taken

def yielded (h : Handover Queue Buffer) : List Item := h.handed.flatMap Handed.yielded

def released (h : Handover Queue Buffer) : List Item := h.handed.flatMap Handed.released

/-- What each deed leaves true of a queue and of all that it handed over. -/
structure Accounted (hooks : Hooks) (offered : List (Nat × Item)) (h : Handover Queue Buffer) :
    Prop where
  hooks : h.queue.hooks = hooks
  inOrder : h.yielded ++ h.queue.items.toList = h.accepted.map Prod.snd
  accepted : h.accepted.Sublist offered
  answered : (h.accepted ++ h.rejected.map fun e => (e.1, e.2.2)).Perm offered
  capacity : h.queue.capacity = Queue.room h.wanted
  depth : h.queue.depth ≤ h.queue.capacity
  freed : ∃ log, log.Perm h.released ∧ h.queue.Freed log

theorem accounted_start (hooks : Hooks) (wanted : Nat) :
    (start ⟨Queue.room wanted, #[], false, hooks, #[]⟩ wanted :
      Handover Queue Buffer).Accounted hooks [] :=
  ⟨rfl, rfl, .slnil, .nil, rfl, Nat.zero_le _, [], .nil, rfl⟩

theorem Accounted.enqueue (ha : h.Accounted hooks offered) (producer : Nat) (i : Item) :
    (h.act onList (.enqueue producer i)).Accounted hooks (offered ++ [(producer, i)]) := by
  have hleft : ∀ e : Rejection × Item, e.2 = i →
      (h.accepted ++ (h.rejected ++ [(producer, e)]).map fun e => (e.1, e.2.2)).Perm
        (offered ++ [(producer, i)]) := by
    rintro e rfl
    rw [List.map_append, ← List.append_assoc]
    exact ha.answered.append_right _
  have hsame : h.accepted.Sublist (offered ++ [(producer, i)]) :=
    ha.accepted.trans (List.sublist_append_left _ _)
  simp only [act, onList]
  obtain ⟨-, he⟩ | ⟨-, -, he⟩ | ⟨-, hlt, he⟩ := Queue.enqueue_cases i h.queue <;> rw [he]
  · exact ⟨ha.hooks, ha.inOrder, hsame, hleft _ rfl, ha.capacity, ha.depth, ha.freed⟩
  -- a full queue may tell its owner so, which is no notice of a release
  · obtain ⟨log, hlog, hfreed⟩ := ha.freed
    have hnotify := Queue.notify_eq .full h.queue
    refine ⟨?_, ?_, hsame, hleft _ rfl, ?_, ?_, log, hlog, hfreed.full⟩
    · simp only [hnotify]
      exact ha.hooks
    · simp only [Queue.items_notify]
      exact ha.inOrder
    · simp only [hnotify]
      exact ha.capacity
    · simp only [hnotify]
      exact ha.depth
  · refine ⟨ha.hooks, ?_, ha.accepted.append (List.Sublist.refl _), ?_, ha.capacity, ?_, ha.freed⟩
    · simp only [yielded, Array.toList_push, List.map_append, ← ha.inOrder, List.append_assoc,
        List.map_singleton]
    · simp only [List.append_assoc]
      refine (List.perm_append_comm.append_left _).trans ?_
      rw [← List.append_assoc]
      exact ha.answered.append_right _
    · simp only [Queue.depth, Array.size_push]
      exact hlt

theorem Accounted.swap (ha : h.Accounted hooks offered) (wanted : Nat) :
    (h.act onList (.swap wanted)).Accounted hooks offered := by
  obtain ⟨log, hlog, hfreed⟩ := ha.freed
  refine ⟨ha.hooks, Eq.trans ?_ ha.inOrder, ha.accepted, ha.answered, ?_, Nat.zero_le _, log, ?_,
    hfreed⟩
  · simp [Handover.act, yielded, Handed.yielded, onList, Queue.swap]
  · simp only [Handover.act, onList, Queue.swap]
    split
    · exact ha.capacity
    · rfl
  · simpa [Handover.act, released, Handed.released] using hlog

theorem Accounted.take (ha : h.Accounted hooks offered) (buffer : Nat) :
    (h.act onList (.take buffer)).Accounted hooks offered := by
  obtain ⟨log, hlog, hfreed⟩ := ha.freed
  refine ⟨ha.hooks, ?_, ha.accepted, ha.answered, ha.capacity, ha.depth, log, ?_, hfreed⟩
  · simp only [Handover.act, yielded, flatMap_modify yielded_take]
    exact ha.inOrder
  · simp only [Handover.act, released, flatMap_modify released_take]
    exact hlog

theorem Accounted.free (ha : h.Accounted hooks offered) (buffer : Nat) :
    (h.act onList (.free buffer)).Accounted hooks offered := by
  obtain ⟨log, hlog, hfreed⟩ := ha.freed
  have hqueue : (h.handed[buffer]?).elim h.queue (Handed.giveBack onList h.queue) =
      h.queue.releaseAll ((h.handed[buffer]?).elim [] Handed.atStake) := by
    cases h.handed[buffer]? with
    | none => rfl
    | some d => exact giveBack_eq h.queue d
  simp only [Handover.act, hqueue]
  refine ⟨?_, ?_, ha.accepted, ha.answered, ?_, ?_, _, ?_, hfreed.releaseAll _⟩
  · rw [Queue.releaseAll_eq]
    exact ha.hooks
  · simp only [yielded, flatMap_modify yielded_free, Queue.releaseAll_eq]
    exact ha.inOrder
  · rw [Queue.releaseAll_eq]
    exact ha.capacity
  · rw [Queue.releaseAll_eq]
    exact ha.depth
  · exact (hlog.append_right _).trans (released_modify_free h.handed buffer).symm

theorem Accounted.act (ha : h.Accounted hooks offered) (d : Deed) :
    (h.act onList d).Accounted hooks (offered ++ d.offers) := by
  have hnone := List.append_nil offered
  cases d with
  | enqueue producer i => exact ha.enqueue producer i
  | swap wanted => exact hnone.symm ▸ ha.swap wanted
  | flush =>
    exact hnone.symm ▸ ⟨ha.hooks, ha.inOrder, ha.accepted, ha.answered, ha.capacity, ha.depth,
      ha.freed⟩
  | take buffer => exact hnone.symm ▸ ha.take buffer
  | free buffer => exact hnone.symm ▸ ha.free buffer

theorem Accounted.run (ha : h.Accounted hooks offered) (deeds : List Deed) :
    (h.run onList deeds).Accounted hooks (offered ++ deeds.flatMap Deed.offers) := by
  induction deeds generalizing h offered with
  | nil =>
    rw [List.flatMap_nil, List.append_nil]
    exact ha
  | cons d rest ih =>
    rw [List.flatMap_cons, ← List.append_assoc]
    exact ih (ha.act d)

theorem act_flushed (hf : h.queue.flushed = true) (d : Deed) :
    (h.act onList d).queue.flushed = true ∧ (h.act onList d).accepted = h.accepted := by
  cases d with
  | enqueue producer i =>
    have he : h.queue.enqueue i = (.error (.flushed, i), h.queue) := by
      rw [Queue.enqueue, if_pos hf]
    simp only [act, onList, he]
    exact ⟨hf, trivial⟩
  | free buffer =>
    refine ⟨?_, rfl⟩
    simp only [act]
    cases h.handed[buffer]? with
    | none => exact hf
    | some d =>
      change (d.giveBack onList h.queue).flushed = true
      rw [giveBack_eq, Queue.releaseAll_eq]
      exact hf
  | _ => exact ⟨by first | exact hf | rfl, rfl⟩

theorem run_flushed (hf : h.queue.flushed = true) (deeds : List Deed) :
    (h.run onList deeds).accepted = h.accepted := by
  induction deeds generalizing h with
  | nil => rfl
  | cons d rest ih =>
    obtain ⟨hnow, hsame⟩ := act_flushed hf d
    exact (ih hnow).trans hsame

/-! ## The whole account -/

end Handover

def Handed.isFreed {B : Type} : Handed B → Bool
  | held _ _ => false
  | freed _ _ => true

theorem yielded_of_isFreed {d : Handed Buffer} (h : d.isFreed) :
    d.yielded = d.taken ++ d.released := by
  cases d with
  | held => cases h
  | freed => rfl

def Handed.read : Handed RingBuffer → Handed Buffer
  | held taken b => held taken b.read
  | freed taken released => freed taken released

theorem Handed.Holds.read {d : Handed RingBuffer} {d' : Handed Buffer} (h : d.Holds d') :
    d.read = d' := by
  cases h with
  | held same => exact congrArg _ same.read
  | freed => rfl

namespace Handover

def read (r : Handover RingQueue RingBuffer) : Handover Queue Buffer :=
  ⟨r.queue.read, r.handed.map Handed.read, r.accepted, r.rejected, r.wanted⟩

theorem Holds.read {r : Handover RingQueue RingBuffer} {h : Handover Queue Buffer}
    (same : r.Holds h) : r.read = h := by
  have hhanded : r.handed.map Handed.read = h.handed :=
    List.forall₂_eq_eq_eq ▸ List.forall₂_map_left_iff.mpr (same.handed.imp fun _ _ hd => hd.read)
  rw [Handover.read, same.queue.read, hhanded, same.accepted, same.rejected, same.wanted]

/-- A queue that was opened with the hooks, after these deeds. -/
structure Orderly (hooks : Hooks) (deeds : List Deed) (h : Handover Queue Buffer) : Prop where
  /-- nothing is lost, handed over twice or out of turn -/
  inOrder : h.yielded ++ h.queue.items.toList = h.accepted.map Prod.snd
  perProducer : ∀ p, (h.accepted.filter fun e => e.1 = p).Sublist
    ((deeds.flatMap Deed.offers).filter fun e => e.1 = p)
  /-- an item is accepted, or it is handed back -/
  answered : (h.accepted ++ h.rejected.map fun e => (e.1, e.2.2)).Perm (deeds.flatMap Deed.offers)
  depth : h.queue.depth ≤ h.queue.capacity
  capacity : h.queue.capacity.isPowerOfTwo ∧ h.wanted ≤ h.queue.capacity ↔ h.wanted ≤ 2 ^ 63
  swapped : ∀ wanted, (h.queue.swap wanted).2.depth = 0 ∧
    (h.queue.swap wanted).1.rest = h.queue.items.toList
  refused : ∀ i, (∃ e, (h.queue.enqueue i).1 = .error e) ↔
    h.queue.flushed = true ∨ h.queue.depth = h.queue.capacity
  /-- a rejected item changes nothing but what the hooks were told -/
  handedBack : ∀ i reason back, (h.queue.enqueue i).1 = .error (reason, back) →
    back = i ∧ { (h.queue.enqueue i).2 with notices := h.queue.notices } = h.queue
  flushed : h.queue.flushed = true → ∀ later, (h.run onList later).accepted = h.accepted
  /-- whatever nobody took is released once, and nothing else is -/
  closed : (∀ d ∈ h.handed, d.isFreed) → ∃ log,
    (h.accepted.map Prod.snd).Perm (h.taken ++ log) ∧
      h.queue.close.notices.toList.filter Notice.frees = log.flatMap (Item.farewell hooks)

variable {h : Handover Queue Buffer} {hooks : Hooks} {offered : List (Nat × Item)}

theorem Accounted.closed (ha : h.Accounted hooks offered) (hfreed : ∀ d ∈ h.handed, d.isFreed) :
    ∃ log, (h.accepted.map Prod.snd).Perm (h.taken ++ log) ∧
      h.queue.close.notices.toList.filter Notice.frees = log.flatMap (Item.farewell hooks) := by
  obtain ⟨log, hlog, htold⟩ := ha.freed
  have hyielded : h.yielded = h.handed.flatMap fun d => d.taken ++ d.released :=
    List.flatMap_congr fun d hd => yielded_of_isFreed (hfreed d hd)
  have hsplit : h.yielded.Perm (h.taken ++ log) := by
    rw [hyielded]
    exact (List.flatMap_append_perm h.handed Handed.taken Handed.released).symm.trans
      (hlog.symm.append_left h.taken)
  refine ⟨log ++ h.queue.items.toList, ?_, ?_⟩
  · rw [← ha.inOrder, ← List.append_assoc]
    exact hsplit.append_right _
  · have hclosed := htold.releaseAll h.queue.items.toList
    have hhooks : (h.queue.releaseAll h.queue.items.toList).hooks = hooks := by
      rw [Queue.releaseAll_eq, ha.hooks]
    rwa [Queue.Freed, hhooks] at hclosed

theorem Accounted.refused (ha : h.Accounted hooks offered) (i : Item) :
    (∃ e, (h.queue.enqueue i).1 = .error e) ↔
      h.queue.flushed = true ∨ h.queue.depth = h.queue.capacity := by
  have hdepth := ha.depth
  obtain ⟨hf, he⟩ | ⟨hf, hfull, he⟩ | ⟨hf, hlt, he⟩ := Queue.enqueue_cases i h.queue
  · simp [he, hf]
  · simp [he, hf, Nat.le_antisymm hdepth hfull]
  · simp [he, hf, Nat.ne_of_lt hlt]

theorem handedBack {q : Queue} {i back : Item} {reason : Rejection}
    (h : (q.enqueue i).1 = .error (reason, back)) :
    back = i ∧ { (q.enqueue i).2 with notices := q.notices } = q := by
  obtain ⟨-, he⟩ | ⟨-, -, he⟩ | ⟨-, -, he⟩ := Queue.enqueue_cases i q <;> rw [he] at h <;> cases h
  · exact ⟨rfl, by rw [he]⟩
  · exact ⟨rfl, by rw [he, Queue.notify_eq]⟩

theorem Accounted.orderly {deeds : List Deed}
    (ha : h.Accounted hooks (deeds.flatMap Deed.offers)) : h.Orderly hooks deeds where
  inOrder := ha.inOrder
  perProducer p := ha.accepted.filter _
  answered := ha.answered
  depth := ha.depth
  capacity := by
    rw [ha.capacity]
    exact Queue.room_suffices_iff
  swapped _ := ⟨rfl, rfl⟩
  refused := ha.refused
  handedBack _ _ _ := handedBack
  flushed := run_flushed
  closed := ha.closed

/-- Whatever producers, consumer and owner do, in whatever order, a queue keeps all accounts, and
one that keeps its items in a ring of slots goes the same way as one that keeps them in a list. -/
theorem items_handed_over_once {capacity : Nat} (hooks : Hooks) (hpos : 1 ≤ capacity)
    (deeds : List Deed) :
    ∃ q r, Queue.create capacity hooks = .ok q ∧ RingQueue.create capacity hooks = .ok r ∧
      let h := (start q capacity).run onList deeds
      let ring := (start r capacity).run onRing deeds
      h.Orderly hooks deeds ∧ ring.read = h ∧ ring.queue.ring.depth = h.queue.depth ∧
        ring.queue.close.read = h.queue.close := by
  obtain ⟨q, r, hq, hr, hqr, rfl⟩ := RingQueue.Holds.create hpos
  have hstart : (start r capacity).Holds (start _ capacity) := ⟨hqr, .nil, rfl, rfl, rfl⟩
  have hrun := hstart.run deeds
  refine ⟨_, r, hq, hr, ((accounted_start hooks capacity).run deeds).orderly, hrun.read, ?_, ?_⟩
  · exact hrun.queue.ring.depth
  · exact hrun.queue.close.read

def allHooks : Hooks := ⟨true, true, true, true⟩

/-- Two producers fill a queue of two and are turned away, first because it is full, then because it
is flushed. -/
def busyMorning : List Deed :=
  [.enqueue 0 ⟨[1], [10]⟩, .enqueue 1 ⟨[2], [20]⟩, .enqueue 1 ⟨[3], [30]⟩, .swap 5,
    .enqueue 0 ⟨[4], [40]⟩, .take 0, .flush, .enqueue 0 ⟨[5], [50]⟩, .free 0]

theorem items_handed_over_once_busyMorning :
    1 ≤ 2 ∧ ∃ q r, Queue.create 2 allHooks = .ok q ∧ RingQueue.create 2 allHooks = .ok r ∧
      let h := (start q 2).run onList busyMorning
      h.accepted = [(0, ⟨[1], [10]⟩), (1, ⟨[2], [20]⟩), (0, ⟨[4], [40]⟩)] ∧
        h.rejected = [(1, .full, ⟨[3], [30]⟩), (0, .flushed, ⟨[5], [50]⟩)] ∧
        h.taken = [⟨[1], [10]⟩] ∧ h.queue.capacity = 8 ∧ h.Orderly allHooks busyMorning ∧
        ((start r 2).run onRing busyMorning).read = h := by
  obtain ⟨q, r, hq, hr, horderly, hread, -⟩ :=
    items_handed_over_once allHooks (by decide : 1 ≤ 2) busyMorning
  refine ⟨by decide, q, r, hq, hr, ?_, ?_, ?_, ?_, horderly, hread⟩
  all_goals
    obtain rfl := Except.ok.inj hq
    decide +kernel

/-- Asked for more than the greatest power of two in a word, the queue is left without any room. -/
theorem swap_leaves_no_room :
    ¬ ∀ (capacity : Nat) (hooks : Hooks) (deeds : List Deed) (q : Queue), 1 ≤ capacity →
      capacity ≤ 2 ^ 63 → Queue.create capacity hooks = .ok q →
      let h := (start q capacity).run onList deeds
      h.queue.capacity.isPowerOfTwo ∧ h.wanted ≤ h.queue.capacity := by
  intro hall
  have hlarge : 2 ^ 63 < 9223372036854775809 := by decide
  obtain ⟨-, hle⟩ := hall 3 allHooks [.swap 9223372036854775809] _ (by decide) (by decide) rfl
  change 9223372036854775809 ≤ Queue.room 9223372036854775809 at hle
  rw [Queue.room_of_lt hlarge] at hle
  omega

end Handover
end IndexedStore
