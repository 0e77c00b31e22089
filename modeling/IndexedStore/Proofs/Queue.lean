import IndexedStore.Pipeline.Queue
import Mathlib.Algebra.Group.Nat.Defs
import Mathlib.Data.List.Basic

/-! # What each call does to a queue

A call changes a queue in one place: enqueueing adds an item at the end or leaves the items alone,
and releasing items only tells the hooks. The room that is made for so many items is the least power
of two that suffices, as long as a word holds it.
-/
open private Nat.nextPowerOfTwo.go from Init.Data.Nat.Power2.Basic

namespace IndexedStore

theorem nextPowerOfTwo_go_spec {wanted k : Nat} (hk : wanted ≤ 2 ^ k) (power : Nat)
    (hpos : 0 < power) (hpower : ∃ j, power = 2 ^ j ∧ j ≤ k) :
    wanted ≤ Nat.nextPowerOfTwo.go wanted power hpos ∧
      Nat.nextPowerOfTwo.go wanted power hpos ≤ 2 ^ k := by
  fun_induction Nat.nextPowerOfTwo.go wanted power hpos with
  | case1 power hpos hlt ih =>
    obtain ⟨j, rfl, hj⟩ := hpower
    have hjk : j < k := (Nat.pow_lt_pow_iff_right Nat.one_lt_two).mp (Nat.lt_of_lt_of_le hlt hk)
    exact ih ⟨j + 1, (Nat.pow_succ 2 j).symm, hjk⟩
  | case2 power hpos hge =>
    obtain ⟨j, rfl, hj⟩ := hpower
    exact ⟨Nat.le_of_not_lt hge, Nat.pow_le_pow_right Nat.two_pos hj⟩

theorem nextPowerOfTwo_spec {wanted k : Nat} (hk : wanted ≤ 2 ^ k) :
    wanted ≤ wanted.nextPowerOfTwo ∧ wanted.nextPowerOfTwo ≤ 2 ^ k :=
  nextPowerOfTwo_go_spec hk 1 Nat.one_pos ⟨0, rfl, Nat.zero_le k⟩

/-- What an owner who installed the hooks is told when the item is released. -/
def Item.farewell (hooks : Hooks) (i : Item) : List Notice :=
  [.keyFreed i.key, .valueFreed i.value].filter hooks.installed

namespace Queue
variable {wanted : Nat} {i : Item} {q : Queue}

theorem room_of_le (h : wanted ≤ 2 ^ 63) : (room wanted).isPowerOfTwo ∧ wanted ≤ room wanted := by
  obtain ⟨hge, hle⟩ := nextPowerOfTwo_spec h
  have hfits : wanted.nextPowerOfTwo < UInt64.size := Nat.lt_of_le_of_lt hle (by decide)
  rw [room, Nat.mod_eq_of_lt hfits]
  exact ⟨Nat.isPowerOfTwo_nextPowerOfTwo wanted, hge⟩

/-- No word holds the power of two that would be needed. -/
theorem room_of_lt (h : 2 ^ 63 < wanted) : room wanted = 0 := by
  obtain ⟨k, hk⟩ := Nat.isPowerOfTwo_nextPowerOfTwo wanted
  have hge : wanted ≤ wanted.nextPowerOfTwo :=
    (nextPowerOfTwo_spec (Nat.le_of_lt Nat.lt_two_pow_self)).1
  have hlarge : 63 < k := by
    rw [hk] at hge
    exact (Nat.pow_lt_pow_iff_right Nat.one_lt_two).mp (Nat.lt_of_lt_of_le h hge)
  rw [room, hk]
  exact Nat.mod_eq_zero_of_dvd (Nat.pow_dvd_pow 2 hlarge)

theorem room_suffices_iff :
    (room wanted).isPowerOfTwo ∧ wanted ≤ room wanted ↔ wanted ≤ 2 ^ 63 := by
  refine ⟨fun ⟨_, hle⟩ => Nat.le_of_not_lt fun hlt => ?_, room_of_le⟩
  rw [room_of_lt hlt] at hle
  omega

/-! ## Enqueueing -/

theorem enqueue_cases (i : Item) (q : Queue) :
    (q.flushed = true ∧ q.enqueue i = (.error (.flushed, i), q)) ∨
    (q.flushed = false ∧ q.capacity ≤ q.depth ∧
      q.enqueue i = (.error (.full, i), q.notify .full)) ∨
    (q.flushed = false ∧ q.depth < q.capacity ∧
      q.enqueue i = (.ok (), { q with items := q.items.push i })) := by
  unfold enqueue
  cases hflushed : q.flushed with
  | true => exact .inl ⟨rfl, rfl⟩
  | false =>
    by_cases hfull : q.capacity ≤ q.depth
    · refine .inr (.inl ⟨rfl, hfull, ?_⟩)
      rw [if_neg Bool.false_ne_true, if_pos hfull]
    · refine .inr (.inr ⟨rfl, Nat.lt_of_not_le hfull, ?_⟩)
      rw [if_neg Bool.false_ne_true, if_neg hfull]

theorem notify_eq (n : Notice) (q : Queue) :
    q.notify n = { q with notices := q.notices ++ ([n].filter q.hooks.installed).toArray } := by
  unfold notify
  cases hn : q.hooks.installed n with
  | true => simp [hn]
  | false => simp [hn]

theorem items_notify (n : Notice) (q : Queue) : (q.notify n).items = q.items := by
  rw [notify_eq]

theorem release_eq (i : Item) (q : Queue) :
    q.release i = { q with notices := q.notices ++ (i.farewell q.hooks).toArray } := by
  have hsplit : i.farewell q.hooks =
      [Notice.keyFreed i.key].filter q.hooks.installed ++
        [Notice.valueFreed i.value].filter q.hooks.installed :=
    List.filter_append [Notice.keyFreed i.key] [Notice.valueFreed i.value]
  rw [release, notify_eq, notify_eq, hsplit, ← List.append_toArray, ← Array.append_assoc]

theorem releaseAll_eq (items : List Item) (q : Queue) :
    q.releaseAll items =
      { q with notices := q.notices ++ (items.flatMap (Item.farewell q.hooks)).toArray } := by
  induction items generalizing q with
  | nil => simp [releaseAll]
  | cons i rest ih =>
    change (q.release i).releaseAll rest = _
    rw [ih, release_eq, List.flatMap_cons, ← List.append_toArray, ← Array.append_assoc]

theorem releaseAll_append (i j : List Item) (q : Queue) :
    q.releaseAll (i ++ j) = (q.releaseAll i).releaseAll j := List.foldl_append

/-- Items are released one after another, while other hooks may be told that a batch is done. -/
inductive Releases : List Item → Queue → Queue → Prop
  | done {q : Queue} : Releases [] q q
  | release {i : Item} {l : List Item} {q q' : Queue} (later : Releases l (q.release i) q') :
    Releases (i :: l) q q'
  | flushed {l : List Item} {q q' : Queue} (later : Releases l (q.notify .batchFlushed) q') :
    Releases l q q'

theorem releases_releaseAll (l : List Item) (q : Queue) : Releases l q (q.releaseAll l) := by
  induction l generalizing q with
  | nil => exact .done
  | cons i rest ih => exact .release (ih _)

theorem Releases.append {l m : List Item} {q q' q'' : Queue} (h : Releases l q q')
    (h' : Releases m q' q'') : Releases (l ++ m) q q'' := by
  induction h with
  | done => exact h'
  | release _ ih => exact .release (ih h')
  | flushed _ ih => exact .flushed (ih h')

theorem items_of_releases {released : List Item} {q q' : Queue} (h : Releases released q q') :
    q'.items = q.items := by
  induction h with
  | done => rfl
  | release _ ih => rw [ih, release_eq]
  | flushed _ ih => rw [ih, items_notify]

end Queue
end IndexedStore
