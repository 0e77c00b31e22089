import IndexedStore.Proofs.Lifecycle
import IndexedStore.Proofs.Writes

/-! # Calls inside a transaction

The calls that read and write entries, and those that make and move cursors. What a call writes is
said by the relations that allow it, and the cursor at hand stays, moves or is replaced by a new
one.
-/
namespace IndexedStore

inductive Request
  | entry (c : EntryCall)
  | get (key : Bytes)
  | contains (key : Bytes)
  | getMany (keys : List Bytes)
  | containsMany (keys : List Bytes)
  | scanRange {σ : Type} (low high : Option Bytes) (visit : Visitor σ) (start : σ)
  | scanReverse {σ : Type} (high low : Option Bytes) (visit : Visitor σ) (start : σ)
  | scanExtending {σ : Type} (stem : Bytes) (visit : Visitor σ) (start : σ)
  | collectRange {σ : Type} (low high : Option Bytes) (holds : Condition σ) (start : σ) (max : Nat)

def Request.step (t : Tree) : Request → Attempt Scope Unit
  | entry c => c.step t
  | get key => discard (t.get key)
  | contains key => discard (t.contains key)
  | getMany keys => discard (t.getMany keys)
  | containsMany keys => discard (t.containsMany keys)
  | scanRange low high visit start => discard (t.scanRange low high visit start)
  | scanReverse high low visit start => discard (t.scanReverse high low visit start)
  | scanExtending stem visit start => discard (t.scanExtending stem visit start)
  | collectRange low high holds start max => discard (t.collectRange low high holds start max)

/-- A call inside a transaction that has a cursor. -/
inductive CursorCall
  | request (r : Request)
  | overTree
  | overIndex (name : String)
  | seekIndex (name : String) (key : Bytes) (place : Bytes → Place)
  | moveTo (p : Place)
  | next
  | prev
  | delete

/-- Takes a new cursor in place of the one at hand, if there is one to take. -/
def Cursor.replaced (x : Attempt Scope Cursor) : Attempt (Cursor × Scope) Unit := fun (c, s) =>
  match x s with
  | (.ok c, s) => (.ok (), c, s)
  | (.error e, s) => (.error e, c, s)

def CursorCall.step (t : Tree) : CursorCall → Attempt (Cursor × Scope) Unit
  | request r => fun (c, s) => (((r.step t) s).1, c, ((r.step t) s).2)
  | overTree => Cursor.replaced (Cursor.overTree t)
  | overIndex name => Cursor.replaced (Cursor.overIndex t name)
  | seekIndex name key place => Cursor.replaced (Cursor.seekIndex t name key place)
  | moveTo p => discard (Cursor.moveTo t p)
  | next => discard (Cursor.next t)
  | prev => discard (Cursor.prev t)
  | delete => Cursor.delete t

def CursorCall.sought? : CursorCall → Option String
  | overIndex name => some name
  | seekIndex name _ _ => some name
  | _ => none

section Writes
variable {t : Tree} {c : Cursor} {R : Store → Store → Prop}

theorem Cursor.rel_replaced {x : Attempt Scope Cursor} (hx : Scope.Within R x) (c : Cursor)
    (s : Scope) : s.txn.Rel R ((Cursor.replaced x).run (c, s)).2.2.txn := by
  have hstep := hx s
  simp only [Order.Preimage, Attempt.run, Cursor.replaced] at hstep ⊢
  split <;> rename_i hrun <;> rwa [hrun] at hstep

variable [IsPreorder Store R]

theorem Request.within (h : t.Writes R) (r : Request) : Scope.Within R (r.step t) := by
  have hread : ∀ {α : Type} (f : Table → α), Scope.Within R
      (t.scanned do let table ← Scope.openTable t.name; pure (f table)) := fun f =>
    Tree.Within.scanned ((Scope.within_openTable _).bind fun _ => Attempt.respects_pure _)
  cases r with
  | entry c => exact h.entryCall c
  | get key => exact (Tree.within_get key).discard
  | contains key => exact (Tree.within_contains key).discard
  | getMany keys => exact (Tree.within_getMany keys).discard
  | containsMany keys => exact (Tree.within_containsMany keys).discard
  | scanRange low high visit start => exact (hread _).discard
  | scanReverse high low visit start => exact (hread _).discard
  | scanExtending stem visit start => exact (hread _).discard
  | collectRange low high holds start max =>
    exact ((Tree.Within.scanned (Tree.within_matching low high holds start max)).map _).discard

theorem CursorCall.rel_step (entries : t.Writes R) (cursor : c.Writes t R) (x : CursorCall)
    (sought : ∀ n ∈ x.sought?, ∀ i, t.index? n = some i →
      ∀ S P, R S (S.putPairs (t.indexTable i) P)) (s : Scope) :
    s.txn.Rel R ((x.step t).run (c, s)).2.2.txn := by
  cases x with
  | request r => exact r.within entries s
  | overTree => exact Cursor.rel_replaced Cursor.within_overTree c s
  | overIndex name => exact Cursor.rel_replaced (Cursor.within_overIndex name) c s
  | seekIndex name key place =>
    exact Cursor.rel_replaced (Cursor.within_seekIndex name key place (sought name rfl)) c s
  | moveTo p =>
    rw [step, Attempt.run_discard]
    exact Cursor.rel_moveTo cursor.pairs p s
  | next =>
    rw [step, Attempt.run_discard]
    exact Cursor.rel_next cursor.pairs s
  | prev =>
    rw [step, Attempt.run_discard]
    exact Cursor.rel_prev cursor.pairs s
  | delete => exact cursor.rel_delete s

end Writes

/-! ## What a call makes of a cursor -/

namespace CursorCall
variable {t : Tree} {c : Cursor} {s : Scope} {S : Store}

/-- A call stays in its transaction, and a reader stays a reader. -/
theorem rel_any (x : CursorCall) (t : Tree) (c : Cursor) (s : Scope) :
    s.txn.Rel (fun _ _ => True) ((x.step t).run (c, s)).2.2.txn := by
  have : IsPreorder Store fun _ _ => True :=
    { refl := fun _ => trivial, trans := fun _ _ _ _ _ => trivial }
  exact x.rel_step ⟨fun _ _ _ => trivial, fun _ _ _ _ _ => trivial⟩
    ⟨fun _ _ _ _ => trivial, fun _ _ => ⟨fun _ _ _ _ => trivial, fun _ _ _ => trivial⟩⟩
    (fun _ _ _ _ _ _ => trivial) s

theorem working_of_step {x : CursorCall} {S' : Store}
    (h : ((x.step t).run (c, s)).2.2.txn.view = .working S') : ∃ S, s.txn.view = .working S := by
  have hsame := (x.rel_any t c s).view
  rw [h] at hsame
  generalize s.txn.view = v at hsame
  cases hsame with
  | refl => exact ⟨S', rfl⟩
  | working _ => exact ⟨_, rfl⟩

end CursorCall

namespace Cursor
variable {t : Tree} {c c' : Cursor} {s s' : Scope} {S : Store}

theorem index?_moveTo (p : Place) (c : Cursor) (s : Scope) :
    ((moveTo t p).run (c, s)).2.1.index? = c.index? := by
  simp only [Attempt.run, moveTo]
  split <;> rfl

theorem overTree_ok (h : (overTree t).run s = (.ok c', s')) : c' = ⟨none, none⟩ := by
  rw [overTree, Attempt.run_bind_eq_ok] at h
  obtain ⟨_, _, -, h⟩ := h
  cases h
  rfl

theorem overIndex_ok {n : String} (h : (overIndex t n).run s = (.ok c', s')) :
    ∃ i, t.index? n = some i ∧ c'.index? = some i := by
  rw [overIndex, Attempt.run_bind_eq_ok] at h
  obtain ⟨_, _, -, h⟩ := h
  rw [Attempt.run_bind_eq_ok] at h
  obtain ⟨i, _, hfind, h⟩ := h
  obtain ⟨hi, rfl⟩ := Attempt.run_ofExcept_eq_ok.mp hfind
  cases h
  exact ⟨i, Tree.attached_eq_ok_iff.mp hi, rfl⟩

theorem seekIndex_ok {n : String} {key : Bytes} {p : Bytes → Place}
    (h : (seekIndex t n key p).run s = (.ok c', s')) :
    ∃ i, t.index? n = some i ∧ c'.index? = some i := by
  rw [seekIndex, Attempt.run_bind_eq_ok] at h
  obtain ⟨i, _, hfind, h⟩ := h
  obtain ⟨hi, rfl⟩ := Attempt.run_ofExcept_eq_ok.mp hfind
  refine ⟨i, Tree.attached_eq_ok_iff.mp hi, ?_⟩
  cases key with
  | nil =>
    cases h
    rfl
  | cons b rest =>
    have hsame := index?_moveTo (t := t) (p (b :: rest)) ⟨some i, none⟩ s
    simp only [Attempt.run, List.isEmpty_cons, Bool.false_eq_true, ↓reduceIte] at h hsame
    split at h
    · rename_i hrun
      cases h
      rwa [hrun] at hsame
    · cases h

/-- Without a table of the tree there is nothing to land on. -/
theorem run_moveTo_missing (hc : c.index? = none) (missing : S.table? t.name = none)
    (p : Place) : (moveTo t p).run (c, s.on S) =
      (.error (.tableMissing t.name), ({ c with position := none }, s.on S)) := by
  have hlook : ∀ q, (c.look t q).run (s.on S) = (.error (.tableMissing t.name), s.on S) := by
    intro q
    simp only [look, hc]
    rw [Attempt.run_bind, Scope.run_openTable, missing]
  have hlanding : (c.landing t p).run (s.on S) = (.error (.tableMissing t.name), s.on S) := by
    unfold landing
    split
    · rw [Attempt.run_bind_error (hlook _)]
    · exact hlook _
  simp only [Attempt.run, moveTo] at hlanding ⊢
  rw [hlanding]

theorem position_moveTo (p : Place) (missing : S.table? t.name = none) (hc : c.index? = none) :
    ((moveTo t p).run (c, s.on S)).2.1.position = none := by
  rw [run_moveTo_missing hc missing]

end Cursor

namespace CursorCall
variable {t : Tree} {c c' : Cursor} {s : Scope} {S : Store} {x : CursorCall}

/-- What can become of the cursor at hand: it stays, it is moved, or a new one takes its place. Only
a cursor that stands somewhere is moved after something else has been done. -/
inductive Becomes (x : CursorCall) (t : Tree) (c : Cursor) (s : Scope) : Cursor → Prop
  | stays : Becomes x t c s c
  | moved (p : Place) (s' : Scope) (first : c.position = none → s' = s) :
    Becomes x t c s ((Cursor.moveTo t p).run (c, s')).2.1
  | overTree : Becomes x t c s ⟨none, none⟩
  | overIndex {n : String} {i : Index} {c' : Cursor} (sought : n ∈ x.sought?)
    (attached : t.index? n = some i) (runs : c'.index? = some i) : Becomes x t c s c'

theorem becomes_replaced {y : Attempt Scope Cursor}
    (h : ∀ c' s', y.run s = (.ok c', s') → x.Becomes t c s c') :
    x.Becomes t c s ((Cursor.replaced y).run (c, s)).2.1 := by
  simp only [Attempt.run, Cursor.replaced] at h ⊢
  split
  · rename_i hrun
    exact h _ _ hrun
  · exact .stays

theorem becomes_step (x : CursorCall) (t : Tree) (c : Cursor) (s : Scope) :
    x.Becomes t c s ((x.step t).run (c, s)).2.1 := by
  cases x with
  | request r => exact .stays
  | overTree => exact becomes_replaced fun c' _ hrun => Cursor.overTree_ok hrun ▸ .overTree
  | overIndex name =>
    refine becomes_replaced fun c' _ hrun => ?_
    obtain ⟨i, hi, hc'⟩ := Cursor.overIndex_ok hrun
    exact .overIndex rfl hi hc'
  | seekIndex name key place =>
    refine becomes_replaced fun c' _ hrun => ?_
    obtain ⟨i, hi, hc'⟩ := Cursor.seekIndex_ok hrun
    exact .overIndex rfl hi hc'
  | moveTo p =>
    simp only [step, Attempt.run_discard]
    exact .moved p s fun _ => rfl
  | next =>
    rw [step, Attempt.run_discard]
    simp only [Attempt.run, Cursor.next]
    cases c.position with
    | none => exact .stays
    | some e => exact .moved (.after e) s fun _ => rfl
  | prev =>
    rw [step, Attempt.run_discard]
    simp only [Attempt.run, Cursor.prev]
    cases c.position with
    | none => exact .stays
    | some e => exact .moved (.before e) s fun _ => rfl
  | delete =>
    simp only [step, Attempt.run, Cursor.delete]
    cases hc : c.position with
    | none => exact .stays
    | some e =>
      simp only
      split
      · exact .stays
      · split
        · exact .stays
        · rename_i s' _
          change Becomes _ t c s ((discard (Cursor.moveTo t (.after e)) :
            Attempt (Cursor × Scope) Unit).run (c, s')).2.1
          rw [Attempt.run_discard]
          exact .moved (.after e) s' fun hnone => by simp [hc] at hnone

/-- A cursor over an index runs over the one that it ran over, or over one it was asked for. -/
theorem Becomes.index? (h : x.Becomes t c s c') {i : Index} (hi : c'.index? = some i) :
    c.index? = some i ∨ ∃ n ∈ x.sought?, t.index? n = some i := by
  cases h with
  | stays => exact .inl hi
  | moved p s' _ => exact .inl (Cursor.index?_moveTo p c s' ▸ hi)
  | overTree => cases hi
  | overIndex sought attached runs =>
    exact .inr ⟨_, sought, attached.trans (runs.symm.trans hi)⟩

/-- Where a writer's store has no table for the tree, no cursor over it comes to stand on an
entry. -/
theorem Becomes.position (h : x.Becomes t c s c') (writer : s.txn.view = .working S)
    (missing : S.table? t.name = none) (hc : c.index? = none → c.position = none)
    (hc' : c'.index? = none) : c'.position = none := by
  cases h with
  | stays => exact hc hc'
  | moved p s' first =>
    rw [Cursor.index?_moveTo] at hc'
    rw [first (hc hc'), Scope.eq_on writer]
    exact Cursor.position_moveTo p missing hc'
  | overTree => rfl
  | overIndex _ _ runs => cases hc'.symm.trans runs

end CursorCall

end IndexedStore
