import IndexedStore.Proofs.Isolation
import IndexedStore.Proofs.Lookup

/-! # A cursor as a position in a sorted sequence

What a cursor runs over is sorted: entries by key, the pairs of an index by index key and then by
primary key. Each move looks the sequence over as it is at that moment and lands on the least or the
greatest entry that the move allows. A cursor remembers no more than what it stood on last, so this
holds whatever other calls have done to the table since then.
-/
namespace IndexedStore

/-! ## The foremost of a sorted list -/

section Foremost
variable {α : Type} {r : α → α → Prop} {l : List α} {p q : α → Prop}

/-- The one of those that satisfy a condition that comes before the others; none if none does. -/
def Foremost (r : α → α → Prop) (l : List α) (p : α → Prop) : Option α → Prop
  | none => ∀ b ∈ l, ¬ p b
  | some a => (a ∈ l ∧ p a) ∧ ∀ b ∈ l, p b → b = a ∨ r a b

theorem foremost_find? (sorted : l.Pairwise r) (p : α → Bool) :
    Foremost r l (fun a => p a = true) (l.find? p) := by
  cases hfound : l.find? p with
  | none => exact List.find?_eq_none.mp hfound
  | some a =>
    obtain ⟨ha, before, after, rfl, hbefore⟩ := List.find?_eq_some_iff_append.mp hfound
    obtain ⟨-, hafter, -⟩ := List.pairwise_append.mp sorted
    refine ⟨⟨List.mem_append_right _ List.mem_cons_self, ha⟩, fun b hb hpb => ?_⟩
    rcases List.mem_append.mp hb with hb | hb
    · have hno := hbefore b hb
      rw [hpb] at hno
      cases hno
    · exact (List.mem_cons.mp hb).imp_right ((List.pairwise_cons.mp hafter).1 b)

theorem Foremost.congr {m : List α} {a? : Option α} (h : Foremost r l p a?)
    (hmem : ∀ a, a ∈ l ↔ a ∈ m) (hp : ∀ a, p a ↔ q a) : Foremost r m q a? := by
  cases a? with
  | none => exact fun b hb hq => h b ((hmem b).mpr hb) ((hp b).mpr hq)
  | some a =>
    obtain ⟨⟨ha, hpa⟩, hleast⟩ := h
    exact ⟨⟨(hmem a).mp ha, (hp a).mp hpa⟩,
      fun b hb hq => hleast b ((hmem b).mpr hb) ((hp b).mpr hq)⟩

/-- At most one of them comes before the others. -/
theorem Foremost.unique (asymm : ∀ {a b}, r a b → ¬ r b a) {a? b? : Option α}
    (ha : Foremost r l p a?) (hb : Foremost r l p b?) : a? = b? := by
  cases a? with
  | none =>
    cases b? with
    | none => rfl
    | some b => exact absurd hb.1.2 (ha b hb.1.1)
  | some a =>
    cases b? with
    | none => exact absurd ha.1.2 (hb a ha.1.1)
    | some b =>
      rcases ha.2 b hb.1.1 hb.1.2 with rfl | hab
      · rfl
      · rcases hb.2 a ha.1.1 ha.1.2 with rfl | hba
        · rfl
        · exact absurd hba (asymm hab)

end Foremost

/-! ## Places in a sequence -/

def Entry.cmp (e f : Entry) : Ordering := Bytes.cmp e.1 f.1

namespace Place

/-- Whether a place allows an entry, in an order. -/
def admits (order : Entry → Entry → Ordering) : Place → Entry → Bool
  | first, _ => true
  | last, _ => true
  | after e, f => order e f == .lt
  | before e, f => order f e == .lt
  | exactly key, f => f.1 == key
  | notBelow key, f => (Bytes.cmp key f.1).isLE

/-- Whether the greatest of the entries is meant that a place allows, not the least. -/
def isBackward : Place → Bool
  | last => true
  | before _ => true
  | _ => false

/-- What lies at a place of a sequence. -/
def pick (order : Entry → Entry → Ordering) (l : List Entry) (p : Place) : Option Entry :=
  (if p.isBackward then l.reverse else l).find? (p.admits order)

end Place

theorem head?_eq_find? {α : Type} (l : List α) : l.head? = l.find? fun _ => true := by
  cases l <;> rfl

theorem Table.entryAt_eq_pick (T : Table) (p : Place) :
    T.entryAt p = p.pick Entry.cmp T.toList := by
  cases p with
  | first => exact head?_eq_find? T.toList
  | last => exact List.head?_reverse.symm.trans (head?_eq_find? _)
  | after e => rfl
  | before e => rfl
  | notBelow key => rfl
  | exactly key =>
    have hsame : (fun e : Entry => Bytes.cmp key e.1 == .eq) = fun e => e.1 == key := by
      refine funext fun e => Bool.eq_iff_iff.mpr ?_
      rw [beq_iff_eq, beq_iff_eq, Std.LawfulEqCmp.compare_eq_iff_eq, eq_comm]
    change ((T.toList.find? fun e => Bytes.cmp key e.1 == .eq).map Prod.snd).map _ =
      T.toList.find? fun e => e.1 == key
    rw [hsame]
    cases hfound : T.toList.find? fun e => e.1 == key with
    | none => rfl
    | some e =>
      obtain rfl : e.1 = key := by simpa using List.find?_some hfound
      rfl

theorem PairTable.pairAt_eq_pick (P : PairTable) (p : Place) :
    P.pairAt p = p.pick Pair.cmp P.pairs := by
  cases p with
  | first => rfl
  | last => rfl
  | after e => exact P.pairAt_after e
  | before e => exact P.pairAt_before e
  | notBelow key => rfl
  | exactly key => exact (P.pairAt_exactly key).trans (List.head?_filter ..)

namespace Scope
variable {s : Scope} {S : Store} {n : String}

theorem run_openTable_of_store? {T : Table} (shown : s.txn.view.store? = some S)
    (hT : S.table? n = some T) : (openTable n).run s = (.ok T, s) := by
  cases hview : s.txn.view with
  | working S' =>
    rw [hview] at shown
    cases shown
    rw [eq_on hview, run_openTable, hT]
  | snapshot S' =>
    rw [hview] at shown
    cases shown
    simp only [Attempt.run, openTable, hview, Store.readTable, hT]
  | released =>
    rw [hview] at shown
    cases shown

theorem run_openPairs_of_store? {P : PairTable} (shown : s.txn.view.store? = some S)
    (hP : S.pairs? n = some P) : (openPairs n).run s = (.ok P, s) := by
  cases hview : s.txn.view with
  | working S' =>
    rw [hview] at shown
    cases shown
    rw [eq_on hview]
    exact run_openPairsToWrite_of_pairs? hP
  | snapshot S' =>
    rw [hview] at shown
    cases shown
    simp only [Attempt.run, openPairs, hview, Store.readPairs, hP]
  | released =>
    rw [hview] at shown
    cases shown

end Scope

namespace Cursor
variable {t : Tree} {c : Cursor} {s s' : Scope} {l : List Entry}

def order (c : Cursor) : Entry → Entry → Ordering :=
  match c.index? with
  | none => Entry.cmp
  | some _ => Pair.cmp

theorem order_asymm (c : Cursor) {e f : Entry} (h : c.order e f = .lt) : c.order f e ≠ .lt := by
  have hgt : c.order f e = .gt := by
    unfold order at *
    cases hi : c.index? with
    | none =>
      rw [hi] at h
      simp only [Entry.cmp] at h ⊢
      exact Std.OrientedCmp.gt_of_lt h
    | some i =>
      rw [hi] at h
      exact Std.OrientedCmp.gt_of_lt h
  rw [hgt]
  decide

/-- What a transaction shows a cursor, and the transaction once the cursor has looked. A missing
table of pairs is shown to a writer as an empty one, which comes into being then. -/
inductive Sees (t : Tree) (c : Cursor) : Scope → List Entry → Scope → Prop
  | entries {s : Scope} {S : Store} {T : Table} (onMain : c.index? = none)
    (shown : s.txn.view.store? = some S) (table : S.table? t.name = some T) :
    Sees t c s T.toList s
  | pairs {s : Scope} {S : Store} {i : Index} {P : PairTable} (onIndex : c.index? = some i)
    (shown : s.txn.view.store? = some S) (table : S.pairs? (t.indexTable i) = some P) :
    Sees t c s P.pairs s
  | nothing {s : Scope} {S : Store} {i : Index} (onIndex : c.index? = some i)
    (missing : S.pairs? (t.indexTable i) = none)
    (free : S.plain.contains (t.indexTable i) = false) :
    Sees t c (s.on S) [] (s.on (S.putPairs (t.indexTable i) .empty))

theorem Sees.ordered (h : Sees t c s l s') : l.Pairwise fun e f => c.order e f = .lt := by
  unfold order
  cases h with
  | @entries _ _ T onMain =>
    rw [onMain]
    exact T.ordered
  | @pairs _ _ _ P onIndex =>
    rw [onIndex]
    exact P.ordered_pairs
  | nothing => exact .nil

theorem Sees.again (h : Sees t c s l s') : Sees t c s' l s' := by
  cases h with
  | entries onMain shown table => exact .entries onMain shown table
  | pairs onIndex shown table => exact .pairs onIndex shown table
  | @nothing s S i onIndex =>
    have hempty : (S.putPairs (t.indexTable i) .empty).pairs? (t.indexTable i) = some .empty :=
      Store.pairs?_putPairs_self ..
    exact .pairs (P := .empty) onIndex rfl hempty

theorem Sees.anywhere (h : Sees t c s l s') (e? : Option Entry) :
    Sees t { c with position := e? } s l s' := by
  cases h with
  | entries onMain shown table => exact .entries onMain shown table
  | pairs onIndex shown table => exact .pairs onIndex shown table
  | nothing onIndex missing free => exact .nothing onIndex missing free

theorem Sees.run_look (h : Sees t c s l s') (p : Place) :
    (c.look t p).run s = (.ok (p.pick c.order l), s') := by
  unfold look order
  cases h with
  | @entries _ _ T onMain shown table =>
    rw [onMain, ← T.entryAt_eq_pick]
    exact Attempt.run_bind_ok (Scope.run_openTable_of_store? shown table) _
  | @pairs _ _ i P onIndex shown table =>
    rw [onIndex, ← P.pairAt_eq_pick]
    exact Attempt.run_bind_ok (Scope.run_openPairs_of_store? shown table) _
  | @nothing s S i onIndex missing free =>
    have hopen : (Scope.openPairs (t.indexTable i)).run (s.on S) =
        (.ok .empty, s.on (S.putPairs (t.indexTable i) .empty)) := by
      rw [Scope.run_openPairs, Scope.run_openPairsToWrite, Store.openPairs, missing]
      simp only [free, Bool.false_eq_true, if_false]
    rw [onIndex]
    refine (Attempt.run_bind_ok hopen _).trans ?_
    rw [PairTable.pairAt_eq_pick]
    rfl

/-- Without a comparator a move takes the cursor to what lies at its place. -/
theorem Sees.run_moveTo (h : Sees t c s l s') (bytewise : c.compare? t = none) (p : Place) :
    (moveTo t p).run (c, s) =
      (.ok (p.pick c.order l).isSome, ({ c with position := p.pick c.order l }, s')) := by
  refine run_moveTo_of_landing ?_
  unfold landing
  split
  · rename_i hsome
    rw [bytewise] at hsome
    cases hsome
  · exact h.run_look _

end Cursor

/-! ## Moves -/

inductive Move
  | first
  | last
  | next
  | prev
  | seek (key : Bytes)
  | seekRange (key : Bytes)

namespace Move
open Cursor (valueIndexed repeatedStore)
variable {t : Tree} {c : Cursor} {s s' : Scope} {l : List Entry}

def step (t : Tree) : Move → Attempt (Cursor × Scope) Bool
  | first => Cursor.moveTo t .first
  | last => Cursor.moveTo t .last
  | next => Cursor.next t
  | prev => Cursor.prev t
  | seek key => Cursor.moveTo t (.exactly key)
  | seekRange key => Cursor.moveTo t (.notBelow key)

/-- The least of the entries that satisfy a condition. -/
def Least (order : Entry → Entry → Ordering) : List Entry → (Entry → Prop) → Option Entry → Prop :=
  Foremost fun e f => order e f = .lt

def Greatest (order : Entry → Entry → Ordering) :
    List Entry → (Entry → Prop) → Option Entry → Prop :=
  Foremost fun e f => order f e = .lt

/-- Where a move lands from an entry, or from nowhere. -/
def Lands (order : Entry → Entry → Ordering) (l : List Entry) (current e? : Option Entry) :
    Move → Prop
  | first => Least order l (fun _ => True) e?
  | last => Greatest order l (fun _ => True) e?
  | next =>
    match current with
    | none => e? = none
    | some e => Least order l (fun f => order e f = .lt) e?
  | prev =>
    match current with
    | none => e? = none
    | some e => Greatest order l (fun f => order f e = .lt) e?
  | seek key => Least order l (fun f => f.1 = key) e?
  | seekRange key => Least order l (fun f => (Bytes.cmp key f.1).isLE = true) e?

theorem least_pick {order : Entry → Entry → Ordering}
    (sorted : l.Pairwise fun e f => order e f = .lt) {p : Place} (forward : p.isBackward = false)
    {q : Entry → Prop} (hq : ∀ e, p.admits order e = true ↔ q e) :
    Least order l q (p.pick order l) := by
  rw [Place.pick, forward]
  exact (foremost_find? sorted _).congr (fun _ => .rfl) hq

theorem greatest_pick {order : Entry → Entry → Ordering}
    (sorted : l.Pairwise fun e f => order e f = .lt) {p : Place} (backward : p.isBackward = true)
    {q : Entry → Prop} (hq : ∀ e, p.admits order e = true ↔ q e) :
    Greatest order l q (p.pick order l) := by
  rw [Place.pick, backward]
  exact (foremost_find? (List.pairwise_reverse.mpr sorted) _).congr (fun _ => List.mem_reverse) hq

/-- Each move lands where it should in what the transaction shows at that moment. -/
theorem exists_lands (bytewise : c.compare? t = none) (h : c.Sees t s l s') (m : Move) :
    ∃ e? s₁, (m.step t).run (c, s) = (.ok e?.isSome, ({ c with position := e? }, s₁)) ∧
      m.Lands c.order l c.position e? ∧ c.Sees t s₁ l s' := by
  have hmove := fun p => h.run_moveTo bytewise p
  cases m with
  | first =>
    exact ⟨_, _, hmove .first, least_pick h.ordered rfl fun _ => by simp [Place.admits], h.again⟩
  | last =>
    exact ⟨_, _, hmove .last, greatest_pick h.ordered rfl fun _ => by simp [Place.admits], h.again⟩
  | seek key =>
    exact ⟨_, _, hmove (.exactly key), least_pick h.ordered rfl fun _ => beq_iff_eq, h.again⟩
  | seekRange key =>
    exact ⟨_, _, hmove (.notBelow key), least_pick h.ordered rfl fun _ => .rfl, h.again⟩
  | next =>
    rcases c with ⟨index?, none | e⟩
    · exact ⟨none, s, rfl, rfl, h⟩
    · exact ⟨_, _, hmove (.after e), least_pick h.ordered rfl fun _ => beq_iff_eq, h.again⟩
  | prev =>
    rcases c with ⟨index?, none | e⟩
    · exact ⟨none, s, rfl, rfl, h⟩
    · exact ⟨_, _, hmove (.before e), greatest_pick h.ordered rfl fun _ => beq_iff_eq, h.again⟩

/-- What a cursor stands on, one after another, that makes the same move until it stands nowhere. -/
inductive Visits (t : Tree) (m : Move) : Cursor × Scope → List Entry → Prop
  | nowhere {σ : Cursor × Scope} (ended : σ.1.position = none) : Visits t m σ []
  | entry {σ σ' : Cursor × Scope} {e : Entry} {more : Bool} {l : List Entry}
    (stands : σ.1.position = some e) (moved : (m.step t).run σ = (.ok more, σ'))
    (rest : Visits t m σ' l) : Visits t m σ (e :: l)

/-- A cursor on the first of a rest that each move takes to the next visits the rest. -/
theorem visits_of_suffix {m : Move} {l : List Entry}
    (onward : ∀ e rest, e :: rest <:+ l → (m.step t).run ({ c with position := some e }, s) =
      (.ok rest.head?.isSome, ({ c with position := rest.head? }, s)))
    {rest : List Entry} (h : rest <:+ l) :
    Visits t m ({ c with position := rest.head? }, s) rest := by
  induction rest with
  | nil => exact .nowhere rfl
  | cons e rest ih => exact .entry rfl (onward e rest h) (ih ((List.suffix_cons e rest).trans h))

section Walk
variable (bytewise : c.compare? t = none) (h : c.Sees t s l s')
include bytewise h

theorem visits_next :
    ∃ σ, (first.step t).run (c, s) = (.ok l.head?.isSome, σ) ∧ Visits t next σ l := by
  refine ⟨({ c with position := l.head? }, s'), ?_,
    visits_of_suffix (fun e rest hrest => ?_) List.suffix_rfl⟩
  · rw [head?_eq_find?]
    exact h.run_moveTo bytewise .first
  · have hnext : (Place.after e).pick c.order l = rest.head? :=
      find?_of_suffix h.ordered c.order_asymm hrest fun _ => beq_iff_eq
    rw [← hnext]
    exact (h.again.anywhere (some e)).run_moveTo bytewise (.after e)

theorem visits_prev :
    ∃ σ, (last.step t).run (c, s) = (.ok l.reverse.head?.isSome, σ) ∧
      Visits t prev σ l.reverse := by
  refine ⟨({ c with position := l.reverse.head? }, s'), ?_,
    visits_of_suffix (fun e rest hrest => ?_) List.suffix_rfl⟩
  · rw [head?_eq_find?]
    exact h.run_moveTo bytewise .last
  · have hprev : (Place.before e).pick c.order l = rest.head? :=
      find?_of_suffix (List.pairwise_reverse.mpr h.ordered) c.order_asymm hrest
        fun _ => beq_iff_eq
    rw [← hprev]
    exact (h.again.anywhere (some e)).run_moveTo bytewise (.before e)

theorem prev_of_next {e : Entry} (he : e ∈ l) (stands : c.position = some e)
    {σ : Cursor × Scope} (moved : (next.step t).run (c, s) = (.ok true, σ)) :
    ∃ σ', (prev.step t).run σ = (.ok true, σ') ∧ σ'.1.position = some e := by
  obtain ⟨f?, s₁, hnext, hf, hsees⟩ := exists_lands bytewise h next
  obtain ⟨hsome, rfl⟩ := Prod.mk.inj (hnext.symm.trans moved)
  obtain ⟨f, rfl⟩ := Option.isSome_iff_exists.mp (Except.ok.inj hsome)
  simp only [Lands, stands] at hf
  obtain ⟨⟨-, hef⟩, hleast⟩ := hf
  obtain ⟨g?, s₂, hprev, hg, -⟩ :=
    exists_lands (c := { c with position := some f }) bytewise (hsees.anywhere (some f)) prev
  cases g? with
  | none => exact absurd hef (hg e he)
  | some g =>
    obtain ⟨⟨hmem, hgf⟩, hgreatest⟩ := hg
    refine ⟨_, hprev, ?_⟩
    rcases hgreatest e he hef with rfl | heg
    · rfl
    -- nothing lies between an entry and the next
    · rcases hleast g hmem heg with rfl | hfg
      · exact absurd hgf (c.order_asymm hgf)
      · exact absurd hgf (c.order_asymm hfg)

end Walk

/-- Every move takes a cursor to the least or the greatest entry that it should, of those that the
transaction shows at that moment, and nowhere if there is none. What the cursor stood on need not be
among them any more. So where nothing changes, going on from the first entry visits all entries in
order and going back from the last visits them in the opposite order, and the entry before the one
after an entry is that entry. -/
theorem position_in_sequence (bytewise : c.compare? t = none) (h : c.Sees t s l s') :
    l.Pairwise (fun e f => c.order e f = .lt) ∧
      (∀ m : Move, ∃ e? s₁, (m.step t).run (c, s) =
          (.ok e?.isSome, ({ c with position := e? }, s₁)) ∧
        m.Lands c.order l c.position e? ∧ c.Sees t s₁ l s') ∧
      (∃ σ, (first.step t).run (c, s) = (.ok l.head?.isSome, σ) ∧ Visits t next σ l) ∧
      (∃ σ, (last.step t).run (c, s) = (.ok l.reverse.head?.isSome, σ) ∧
        Visits t prev σ l.reverse) ∧
      ∀ e ∈ l, c.position = some e → ∀ σ, (next.step t).run (c, s) = (.ok true, σ) →
        ∃ σ', (prev.step t).run σ = (.ok true, σ') ∧ σ'.1.position = some e :=
  ⟨h.ordered, exists_lands bytewise h, visits_next bytewise h, visits_prev bytewise h,
    fun _ he stands _ moved => prev_of_next bytewise h he stands moved⟩

/-- A cursor over the index of `valueIndexed` on a pair that has been removed under it. -/
def onRemoved : Cursor := ⟨valueIndexed.index? "value", some ([7], [0, 5])⟩

def repeatedWriter : Scope := ⟨⟨"db", .working repeatedStore⟩, 0, {}⟩

/-- The neighbours are those of where the pair was, one under its index key and none before it. -/
theorem position_in_sequence_removed :
    Cursor.Sees valueIndexed onRemoved repeatedWriter [([7], [0]), ([7], [1]), ([7, 0], [2])]
        repeatedWriter ∧
      (∃ σ, (next.step valueIndexed).run (onRemoved, repeatedWriter) = (.ok true, σ) ∧
        σ.1.position = some ([7], [1])) ∧
      ∃ σ, (last.step valueIndexed).run (onRemoved, repeatedWriter) = (.ok true, σ) ∧
        Visits valueIndexed prev σ [([7, 0], [2]), ([7], [1]), ([7], [0])] := by
  have h : onRemoved.Sees valueIndexed repeatedWriter [([7], [0]), ([7], [1]), ([7, 0], [2])]
      repeatedWriter :=
    .pairs (P := ⟨[(([7], [0]), ()), (([7], [1]), ()), (([7, 0], [2]), ())], by decide⟩) rfl rfl rfl
  obtain ⟨-, hmoves, -, hlast, -⟩ := position_in_sequence rfl h
  obtain ⟨e?, s', hrun, hlands, -⟩ := hmoves next
  have hnext : ([7], [1]) ∈ [([7], [0]), ([7], [1]), (([7, 0], [2]) : Entry)] := by decide
  cases e? with
  | none => exact absurd rfl (hlands _ hnext)
  | some e =>
    obtain ⟨⟨he, habove⟩, hleast⟩ := hlands
    refine ⟨h, ⟨_, hrun, ?_⟩, hlast⟩
    rcases hleast _ hnext rfl with rfl | hlt
    · rfl
    · simp only [List.mem_cons, List.not_mem_nil, or_false] at he
      rcases he with rfl | rfl | rfl
      · cases habove
      · rfl
      · cases hlt

end Move
end IndexedStore
