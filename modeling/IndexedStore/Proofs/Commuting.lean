import IndexedStore.Proofs.Writes

/-! # Steps in either order

Two steps commute if each of them ends as it would without the other and the order leaves no trace.
What steps are put together from decides: reading what the other does not write, writing under
different keys or different pairs, and adding to counters.
-/
namespace IndexedStore

namespace OrderedMap
variable {κ α : Type} {cmp : κ → κ → Ordering} [Std.TransCmp cmp]

/-- Stores a value under a key, or leaves nothing there. -/
def put (m : OrderedMap cmp α) (k : κ) : Option α → OrderedMap cmp α
  | some a => m.insert k a
  | none => m.erase k

variable [Std.LawfulEqCmp cmp]

@[simp] theorem get?_put_self (m : OrderedMap cmp α) (k : κ) (a? : Option α) :
    (m.put k a?).get? k = a? := by
  cases a? with
  | none => exact get?_erase_self m k
  | some a => exact get?_insert_self m k a

theorem get?_put_ne (m : OrderedMap cmp α) {k k' : κ} (a? : Option α) (h : k' ≠ k) :
    (m.put k a?).get? k' = m.get? k' := by
  cases a? with
  | none => exact get?_erase_ne m h
  | some a => exact get?_insert_ne m a h

/-- What is put under different keys may be put in either order. -/
theorem put_comm (m : OrderedMap cmp α) {k l : κ} (a? b? : Option α) (h : k ≠ l) :
    (m.put k a?).put l b? = (m.put l b?).put k a? := by
  refine ext_get? fun k' => ?_
  by_cases hk : k' = k
  · subst hk
    rw [get?_put_ne _ _ h, get?_put_self, get?_put_self]
  · rw [get?_put_ne _ a? hk]
    by_cases hl : k' = l
    · subst hl
      rw [get?_put_self, get?_put_self]
    · rw [get?_put_ne _ _ hl, get?_put_ne _ _ hl, get?_put_ne _ _ hk]

end OrderedMap

/-! ## Ways steps are put together -/

namespace Attempt
variable {σ α β γ : Type} {x : Attempt σ α} {y : Attempt σ β}

/-- Whichever of the two steps is taken first, each gives the same answer, and they leave the same
state. -/
structure Commutes (x : Attempt σ α) (y : Attempt σ β) : Prop where
  left : ∀ s, (x.run (y.run s).2).1 = (x.run s).1
  right : ∀ s, (y.run (x.run s).2).1 = (y.run s).1
  state : ∀ s, (x.run (y.run s).2).2 = (y.run (x.run s).2).2

theorem Commutes.symm (h : x.Commutes y) : y.Commutes x :=
  ⟨h.right, h.left, fun s => (h.state s).symm⟩

/-- A step that only reads commutes with one that does not change its answer. -/
theorem commutes_of_reads (reads : ∀ s, (x.run s).2 = s)
    (same : ∀ s, (x.run (y.run s).2).1 = (x.run s).1) : x.Commutes y := by
  refine ⟨same, fun s => ?_, fun s => ?_⟩
  · rw [reads]
  · rw [reads, reads]

theorem commutes_pure (a : α) (y : Attempt σ β) : (pure a : Attempt σ α).Commutes y :=
  commutes_of_reads (fun _ => rfl) fun _ => rfl

theorem commutes_fail (e : Failure) (y : Attempt σ β) : (fail e : Attempt σ α).Commutes y :=
  commutes_of_reads (fun _ => rfl) fun _ => rfl

theorem commutes_require (holds : Bool) (e : Failure) (y : Attempt σ β) :
    (require holds e : Attempt σ Unit).Commutes y := by
  cases holds with
  | false => exact commutes_fail e y
  | true => exact commutes_pure () y

/-- Goes on from how a step ended, be it with an answer or a failure. -/
def goOn (x : Attempt σ α) (f : Except Failure α → Attempt σ γ) : Attempt σ γ :=
  fun s => (f (x.run s).1).run (x.run s).2

theorem ext_run {x x' : Attempt σ α} (h : ∀ s, x.run s = x'.run s) : x = x' := funext h

theorem run_goOn (x : Attempt σ α) (f : Except Failure α → Attempt σ γ) (s : σ) :
    (x.goOn f).run s = (f (x.run s).1).run (x.run s).2 := rfl

theorem bind_eq_goOn (x : Attempt σ α) (f : α → Attempt σ γ) :
    x >>= f = x.goOn fun | .ok a => f a | .error e => fail e := by
  refine ext_run fun s => ?_
  rw [run_bind, run_goOn]
  rcases x.run s with ⟨_ | _, _⟩ <;> rfl

/-- What commutes with a step, and with whatever it goes on to, commutes with both together. -/
theorem Commutes.goOn {f : Except Failure α → Attempt σ γ} (hx : x.Commutes y)
    (hf : ∀ r, (f r).Commutes y) : (x.goOn f).Commutes y := by
  refine ⟨fun s => ?_, fun s => ?_, fun s => ?_⟩
  · rw [run_goOn, run_goOn, hx.left, hx.state, (hf _).left]
  · rw [run_goOn, (hf _).right, hx.right]
  · rw [run_goOn, run_goOn, hx.left, hx.state, (hf _).state]

theorem Commutes.bind {f : α → Attempt σ γ} (hx : x.Commutes y) (hf : ∀ a, (f a).Commutes y) :
    (x >>= f).Commutes y := by
  rw [bind_eq_goOn]
  refine hx.goOn fun r => ?_
  cases r with
  | ok a => exact hf a
  | error e => exact commutes_fail e y

theorem chained_commutes (y : Attempt σ β) :
    Chained fun _ (x : Attempt σ _) => x.Commutes y :=
  ⟨fun a => commutes_pure a y, Commutes.bind⟩

/-- A change of the state commutes with a step that makes the same of the changed state. -/
theorem commutes_update {f : σ → σ} (h : ∀ s, y.run (f s) = ((y.run s).1, f (y.run s).2)) :
    (update f).Commutes y := by
  refine ⟨fun _ => rfl, fun s => ?_, fun s => ?_⟩
  · rw [run_update, h]
  · rw [run_update, run_update, h]

end Attempt

open Attempt

/-! ## Steps on stores -/

namespace Store
variable {n m : String} {k l : Bytes} {p q : Pair} {α β : Type}

/-- Reads what a plain table has under a key. -/
def readEntry (n : String) (k : Bytes) : Attempt Store (Option Bytes) := fun S =>
  match S.table? n with
  | some T => (.ok (T.get? k), S)
  | none => (.error (.tableMissing n), S)

/-- Writes what a plain table has under a key. -/
def putEntry (n : String) (k : Bytes) (v? : Option Bytes) : Attempt Store Unit := fun S =>
  match S.table? n with
  | some T => (.ok (), S.putTable n (T.put k v?))
  | none => (.error (.tableMissing n), S)

/-- Puts a pair into a paired table or takes it out. A table that is missing comes into being. -/
def putPair (n : String) (p : Pair) (there : Option Unit) : Attempt Store Unit := fun S =>
  match S.openPairs n with
  | .ok P => (.ok (), S.putPairs n (P.put p there))
  | .error e => (.error e, S)

theorem run_readEntry (S : Store) :
    (readEntry n k).run S = match S.table? n with
      | some T => (.ok (T.get? k), S)
      | none => (.error (.tableMissing n), S) := rfl

theorem run_putEntry (S : Store) (v? : Option Bytes) :
    (putEntry n k v?).run S = match S.table? n with
      | some T => (.ok (), S.putTable n (T.put k v?))
      | none => (.error (.tableMissing n), S) := rfl

theorem run_putPair (S : Store) (there : Option Unit) :
    (putPair n p there).run S = match S.openPairs n with
      | .ok P => (.ok (), S.putPairs n (P.put p there))
      | .error e => (.error e, S) := rfl

theorem state_readEntry (S : Store) : ((readEntry n k).run S).2 = S := by
  rw [run_readEntry]
  split <;> rfl

theorem table?_putPair (S : Store) (there : Option Unit) :
    ((putPair n p there).run S).2.table? m = S.table? m := by
  rw [run_putPair]
  split <;> rfl

/-- Whether a paired table can be opened does not depend on what a plain table holds. -/
theorem openPairs_putTable {S : Store} {T : Table} (h : S.table? n = some T) (T' : Table) :
    (S.putTable n T').openPairs m = S.openPairs m := by
  have hplain : (S.putTable n T').plain.contains m = S.plain.contains m :=
    Bool.eq_iff_iff.mpr (isSome_table?_replaced (by rw [h, Option.isSome_some]) T' m)
  rw [openPairs, openPairs, pairs?_putTable, hplain]

theorem openPairs_putPairs_self (S : Store) (P : PairTable) :
    (S.putPairs n P).openPairs n = .ok P := openPairs_of_pairs? (S.pairs?_putPairs_self n P)

theorem openPairs_putPairs_ne (S : Store) (P : PairTable) (h : m ≠ n) :
    (S.putPairs n P).openPairs m = S.openPairs m := by
  rw [openPairs, openPairs, pairs?_putPairs_ne _ _ h]
  rfl

theorem putTable_putTable (S : Store) (n : String) (T T' : Table) :
    (S.putTable n T).putTable n T' = S.putTable n T' := by
  simp only [putTable, OrderedMap.insert_insert]

theorem putPairs_comm (S : Store) (P Q : PairTable) (h : n ≠ m) :
    (S.putPairs n P).putPairs m Q = (S.putPairs m Q).putPairs n P :=
  congrArg (Store.mk S.plain) (S.paired.put_comm (some P) (some Q) h)

theorem commutes_readEntry_readEntry (n m : String) (k l : Bytes) :
    (readEntry n k).Commutes (readEntry m l) :=
  commutes_of_reads state_readEntry fun S => by rw [state_readEntry]

theorem commutes_readEntry_putEntry (h : k ≠ l) (v? : Option Bytes) :
    (readEntry n k).Commutes (putEntry n l v?) := by
  refine commutes_of_reads state_readEntry fun S => ?_
  rw [run_putEntry]
  cases hT : S.table? n with
  | none => rfl
  | some T =>
    simp only [run_readEntry, table?_putTable_self, hT]
    rw [OrderedMap.get?_put_ne _ _ h]

theorem commutes_readEntry_putPair (n m : String) (k : Bytes) (p : Pair) (there : Option Unit) :
    (readEntry n k).Commutes (putPair m p there) := by
  refine commutes_of_reads state_readEntry fun S => ?_
  rw [run_readEntry, run_readEntry, table?_putPair]
  split <;> rfl

theorem commutes_putEntry_putEntry (h : k ≠ l) (v? w? : Option Bytes) :
    (putEntry n k v?).Commutes (putEntry n l w?) := by
  have key : ∀ (S : Store) {k l : Bytes} (v? w? : Option Bytes),
      ((putEntry n k v?).run ((putEntry n l w?).run S).2).1 = ((putEntry n k v?).run S).1 := by
    intro S k l v? w?
    rw [run_putEntry, run_putEntry, run_putEntry]
    cases hT : S.table? n with
    | none => simp only [hT]
    | some T => simp only [table?_putTable_self]
  refine ⟨fun S => key S v? w?, fun S => key S w? v?, fun S => ?_⟩
  rw [run_putEntry S, run_putEntry S]
  cases hT : S.table? n with
  | none => simp only [run_putEntry, hT]
  | some T =>
    simp only [run_putEntry, table?_putTable_self, putTable_putTable]
    rw [OrderedMap.put_comm T _ _ h]

theorem commutes_putEntry_putPair (n m : String) (k : Bytes) (v? : Option Bytes) (p : Pair)
    (there : Option Unit) : (putEntry n k v?).Commutes (putPair m p there) := by
  refine ⟨fun S => ?_, fun S => ?_, fun S => ?_⟩
  · rw [run_putEntry, run_putEntry, table?_putPair]
    split <;> rfl
  · rw [run_putEntry]
    cases hT : S.table? n with
    | none => rfl
    | some T =>
      simp only [run_putPair, openPairs_putTable hT]
      split <;> rfl
  · rw [run_putEntry, run_putEntry, table?_putPair]
    cases hT : S.table? n with
    | none => rfl
    | some T =>
      simp only [run_putPair, openPairs_putTable hT]
      split <;> rfl

theorem answer_putPair (S : Store) (there : Option Unit) :
    ((putPair n p there).run S).1 = (S.openPairs n).map fun _ => () := by
  rw [run_putPair]
  cases S.openPairs n <;> rfl

theorem openPairs_putPair_ne (S : Store) (there : Option Unit) (h : m ≠ n) :
    ((putPair n p there).run S).2.openPairs m = S.openPairs m := by
  rw [run_putPair]
  cases S.openPairs n with
  | error e => rfl
  | ok P => exact openPairs_putPairs_ne S _ h

/-- A paired table that could be opened still can be. -/
theorem answer_putPair_putPair (S : Store) (there there' : Option Unit) :
    ((putPair n p there).run ((putPair m q there').run S).2).1 =
      ((putPair n p there).run S).1 := by
  rw [answer_putPair, answer_putPair]
  by_cases h : n = m
  · subst h
    rw [run_putPair]
    cases hP : S.openPairs n with
    | error e => simp only [hP]
    | ok P => simp only [openPairs_putPairs_self, Except.map]
  · rw [openPairs_putPair_ne S there' h]

theorem commutes_putPair_putPair (n m : String) (h : p ≠ q) (there there' : Option Unit) :
    (putPair n p there).Commutes (putPair m q there') := by
  refine ⟨fun S => answer_putPair_putPair S there there',
    fun S => answer_putPair_putPair S there' there, fun S => ?_⟩
  by_cases hn : n = m
  · subst hn
    rw [run_putPair S, run_putPair S]
    cases hP : S.openPairs n with
    | error e => simp only [run_putPair, hP]
    | ok P =>
      simp only [run_putPair, openPairs_putPairs_self, putPairs_putPairs]
      rw [OrderedMap.put_comm P _ _ h]
  · have hleft := openPairs_putPair_ne (p := q) S there' hn
    have hright := openPairs_putPair_ne (p := p) S there (Ne.symm hn)
    rw [run_putPair ((putPair m q there').run S).2, hleft,
      run_putPair ((putPair n p there).run S).2, hright, run_putPair S, run_putPair S]
    cases S.openPairs n with
    | error e => cases S.openPairs m <;> rfl
    | ok P =>
      cases S.openPairs m with
      | error e => rfl
      | ok Q => exact putPairs_comm S _ _ (Ne.symm hn)

end Store

namespace Statistics

/-- Counters are added to. -/
def plus (s d : Statistics) : Statistics :=
  { gets := s.gets + d.gets, inserts := s.inserts + d.inserts, updates := s.updates + d.updates
    upserts := s.upserts + d.upserts, deletes := s.deletes + d.deletes, scans := s.scans + d.scans
    getTime := s.getTime + d.getTime, writeTime := s.writeTime + d.writeTime
    commits := s.commits + d.commits, aborts := s.aborts + d.aborts
    notFound := s.notFound + d.notFound, keyExists := s.keyExists + d.keyExists
    indexViolations := s.indexViolations + d.indexViolations, mapFull := s.mapFull + d.mapFull }

theorem plus_right_comm (s d e : Statistics) : (s.plus d).plus e = (s.plus e).plus d := by
  have hword : ∀ a b c : UInt64, a + b + c = a + c + b := fun a b c => by
    rw [UInt64.add_assoc, UInt64.add_comm b, ← UInt64.add_assoc]
  simp only [plus, mk.injEq]
  exact ⟨hword .., hword .., hword .., hword .., hword .., hword .., hword .., hword .., hword ..,
    hword .., hword .., hword .., hword .., hword ..⟩

theorem plus_assoc (s d e : Statistics) : (s.plus d).plus e = s.plus (d.plus e) := by
  simp only [plus, UInt64.add_assoc]

theorem plus_zero (s : Statistics) : s.plus {} = s := by
  simp [plus]

theorem exists_recordInsert_eq_plus (time : UInt64) (replaced : Bool) :
    ∃ d, ∀ s, recordInsert time replaced s = s.plus d := by
  cases replaced with
  | false => exact ⟨{ inserts := 1, writeTime := time }, fun s => by simp [recordInsert, plus]⟩
  | true => exact ⟨{ updates := 1, writeTime := time }, fun s => by simp [recordInsert, plus]⟩

theorem exists_recordUpsert_eq_plus : ∃ d, ∀ s, recordUpsert s = s.plus d :=
  ⟨{ upserts := 1 }, fun s => by simp [recordUpsert, plus]⟩

theorem exists_recordDelete_eq_plus (time : UInt64) : ∃ d, ∀ s, recordDelete time s = s.plus d :=
  ⟨{ deletes := 1, writeTime := time }, fun s => by simp [recordDelete, plus]⟩

theorem exists_recordError_eq_plus (code : ErrorCode) :
    ∃ d, ∀ s, recordError code s = s.plus d := by
  cases code with
  | notFound => exact ⟨{ notFound := 1 }, fun s => by simp [recordError, plus]⟩
  | keyExists => exact ⟨{ keyExists := 1 }, fun s => by simp [recordError, plus]⟩
  | indexError => exact ⟨{ indexViolations := 1 }, fun s => by simp [recordError, plus]⟩
  | mapFull => exact ⟨{ mapFull := 1 }, fun s => by simp [recordError, plus]⟩
  | _ => exact ⟨{}, fun s => by simp [recordError, plus]⟩

end Statistics

/-! ## Steps in a transaction -/

namespace Scope
variable {α β : Type} {n : String} {k : Bytes} {s s' : Scope}

/-- A step on the store that a transaction writes. -/
def onStore (x : Attempt Store α) : Attempt Scope α := fun s =>
  match s.txn.view with
  | .working S => ((x.run S).1, s.on (x.run S).2)
  | _ => (.error .writeRequired, s)

theorem run_onStore (x : Attempt Store α) (s : Scope) (S : Store) :
    (onStore x).run (s.on S) = ((x.run S).1, s.on (x.run S).2) := rfl

/-- A transaction writes a store, or no step changes what it sees. -/
theorem writes_or_reads (s : Scope) :
    (∃ S, s = s.on S) ∨ writable.run s = (.error .writeRequired, s) ∧
      ∀ {α : Type} (x : Attempt Store α), (onStore x).run s = (.error .writeRequired, s) := by
  cases hview : s.txn.view with
  | working S => exact .inl ⟨S, eq_on hview⟩
  | _ =>
    refine .inr ⟨?_, fun x => ?_⟩ <;> simp only [Attempt.run, writable, onStore, hview]

/-- The step depends on nothing but the store of a writer, and changes nothing else. -/
def StoreOnly (x : Attempt Scope α) : Prop :=
  ∀ S : Store, ∃ r S', ∀ s : Scope, x.run (s.on S) = (r, s.on S')

theorem storeOnly_pure (a : α) : StoreOnly (pure a) := fun S => ⟨.ok a, S, fun _ => rfl⟩

theorem storeOnly_onStore (x : Attempt Store α) : StoreOnly (onStore x) :=
  fun S => ⟨(x.run S).1, (x.run S).2, fun s => run_onStore x s S⟩

theorem StoreOnly.bind {x : Attempt Scope α} {f : α → Attempt Scope β} (hx : StoreOnly x)
    (hf : ∀ a, StoreOnly (f a)) : StoreOnly (x >>= f) := by
  intro S
  obtain ⟨r, S', hrun⟩ := hx S
  cases r with
  | error e => exact ⟨.error e, S', fun s => Attempt.run_bind_error (hrun s) f⟩
  | ok a =>
    obtain ⟨r', S'', hrun'⟩ := hf a S'
    exact ⟨r', S'', fun s => (Attempt.run_bind_ok (hrun s) f).trans (hrun' s)⟩

theorem chained_storeOnly : Chained fun _ x => StoreOnly x := ⟨storeOnly_pure, StoreOnly.bind⟩

theorem commutes_onStore_onStore {x : Attempt Store α} {y : Attempt Store β} (h : x.Commutes y) :
    (onStore x).Commutes (onStore y) := by
  refine ⟨fun s => ?_, fun s => ?_, fun s => ?_⟩ <;>
    obtain ⟨S, hs⟩ | ⟨-, hread⟩ := s.writes_or_reads
  · rw [hs]
    exact h.left S
  · rw [hread, hread]
  · rw [hs]
    exact h.right S
  · rw [hread, hread]
  · rw [hs]
    exact congrArg s.on (h.state S)
  · simp only [hread]

theorem observed_eq_goOn (x : Attempt Scope α) :
    observed x = x.goOn fun
      | .ok a => pure a
      | .error e => count (·.recordError e.code) >>= fun _ => .fail e := by
  refine ext_run fun s => ?_
  rw [run_observed, run_goOn]
  rcases x.run s with ⟨_ | _, _⟩ <;> rfl

/-- What a plain table has under a key, in any transaction. -/
def entry (n : String) (k : Bytes) : Attempt Scope (Option Bytes) := do
  let T ← openTable n
  pure (T.get? k)

theorem state_entry (s : Scope) : ((entry n k).run s).2 = s := by
  have hopen := state_openTable n s
  rw [entry, run_bind]
  rcases hrun : (openTable n).run s with ⟨e | T, s'⟩
  · rwa [hrun] at hopen
  · rwa [hrun] at hopen

theorem run_entry (s : Scope) (S : Store) :
    ((entry n k).run (s.on S)).1 = ((Store.readEntry n k).run S).1 := by
  rw [entry, run_bind, run_openTable, Store.run_readEntry]
  cases S.table? n <;> rfl

theorem commutes_entry_onStore {y : Attempt Store β} (h : (Store.readEntry n k).Commutes y) :
    (entry n k).Commutes (onStore y) := by
  refine commutes_of_reads state_entry fun s => ?_
  obtain ⟨S, hs⟩ | ⟨-, hread⟩ := s.writes_or_reads
  · rw [hs, run_onStore, run_entry, run_entry]
    exact h.left S
  · rw [hread]

/-- The change adds to the entry count and to the counters and touches nothing else. -/
def Adds (f : Scope → Scope) : Prop :=
  ∃ (n : Int64) (d : Statistics), ∀ s, f s =
    { s with entryCount := s.entryCount + n, statistics := s.statistics.plus d }

theorem adds_bump (n : Int64) : Adds fun s => { s with entryCount := s.entryCount + n } :=
  ⟨n, {}, fun s => by rw [Statistics.plus_zero]⟩

theorem adds_count {f : Statistics → Statistics} (h : ∃ d, ∀ s, f s = s.plus d) :
    Adds fun s => { s with statistics := f s.statistics } := by
  obtain ⟨d, hd⟩ := h
  exact ⟨0, d, fun s => by simp only [hd, Int64.add_zero]⟩

variable {f g : Scope → Scope}

theorem state_adds_database (hf : Adds f) (s : Scope) :
    ((update f).run s).2.txn.database = s.txn.database := by
  obtain ⟨n, d, hf⟩ := hf
  rw [run_update, hf]

theorem commutes_adds_adds (hf : Adds f) (hg : Adds g) : (update f).Commutes (update g) := by
  obtain ⟨n, d, hf⟩ := hf
  obtain ⟨m, e, hg⟩ := hg
  have hcount : ∀ c : Int64, c + n + m = c + m + n := fun c => by
    rw [Int64.add_assoc, Int64.add_comm n, ← Int64.add_assoc]
  refine commutes_update fun s => ?_
  simp only [run_update, hf, hg, hcount, Statistics.plus_right_comm s.statistics d e]

theorem commutes_adds_onStore (hf : Adds f) (x : Attempt Store α) :
    (update f).Commutes (onStore x) := by
  obtain ⟨n, d, hf⟩ := hf
  refine commutes_update fun s => ?_
  rw [hf, hf]
  simp only [Attempt.run, onStore]
  cases s.txn.view <;> rfl

theorem state_onStore_database (x : Attempt Store α) (s : Scope) :
    ((onStore x).run s).2.txn.database = s.txn.database := by
  obtain ⟨S, hs⟩ | ⟨-, hread⟩ := s.writes_or_reads
  · rw [hs]
    rfl
  · rw [hread]

/-- What a table holds does not depend on counts. -/
theorem answer_openTable (h : s'.txn = s.txn) :
    ((openTable n).run s').1 = ((openTable n).run s).1 := by
  simp only [Attempt.run, openTable, h]
  cases s.txn.view with
  | working S =>
    dsimp only
    cases S.table? n <;> rfl
  | _ => rfl

theorem answer_entry (s : Scope) :
    ((entry n k).run s).1 = ((openTable n).run s).1.map (·.get? k) := by
  rw [entry, run_bind]
  rcases (openTable n).run s with ⟨_ | _, _⟩ <;> rfl

theorem commutes_entry_adds (hf : Adds f) (n : String) (k : Bytes) :
    (entry n k).Commutes (update f) := by
  obtain ⟨m, d, hf⟩ := hf
  refine commutes_of_reads state_entry fun s => ?_
  rw [answer_entry, answer_entry, run_update, hf]
  exact congrArg (Except.map _) (answer_openTable rfl)

end Scope

namespace Tree
open Scope
variable {α : Type} {t : Tree}

/-- Whose transaction it is no step changes. -/
theorem commutes_requireOwn {x : Attempt Scope α}
    (h : ∀ s, (x.run s).2.txn.database = s.txn.database) : t.requireOwn.Commutes x := by
  refine commutes_of_reads (fun s => by rw [run_requireOwn]) fun s => ?_
  rw [run_requireOwn, run_requireOwn, h]

end Tree
end IndexedStore
