import IndexedStore.Proofs.Endings
import IndexedStore.Proofs.Furnishing
import IndexedStore.Proofs.Windows

/-! # Three ways to remove a range

The entries of a range that satisfy a condition can be removed by one call, by collecting them first
and deleting each by its key, or by a cursor that deletes the entry it stands on or goes on to the
next. In each way the same entries are withdrawn one after another in ascending order. The cursor
neither skips nor revisits an entry: what lies ahead of it is the same before and after it deletes.
-/
namespace IndexedStore

namespace Tree
variable {t : Tree} {S S' S'' : Store} {T : Table} {e : Entry} {α β : Type}

/-! ## Withdrawing one entry -/

/-- Takes an entry with its pairs out of the store. -/
def withdraw (t : Tree) (e : Entry) : Attempt Scope Unit := do
  t.removePairs e.1 e.2
  let table ← Scope.openTableToWrite t.name
  Scope.putTable t.name (table.erase e.1)
  Scope.bump (-1)

theorem removeMatch_eq (t : Tree) (e : Entry) :
    t.removeMatch e = (do t.withdraw e; Scope.count (·.recordDelete 0)) := by
  simp only [removeMatch, withdraw, bind_assoc]

theorem run_removeEntry_eq (entries : S.table? t.name = some T) (present : T.get? e.1 = some e.2)
    (s : Scope) :
    (t.removeEntry e.1).run (s.on S) = (do t.withdraw e; pure true).run (s.on S) := by
  rw [removeEntry, Attempt.run_bind, Scope.run_openTableToWrite, entries]
  simp only [present, withdraw, bind_assoc]
  refine Scope.run_bind_congr (sameTable_removePairs t t.name e.1 e.2) (fun _ s S hT => ?_) entries
  rw [Attempt.run_bind, Attempt.run_bind, Scope.run_openTableToWrite, hT]
  rfl

/-- Pairs are taken out, or the table of an index cannot be opened. -/
theorem exists_ends_removePairs (entries : S.table? t.name = some T) (key value : Bytes) :
    ∃ r S', t.Ends (t.removePairs key value) S r 0 S' ∧ S'.table? t.name = some T ∧
      (t.Openable S → r = .ok () ∧ t.Openable S') := by
  obtain ⟨r, S', hrun⟩ := storeOnly_removePairs (t := t) key value S
  -- any scope tells what the step does, since it looks at nothing else
  let s : Scope := ⟨⟨t.database, .released⟩, 0, {}⟩
  have hstore : ∀ {r' : Except Failure Unit} {s' : Scope} {S'' : Store},
      (t.removePairs key value).run (s.on S) = (r', s'.on S'') → r' = r ∧ S'' = S' := by
    intro r' s' S'' h
    obtain ⟨hr, hs⟩ := Prod.mk.inj (h.symm.trans (hrun s))
    exact ⟨hr, View.working.inj (congrArg (fun s => s.txn.view) hs)⟩
  refine ⟨r, S', ends_of_storeOnly hrun, ?_, fun hS => ?_⟩
  · obtain ⟨s', S'', hstate, hsame⟩ := (sameTable_removePairs t t.name key value).exists_on s S
    obtain ⟨-, rfl⟩ := hstore (Prod.ext rfl hstate)
    exact hsame.trans entries
  · obtain ⟨r', s', S'', hon, hfurnished, hretains⟩ := oblivious_removePairs key value s S hS
    rw [run_removePairs (furnished_furnish t S)] at hfurnished
    obtain ⟨hr, rfl⟩ := hstore hon
    exact ⟨hr.symm.trans (Prod.mk.inj hfurnished).1.symm, hretains.openable hS⟩

/-- A withdrawal takes out the entry, or the table of an index cannot be opened. -/
theorem exists_ends_withdraw (entries : S.table? t.name = some T) (e : Entry) :
    (∃ S', t.Ends (t.withdraw e) S (.ok ()) (-1) S' ∧
        S'.table? t.name = some (T.erase e.1) ∧ (t.Openable S → t.Openable S')) ∨
      ¬ t.Openable S ∧ ∃ f S', t.Ends (t.withdraw e) S (.error f) 0 S' := by
  obtain ⟨r, S', hpairs, hT, hopenable⟩ := exists_ends_removePairs entries e.1 e.2
  unfold withdraw
  cases r with
  | error f =>
    refine .inr ⟨fun hS => ?_, f, S', hpairs.bind_error⟩
    cases (hopenable hS).1
  | ok _ =>
    have hput := (ends_putTable (t := t) (T.erase e.1) S').bind_quiet
      (f := fun _ => Scope.bump (-1))
      (ends_bump (-1))
    refine .inl ⟨_, hpairs.bind_quiet ((ends_openTableToWrite hT).bind_quiet hput),
      Store.table?_putTable_self .., fun hS => ?_⟩
    exact (retains_putTable S' _).openable (hopenable hS).2

/-! ## One entry in each way -/

theorem Ends.removeMatch {r : Except Failure Unit} {n : Int64}
    (h : t.Ends (t.withdraw e) S r n S') : t.Ends (t.removeMatch e) S r n S' := by
  rw [removeMatch_eq]
  have hcount := h.then_pure (f := fun _ => Scope.count (·.recordDelete 0)) fun _ => ends_count _
  cases r <;> exact hcount

theorem Ends.delete {r : Except Failure Unit} {n : Int64} (h : t.Ends (t.withdraw e) S r n S')
    (entries : S.table? t.name = some T) (present : T.get? e.1 = some e.2) :
    t.Ends (discard (t.delete e.1)) S r n S' := by
  have hremove : t.Ends (t.removeEntry e.1) S (r.map fun _ => true) n S' := by
    intro s own
    rw [run_removeEntry_eq entries present]
    exact h.then_pure (fun _ => ends_pure true) s own
  have hdelete : t.Ends (t.delete e.1) S (r.map fun _ => true) n S' := by
    refine (ends_requireOwn.bind_quiet ?_).observed
    cases r with
    | error f => exact hremove.bind_error
    | ok _ =>
      have hcount := hremove.bind (f := fun removed => do
        if removed then Scope.count (·.recordDelete 0)
        pure removed) ((ends_count _).bind_quiet (ends_pure true))
      rwa [Int64.add_zero] at hcount
  have hquiet := hdelete.then_pure fun _ => ends_pure ()
  cases r <;> exact hquiet

end Tree

namespace Table
variable {T : Table} {e : Entry} {rest : List Entry}

theorem get?_of_suffix (h : e :: rest <:+ T.toList) : T.get? e.1 = some e.2 :=
  OrderedMap.get?_eq_some_iff.mpr (h.mem List.mem_cons_self)

/-- What lies ahead of an entry lies there without it. -/
theorem suffix_erase (h : e :: rest <:+ T.toList) : rest <:+ (T.erase e.1).toList := by
  have hafter : rest.filter (fun f => Bytes.cmp e.1 f.1 != .eq) = rest := by
    refine List.filter_eq_self.mpr fun f hf => ?_
    have habove := (List.pairwise_cons.mp (T.ordered.sublist h.sublist)).1 f hf
    simp [habove]
  have hfilter := h.filter fun f => Bytes.cmp e.1 f.1 != .eq
  rw [List.filter_cons_of_neg (by simp), hafter] at hfilter
  exact hfilter

/-- Neither the entry nor its absence changes what comes after it. -/
theorem entryAt_after_of_suffix (h : e :: rest <:+ T.toList) :
    T.entryAt (.after e) = rest.head? :=
  find?_of_suffix T.ordered (fun hab hba => by
    rw [Std.OrientedCmp.gt_of_lt hab] at hba
    cases hba) h fun _ => beq_iff_eq

theorem entryAt_after_erase (h : e :: rest <:+ T.toList) :
    entryAt (T.erase e.1) (.after e) = rest.head? := by
  rw [← entryAt_after_of_suffix h]
  refine (List.find?_filter ..).trans (congrArg (T.toList.find? ·) (funext fun f => ?_))
  cases hcmp : Bytes.cmp e.1 f.1 <;> simp [hcmp]

end Table

/-! ## The loop of a cursor -/

namespace Cursor
variable {t : Tree} {S S' : Store} {T : Table} {e : Entry} {n : Int64} {σ : Type}

/-- Makes a step with the cursor at hand and answers with the cursor it leaves. -/
def through (x : Attempt (Cursor × Scope) Unit) (c : Cursor) : Attempt Scope Cursor := fun s =>
  match x (c, s) with
  | (.ok (), c, s) => (.ok c, s)
  | (.error e, _, s) => (.error e, s)

/-- Deletes the entry under the cursor if it satisfies the condition and goes on to the next if it
does not, until the cursor stands nowhere or beyond the upper end. Answers what the condition has
become, or nothing if that takes more turns. -/
def sweepFrom (t : Tree) (high : Option Bytes) (holds : Condition σ) :
    Nat → Cursor → σ → Attempt Scope (Option σ)
  | 0, _, _ => pure none
  | turns + 1, c, a =>
    match c.position with
    | none => pure (some a)
    | some e =>
      if high.all fun k => (Bytes.cmp e.1 k).isLE then
        match holds a e with
        | (true, a) => do
          let c ← c.through (delete t)
          sweepFrom t high holds turns c a
        | (false, a) => do
          let c ← c.through (discard (next t))
          sweepFrom t high holds turns c a
      else pure (some a)

/-- Sweeps a range with a new cursor over the tree. -/
def sweep (t : Tree) (low high : Option Bytes) (holds : Condition σ) (a : σ) (turns : Nat) :
    Attempt Scope (Option σ) := do
  let c ← overTree t
  let c ← c.through (discard (moveTo t (low.elim .first .notBelow)))
  sweepFrom t high holds turns c a

/-- One turn on an entry that is not beyond the upper end. -/
theorem sweepFrom_succ {high : Option Bytes} {holds : Condition σ} {a : σ}
    (within : (high.all fun k => (Bytes.cmp e.1 k).isLE) = true) (turns : Nat) :
    sweepFrom t high holds (turns + 1) ⟨none, some e⟩ a = (do
      let c ← through (if (holds a e).1 then delete t else discard (next t)) ⟨none, some e⟩
      sweepFrom t high holds turns c (holds a e).2) := by
  simp only [sweepFrom, within, if_true]
  rcases holds a e with ⟨_ | _, a'⟩ <;> rfl

theorem ends_through_moveTo (bytewise : t.compare? = none) (entries : S.table? t.name = some T)
    (p : Place) (e? : Option Entry) :
    t.Ends (through (discard (moveTo t p)) ⟨none, e?⟩) S (.ok ⟨none, T.entryAt p⟩) 0 S := by
  intro s _
  refine ⟨s, ?_, rfl, (Int64.add_zero _).symm⟩
  have hsees : Sees t ⟨none, e?⟩ (s.on S) T.toList (s.on S) := .entries rfl rfl entries
  have hmove := Attempt.run_discard (moveTo t p) (⟨none, e?⟩, s.on S)
  rw [hsees.run_moveTo bytewise p] at hmove
  simp only [Attempt.run] at hmove ⊢
  simp only [through, hmove, T.entryAt_eq_pick]
  rfl

theorem ends_through_missing (missing : S.table? t.name = none) (p : Place) {e? : Option Entry} :
    t.Ends (through (discard (moveTo t p)) ⟨none, e?⟩) S (.error (.tableMissing t.name)) 0 S := by
  intro s _
  refine ⟨s, ?_, rfl, (Int64.add_zero _).symm⟩
  have hmove := Attempt.run_discard (moveTo t p) (⟨none, e?⟩, s.on S)
  rw [run_moveTo_missing rfl missing] at hmove
  simp only [Attempt.run] at hmove ⊢
  simp only [through, hmove]
  rfl

theorem ends_overTree : t.Ends (overTree t) S (.ok ⟨none, none⟩) 0 S :=
  Tree.ends_requireOwn.bind_quiet (Tree.ends_pure _)

theorem ends_through_next (bytewise : t.compare? = none) (entries : S.table? t.name = some T)
    (e : Entry) : t.Ends (through (discard (next t)) ⟨none, some e⟩) S
      (.ok ⟨none, T.entryAt (.after e)⟩) 0 S :=
  ends_through_moveTo bytewise entries (.after e) (some e)

theorem ends_through_delete_error {f : Failure} (h : t.Ends (t.withdraw e) S (.error f) n S') :
    t.Ends (through (delete t) ⟨none, some e⟩) S (.error f) n S' := by
  intro s own
  obtain ⟨s', hrun, hsame, hcount⟩ := h s own
  refine ⟨s', ?_, hsame, hcount⟩
  have hremove : (remove t ⟨none, some e⟩ e).run (s.on S) = (.error f, s'.on S') := hrun
  have hwriter : (s.on S).txn.isReader = false := rfl
  simp only [Attempt.run] at hremove ⊢
  simp only [through, delete, hwriter, hremove]
  rfl

theorem ends_through_delete (bytewise : t.compare? = none)
    (h : t.Ends (t.withdraw e) S (.ok ()) n S') (entries : S'.table? t.name = some T) :
    t.Ends (through (delete t) ⟨none, some e⟩) S (.ok ⟨none, T.entryAt (.after e)⟩) n S' := by
  intro s own
  obtain ⟨s', hrun, hsame, hcount⟩ := h s own
  obtain ⟨s'', hmove, hsame', hcount'⟩ :=
    ends_through_moveTo bytewise entries (.after e) (some e) s' (own.trans hsame.symm)
  refine ⟨s'', ?_, hsame'.trans hsame, ?_⟩
  · have hremove : (remove t ⟨none, some e⟩ e).run (s.on S) = (.ok (), s'.on S') := hrun
    have hwriter : (s.on S).txn.isReader = false := rfl
    rw [← hmove]
    simp only [Attempt.run] at hremove ⊢
    simp only [through, delete, hwriter, hremove]
    rfl
  · rw [hcount', hcount, Int64.add_zero]

end Cursor

/-! ## A whole range in each way -/

namespace Tree
variable {t : Tree} {S S' S'' : Store} {T : Table} {e : Entry} {rest chosen : List Entry}
  {r : Except Failure Unit} {n m : Int64} {σ : Type} {high : Option Bytes} {holds : Condition σ}
  {a : σ}

/-- The store has the table of the tree without the chosen entries, each of which was there. -/
def Rid (t : Tree) (T : Table) (chosen : List Entry) (S' : Store) : Prop :=
  ∃ T' : Table, S'.table? t.name = some T' ∧ T'.size + chosen.length = T.size ∧
    ∀ e, e ∈ T'.toList ↔ e ∈ T.toList ∧ e ∉ chosen

theorem rid_nil (entries : S.table? t.name = some T) : t.Rid T [] S :=
  ⟨T, entries, rfl, fun e => by simp⟩

theorem Rid.cons (present : T.get? e.1 = some e.2) (h : t.Rid (T.erase e.1) chosen S') :
    t.Rid T (e :: chosen) S' := by
  obtain ⟨T', hT', hsize, hmem⟩ := h
  refine ⟨T', hT', ?_, fun f => ?_⟩
  · have hone := OrderedMap.size_erase present
    rw [List.length_cons]
    omega
  · have hkey : f ∈ T.toList → (f.1 ≠ e.1 ↔ f ≠ e) := by
      intro hf
      refine not_congr ⟨fun hkey => ?_, congrArg Prod.fst⟩
      have he : T.get? e.1 = some f.2 := OrderedMap.get?_eq_some_iff.mpr (hkey ▸ hf)
      exact Prod.ext hkey (Option.some.inj (he.symm.trans present))
    rw [hmem, OrderedMap.mem_toList_erase, List.mem_cons, not_or]
    constructor
    · rintro ⟨⟨hf, hne⟩, hrest⟩
      exact ⟨hf, (hkey hf).mp hne, hrest⟩
    · rintro ⟨hf, hne, hrest⟩
      exact ⟨⟨hf, (hkey hf).mpr hne⟩, hrest⟩

/-- From the store on, the entries of a rest of its table up to an upper end that satisfy a
condition are removed in each of three ways with the same outcome: one after another, each by its
key, and by a cursor at the beginning of the rest. -/
structure Clears (t : Tree) (high : Option Bytes) (holds : Condition σ) (a : σ)
    (rest : List Entry) (T : Table) (S : Store) (r : Except Failure Unit) (n : Int64)
    (S' : Store) : Prop where
  removed : t.Ends ((holds.among a (upTo high rest)).forM t.removeMatch) S r n S'
  deleted : t.Ends ((holds.among a (upTo high rest)).forM fun e => discard (t.delete e.1)) S r n S'
  swept : ∀ turns, rest.length < turns →
    t.Ends (Cursor.sweepFrom t high holds turns ⟨none, rest.head?⟩ a) S
      (r.map fun _ => some (holds.after a (upTo high rest))) n S'
  rid : r = .ok () → t.Rid T (holds.among a (upTo high rest)) S'
  succeeds : t.Openable S → r = .ok ()

theorem clears_nil (entries : S.table? t.name = some T) :
    t.Clears high holds a [] T S (.ok ()) 0 S where
  removed := ends_pure ()
  deleted := ends_pure ()
  swept turns hturns := by
    cases turns with
    | zero => cases hturns
    | succ turns => exact ends_pure _
  rid _ := rid_nil entries
  succeeds _ := rfl

theorem clears_beyond (entries : S.table? t.name = some T)
    (beyond : (high.all fun k => (Bytes.cmp e.1 k).isLE) = false) :
    t.Clears high holds a (e :: rest) T S (.ok ()) 0 S := by
  have hend : upTo high (e :: rest) = [] := List.takeWhile_cons_of_neg (by simp [beyond])
  refine ⟨?_, ?_, fun turns hturns => ?_, fun _ => ?_, fun _ => rfl⟩
  · rw [hend]
    exact ends_pure ()
  · rw [hend]
    exact ends_pure ()
  · rw [hend]
    cases turns with
    | zero => cases hturns
    | succ turns =>
      simp only [Cursor.sweepFrom, List.head?_cons, beyond, Bool.false_eq_true, if_false]
      exact ends_pure _
  · rw [hend]
    exact rid_nil entries

theorem upTo_cons (within : (high.all fun k => (Bytes.cmp e.1 k).isLE) = true) :
    upTo high (e :: rest) = e :: upTo high rest :=
  List.takeWhile_cons_of_pos within

theorem among_upTo_cons (within : (high.all fun k => (Bytes.cmp e.1 k).isLE) = true)
    (hyes : (holds a e).1 = true) :
    holds.among a (upTo high (e :: rest)) = e :: holds.among (holds a e).2 (upTo high rest) := by
  rw [upTo_cons within, Condition.among, if_pos hyes]

section Within
variable (bytewise : t.compare? = none) (entries : S.table? t.name = some T)
  (ahead : e :: rest <:+ T.toList) (within : (high.all fun k => (Bytes.cmp e.1 k).isLE) = true)
include bytewise entries ahead within

/-- The entry does not satisfy the condition, and the cursor goes on. -/
theorem Clears.pass (hno : (holds a e).1 = false)
    (h : t.Clears high holds (holds a e).2 rest T S r n S') :
    t.Clears high holds a (e :: rest) T S r n S' := by
  have hamong : holds.among a (upTo high (e :: rest)) =
      holds.among (holds a e).2 (upTo high rest) := by
    rw [upTo_cons within, Condition.among, if_neg (Bool.eq_false_iff.mp hno)]
  refine ⟨hamong ▸ h.removed, hamong ▸ h.deleted, fun turns hturns => ?_, hamong ▸ h.rid,
    h.succeeds⟩
  cases turns with
  | zero => cases hturns
  | succ turns =>
    have hnext := Cursor.ends_through_next bytewise entries e
    rw [Table.entryAt_after_of_suffix ahead] at hnext
    rw [upTo_cons within, List.head?_cons, Cursor.sweepFrom_succ within,
      if_neg (Bool.eq_false_iff.mp hno)]
    exact hnext.bind_quiet (h.swept turns (Nat.lt_of_succ_lt_succ hturns))

/-- The entry satisfies the condition and is taken out. -/
theorem Clears.take (hyes : (holds a e).1 = true)
    (hwithdraw : t.Ends (t.withdraw e) S (.ok ()) n S')
    (hT : S'.table? t.name = some (T.erase e.1)) (hopenable : t.Openable S → t.Openable S')
    (h : t.Clears high holds (holds a e).2 rest (T.erase e.1) S' r m S'') :
    t.Clears high holds a (e :: rest) T S r (n + m) S'' := by
  have hpresent := Table.get?_of_suffix ahead
  have hamong : holds.among a (upTo high (e :: rest)) = e :: _ := among_upTo_cons within hyes
  refine ⟨?_, ?_, fun turns hturns => ?_, fun hr => ?_, fun hS => h.succeeds (hopenable hS)⟩
  · rw [hamong]
    exact hwithdraw.removeMatch.bind h.removed
  · rw [hamong]
    exact (hwithdraw.delete entries hpresent).bind h.deleted
  · cases turns with
    | zero => cases hturns
    | succ turns =>
      have hdelete := Cursor.ends_through_delete bytewise hwithdraw hT
      rw [Table.entryAt_after_erase ahead] at hdelete
      rw [upTo_cons within, List.head?_cons, Cursor.sweepFrom_succ within, if_pos hyes]
      exact hdelete.bind (h.swept turns (Nat.lt_of_succ_lt_succ hturns))
  · rw [hamong]
    exact (h.rid hr).cons hpresent

omit bytewise in
/-- The entry satisfies the condition and cannot be taken out. -/
theorem clears_fail {f : Failure} (hyes : (holds a e).1 = true) (stuck : ¬ t.Openable S)
    (hwithdraw : t.Ends (t.withdraw e) S (.error f) n S') :
    t.Clears high holds a (e :: rest) T S (.error f) n S' := by
  have hpresent := Table.get?_of_suffix ahead
  have hamong : holds.among a (upTo high (e :: rest)) = e :: _ := among_upTo_cons within hyes
  refine ⟨?_, ?_, fun turns hturns => ?_, fun hr => ?_, fun hS => absurd hS stuck⟩
  · rw [hamong]
    exact hwithdraw.removeMatch.bind_error
  · rw [hamong]
    exact (hwithdraw.delete entries hpresent).bind_error
  · cases turns with
    | zero => cases hturns
    | succ turns =>
      rw [List.head?_cons, Cursor.sweepFrom_succ within, if_pos hyes]
      exact (Cursor.ends_through_delete_error hwithdraw).bind_error
  · cases hr

end Within

/-- Whatever store the entries lie in, the three ways keep in step: they take out the same entry or
fail alike, and what lies ahead of the cursor is the rest of the table that is left. -/
theorem exists_clears (bytewise : t.compare? = none) (entries : S.table? t.name = some T)
    (ahead : rest <:+ T.toList) (high : Option Bytes) (holds : Condition σ) (a : σ) :
    ∃ r n S', t.Clears high holds a rest T S r n S' := by
  induction rest generalizing S T a with
  | nil => exact ⟨_, _, _, clears_nil entries⟩
  | cons e rest ih =>
    have hrest : rest <:+ T.toList := (List.suffix_cons e rest).trans ahead
    cases hwithin : high.all fun k => (Bytes.cmp e.1 k).isLE with
    | false => exact ⟨_, _, _, clears_beyond entries hwithin⟩
    | true =>
      cases hholds : (holds a e).1 with
      | false =>
        obtain ⟨r, n, S', h⟩ := ih entries hrest (holds a e).2
        exact ⟨_, _, _, h.pass bytewise entries ahead hwithin hholds⟩
      | true =>
        obtain ⟨S', hwithdraw, hT, hopenable⟩ | ⟨hstuck, f, S', hwithdraw⟩ :=
          exists_ends_withdraw entries e
        · obtain ⟨r, n, S'', h⟩ := ih hT (Table.suffix_erase ahead) (holds a e).2
          exact ⟨_, _, _, h.take bytewise entries ahead hwithin hholds hwithdraw hT hopenable⟩
        · exact ⟨_, _, _, clears_fail entries ahead hwithin hholds hstuck hwithdraw⟩

/-! ## The three ways -/

/-- Collects the entries of a range that satisfy a condition and deletes each by its key. Answers
what the condition has become. -/
def deletingCollected (t : Tree) (low high : Option Bytes) (holds : Condition σ) (a : σ) :
    Attempt Scope σ := do
  let (chosen, a) ← t.collecting low high holds a 0
  chosen.forM fun e => discard (t.delete e.1)
  pure a

section Whole
variable {low : Option Bytes} {turns : Nat} (bytewise : t.compare? = none)
  (entries : S.table? t.name = some T)
include bytewise entries

theorem ends_matching :
    t.Ends (t.matching low high holds a 0) S
      (.ok (holds.among a (T.window low high), holds.after a (T.window low high))) 0 S := by
  rw [← Condition.pick_zero, ← ascending_eq_window bytewise]
  exact (ends_openTable entries).bind_quiet (ends_pure _)

variable (h : t.Clears high holds a (T.onward low) T S r n S')
include h

theorem Clears.deleting :
    t.Ends (t.deleting low high holds a) S
      (r.map fun _ => ((holds.among a (T.window low high)).length,
        holds.after a (T.window low high))) n S' := by
  have hremoved := h.removed
  rw [← T.window_eq_upTo] at hremoved
  refine Ends.scanned (ends_writable.bind_quiet ((ends_matching bytewise entries).bind_quiet ?_))
  exact hremoved.then_pure fun _ => ends_pure _

theorem Clears.deletingCollected :
    t.Ends (t.deletingCollected low high holds a) S
      (r.map fun _ => holds.after a (T.window low high)) n S' := by
  have hdeleted := h.deleted
  rw [← T.window_eq_upTo] at hdeleted
  refine (ends_matching bytewise entries).scanned.bind_quiet ?_
  exact hdeleted.then_pure fun _ => ends_pure _

theorem Clears.sweep (enough : T.size < turns) :
    t.Ends (Cursor.sweep t low high holds a turns) S
      (r.map fun _ => some (holds.after a (T.window low high))) n S' := by
  have hfirst : T.entryAt (low.elim .first .notBelow) = (T.onward low).head? := by
    cases low with
    | none => exact congrArg List.head? (List.filter_eq_self.mpr fun _ _ => rfl).symm
    | some k => exact (List.head?_filter ..).symm
  have hplace := Cursor.ends_through_moveTo bytewise entries (low.elim .first .notBelow) none
  rw [hfirst] at hplace
  have hswept := h.swept turns ((List.length_filter_le ..).trans_lt enough)
  rw [← T.window_eq_upTo] at hswept
  exact Cursor.ends_overTree.bind_quiet (hplace.bind_quiet hswept)

end Whole

/-- From one store, in each of the three ways: the same answer, as far as a way gives one, the same
store, and the same change of the entry count. -/
structure InStep (t : Tree) (low high : Option Bytes) (holds : Condition σ) (a : σ)
    (turns : Nat) (S : Store) (r : Except Failure (Nat × σ)) (n : Int64) (S' : Store) : Prop where
  deleting : t.Ends (t.deleting low high holds a) S r n S'
  collected : t.Ends (t.deletingCollected low high holds a) S (r.map Prod.snd) n S'
  swept : t.Ends (Cursor.sweep t low high holds a turns) S (r.map fun x => some x.2) n S'
  answer : ∀ k a', r = .ok (k, a') → ∃ T, S.table? t.name = some T ∧
    a' = holds.after a (T.window low high) ∧ k = (holds.among a (T.window low high)).length ∧
    t.Rid T (holds.among a (T.window low high)) S'
  succeeds : (S.table? t.name).isSome → t.Openable S → ∃ x, r = .ok x

section Ways
variable {low : Option Bytes} {turns : Nat}

/-- Where the tree has no table, each way fails before the condition is asked of anything. -/
theorem inStep_missing (missing : S.table? t.name = none) :
    t.InStep low high holds a turns S (.error (.tableMissing t.name)) 0 S := by
  have hmatching : t.Ends (t.matching low high holds a 0) S (.error (.tableMissing t.name)) 0 S :=
    (ends_openTable_missing missing).bind_error
  refine ⟨?_, hmatching.scanned.bind_error, ?_, fun k a' hr => ?_, fun there => ?_⟩
  · exact Ends.scanned (ends_writable.bind_quiet hmatching.bind_error)
  · exact Cursor.ends_overTree.bind_quiet (Cursor.ends_through_missing missing _).bind_error
  · cases hr
  · rw [missing] at there
    cases there

theorem Clears.inStep (bytewise : t.compare? = none) (entries : S.table? t.name = some T)
    (h : t.Clears high holds a (T.onward low) T S r n S') (enough : T.size < turns) :
    t.InStep low high holds a turns S (r.map fun _ =>
      ((holds.among a (T.window low high)).length, holds.after a (T.window low high))) n S' := by
  have hcollected := h.deletingCollected bytewise entries
  have hswept := h.sweep bytewise entries enough
  have hrid := h.rid
  rw [← T.window_eq_upTo] at hrid
  refine ⟨h.deleting bytewise entries, ?_, ?_, fun k a' hr => ?_, fun _ hS => ?_⟩
  · cases r <;> exact hcollected
  · cases r <;> exact hswept
  · cases r with
    | error f => cases hr
    | ok _ =>
      cases hr
      exact ⟨T, entries, rfl, rfl, hrid rfl⟩
  · rw [h.succeeds hS]
    exact ⟨_, rfl⟩

theorem exists_inStep (bytewise : t.compare? = none) (low high : Option Bytes)
    (holds : Condition σ) (a : σ) (enough : t.entriesIn S < turns) :
    ∃ r n S', t.InStep low high holds a turns S r n S' := by
  cases hT : S.table? t.name with
  | none => exact ⟨_, _, _, inStep_missing hT⟩
  | some T =>
    obtain ⟨r, n, S', h⟩ := exists_clears bytewise hT (T.onward_suffix low) high holds a
    rw [entriesIn_of_table? hT] at enough
    exact ⟨_, _, _, h.inStep bytewise hT enough⟩

end Ways

/-- A range of a tree in byte order is cleared alike in three ways: by one call, by collecting and
deleting each entry by its key, and by a cursor whose loop ends within as many turns as there are
entries and one more. They leave the same tables and the same entry count whatever the store holds.
If they succeed, and they do where the tree has its table and the tables of its indexes can be
opened, the condition was asked of each entry of the range once and in ascending order, the entries
that satisfied it are gone, and the first way has answered how many they were. -/
theorem ways_to_clear_agree {s : Scope} (own : t.database = s.txn.database)
    (bytewise : t.compare? = none) (writer : s.txn.view = .working S) (low high : Option Bytes)
    (holds : Condition σ) (a : σ) {turns : Nat} (enough : t.entriesIn S < turns) :
    ∃ (r : Except Failure (Nat × σ)) (S' : Store) (n : Int64) (s₁ s₂ s₃ : Scope),
      (t.deleting low high holds a).run s = (r, s₁) ∧
      (t.deleteIf low high holds a).run s = (r.map Prod.fst, s₁) ∧
      (t.deletingCollected low high holds a).run s = (r.map Prod.snd, s₂) ∧
      (Cursor.sweep t low high holds a turns).run s = (r.map fun x => some x.2, s₃) ∧
      (∀ s' ∈ [s₁, s₂, s₃], s'.txn = ⟨s.txn.database, .working S'⟩ ∧
        s'.entryCount = s.entryCount + n) ∧
      (∀ k a', r = .ok (k, a') → ∃ T, S.table? t.name = some T ∧
        a' = holds.after a (T.window low high) ∧
        k = (holds.among a (T.window low high)).length ∧
        t.Rid T (holds.among a (T.window low high)) S') ∧
      ((S.table? t.name).isSome → t.Openable S → ∃ x, r = .ok x) := by
  obtain ⟨r, n, S', h⟩ := exists_inStep bytewise low high holds a enough
  rw [Scope.eq_on writer]
  obtain ⟨s₁, hdeleting, hsame₁, hcount₁⟩ := h.deleting s own
  obtain ⟨s₂, hcollected, hsame₂, hcount₂⟩ := h.collected s own
  obtain ⟨s₃, hswept, hsame₃, hcount₃⟩ := h.swept s own
  refine ⟨r, S', n, s₁.on S', s₂.on S', s₃.on S', hdeleting, ?_, hcollected, hswept, ?_,
    h.answer, h.succeeds⟩
  · rw [deleteIf, Attempt.run_map, hdeleting]
  · have heach : ∀ s' : Scope, s'.txn.database = s.txn.database →
        s'.entryCount = s.entryCount + n → (s'.on S').txn = ⟨s.txn.database, .working S'⟩ ∧
          (s'.on S').entryCount = s.entryCount + n :=
      fun s' hsame hcount => ⟨congrArg (Txn.mk · _) hsame, hcount⟩
    intro s' hs'
    simp only [List.mem_cons, List.not_mem_nil, or_false] at hs'
    rcases hs' with rfl | rfl | rfl
    · exact heach s₁ hsame₁ hcount₁
    · exact heach s₂ hsame₂ hcount₂
    · exact heach s₃ hsame₃ hcount₃

/-- Two of the first two entries have the value sought, and the third is beyond the range. -/
theorem ways_to_clear_agree_repeated :
    let t := Cursor.valueIndexed
    let s := Move.repeatedWriter
    let sevens : Condition (List Bytes) := fun asked e => (e.2 == [7], asked ++ [e.1])
    ∃ s₁ s₂ s₃, (t.deleteIf none (some [1]) sevens []).run s = (.ok 2, s₁) ∧
      (t.deletingCollected none (some [1]) sevens []).run s = (.ok [[0], [1]], s₂) ∧
      (Cursor.sweep t none (some [1]) sevens [] 4).run s = (.ok (some [[0], [1]]), s₃) ∧
      s₁.txn = s₂.txn ∧ s₂.txn = s₃.txn := by
  intro t s sevens
  have entries := Cursor.holds_repeatedStore.entries
  have enough : t.entriesIn Cursor.repeatedStore < 4 := by
    rw [entriesIn_of_table? entries]
    decide
  obtain ⟨r, S', n, s₁, s₂, s₃, -, hdelete, hcollect, hsweep, hsame, hanswer, hsucceeds⟩ :=
    ways_to_clear_agree (t := t) (s := s) rfl rfl rfl none (some [1]) sevens [] enough
  obtain ⟨⟨k, asked⟩, rfl⟩ := hsucceeds (by rw [entries]; rfl)
    Cursor.holds_repeatedStore.furnished.openable
  obtain ⟨T, hT, rfl, rfl, -⟩ := hanswer k asked rfl
  obtain rfl : Cursor.repeatedTable = T := Option.some.inj (entries.symm.trans hT)
  have h₁ := (hsame s₁ (by simp)).1
  have h₂ := (hsame s₂ (by simp)).1
  have h₃ := (hsame s₃ (by simp)).1
  exact ⟨s₁, s₂, s₃, hdelete, hcollect, hsweep, h₁.trans h₂.symm, h₂.trans h₃.symm⟩

end Tree
end IndexedStore
