import IndexedStore.Proofs.Catalog
import IndexedStore.Proofs.Positions

/-! # Scans see their window

A scan finds one end of its window by byte order and stops at the other by a test on each entry. On
entries in byte order every such test changes its answer at most once, so what is left between the
two ends is all of the window and nothing else. A visitor is shown the window from its beginning
until it has had enough, and a condition is asked of it until enough entries have satisfied it.
-/
namespace IndexedStore

/-- The entries of a list before the first that is beyond an upper end. -/
abbrev upTo (high : Option Bytes) (l : List Entry) : List Entry :=
  l.takeWhile fun e => high.all fun k => (Bytes.cmp e.1 k).isLE

namespace Table

/-- The entries with keys from `low` up to `high`, both included, in ascending order. -/
def window (T : Table) (low high : Option Bytes) : List Entry :=
  T.toList.filter fun e =>
    low.all (fun k => (Bytes.cmp k e.1).isLE) && high.all fun k => (Bytes.cmp e.1 k).isLE

/-- The entries from `low` on. -/
def onward (T : Table) (low : Option Bytes) : List Entry :=
  T.toList.filter fun e => low.all fun k => (Bytes.cmp k e.1).isLE

theorem onward_suffix (T : Table) (low : Option Bytes) : T.onward low <:+ T.toList := by
  refine filter_suffix_of_up (T.ordered.imp ?_)
  intro e f hef he
  cases low with
  | none => rfl
  | some k => exact Std.TransCmp.isLE_trans he (Ordering.isLE_of_eq_lt hef)

/-- From the lower end on, the window goes on until an entry is beyond the upper end. -/
theorem window_eq_upTo (T : Table) (low high : Option Bytes) :
    T.window low high = upTo high (T.onward low) := by
  have hdown : (T.onward low).Pairwise
      fun e f => (high.all fun k => (Bytes.cmp f.1 k).isLE) = true →
        (high.all fun k => (Bytes.cmp e.1 k).isLE) = true := by
    refine (T.ordered.filter _).imp ?_
    intro e f hef hf
    cases high with
    | none => rfl
    | some k => exact Std.TransCmp.isLE_trans (Ordering.isLE_of_eq_lt hef) hf
  rw [upTo, takeWhile_eq_filter_of_down hdown, onward, List.filter_filter, window]
  exact congrArg (T.toList.filter ·) (funext fun e => Bool.and_comm ..)

/-- The entries whose keys begin with `stem`, in ascending order. -/
def beneath (T : Table) (stem : Bytes) : List Entry := T.toList.filter fun e => stem.isPrefixOf e.1

end Table

/-! ## Where a scan begins and stops -/

namespace Tree
variable {t : Tree} (bytewise : t.compare? = none)
include bytewise

theorem compareKeys_of_bytewise : t.compareKeys = Bytes.cmp := by
  rw [compareKeys, bytewise]
  rfl

theorem compareKeys_ne_gt (a k : Bytes) : (t.compareKeys a k != .gt) = (Bytes.cmp a k).isLE := by
  rw [compareKeys_of_bytewise bytewise]
  cases Bytes.cmp a k <;> rfl

theorem compareKeys_ne_lt (a k : Bytes) : (t.compareKeys a k != .lt) = (Bytes.cmp k a).isLE := by
  have hswap : Bytes.cmp a k = (Bytes.cmp k a).swap := Std.OrientedCmp.eq_swap
  rw [compareKeys_of_bytewise bytewise, hswap]
  cases Bytes.cmp k a <;> rfl

theorem ascending_eq_window (low high : Option Bytes) (T : Table) :
    t.ascending low high T = T.window low high := by
  simp only [ascending, compareKeys_ne_gt bytewise, Table.window_eq_upTo, Table.onward]

theorem descending_eq_window (high low : Option Bytes) (T : Table) :
    t.descending high low T = (T.window low high).reverse := by
  simp only [descending, compareKeys_ne_gt bytewise, compareKeys_ne_lt bytewise,
    List.filter_filter, Bool.and_self]
  have hdown : (T.toList.reverse.filter fun e => high.all fun k => (Bytes.cmp e.1 k).isLE).Pairwise
      fun e f => (low.all fun k => (Bytes.cmp k f.1).isLE) = true →
        (low.all fun k => (Bytes.cmp k e.1).isLE) = true := by
    refine List.Pairwise.filter _ (List.pairwise_reverse.mpr (T.ordered.imp ?_))
    intro f e hfe hf
    cases low with
    | none => rfl
    | some k => exact Std.TransCmp.isLE_trans hf (Ordering.isLE_of_eq_lt hfe)
  rw [takeWhile_eq_filter_of_down hdown, List.filter_filter, List.filter_reverse, Table.window]

omit bytewise in
/-- Keys that begin with `stem` are not below it, and no key between two such begins otherwise. -/
theorem extending_eq_beneath (stem : Bytes) (T : Table) : extending stem T = T.beneath stem := by
  have hdown : (T.toList.filter fun e => (Bytes.cmp stem e.1).isLE).Pairwise
      fun e f => stem.isPrefixOf f.1 = true → stem.isPrefixOf e.1 = true := by
    refine (T.ordered.filter _).imp_of_mem ?_
    intro e f he _ hef hf
    have hstem : (Bytes.cmp stem e.1).isLE = true := (List.mem_filter.mp he).2
    obtain ⟨x, hx⟩ := List.isPrefixOf_iff_prefix.mp hf
    by_contra hnot
    have hfe := Bytes.cmp_append_of_not_isPrefixOf hstem (Bool.eq_false_iff.mpr hnot) x
    rw [hx, Std.OrientedCmp.gt_of_lt hef] at hfe
    cases hfe
  have hstem : ∀ e : Entry, (stem.isPrefixOf e.1 && (Bytes.cmp stem e.1).isLE) =
      stem.isPrefixOf e.1 := by
    intro e
    cases hpre : stem.isPrefixOf e.1 with
    | false => rfl
    | true =>
      obtain ⟨x, hx⟩ := List.isPrefixOf_iff_prefix.mp hpre
      rw [← hx]
      exact Bytes.isLE_cmp_append stem x
  simp only [extending, takeWhile_eq_filter_of_down hdown, List.filter_filter, hstem,
    Table.beneath]

end Tree

/-! ## Visitors -/

namespace Visitor
variable {σ : Type} {visit : Visitor σ} {a : σ} {e : Entry} {window seen : List Entry}

/-- What the state of the visitor has become once it has seen some entries. -/
def after (visit : Visitor σ) (a : σ) (seen : List Entry) : σ :=
  seen.foldl (fun a e => (visit a e).1) a

/-- The visitor is shown a window one entry after another: all of it, or up to and including the
first entry at which it says to stop. -/
structure Visits (visit : Visitor σ) (a : σ) (window seen : List Entry) : Prop where
  begins : seen <+: window
  goesOn : ∀ l e l', seen = l ++ e :: l' → l' ≠ [] → (visit (visit.after a l) e).2 = true
  ends : seen = window ∨ ∃ l e, seen = l ++ [e] ∧ (visit (visit.after a l) e).2 = false

/-- A visitor that never says to stop is shown the whole window. -/
theorem Visits.whole (h : visit.Visits a window seen) (never : ∀ a e, (visit a e).2 = true) :
    seen = window := by
  rcases h.ends with hall | ⟨l, e, -, hstop⟩
  · exact hall
  · rw [never] at hstop
    cases hstop

theorem Visits.nil : visit.Visits a [] [] := by
  refine ⟨List.prefix_refl [], ?_, .inl rfl⟩
  intro l e l' hl
  simp at hl

theorem Visits.stop (h : (visit a e).2 = false) : visit.Visits a (e :: window) [e] := by
  refine ⟨⟨window, rfl⟩, ?_, .inr ⟨[], e, rfl, h⟩⟩
  intro l f l' hl hne
  cases l with
  | nil => exact absurd (List.cons.inj hl).2.symm hne
  | cons g l => simp at hl

theorem Visits.cons (he : (visit a e).2 = true) (h : visit.Visits (visit a e).1 window seen) :
    visit.Visits a (e :: window) (e :: seen) := by
  refine ⟨(List.prefix_cons_inj e).mpr h.begins, ?_, ?_⟩
  · intro l f l' hl hne
    cases l with
    | nil =>
      cases hl
      exact he
    | cons g l =>
      cases hl
      exact h.goesOn l f l' rfl hne
  · rcases h.ends with hall | ⟨l, f, hl, hstop⟩
    · exact .inl (congrArg (e :: ·) hall)
    · exact .inr ⟨e :: l, f, congrArg (e :: ·) hl, hstop⟩

theorem exists_visits (visit : Visitor σ) (a : σ) (window : List Entry) :
    ∃ seen, visitAll visit a window = visit.after a seen ∧ visit.Visits a window seen := by
  induction window generalizing a with
  | nil => exact ⟨[], rfl, .nil⟩
  | cons e window ih =>
    obtain ⟨seen, hstate, hseen⟩ := ih (visit a e).1
    cases hgo : (visit a e).2 with
    | true =>
      refine ⟨e :: seen, ?_, hseen.cons hgo⟩
      rw [visitAll, ← Prod.eta (visit a e), hgo]
      exact hstate
    | false =>
      refine ⟨[e], ?_, .stop hgo⟩
      rw [visitAll, ← Prod.eta (visit a e), hgo]
      rfl

end Visitor

/-! ## Conditions -/

namespace Condition
variable {σ : Type} {holds : Condition σ} {a : σ} {e : Entry} {max : Nat}
  {window asked : List Entry}

/-- What a condition has become once it has been asked of some entries. -/
def after (holds : Condition σ) (a : σ) (asked : List Entry) : σ :=
  asked.foldl (fun a e => (holds a e).2) a

/-- The entries that satisfy a condition when it is asked of each in turn. -/
def among (holds : Condition σ) : σ → List Entry → List Entry
  | _, [] => []
  | a, e :: rest =>
    if (holds a e).1 then e :: among holds (holds a e).2 rest else among holds (holds a e).2 rest

theorem among_append (holds : Condition σ) (a : σ) (l l' : List Entry) :
    holds.among a (l ++ l') = holds.among a l ++ holds.among (holds.after a l) l' := by
  induction l generalizing a with
  | nil => rfl
  | cons e l ih =>
    simp only [List.cons_append, among, ih]
    split <;> rfl

theorem length_among_concat_le (holds : Condition σ) (a : σ) (l : List Entry) (e : Entry) :
    (holds.among a (l ++ [e])).length ≤ (holds.among a l).length + 1 := by
  rw [among_append, List.length_append]
  simp only [among]
  split <;> simp

/-- A condition is asked of a window one entry after another, as long as fewer than `max` entries
have satisfied it, or without end if `max` is zero. -/
structure Asks (holds : Condition σ) (max : Nat) (a : σ) (window asked : List Entry) : Prop where
  begins : asked <+: window
  wanting : ∀ l e l', asked = l ++ e :: l' → max ≠ 0 → (holds.among a l).length < max
  ends : asked = window ∨ max ≠ 0 ∧ (holds.among a asked).length = max

theorem Asks.length_le (h : holds.Asks max a window asked) (hmax : max ≠ 0) :
    (holds.among a asked).length ≤ max := by
  rcases List.eq_nil_or_concat asked with rfl | ⟨l, e, rfl⟩
  · exact Nat.zero_le max
  · rw [List.concat_eq_append] at h ⊢
    have hone := length_among_concat_le holds a l e
    have hlt := h.wanting l e [] rfl hmax
    omega

/-- The entries found are the first `max` of those that the whole window has. -/
theorem Asks.among_eq_take (h : holds.Asks max a window asked) :
    holds.among a asked =
      if max = 0 then holds.among a window else (holds.among a window).take max := by
  obtain ⟨rest, hrest⟩ := h.begins
  rcases h.ends with rfl | ⟨hmax, hlen⟩
  · by_cases hmax : max = 0
    · rw [if_pos hmax]
    · rw [if_neg hmax, List.take_of_length_le (h.length_le hmax)]
  · rw [if_neg hmax, ← hrest, among_append, List.take_left' hlen]

theorem Asks.nil : holds.Asks max a [] [] := by
  refine ⟨List.prefix_refl [], ?_, .inl rfl⟩
  intro l e l' hl
  simp at hl

/-- The last entry wanted has been found. -/
theorem Asks.enough (he : (holds a e).1 = true) : holds.Asks 1 a (e :: window) [e] := by
  refine ⟨⟨window, rfl⟩, ?_, .inr ⟨Nat.one_ne_zero, by simp [among, he]⟩⟩
  intro l f l' hl hmax
  cases l with
  | nil => exact Nat.one_pos
  | cons g l => simp at hl

/-- An entry has been found, and one less is wanted if there is a limit. -/
theorem Asks.found (he : (holds a e).1 = true) (hmax : max ≠ 1)
    (h : holds.Asks (max - 1) (holds a e).2 window asked) :
    holds.Asks max a (e :: window) (e :: asked) := by
  have hcount : ∀ l, (holds.among a (e :: l)).length =
      (holds.among (holds a e).2 l).length + 1 := by
    intro l
    rw [among, if_pos he, List.length_cons]
  refine ⟨(List.prefix_cons_inj e).mpr h.begins, ?_, ?_⟩
  · intro l f l' hl hpos
    cases l with
    | nil => exact Nat.pos_of_ne_zero hpos
    | cons g l =>
      cases hl
      have hlt := h.wanting l f l' rfl (by omega)
      rw [hcount]
      omega
  · rcases h.ends with hall | ⟨hpos, hlen⟩
    · exact .inl (congrArg (e :: ·) hall)
    · refine .inr ⟨by omega, ?_⟩
      rw [hcount]
      omega

theorem Asks.passed (he : (holds a e).1 = false)
    (h : holds.Asks max (holds a e).2 window asked) :
    holds.Asks max a (e :: window) (e :: asked) := by
  have hsame : ∀ l, holds.among a (e :: l) = holds.among (holds a e).2 l := by
    intro l
    rw [among, if_neg (Bool.eq_false_iff.mp he)]
  refine ⟨(List.prefix_cons_inj e).mpr h.begins, ?_, ?_⟩
  · intro l f l' hl hpos
    cases l with
    | nil => exact Nat.pos_of_ne_zero hpos
    | cons g l =>
      cases hl
      rw [hsame]
      exact h.wanting l f l' rfl hpos
  · rw [hsame]
    exact h.ends.imp_left (congrArg (e :: ·))

theorem exists_asks (holds : Condition σ) (max : Nat) (a : σ) (window : List Entry) :
    ∃ asked, pick holds max a window = (holds.among a asked, holds.after a asked) ∧
      holds.Asks max a window asked := by
  induction window generalizing max a with
  | nil => exact ⟨[], rfl, .nil⟩
  | cons e window ih =>
    cases he : holds a e with
    | mk yes a' =>
      cases yes with
      | false =>
        obtain ⟨asked, hpick, hasked⟩ := ih max a'
        refine ⟨e :: asked, ?_, .passed (by rw [he]) (by rw [he]; exact hasked)⟩
        simp only [pick, he, hpick, among, after, List.foldl_cons, Bool.false_eq_true, if_false]
      | true =>
        by_cases hmax : max = 1
        · subst hmax
          refine ⟨[e], ?_, .enough (by rw [he])⟩
          simp only [pick, he, among, after, List.foldl_cons, List.foldl_nil, if_true]
        · obtain ⟨asked, hpick, hasked⟩ := ih (max - 1) a'
          refine ⟨e :: asked, ?_, .found (by rw [he]) hmax (by rw [he]; exact hasked)⟩
          simp only [pick, he, if_neg hmax, hpick, among, after, List.foldl_cons, if_true]

/-- Without a limit a condition is asked of every entry. -/
theorem pick_zero (holds : Condition σ) (a : σ) (window : List Entry) :
    pick holds 0 a window = (holds.among a window, holds.after a window) := by
  obtain ⟨asked, hpick, hasked⟩ := holds.exists_asks 0 a window
  rcases hasked.ends with rfl | ⟨hmax, -⟩
  · exact hpick
  · exact absurd rfl hmax

end Condition

/-! ## Scans -/

namespace Tree
variable {t : Tree} {s : Scope} {S : Store} {T : Table} {σ τ : Type}

/-- A step that reads the table of the tree through a window does no more than read and count. -/
theorem run_scanned_read {α : Type} (own : t.database = s.txn.database)
    (shown : s.txn.view.store? = some S) (entries : S.table? t.name = some T) (f : Table → α) :
    (t.scanned do let table ← Scope.openTable t.name; pure (f table)).run s =
      (.ok (f T), s.counted (·.recordScan)) := by
  have hread : (do let table ← Scope.openTable t.name; pure (f table) : Attempt Scope α).run s =
      (.ok (f T), s) := Attempt.run_bind_ok (Scope.run_openTable_of_store? shown entries) _
  rw [run_scanned, hread, ← own, ifOwn_self]

/-- In a transaction of either kind, and whatever the ends of the window are, in order or not: a
scan in ascending order shows the visitor the window until it has had enough, a scan in descending
order the reverse of that window, and a scan of a common beginning the keys that begin so. A
collection asks its condition of the window until it has found as many entries as are wanted, and
answers with those. -/
theorem scans_see_window (own : t.database = s.txn.database) (bytewise : t.compare? = none)
    (shown : s.txn.view.store? = some S) (entries : S.table? t.name = some T)
    (low high : Option Bytes) (stem : Bytes) (visit : Visitor σ) (a : σ) (holds : Condition τ)
    (b : τ) (max : Nat) :
    (∃ seen, (t.scanRange low high visit a).run s =
        (.ok (visit.after a seen), s.counted (·.recordScan)) ∧
      visit.Visits a (T.window low high) seen) ∧
    (∃ seen, (t.scanReverse high low visit a).run s =
        (.ok (visit.after a seen), s.counted (·.recordScan)) ∧
      visit.Visits a (T.window low high).reverse seen) ∧
    (∃ seen, (t.scanExtending stem visit a).run s =
        (.ok (visit.after a seen), s.counted (·.recordScan)) ∧
      visit.Visits a (T.beneath stem) seen) ∧
    ∃ chosen asked, (t.collecting low high holds b max).run s =
        (.ok (chosen, holds.after b asked), s.counted (·.recordScan)) ∧
      (t.collectRange low high holds b max).run s = (.ok chosen, s.counted (·.recordScan)) ∧
      holds.Asks max b (T.window low high) asked ∧ chosen = holds.among b asked ∧
      chosen = if max = 0 then holds.among b (T.window low high)
        else (holds.among b (T.window low high)).take max := by
  refine ⟨?_, ?_, ?_, ?_⟩
  · obtain ⟨seen, hstate, hseen⟩ := visit.exists_visits a (T.window low high)
    refine ⟨seen, ?_, hseen⟩
    rw [scanRange, run_scanned_read own shown entries, ascending_eq_window bytewise, hstate]
  · obtain ⟨seen, hstate, hseen⟩ := visit.exists_visits a (T.window low high).reverse
    refine ⟨seen, ?_, hseen⟩
    rw [scanReverse, run_scanned_read own shown entries, descending_eq_window bytewise, hstate]
  · obtain ⟨seen, hstate, hseen⟩ := visit.exists_visits a (T.beneath stem)
    refine ⟨seen, ?_, hseen⟩
    rw [scanExtending, run_scanned_read own shown entries, extending_eq_beneath, hstate]
  · obtain ⟨asked, hpick, hasked⟩ := holds.exists_asks max b (T.window low high)
    have hrun : (t.collecting low high holds b max).run s =
        (.ok (holds.among b asked, holds.after b asked), s.counted (·.recordScan)) := by
      rw [collecting, matching, run_scanned_read own shown entries, ascending_eq_window bytewise,
        hpick]
    refine ⟨holds.among b asked, asked, hrun, ?_, hasked, rfl, hasked.among_eq_take⟩
    rw [collectRange, Attempt.run_map, hrun]
    rfl

/-- Keys up to one that is present, last first, and the first entry of a value that two have. -/
theorem scans_see_window_repeated :
    let t := Tree.bare "db" "t"
    let s := Cursor.repeatedReader
    let listing : Visitor (List Bytes) := fun keys e => (keys ++ [e.1], true)
    let sevens : Condition Nat := fun asked e => (e.2 == [7], asked + 1)
    (t.scanReverse (some [1]) none listing []).run s =
        (.ok [[1], [0]], s.counted (·.recordScan)) ∧
      (t.collectRange none (some [1]) sevens 0 1).run s =
        (.ok [([0], [7])], s.counted (·.recordScan)) := by
  intro t s listing sevens
  obtain ⟨-, ⟨seen, hscan, hseen⟩, -, chosen, asked, -, hcollect, -, -, hchosen⟩ :=
    scans_see_window (t := t) (s := s) rfl rfl rfl Cursor.holds_repeatedStore.entries
      none (some [1]) [] listing [] sevens 0 1
  have hall := hseen.whole fun _ _ => rfl
  constructor
  · rw [hscan, hall]
    rfl
  · rw [hcollect, hchosen]
    rfl

end Tree
end IndexedStore
