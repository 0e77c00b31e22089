import IndexedStore.Proofs.Cursor
import IndexedStore.Proofs.Lifecycle
import Mathlib.Data.List.TakeWhile

/-! # Looking up by index key

The pairs of an index are listed by index key and then by primary key. Those whose index key is not
below a given one are what the list ends with, and they begin with the pairs of that key. A cursor
over the index stands before such a rest of the list: it is on the first pair of the rest, and the
next move takes that pair off, whether the neighbour has the same index key or a greater one.
-/
namespace IndexedStore

section Ordered
variable {α : Type} {p q : α → Bool} {l : List α}

/-- What satisfies a condition that goes up along a list stands at its end. -/
theorem filter_suffix_of_up (up : l.Pairwise fun a b => p a → p b) : l.filter p <:+ l := by
  induction l with
  | nil => exact List.suffix_refl _
  | cons a rest ih =>
    obtain ⟨above, hrest⟩ := List.pairwise_cons.mp up
    cases ha : p a with
    | false =>
      rw [List.filter_cons_of_neg (by simp [ha])]
      exact (ih hrest).trans (List.suffix_cons a rest)
    | true =>
      have hall : ∀ b ∈ a :: rest, p b :=
        List.forall_mem_cons.mpr ⟨ha, fun b hb => above b hb ha⟩
      exact ⟨[], List.filter_eq_self.mpr hall⟩

/-- What satisfies a condition that goes down along a list stands at its beginning. -/
theorem takeWhile_eq_filter_of_down (down : l.Pairwise fun a b => p b → p a) :
    l.takeWhile p = l.filter p := by
  induction l with
  | nil => rfl
  | cons a rest ih =>
    obtain ⟨above, hrest⟩ := List.pairwise_cons.mp down
    cases ha : p a with
    | false =>
      have hnone : ∀ b ∈ rest, ¬ p b := fun b hb hp => Bool.false_ne_true (ha ▸ above b hb hp)
      rw [List.takeWhile_cons_of_neg (by simp [ha]), List.filter_cons_of_neg (by simp [ha]),
        List.filter_eq_nil_iff.mpr hnone]
    | true => rw [List.takeWhile_cons_of_pos ha, List.filter_cons_of_pos ha, ih hrest]

/-- A search in two passes finds what one pass finds, if nothing that the second pass looks for
precedes what the first one does. -/
theorem find?_or_of_apart (apart : l.Pairwise fun a b => q a → ¬ p b) :
    (l.find? p).or (l.find? q) = l.find? fun a => p a || q a := by
  induction l with
  | nil => rfl
  | cons a rest ih =>
    obtain ⟨above, hrest⟩ := List.pairwise_cons.mp apart
    cases hp : p a with
    | true => simp [hp]
    | false =>
      cases hq : q a with
      | true =>
        have hnone : rest.find? p = none := List.find?_eq_none.mpr fun b hb => above b hb hq
        simp [hp, hq, hnone]
      | false => simpa [hp, hq] using ih hrest

/-- Of what comes after an element of a sorted list the next comes first. -/
theorem find?_of_suffix {r : α → α → Prop} (sorted : l.Pairwise r)
    (asymm : ∀ {a b}, r a b → ¬ r b a) {a : α} {rest : List α} (h : a :: rest <:+ l)
    (hp : ∀ b, p b = true ↔ r a b) : l.find? p = rest.head? := by
  obtain ⟨passed, rfl⟩ := h
  obtain ⟨-, hordered, hpassed⟩ := List.pairwise_append.mp sorted
  obtain ⟨above, -⟩ := List.pairwise_cons.mp hordered
  have hnone : passed.find? p = none := by
    refine List.find?_eq_none.mpr fun b hb hpb => ?_
    exact asymm ((hp b).mp hpb) (hpassed b hb a List.mem_cons_self)
  have hself : ¬ p a = true := fun hpa => asymm ((hp a).mp hpa) ((hp a).mp hpa)
  rw [List.find?_append, hnone, Option.none_or, List.find?_cons_of_neg hself]
  cases rest with
  | nil => rfl
  | cons b rest => exact List.find?_cons_of_pos ((hp b).mpr (above b List.mem_cons_self))

end Ordered

namespace Pair
variable {p q : Pair}

theorem cmp_eq_lt : Pair.cmp p q = .lt ↔
    Bytes.cmp p.1 q.1 = .lt ∨ p.1 = q.1 ∧ Bytes.cmp p.2 q.2 = .lt := by
  rw [Pair.cmp, Ordering.then_eq_lt, Std.LawfulEqCmp.compare_eq_iff_eq]

/-- Index keys do not descend along the order of pairs. -/
theorem isLE_of_cmp_eq_lt (h : Pair.cmp p q = .lt) : (Bytes.cmp p.1 q.1).isLE :=
  (Ordering.isLE_then_iff_and.mp (Ordering.isLE_of_eq_lt h)).1

end Pair

namespace PairTable
variable {P : PairTable} {key : Bytes} {e : Pair} {rest : List Pair}

theorem ordered_pairs (P : PairTable) : P.pairs.Pairwise fun p q => Pair.cmp p q = .lt :=
  List.pairwise_map.mpr P.ordered

/-- Looking for a primary key under an index key is looking for the pair of both. -/
theorem find?_under (l : List Pair) (key : Bytes) (p : Bytes → Bool) :
    (((l.filter fun q => q.1 == key).map Prod.snd).find? p).map (fun k => (key, k)) =
      l.find? fun q => q.1 == key && p q.2 := by
  induction l with
  | nil => rfl
  | cons q rest ih =>
    by_cases hkey : q.1 = key
    · subst hkey
      cases hp : p q.2 with
      | true => simp [hp]
      | false => simpa [hp] using ih
    · simpa [hkey] using ih

/-- A neighbour is sought under the index key and then beyond it. One pass finds the same if the
list has what is beyond the index key after what is near. -/
theorem find?_neighbour {l : List Pair} (e : Pair) (near beyond : Bytes → Bool)
    (apart : l.Pairwise fun a b => beyond a.1 → ¬ (b.1 == e.1 && near b.2)) :
    (match ((l.filter fun q => q.1 == e.1).map Prod.snd).find? near with
      | some k => some (e.1, k)
      | none => l.find? fun q => beyond q.1) =
        l.find? fun q => q.1 == e.1 && near q.2 || beyond q.1 := by
  rw [← find?_or_of_apart apart, ← find?_under]
  cases ((l.filter fun q => q.1 == e.1).map Prod.snd).find? near <;> rfl

/-- The next pair is the first one above, of the same index key or of a greater one. -/
theorem pairAt_after (P : PairTable) (e : Pair) :
    P.pairAt (.after e) = P.pairs.find? fun q => Pair.cmp e q == .lt := by
  have apart : P.pairs.Pairwise fun a b =>
      Bytes.cmp e.1 a.1 == .lt → ¬ (b.1 == e.1 && Bytes.cmp e.2 b.2 == .lt) := by
    refine P.ordered_pairs.imp fun {a b} hab ha hb => ?_
    simp only [beq_iff_eq, Bool.and_eq_true] at ha hb
    rw [← hb.1] at ha
    exact OrderedMap.ne_of_lt (Std.TransCmp.lt_of_lt_of_isLE ha (Pair.isLE_of_cmp_eq_lt hab)) rfl
  refine (find?_neighbour e (fun k => Bytes.cmp e.2 k == .lt) (fun k => Bytes.cmp e.1 k == .lt)
    apart).trans ?_
  refine congrArg (P.pairs.find? ·) (funext fun q => Bool.eq_iff_iff.mpr ?_)
  simp only [Bool.or_eq_true, Bool.and_eq_true, beq_iff_eq, Pair.cmp_eq_lt, or_comm,
    eq_comm (a := q.1)]

theorem pairAt_before (P : PairTable) (e : Pair) :
    P.pairAt (.before e) = P.pairs.reverse.find? fun q => Pair.cmp q e == .lt := by
  have apart : P.pairs.reverse.Pairwise fun a b =>
      Bytes.cmp a.1 e.1 == .lt → ¬ (b.1 == e.1 && Bytes.cmp b.2 e.2 == .lt) := by
    refine (List.pairwise_reverse.mpr P.ordered_pairs).imp fun {a b} hba ha hb => ?_
    simp only [beq_iff_eq, Bool.and_eq_true] at ha hb
    rw [← hb.1] at ha
    exact OrderedMap.ne_of_lt (Std.TransCmp.lt_of_isLE_of_lt (Pair.isLE_of_cmp_eq_lt hba) ha) rfl
  rw [pairAt, primaryKeys, ← List.map_reverse, ← List.filter_reverse]
  refine (find?_neighbour e (fun k => Bytes.cmp k e.2 == .lt) (fun k => Bytes.cmp k e.1 == .lt)
    apart).trans ?_
  refine congrArg (P.pairs.reverse.find? ·) (funext fun q => Bool.eq_iff_iff.mpr ?_)
  simp only [Bool.or_eq_true, Bool.and_eq_true, beq_iff_eq, Pair.cmp_eq_lt, or_comm]

/-- The pairs whose index key is not below the given one, in order. -/
def notBelow (P : PairTable) (key : Bytes) : List Pair :=
  P.pairs.filter fun q => (Bytes.cmp key q.1).isLE

theorem pairAt_notBelow (P : PairTable) (key : Bytes) :
    P.pairAt (.notBelow key) = (P.notBelow key).head? := (List.head?_filter ..).symm

theorem mem_notBelow {q : Pair} : q ∈ P.notBelow key ↔ q ∈ P.pairs ∧ (Bytes.cmp key q.1).isLE :=
  List.mem_filter

theorem notBelow_suffix (P : PairTable) (key : Bytes) : P.notBelow key <:+ P.pairs :=
  filter_suffix_of_up (P.ordered_pairs.imp fun hab ha =>
    Std.TransCmp.isLE_trans ha (Pair.isLE_of_cmp_eq_lt hab))

/-- The pairs of an index key are what the pairs not below it begin with. -/
theorem takeWhile_notBelow (P : PairTable) (key : Bytes) :
    (P.notBelow key).takeWhile (fun q => q.1 == key) = P.pairs.filter fun q => q.1 == key := by
  have down : (P.notBelow key).Pairwise fun a b => b.1 == key → a.1 == key := by
    refine (P.ordered_pairs.filter _).imp_of_mem fun {a b} ha _ hab hb => ?_
    obtain rfl : b.1 = key := eq_of_beq hb
    exact beq_iff_eq.mpr (Std.LawfulEqCmp.eq_of_compare
      (Std.OrientedCmp.isLE_antisymm (Pair.isLE_of_cmp_eq_lt hab) (mem_notBelow.mp ha).2))
  have above (q : Pair) (h : q.1 == key) : (Bytes.cmp key q.1).isLE := by
    rw [eq_of_beq h]
    exact Std.ReflCmp.isLE_rfl
  rw [takeWhile_eq_filter_of_down down, notBelow, List.filter_filter]
  exact List.filter_congr fun q _ => Bool.and_eq_left_iff_imp.mpr (above q)

theorem pairAt_exactly (P : PairTable) (key : Bytes) :
    P.pairAt (.exactly key) = (P.pairs.filter fun q => q.1 == key).head? := by
  rw [pairAt, primaryKeys, List.head?_map, Option.map_map]
  cases hq : (P.pairs.filter fun q => q.1 == key).head? with
  | none => rfl
  | some q =>
    obtain rfl : q.1 = key := by simpa using (List.mem_filter.mp (List.mem_of_head? hq)).2
    rfl

theorem ordered_primaryKeys (P : PairTable) (key : Bytes) :
    (P.primaryKeys key).Pairwise fun k k' => Bytes.cmp k k' = .lt := by
  refine List.pairwise_map.mpr ((P.ordered_pairs.filter _).imp_of_mem fun {a b} ha hb hab => ?_)
  have hsame : a.1 = b.1 :=
    (eq_of_beq (List.mem_filter.mp ha).2).trans (eq_of_beq (List.mem_filter.mp hb).2).symm
  rcases Pair.cmp_eq_lt.mp hab with hlt | ⟨-, hlt⟩
  · exact absurd hsame (OrderedMap.ne_of_lt hlt)
  · exact hlt

theorem pairAt_after_of_suffix (h : e :: rest <:+ P.pairs) : P.pairAt (.after e) = rest.head? := by
  rw [pairAt_after]
  refine find?_of_suffix P.ordered_pairs (fun hab hba => ?_) h fun _ => beq_iff_eq
  rw [Std.OrientedCmp.gt_of_lt hab] at hba
  cases hba

end PairTable

/-- The store holds the entries `T` of a tree, and the pairs `P` of one of its indexes are those
that the entries give rise to. -/
structure Tree.ExactIn (t : Tree) (i : Index) (S : Store) (T : Table) (P : PairTable) : Prop where
  attached : i ∈ t.indexes
  entries : S.table? t.name = some T
  pairs : S.pairs? (t.indexTable i) = some P
  exact : i.Exact T P

namespace Cursor
variable {t : Tree} {i : Index} {s : Scope} {P : PairTable}

/-- What a cursor lists that is moved on for as long as its key satisfies a condition: its key and
its primary key at each stop. No move fails. -/
inductive Walk (t : Tree) (p : Bytes → Bool) :
    Cursor × Scope → List (Bytes × Bytes) → Cursor × Scope → Prop
  | done {σ : Cursor × Scope} (ended : σ.1.key.any p = false) : Walk t p σ [] σ
  | step {σ σ₁ σ₂ : Cursor × Scope} {key mainKey : Bytes} {more : Bool} {l : List (Bytes × Bytes)}
    (on_key : σ.1.key = some key) (within : p key) (on_main : σ.1.mainKey = some mainKey)
    (moved : (next t).run σ = (.ok more, σ₁)) (rest : Walk t p σ₁ l σ₂) :
    Walk t p σ ((key, mainKey) :: l) σ₂

theorem Walk.ended {p : Bytes → Bool} {σ σ' : Cursor × Scope} {l : List (Bytes × Bytes)}
    (h : Walk t p σ l σ') : σ'.1.key.any p = false := by
  induction h with
  | done ended => exact ended
  | step _ _ _ _ _ ih => exact ih

/-- The transaction reads the pairs of the index, which compares index keys as bytes. -/
structure Reads (t : Tree) (i : Index) (s : Scope) (P : PairTable) : Prop where
  opened : (Scope.openPairs (t.indexTable i)).run s = (.ok P, s)
  bytewise : i.compare? = none

theorem Reads.run_landing (h : Reads t i s P) (e? : Option Entry) (p : Place) :
    (landing t ⟨some i, e?⟩ p).run s = (.ok (P.pairAt p), s) := by
  have hlook : (look t ⟨some i, e?⟩ p).run s = (.ok (P.pairAt p), s) :=
    Attempt.run_bind_ok h.opened _
  have hcompare : compare? t ⟨some i, e?⟩ = none := h.bytewise
  unfold landing
  split
  · rename_i hsome
    rw [hcompare] at hsome
    cases hsome
  · exact hlook

theorem Reads.run_moveTo (h : Reads t i s P) (e? : Option Entry) (p : Place) :
    (moveTo t p).run (⟨some i, e?⟩, s) =
      (.ok (P.pairAt p).isSome, (⟨some i, P.pairAt p⟩, s)) :=
  run_moveTo_of_landing (h.run_landing e? p)

/-- A cursor before a rest of the pairs lists the pairs with which the rest begins. -/
theorem Reads.walk (h : Reads t i s P) (p : Bytes → Bool) {rest : List Pair}
    (hrest : rest <:+ P.pairs) :
    ∃ c, Walk t p (⟨some i, rest.head?⟩, s) (rest.takeWhile fun q => p q.1) (c, s) := by
  induction rest with
  | nil => exact ⟨_, .done rfl⟩
  | cons q rest ih =>
    cases hp : p q.1 with
    | false =>
      rw [List.takeWhile_cons_of_neg (by simp [hp])]
      exact ⟨_, .done (by simpa [key] using hp)⟩
    | true =>
      obtain ⟨c, hwalk⟩ := ih ((List.suffix_cons q rest).trans hrest)
      have hmoved := h.run_moveTo (some q) (.after q)
      rw [PairTable.pairAt_after_of_suffix hrest] at hmoved
      rw [List.takeWhile_cons_of_pos (p := fun q : Pair => p q.1) hp]
      exact ⟨c, .step rfl hp rfl hmoved hwalk⟩

theorem Reads.run_seekIndex (h : Reads t i s P) (attached : i ∈ t.indexes) {ek : Bytes}
    (nonempty : ek ≠ []) (p : Bytes → Place) :
    (seekIndex t i.name ek p).run s = (.ok ⟨some i, P.pairAt (p ek)⟩, s) := by
  have hfound := Tree.attached_eq_ok_iff.mpr (Tree.index?_of_mem attached)
  have hmove := h.run_moveTo none (p ek)
  cases ek with
  | nil => exact absurd rfl nonempty
  | cons b rest =>
    simp only [Attempt.run] at hmove
    rw [seekIndex, hfound, Attempt.run_bind, Attempt.run_ofExcept]
    simp only [List.isEmpty_cons, Bool.false_eq_true, ↓reduceIte, Attempt.run, hmove]

/-- A cursor placed on an index key stands on a pair just when the key has one, and lists the
primary keys under it in order. -/
theorem Reads.seek_exactly (h : Reads t i s P) (attached : i ∈ t.indexes) {ek : Bytes}
    (nonempty : ek ≠ []) :
    ∃ c c', (seekIndex t i.name ek .exactly).run s = (.ok c, s) ∧
      (c.isValid ↔ ∃ k, (ek, k) ∈ P.pairs) ∧
      Walk t (· == ek) (c, s) (P.pairs.filter fun q => q.1 == ek) (c', s) := by
  have hseek := h.run_seekIndex attached nonempty .exactly
  obtain ⟨c', hwalk⟩ := h.walk (· == ek) (P.notBelow_suffix ek)
  have hfirst := List.head?_takeWhile (p := fun q : Pair => q.1 == ek) (l := P.notBelow ek)
  rw [PairTable.pairAt_exactly] at hseek
  rw [PairTable.takeWhile_notBelow] at hwalk hfirst
  cases hunder : P.pairs.filter fun q => q.1 == ek with
  | nil =>
    rw [hunder] at hseek
    refine ⟨_, _, hseek, ?_, .done rfl⟩
    have hnone : ¬ ∃ k, (ek, k) ∈ P.pairs := fun ⟨k, hk⟩ =>
      List.filter_eq_nil_iff.mp hunder (ek, k) hk (beq_self_eq_true ek)
    exact iff_of_false Bool.false_ne_true hnone
  | cons q rest =>
    -- the first pair under the key is also the first one not below it, from where the walk starts
    rw [hunder] at hseek hfirst hwalk
    have hq : q ∈ P.pairs ∧ q.1 == ek :=
      List.mem_filter.mp (hunder ▸ List.mem_cons_self)
    rw [(Option.filter_eq_some_iff.mp hfirst.symm).1] at hwalk
    refine ⟨_, _, hseek, ⟨fun _ => ⟨q.2, ?_⟩, fun _ => rfl⟩, hwalk⟩
    rw [← eq_of_beq hq.2]
    exact hq.1

theorem Reads.seek_notBelow (h : Reads t i s P) (attached : i ∈ t.indexes) {ek : Bytes}
    (nonempty : ek ≠ []) :
    ∃ c c', (seekIndex t i.name ek .notBelow).run s = (.ok c, s) ∧
      Walk t (fun _ => true) (c, s) (P.notBelow ek) (c', s) := by
  have hseek := h.run_seekIndex attached nonempty .notBelow
  rw [PairTable.pairAt_notBelow] at hseek
  obtain ⟨c', hwalk⟩ := h.walk (fun _ => true) (P.notBelow_suffix ek)
  have hall : (P.notBelow ek).takeWhile (fun _ => true) = P.notBelow ek :=
    List.takeWhile_eq_self_iff.mpr fun _ _ => rfl
  rw [hall] at hwalk
  exact ⟨_, c', hseek, hwalk⟩

/-- Placing a cursor on an index key finds a pair just when an entry gives rise to one, and walking
while the key is the same lists the primary keys of those entries, each once and in order. Placed on
a key or above, the cursor lists up to the end every pair that is not below the key, in order. -/
theorem index_lookup_exact {d : Database} {T : Table} (stored : t.ExactIn i d.store T P)
    (bytewise : i.compare? = none) {ek : Bytes} (nonempty : ek ≠ []) (n : Int64) :
    (∃ c l c', (seekIndex t i.name ek .exactly).run (d.scope d.beginRead n) =
        (.ok c, d.scope d.beginRead n) ∧
      (c.isValid ↔ ∃ k value, T.get? k = some value ∧ i.extract value = some ek) ∧
      Walk t (· == ek) (c, d.scope d.beginRead n) l (c', d.scope d.beginRead n) ∧
      (l.map Prod.snd).Pairwise (fun k k' => Bytes.cmp k k' = .lt) ∧
      ∀ k, k ∈ l.map Prod.snd ↔ ∃ value, T.get? k = some value ∧ i.extract value = some ek) ∧
    ∃ c l c', (seekIndex t i.name ek .notBelow).run (d.scope d.beginRead n) =
        (.ok c, d.scope d.beginRead n) ∧
      Walk t (fun _ => true) (c, d.scope d.beginRead n) l (c', d.scope d.beginRead n) ∧
      c'.isValid = false ∧ l.Pairwise (fun p q => Pair.cmp p q = .lt) ∧
      ∀ p, p ∈ l ↔ (Bytes.cmp ek p.1).isLE ∧
        ∃ value, T.get? p.2 = some value ∧ i.extract value = some p.1 := by
  have hreads : Reads t i (d.scope d.beginRead n) P := ⟨by
    simp only [Attempt.run, Scope.openPairs, Database.scope, Database.beginRead, Store.readPairs,
      stored.pairs], bytewise⟩
  have hexact := stored.exact
  constructor
  · obtain ⟨c, c', hseek, hvalid, hwalk⟩ := hreads.seek_exactly stored.attached nonempty
    refine ⟨c, _, c', hseek, ?_, hwalk, ?_, fun k => ?_⟩
    · rw [hvalid]
      exact exists_congr fun k => hexact (ek, k)
    · exact P.ordered_primaryKeys ek
    · change k ∈ P.primaryKeys ek ↔ _
      rw [PairTable.mem_primaryKeys]
      exact hexact (ek, k)
  · obtain ⟨c, c', hseek, hwalk⟩ := hreads.seek_notBelow stored.attached nonempty
    refine ⟨c, _, c', hseek, hwalk, ?_, P.ordered_pairs.filter _, fun p => ?_⟩
    · have hended := hwalk.ended
      unfold isValid
      unfold key at hended
      cases hc : c'.position with
      | none => rfl
      | some e => simp [hc] at hended
    · rw [PairTable.mem_notBelow, hexact p, and_comm]
      rfl

/-- A tree with an index over the values that are not empty. -/
def valueIndexed : Tree :=
  ⟨"db", "t", [⟨"value", 0, fun value _ => if value = [] then none else some value, none, false,
    false, none⟩], none, none, by decide⟩

def repeatedEntries : List Entry := [([0], [7]), ([1], [7]), ([2], [7, 0])]

def repeatedTable : Table := repeatedEntries.foldl (fun T e => T.insert e.1 e.2) .empty

def repeatedStore : Store :=
  (repeatedEntries.foldl (fun M e => (M.1.insert e.1 e.2, valueIndexed.afterWrite e.1 e.2 M.1 M.2))
    (.empty, (Store.empty.putTable "t" .empty).putPairs (indexTableName "t" "value") .empty)).2

def repeatedDatabase : Database :=
  ⟨"db", defaultMapSize, defaultMaxTables, schemaVersion 1 0, ⟨false, false⟩, .empty, {},
    repeatedStore⟩

def repeatedReader : Scope := repeatedDatabase.scope repeatedDatabase.beginRead 0

theorem holds_repeatedStore : valueIndexed.Holds repeatedTable repeatedStore := by
  have hempty : valueIndexed.Holds .empty
      ((Store.empty.putTable "t" .empty).putPairs (indexTableName "t" "value") .empty) :=
    Tree.holds_empty rfl (by simp [valueIndexed, Tree.indexTable])
  have hwrite : ∀ {M S} (e : Entry), e.1 ≠ [] → valueIndexed.Holds M S →
      valueIndexed.Holds (M.insert e.1 e.2) (valueIndexed.afterWrite e.1 e.2 M S) :=
    fun _ hkey hholds => hholds.afterWrite hkey
  have hfirst := hwrite ([0], [7]) (by decide) hempty
  have hsecond := hwrite ([1], [7]) (by decide) hfirst
  exact hwrite ([2], [7, 0]) (by decide) hsecond

theorem index_lookup_exact_repeated :
    (∃ c l c', (seekIndex valueIndexed "value" [7] .exactly).run repeatedReader =
        (.ok c, repeatedReader) ∧ c.isValid ∧
      Walk valueIndexed (· == [7]) (c, repeatedReader) l (c', repeatedReader) ∧
      [0] ∈ l.map Prod.snd ∧ [1] ∈ l.map Prod.snd ∧ [2] ∉ l.map Prod.snd) ∧
    ∃ c l c', (seekIndex valueIndexed "value" [7] .notBelow).run repeatedReader =
        (.ok c, repeatedReader) ∧
      Walk valueIndexed (fun _ => true) (c, repeatedReader) l (c', repeatedReader) ∧
      ([7, 0], [2]) ∈ l := by
  obtain ⟨P, hP, hexact⟩ := holds_repeatedStore.exact _ List.mem_cons_self
  obtain ⟨⟨c, l, c', hseek, hvalid, hwalk, -, hlist⟩, b, m, b', hseek', hwalk', -, -, hlist'⟩ :=
    index_lookup_exact (d := repeatedDatabase)
      ⟨List.mem_cons_self, holds_repeatedStore.entries, hP, hexact⟩ rfl (List.cons_ne_nil 7 []) 0
  refine ⟨⟨c, l, c', hseek, hvalid.mpr ⟨[0], [7], rfl, rfl⟩, hwalk, (hlist _).mpr ⟨[7], rfl, rfl⟩,
    (hlist _).mpr ⟨[7], rfl, rfl⟩, fun h => ?_⟩, b, m, b', hseek', hwalk',
    (hlist' _).mpr ⟨rfl, [7, 0], rfl, rfl⟩⟩
  obtain ⟨value, hget, hextract⟩ := (hlist _).mp h
  obtain rfl : [7, 0] = value := Option.some.inj hget
  exact absurd hextract (by decide)

end Cursor
end IndexedStore
