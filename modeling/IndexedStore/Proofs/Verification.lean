import IndexedStore.Index.Verify
import IndexedStore.Proofs.PlainMap
import Mathlib.Data.List.Chain

/-! # What verification accepts

Verification walks the entries for missing pairs and the pairs for those that no entry gives rise
to. It meets a repeated key only next to its like, which is enough: pairs lie in the order of their
index keys. So an index passes exactly when its table is exact and, if it is unique, single. One
that does not pass is reported by a fault that it has.
-/
namespace IndexedStore

/-- A sequence of checks succeeds when each of them does. -/
theorem forM_eq_ok_iff {α ε : Type} {f : α → Except ε Unit} {l : List α} :
    l.forM f = .ok () ↔ ∀ a ∈ l, f a = .ok () := by
  induction l with
  | nil => simp [List.forM, pure, Except.pure]
  | cons a rest ih =>
    change (f a >>= fun _ => rest.forM f) = _ ↔ _
    rw [List.forall_mem_cons, ← ih]
    cases f a <;> simp [bind, Except.bind]

namespace PairTable

/-- Pairs are told apart by their index keys if neighbours are. -/
theorem isChain_ne_iff (P : PairTable) :
    P.pairs.IsChain (fun p q => p.1 ≠ q.1) ↔ ∀ p ∈ P.pairs, ∀ q ∈ P.pairs, p.1 = q.1 → p = q := by
  have hsorted : P.pairs.Pairwise fun p q => Pair.cmp p q = .lt := List.pairwise_map.mpr P.ordered
  constructor
  · intro h
    -- neighbours are in order and differ, so their index keys increase throughout
    have hlt : P.pairs.IsChain fun p q => Bytes.cmp p.1 q.1 = .lt := by
      rw [List.isChain_iff_forall_rel_of_append_cons_cons] at h ⊢
      intro p q l₁ l₂ hl
      have hpq := List.isChain_iff_forall_rel_of_append_cons_cons.mp hsorted.isChain hl
      rcases Ordering.then_eq_lt.mp hpq with hlt | ⟨heq, -⟩
      · exact hlt
      · exact absurd (Std.LawfulEqCmp.eq_of_compare heq) (h hl)
    let r : Pair → Pair → Prop := fun p q => Bytes.cmp p.1 q.1 = .lt
    have : Trans r r r := ⟨fun hpq hqr => Std.TransCmp.lt_trans hpq hqr⟩
    have hnodup : (P.pairs.map Prod.fst).Nodup :=
      List.pairwise_map.mpr (List.IsChain.pairwise (R := r) hlt |>.imp OrderedMap.ne_of_lt)
    exact fun p hp q hq heq => List.inj_on_of_nodup_map hnodup hp hq heq
  · intro h
    refine (hsorted.imp_of_mem fun {p q} hp hq hlt heq => ?_).isChain
    exact OrderedMap.ne_of_lt hlt (h p hp q hq heq)

end PairTable

namespace Index
variable {i : Index} {T : Table} {P : PairTable}

theorem coversEntry_iff {e : Bytes × Bytes} :
    i.coversEntry P e = true ↔ ∀ k, i.extract e.2 = some k → (k, e.1) ∈ P.pairs := by
  unfold coversEntry
  cases i.extract e.2 with
  | none => simp
  | some indexKey =>
    simp [PairTable.pairs, OrderedMap.mem_keys, OrderedMap.contains, Option.isSome_iff_exists]

theorem all_coversEntry_iff : T.toList.all (i.coversEntry P) = true ↔ i.Complete T P := by
  simp only [List.all_eq_true, coversEntry_iff]
  constructor
  · rintro h ⟨indexKey, key⟩ ⟨value, hv, he⟩
    exact h (key, value) (OrderedMap.get?_eq_some_iff.mp hv) indexKey he
  · rintro h ⟨key, value⟩ hmem indexKey he
    exact h (indexKey, key) ⟨value, OrderedMap.get?_eq_some_iff.mpr hmem, he⟩

theorem checkPair_eq_ok_iff {p : Pair} : i.checkPair T p = .ok () ↔ i.Derives T p := by
  unfold checkPair Derives
  cases T.get? p.2 with
  | none => simp
  | some value =>
    simp only [Option.some.injEq, exists_eq_left']
    split <;> simp_all

theorem checkPairs_eq_ok_iff {previous : Option Bytes} {l : List Pair} :
    i.checkPairs T previous l = .ok () ↔ (∀ p ∈ l, i.Derives T p) ∧
      (i.unique = true →
        (∀ p ∈ l.head?, previous ≠ some p.1) ∧ l.IsChain fun p q => p.1 ≠ q.1) := by
  induction l generalizing previous with
  | nil => simp [checkPairs]
  | cons p rest ih =>
    rw [checkPairs, List.forall_mem_cons, ← checkPair_eq_ok_iff, List.isChain_cons]
    cases checkPair i T p with
    | error e => simp [bind, Except.bind]
    | ok _ =>
      cases hu : i.unique with
      | false =>
        simp [bind, Except.bind, ih, hu]
      | true =>
        have hnext : (∀ q ∈ rest.head?, some p.1 ≠ some q.1) ↔ ∀ q ∈ rest.head?, p.1 ≠ q.1 := by
          simp only [ne_eq, Option.some.injEq]
        by_cases hp : previous = some p.1
        · simp [bind, Except.bind, hp]
        · simp only [bind, Except.bind, Bool.true_and, beq_iff_eq, hp, if_false]
          rw [ih, hu, hnext]
          simp [hp]

/-- An index passes when its pairs are those of the entries and a unique index repeats no key. -/
theorem check_eq_ok_iff : i.check T P = .ok () ↔ i.Exact T P ∧ i.Single P := by
  rw [check, exact_iff, ← all_coversEntry_iff]
  cases T.toList.all (i.coversEntry P) with
  | false => simp [bind, Except.bind]
  | true =>
    simp [checkPairs_eq_ok_iff, Sound, Single, PairTable.isChain_ne_iff]

end Index

namespace Tree
variable {t : Tree} {S : Store} {T : Table}

/-- An index of a tree passes when its table is there and passes. -/
theorem check_readPairs_eq_ok_iff {n : String} {i : Index} :
    (S.readPairs n >>= i.check T) = .ok () ↔
      ∃ P, S.pairs? n = some P ∧ i.Exact T P ∧ i.Single P := by
  rw [Store.readPairs]
  cases S.pairs? n with
  | none => simp [bind, Except.bind]
  | some P => simp [bind, Except.bind, Index.check_eq_ok_iff]

/-- A tree passes when every attached index has its table and passes. -/
theorem verify_eq_ok_iff (hT : S.table? t.name = some T) :
    t.verify S = .ok () ↔
      ∀ i ∈ t.indexes, ∃ P, S.pairs? (t.indexTable i) = some P ∧ i.Exact T P ∧ i.Single P := by
  have hread : S.readTable t.name = .ok T := by rw [Store.readTable, hT]
  rw [verify]
  split
  · rename_i hnone
    simp [List.isEmpty_iff.mp hnone]
  · rw [hread]
    change (t.indexes.forM fun i => S.readPairs (t.indexTable i) >>= i.check T) = _ ↔ _
    rw [forM_eq_ok_iff]
    simp only [check_readPairs_eq_ok_iff]

end Tree

/-! ## What verification reports -/

theorem exists_of_forM_eq_error {α ε : Type} {f : α → Except ε Unit} {l : List α} {e : ε}
    (h : l.forM f = .error e) : ∃ a ∈ l, f a = .error e := by
  induction l with
  | nil => cases h
  | cons a rest ih =>
    change (f a >>= fun _ => rest.forM f) = _ at h
    cases ha : f a with
    | error e' =>
      rw [ha] at h
      cases h
      exact ⟨a, List.mem_cons_self, ha⟩
    | ok _ =>
      rw [ha] at h
      obtain ⟨b, hb, hf⟩ := ih h
      exact ⟨b, List.mem_cons_of_mem _ hb, hf⟩

namespace Index
variable {i : Index} {T : Table} {P : PairTable} {e : Failure}

/-- What may be wrong with an index, and how it is reported. -/
inductive Fault (i : Index) (T : Table) (P : PairTable) : Failure → Prop
  | missing {p} (derived : i.Derives T p) (absent : p ∉ P.pairs) : i.Fault T P (.missingPair i.name)
  | orphaned {p} (present : p ∈ P.pairs) (noEntry : T.get? p.2 = none) :
    i.Fault T P (.orphanedPair i.name)
  | stale {p value} (present : p ∈ P.pairs) (entry : T.get? p.2 = some value)
    (other : i.extract value ≠ some p.1) : i.Fault T P (.stalePair i.name)
  | repeated {p q} (unique : i.unique = true) (first : p ∈ P.pairs) (second : q ∈ P.pairs)
    (sameKey : p.1 = q.1) (differ : p ≠ q) : i.Fault T P (.repeatedKey i.name)

theorem Fault.code (h : i.Fault T P e) : e.code = .indexError := by
  cases h <;> rfl

theorem fault_of_checkPair {p : Pair} (hp : p ∈ P.pairs) (h : i.checkPair T p = .error e) :
    i.Fault T P e := by
  unfold checkPair at h
  cases hv : T.get? p.2 with
  | none =>
    rw [hv] at h
    cases h
    exact .orphaned hp hv
  | some value =>
    rw [hv] at h
    simp only at h
    split at h
    · cases h
    · rename_i hother
      cases h
      exact .stale hp hv hother

/-- The pair before, whose index key is remembered, is not met again. -/
theorem fault_of_checkPairs {previous : Option Bytes} {l : List Pair} (hl : l.Nodup)
    (hin : ∀ p ∈ l, p ∈ P.pairs)
    (hprevious : ∀ k ∈ previous, ∃ q ∈ P.pairs, q.1 = k ∧ q ∉ l)
    (h : i.checkPairs T previous l = .error e) : i.Fault T P e := by
  induction l generalizing previous with
  | nil => cases h
  | cons p rest ih =>
    have hp := hin p List.mem_cons_self
    rw [List.nodup_cons] at hl
    rw [checkPairs] at h
    cases hc : i.checkPair T p with
    | error e' =>
      rw [hc] at h
      cases h
      exact fault_of_checkPair hp hc
    | ok _ =>
      simp only [hc, bind, Except.bind] at h
      split at h
      · rename_i hrepeated
        cases h
        rw [Bool.and_eq_true, beq_iff_eq] at hrepeated
        obtain ⟨q, hq, hkey, hnot⟩ := hprevious p.1 hrepeated.2
        exact .repeated hrepeated.1 hq hp hkey fun h => hnot (h ▸ List.mem_cons_self)
      · refine ih hl.2 (fun q hq => hin q (List.mem_cons_of_mem _ hq)) ?_ h
        rintro k ⟨⟩
        exact ⟨p, hp, rfl, hl.1⟩

theorem fault_of_check (h : i.check T P = .error e) : i.Fault T P e := by
  have hnodup : P.pairs.Nodup := (List.pairwise_map.mpr P.ordered).imp OrderedMap.ne_of_lt
  unfold check at h
  cases hall : T.toList.all (i.coversEntry P) with
  | true =>
    rw [hall] at h
    exact fault_of_checkPairs hnodup (fun _ hp => hp) (by simp) h
  | false =>
    rw [hall] at h
    cases h
    have hincomplete : ¬ i.Complete T P := fun hc =>
      Bool.false_ne_true (hall.symm.trans (all_coversEntry_iff.mpr hc))
    simp only [Complete, not_forall] at hincomplete
    obtain ⟨p, hp, hnot⟩ := hincomplete
    exact .missing hp hnot

end Index

namespace Tree
variable {t : Tree} {S : Store} {T : Table}

/-- With a table for every attached index, whatever is reported is wrong with one of them. -/
theorem fault_of_verify {e : Failure} (hT : S.table? t.name = some T) (hS : t.Furnished S)
    (h : t.verify S = .error e) : ∃ i ∈ t.indexes, i.Fault T (t.pairsOf S i) e := by
  have hread : S.readTable t.name = .ok T := by rw [Store.readTable, hT]
  rw [verify] at h
  split at h
  · cases h
  · rw [hread] at h
    obtain ⟨i, hi, hcheck⟩ := exists_of_forM_eq_error h
    have hpairs : S.readPairs (t.indexTable i) = .ok (t.pairsOf S i) := by
      rw [Store.readPairs, hS.pairs? hi]
    rw [hpairs] at hcheck
    exact ⟨i, hi, Index.fault_of_check hcheck⟩

/-- Whatever the tables hold, verification accepts the store when the table of every attached index
is exact and no unique index repeats a key, and no other store. What it reports is an index error,
and true of an attached index. -/
theorem verify_accepts_exactly_consistent (hT : S.table? t.name = some T) (hS : t.Furnished S) :
    (t.verify S = .ok () ↔
      ∀ i ∈ t.indexes, ∃ P, S.pairs? (t.indexTable i) = some P ∧ i.Exact T P ∧ i.Single P) ∧
    (t.verify S ≠ .ok () → ∃ e, t.verify S = .error e ∧ e.code = .indexError ∧
      ∃ i ∈ t.indexes, i.Fault T (t.pairsOf S i) e) := by
  refine ⟨verify_eq_ok_iff hT, fun hne => ?_⟩
  cases h : t.verify S with
  | ok _ => exact absurd h hne
  | error e =>
    obtain ⟨i, hi, hfault⟩ := fault_of_verify hT hS h
    exact ⟨e, rfl, hfault.code, i, hi, hfault⟩

/-- A store for `wholeIndexed` with one entry and, beside its pair, one that it does not give rise
to. -/
def strayPairStore : Store :=
  let S := wholeIndexed.afterWrite [0] [1] .empty wholeIndexedStore
  S.putPairs (indexTableName "t" "whole")
    (OrderedMap.insert (OrderedMap.insert .empty ([1], [0]) ()) ([2], [0]) ())

theorem verify_accepts_exactly_consistent_strayPairStore :
    strayPairStore.table? "t" = some (.insert .empty [0] [1]) ∧
      wholeIndexed.Furnished strayPairStore ∧
      ∃ e, wholeIndexed.verify strayPairStore = .error e ∧ e.code = .indexError ∧
        ∃ i ∈ wholeIndexed.indexes,
          i.Fault (.insert .empty [0] [1]) (wholeIndexed.pairsOf strayPairStore i) e := by
  have hT : strayPairStore.table? wholeIndexed.name = some (.insert .empty [0] [1]) := rfl
  have hS : wholeIndexed.Furnished strayPairStore := by decide
  exact ⟨hT, hS, (verify_accepts_exactly_consistent hT hS).2 (by decide)⟩

end Tree
end IndexedStore
