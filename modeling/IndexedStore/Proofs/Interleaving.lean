import IndexedStore.Proofs.Commuting

/-! # Calls on different keys, interleaved

A call on one entry reads and writes that entry and the pairs of its key, and adds to counters.
Index tables are shared by all keys, but no two keys share a pair. So calls on different keys
commute as long as nothing is checked against other entries, as unique indexes would have it, and
any two interleavings of the same calls for each key come to the same.
-/
namespace IndexedStore
open Attempt

/-! ## Interleavings -/

namespace Attempt
variable {σ κ γ α : Type}

/-- Takes tagged steps one after another, whether or not those before succeed. The answers are
tagged like the steps. -/
def runEach (step : κ → γ → Attempt σ α) : List (κ × γ) → σ → List (κ × Except Failure α) × σ
  | [], s => ([], s)
  | (k, g) :: rest, s =>
    let (answer, s') := (step k g).run s
    let (answers, s'') := runEach step rest s'
    ((k, answer) :: answers, s'')

section
variable [BEq κ]

/-- What is tagged so, in order. -/
def under (k : κ) (l : List (κ × α)) : List α := (l.filter (·.1 == k)).map Prod.snd

theorem under_append (k : κ) (l m : List (κ × α)) : under k (l ++ m) = under k l ++ under k m := by
  rw [under, List.filter_append, List.map_append]
  rfl

/-- Each tag's steps end alike, and so does the whole. -/
structure Alike (r r' : List (κ × Except Failure α) × σ) : Prop where
  answers : ∀ k, under k r.1 = under k r'.1
  state : r.2 = r'.2

theorem Alike.trans {r r' r'' : List (κ × Except Failure α) × σ} (h : Alike r r')
    (h' : Alike r' r'') : Alike r r'' :=
  ⟨fun k => (h.answers k).trans (h'.answers k), h.state.trans h'.state⟩

end

variable [BEq κ] [LawfulBEq κ]

theorem under_cons_self (k : κ) (a : α) (l : List (κ × α)) :
    under k ((k, a) :: l) = a :: under k l := by
  rw [under, List.filter_cons_of_pos (by exact BEq.refl k)]
  rfl

theorem under_cons_ne {k k' : κ} (h : k' ≠ k) (a : α) (l : List (κ × α)) :
    under k ((k', a) :: l) = under k l := by
  rw [under, List.filter_cons_of_neg (by simpa using h)]
  rfl

theorem exists_first {k : κ} {g : γ} {l : List (κ × γ)} {rest : List γ}
    (h : under k l = g :: rest) :
    ∃ before after, l = before ++ (k, g) :: after ∧ under k before = [] ∧ under k after = rest := by
  obtain ⟨⟨k', g'⟩, rest', hfilter, rfl, rfl⟩ := List.map_eq_cons_iff.mp h
  obtain ⟨before, after, rfl, hbefore, hk, rfl⟩ := List.filter_eq_cons_iff.mp hfilter
  obtain rfl : k' = k := eq_of_beq hk
  exact ⟨before, after, rfl, List.map_eq_nil_iff.mpr (List.filter_eq_nil_iff.mpr hbefore), rfl⟩

theorem eq_nil_of_under {l : List (κ × γ)} (h : ∀ k, under k l = []) : l = [] := by
  cases l with
  | nil => rfl
  | cons first rest =>
    have hk := h first.1
    rw [under_cons_self] at hk
    exact absurd hk (List.cons_ne_nil _ _)

variable {step : κ → γ → Attempt σ α}

theorem alike_cons {l m : List (κ × γ)} (k : κ) (g : γ) (s : σ)
    (h : Alike (runEach step l ((step k g).run s).2) (runEach step m ((step k g).run s).2)) :
    Alike (runEach step ((k, g) :: l) s) (runEach step ((k, g) :: m) s) := by
  refine ⟨fun k' => ?_, h.state⟩
  simp only [runEach]
  by_cases hk : k = k'
  · subst hk
    rw [under_cons_self, under_cons_self, h.answers]
  · rw [under_cons_ne hk, under_cons_ne hk, h.answers]

section
variable (commute : ∀ {k l}, k ≠ l → ∀ g h, (step k g).Commutes (step l h))
include commute

theorem alike_swap {k l : κ} (hkl : k ≠ l) (g h : γ) (rest : List (κ × γ)) (s : σ) :
    Alike (runEach step ((k, g) :: (l, h) :: rest) s)
      (runEach step ((l, h) :: (k, g) :: rest) s) := by
  have hc := commute hkl g h
  simp only [runEach, hc.left, hc.right, hc.state]
  refine ⟨fun k' => ?_, rfl⟩
  by_cases hk : k = k'
  · subst hk
    rw [under_cons_self, under_cons_ne hkl.symm, under_cons_ne hkl.symm, under_cons_self]
  · rw [under_cons_ne hk]
    by_cases hl : l = k'
    · subst hl
      rw [under_cons_self, under_cons_self, under_cons_ne hk]
    · rw [under_cons_ne hl, under_cons_ne hl, under_cons_ne hk]

/-- A step may be taken before those of other tags. -/
theorem alike_front {k : κ} (g : γ) {before : List (κ × γ)} (hk : under k before = [])
    (after : List (κ × γ)) (s : σ) :
    Alike (runEach step (before ++ (k, g) :: after) s)
      (runEach step ((k, g) :: (before ++ after)) s) := by
  induction before generalizing s with
  | nil => exact ⟨fun _ => rfl, rfl⟩
  | cons first before ih =>
    rcases first with ⟨l, h⟩
    have hlk : l ≠ k := by
      rintro rfl
      rw [under_cons_self] at hk
      exact List.cons_ne_nil _ _ hk
    rw [under_cons_ne hlk] at hk
    exact (alike_cons l h s (ih hk _)).trans (alike_swap commute hlk h g _ s)

/-- Interleavings of the same steps for each tag come to the same. -/
theorem alike_of_under_eq {l m : List (κ × γ)} (same : ∀ k, under k l = under k m) (s : σ) :
    Alike (runEach step l s) (runEach step m s) := by
  induction m generalizing l s with
  | nil =>
    obtain rfl := eq_nil_of_under same
    exact ⟨fun _ => rfl, rfl⟩
  | cons first rest ih =>
    rcases first with ⟨k, g⟩
    have hfirst := same k
    rw [under_cons_self] at hfirst
    obtain ⟨before, after, rfl, hbefore, hafter⟩ := exists_first hfirst
    -- the first step of its tag may be the first of all, and what is left is shorter
    refine (alike_front commute g hbefore after s).trans (alike_cons k g s (ih (fun k' => ?_) _))
    by_cases hk : k = k'
    · subst hk
      rw [under_append, hbefore, hafter]
      rfl
    · have hsame := same k'
      rwa [under_append, under_cons_ne hk, under_cons_ne hk, ← under_append] at hsame

end

end Attempt

/-! ## Calls on one entry, by what they read and write -/

/-- The plain table of a name is as it was. -/
def Store.SameTable (n : String) (S S' : Store) : Prop := S'.table? n = S.table? n

instance (n : String) : IsPreorder Store (Store.SameTable n) where
  refl _ := rfl
  trans _ _ _ h h' := h'.trans h

namespace Scope
variable {α β : Type} {n : String} {k : Bytes} {x : Attempt Scope α} {s : Scope} {S : Store}
  {T : Table}

theorem Within.exists_on {R : Store → Store → Prop} [IsPreorder Store R] (hx : Within R x)
    (s : Scope) (S : Store) : ∃ s' S', (x.run (s.on S)).2 = Scope.on s' S' ∧ R S S' := by
  obtain ⟨-, hview⟩ := hx (s.on S)
  generalize hs : (x.run (s.on S)).2 = s' at hview
  cases hv : s'.txn.view with
  | working S' =>
    rw [hv] at hview
    refine ⟨s', S', eq_on hv, ?_⟩
    cases hview with
    | refl => exact refl_of R S
    | working h => exact h
  | _ =>
    rw [hv] at hview
    cases hview

/-- Steps that agree wherever a table is as it is now agree after a step that leaves the table. -/
theorem run_bind_congr (hx : Within (Store.SameTable n) x) {f g : α → Attempt Scope β}
    (h : ∀ (a : α) (s : Scope) (S : Store), S.table? n = some T →
      (f a).run (s.on S) = (g a).run (s.on S))
    (hT : S.table? n = some T) : (x >>= f).run (s.on S) = (x >>= g).run (s.on S) := by
  obtain ⟨s', S', hs, hsame⟩ := hx.exists_on s S
  rw [run_bind, run_bind]
  rcases hrun : x.run (s.on S) with ⟨e | a, s₁⟩
  · rfl
  · rw [hrun] at hs
    obtain rfl : s₁ = s'.on S' := hs
    exact h a s' S' (hsame.trans hT)

/-- To go on from a table by what it has under a key is to go on from that. -/
theorem openTableToWrite_bind_eq {f : Table → Attempt Scope α}
    {g : Option Bytes → Attempt Scope α}
    (h : ∀ (s : Scope) (S : Store) (T : Table), S.table? n = some T →
      (f T).run (s.on S) = (g (T.get? k)).run (s.on S)) :
    openTableToWrite n >>= f = onStore (Store.readEntry n k) >>= g := by
  refine ext_run fun s => ?_
  obtain ⟨S, hs⟩ | ⟨hwritable, hread⟩ := s.writes_or_reads
  · rw [hs, run_bind, run_openTableToWrite, run_bind, run_onStore, Store.run_readEntry]
    cases hT : S.table? n with
    | none => rfl
    | some T => exact h s S T hT
  · rw [openTableToWrite, bind_assoc, run_bind_error hwritable, run_bind_error (hread _)]

theorem run_putTable_bind_eq (hT : S.table? n = some T) (v? : Option Bytes)
    (f : Unit → Attempt Scope α) :
    (putTable n (T.put k v?) >>= f).run (s.on S) =
      (onStore (Store.putEntry n k v?) >>= f).run (s.on S) := by
  rw [run_bind, run_bind, run_putTable, run_onStore, Store.run_putEntry, hT]

/-- A pair is put into its table or taken out in one step. -/
theorem openPairsToWrite_bind_eq (n : String) (p : Pair) (there : Option Unit) :
    (do let P ← openPairsToWrite n; putPairs n (P.put p there)) =
      onStore (Store.putPair n p there) := by
  refine ext_run fun s => ?_
  obtain ⟨S, hs⟩ | ⟨hwritable, hread⟩ := s.writes_or_reads
  · rw [hs, run_bind, run_openPairsToWrite, run_onStore, Store.run_putPair]
    cases S.openPairs n with
    | error e => rfl
    | ok P =>
      simp only [run_putPairs, Store.putPairs_putPairs]
  · rw [openPairsToWrite, bind_assoc, run_bind_error hwritable, hread]

end Scope

namespace Tree
open Scope
variable {t : Tree} {β : Type} {key : Bytes} {y : Attempt Scope β}

theorem addPair_eq (key : Bytes) (i : Index) (indexKey : Bytes) :
    t.addPair key i indexKey =
      onStore (Store.putPair (t.indexTable i) (indexKey, key) (some ())) :=
  openPairsToWrite_bind_eq _ _ (some ())

theorem removePair_eq (key : Bytes) (i : Index) (indexKey : Bytes) :
    t.removePair key i indexKey =
      onStore (Store.putPair (t.indexTable i) (indexKey, key) none) :=
  openPairsToWrite_bind_eq _ _ none

theorem storeOnly_removePairs (key value : Bytes) : StoreOnly (t.removePairs key value) := by
  refine chained_removePairs chained_storeOnly (fun i _ indexKey => ?_) value
  rw [removePair_eq]
  exact storeOnly_onStore _

theorem sameTable_preparedKeys (t : Tree) (n : String) (key value : Bytes) :
    Within (Store.SameTable n) (t.preparedKeys key value) :=
  within_preparedKeys (fun _ _ _ _ => rfl) key value

theorem sameTable_addPairs (t : Tree) (n : String) (key : Bytes) (keys : List (Option Bytes)) :
    Within (Store.SameTable n) (t.addPairs key keys) :=
  within_addPairs (fun _ _ _ _ => rfl) key keys

theorem sameTable_removePairs (t : Tree) (n : String) (key value : Bytes) :
    Within (Store.SameTable n) (t.removePairs key value) :=
  within_removePairs (fun _ _ _ _ => rfl) key value

-- The table of entries is read once, at the start, and written as a whole at the end. What comes in
-- between works on pairs, so at the end it still is the table that was read but for the entry.

theorem insertEntry_eq (key value : Bytes) :
    t.insertEntry key value = (do
      requireKey key
      let old? ← onStore (Store.readEntry t.name key)
      .require old?.isNone .keyPresent
      let keys ← t.preparedKeys key value
      t.addPairs key keys
      onStore (Store.putEntry t.name key (some value))
      bump 1) := by
  rw [insertEntry]
  refine congrArg (requireKey key >>= ·) (funext fun _ => ?_)
  refine openTableToWrite_bind_eq fun s S T hT => ?_
  have hnew : (!T.contains key) = (T.get? key).isNone := by
    rw [OrderedMap.contains, Option.not_isSome]
  rw [hnew]
  refine run_bind_congr (respects_require _ _) (fun _ s S hT => ?_) hT
  refine run_bind_congr (sameTable_preparedKeys _ _ _ _) (fun keys s S hT => ?_) hT
  refine run_bind_congr (sameTable_addPairs _ _ _ _) (fun _ s S hT => ?_) hT
  exact run_putTable_bind_eq hT (some value) _

theorem replaceEntry_eq (key value : Bytes) :
    t.replaceEntry key value = (do
      requireKey key
      let old? ← onStore (Store.readEntry t.name key)
      let keys ← t.preparedKeys key value
      match old? with
      | some old =>
        t.removePairs key old
        t.addPairs key keys
        onStore (Store.putEntry t.name key (some value))
        pure true
      | none =>
        t.addPairs key keys
        onStore (Store.putEntry t.name key (some value))
        bump 1
        pure false) := by
  rw [replaceEntry]
  refine congrArg (requireKey key >>= ·) (funext fun _ => ?_)
  refine openTableToWrite_bind_eq fun s S T hT => ?_
  refine run_bind_congr (sameTable_preparedKeys _ _ _ _) (fun keys s S hT => ?_) hT
  cases T.get? key with
  | some old =>
    refine run_bind_congr (sameTable_removePairs _ _ _ _) (fun _ s S hT => ?_) hT
    refine run_bind_congr (sameTable_addPairs _ _ _ _) (fun _ s S hT => ?_) hT
    exact run_putTable_bind_eq hT (some value) _
  | none =>
    refine run_bind_congr (sameTable_addPairs _ _ _ _) (fun _ s S hT => ?_) hT
    exact run_putTable_bind_eq hT (some value) _

theorem removeEntry_eq (key : Bytes) :
    t.removeEntry key = (do
      let old? ← onStore (Store.readEntry t.name key)
      match old? with
      | none => pure false
      | some old =>
        t.removePairs key old
        onStore (Store.putEntry t.name key none)
        bump (-1)
        pure true) := by
  refine openTableToWrite_bind_eq fun s S T hT => ?_
  cases T.get? key with
  | none => rfl
  | some old =>
    refine run_bind_congr (sameTable_removePairs _ _ _ _) (fun _ s S hT => ?_) hT
    exact run_putTable_bind_eq hT none _

theorem mergeEntry_eq {merge : Merge} (h : t.merge? = some merge) (key value : Bytes) :
    t.mergeEntry key value = (do
      let old? ← entry t.name key
      match old? with
      | none => t.replaceEntry key value
      | some old =>
        match merge old value with
        | none => .fail .nothingMerged
        | some merged => t.replaceEntry key merged) := by
  simp only [mergeEntry, h]
  rw [entry, bind_assoc]
  rfl

/-! ## What a call commutes with -/

/-- The step commutes with all that a call on the key is made of. -/
structure Apart (t : Tree) (key : Bytes) (y : Attempt Scope β) : Prop where
  owner : t.requireOwn.Commutes y
  entry : (entry t.name key).Commutes y
  readEntry : (onStore (Store.readEntry t.name key)).Commutes y
  putEntry : ∀ v?, (onStore (Store.putEntry t.name key v?)).Commutes y
  putPair : ∀ n indexKey there, (onStore (Store.putPair n (indexKey, key) there)).Commutes y
  adds : ∀ {f}, Adds f → (Attempt.update f).Commutes y

theorem Apart.bump (h : t.Apart key y) (n : Int64) : (bump n).Commutes y := h.adds (adds_bump n)

theorem Apart.count (h : t.Apart key y) {f : Statistics → Statistics}
    (hf : ∃ d, ∀ s, f s = s.plus d) : (count f).Commutes y := h.adds (adds_count hf)

theorem Apart.observed {α : Type} {x : Attempt Scope α} (h : t.Apart key y) (hx : x.Commutes y) :
    (observed x).Commutes y := by
  rw [observed_eq_goOn]
  refine hx.goOn fun r => ?_
  cases r with
  | ok a => exact commutes_pure a y
  | error e =>
    exact (h.count (Statistics.exists_recordError_eq_plus e.code)).bind fun _ => commutes_fail e y

theorem Apart.removePairs (h : t.Apart key y) (value : Bytes) :
    (t.removePairs key value).Commutes y := by
  refine chained_removePairs (chained_commutes y) (fun i _ indexKey => ?_) value
  rw [removePair_eq]
  exact h.putPair _ indexKey none

theorem Apart.addPairs (h : t.Apart key y) (keys : List (Option Bytes)) :
    (t.addPairs key keys).Commutes y := by
  refine chained_addPairs (chained_commutes y) (fun i _ indexKey => ?_) keys
  rw [addPair_eq]
  exact h.putPair _ indexKey (some ())

theorem Apart.removeEntry (h : t.Apart key y) : (t.removeEntry key).Commutes y := by
  rw [removeEntry_eq]
  refine h.readEntry.bind fun old? => ?_
  cases old? with
  | none => exact commutes_pure false y
  | some old =>
    exact (h.removePairs old).bind fun _ => (h.putEntry none).bind fun _ =>
      (h.bump (-1)).bind fun _ => commutes_pure true y

theorem Apart.delete (h : t.Apart key y) : (t.delete key).Commutes y := by
  refine h.observed (h.owner.bind fun _ => h.removeEntry.bind fun removed => ?_)
  cases removed with
  | false => exact commutes_pure false y
  | true =>
    exact (h.count (Statistics.exists_recordDelete_eq_plus 0)).bind fun _ => commutes_pure true y

section Plain
variable (plain : ∀ i ∈ t.indexes, i.unique = false)
include plain

/-- Where no index is unique there is nothing to check. -/
theorem commutes_preparedKeys (key value : Bytes) (y : Attempt Scope β) :
    (t.preparedKeys key value).Commutes y :=
  chained_preparedKeys (chained_commutes y)
    (fun i hi hu => absurd hu (Bool.eq_false_iff.mp (plain i hi)))
    (fun i hi hu => absurd hu (Bool.eq_false_iff.mp (plain i hi))) value

theorem Apart.insertEntry (h : t.Apart key y) (value : Bytes) :
    (t.insertEntry key value).Commutes y := by
  rw [insertEntry_eq]
  exact (commutes_require _ _ y).bind fun _ => h.readEntry.bind fun _ =>
    (commutes_require _ _ y).bind fun _ =>
      (commutes_preparedKeys plain key value y).bind fun keys => (h.addPairs keys).bind fun _ =>
        (h.putEntry (some value)).bind fun _ => h.bump 1

theorem Apart.replaceEntry (h : t.Apart key y) (value : Bytes) :
    (t.replaceEntry key value).Commutes y := by
  rw [replaceEntry_eq]
  refine (commutes_require _ _ y).bind fun _ => h.readEntry.bind fun old? =>
    (commutes_preparedKeys plain key value y).bind fun keys => ?_
  cases old? with
  | some old =>
    exact (h.removePairs old).bind fun _ => (h.addPairs keys).bind fun _ =>
      (h.putEntry (some value)).bind fun _ => commutes_pure true y
  | none =>
    exact (h.addPairs keys).bind fun _ => (h.putEntry (some value)).bind fun _ =>
      (h.bump 1).bind fun _ => commutes_pure false y

/-- What is merged depends on the entry under the key alone. -/
theorem Apart.mergeEntry (h : t.Apart key y) (value : Bytes) :
    (t.mergeEntry key value).Commutes y := by
  cases hm : t.merge? with
  | none =>
    simp only [Tree.mergeEntry, hm]
    exact h.replaceEntry plain value
  | some merge =>
    rw [mergeEntry_eq hm]
    refine h.entry.bind fun old? => ?_
    cases old? with
    | none => exact h.replaceEntry plain value
    | some old =>
      simp only
      cases merge old value with
      | none => exact commutes_fail _ y
      | some merged => exact h.replaceEntry plain merged

theorem Apart.insert (h : t.Apart key y) (value : Bytes) : (t.insert key value).Commutes y :=
  h.observed (h.owner.bind fun _ => (h.insertEntry plain value).bind fun _ =>
    h.count (Statistics.exists_recordInsert_eq_plus 0 false))

theorem Apart.update (h : t.Apart key y) (value : Bytes) : (t.update key value).Commutes y :=
  h.observed (h.owner.bind fun _ => (h.replaceEntry plain value).bind fun replaced =>
    h.count (Statistics.exists_recordInsert_eq_plus 0 replaced))

theorem Apart.upsert (h : t.Apart key y) (value : Bytes) : (t.upsert key value).Commutes y := by
  refine h.observed (h.owner.bind fun _ => (h.mergeEntry plain value).bind fun replaced =>
    h.count ?_)
  obtain ⟨d, hd⟩ := Statistics.exists_recordUpsert_eq_plus
  obtain ⟨e, he⟩ := Statistics.exists_recordInsert_eq_plus 0 replaced
  exact ⟨d.plus e, fun s => by rw [he, hd, Statistics.plus_assoc]⟩

end Plain

/-! ## Calls on different keys -/

theorem Apart.of_onStore {z : Attempt Store β} (hread : (Store.readEntry t.name key).Commutes z)
    (hput : ∀ v?, (Store.putEntry t.name key v?).Commutes z)
    (hpair : ∀ n indexKey there, (Store.putPair n (indexKey, key) there).Commutes z) :
    t.Apart key (onStore z) where
  owner := commutes_requireOwn (state_onStore_database z)
  entry := commutes_entry_onStore hread
  readEntry := commutes_onStore_onStore hread
  putEntry v? := commutes_onStore_onStore (hput v?)
  putPair n indexKey there := commutes_onStore_onStore (hpair n indexKey there)
  adds hf := commutes_adds_onStore hf z

section OtherKey
variable {l : Bytes}

theorem apart_requireOwn (t : Tree) (key : Bytes) : t.Apart key t.requireOwn where
  owner := commutes_requireOwn fun s => by rw [run_requireOwn]
  entry := (commutes_requireOwn fun s => by rw [state_entry]).symm
  readEntry := (commutes_requireOwn (state_onStore_database _)).symm
  putEntry _ := (commutes_requireOwn (state_onStore_database _)).symm
  putPair _ _ _ := (commutes_requireOwn (state_onStore_database _)).symm
  adds hf := (commutes_requireOwn (state_adds_database hf)).symm

theorem apart_entry (h : l ≠ key) : t.Apart key (entry t.name l) where
  owner := commutes_requireOwn fun s => by rw [state_entry]
  entry := commutes_of_reads state_entry fun s => by rw [state_entry]
  readEntry := (commutes_entry_onStore (Store.commutes_readEntry_readEntry ..)).symm
  putEntry v? := (commutes_entry_onStore (Store.commutes_readEntry_putEntry h v?)).symm
  putPair _ _ there := (commutes_entry_onStore (Store.commutes_readEntry_putPair ..)).symm
  adds hf := (commutes_entry_adds hf ..).symm

theorem apart_readEntry (h : l ≠ key) : t.Apart key (onStore (Store.readEntry t.name l)) :=
  .of_onStore (Store.commutes_readEntry_readEntry ..)
    (fun v? => (Store.commutes_readEntry_putEntry h v?).symm)
    fun _ _ _ => (Store.commutes_readEntry_putPair ..).symm

theorem apart_putEntry (h : l ≠ key) (v? : Option Bytes) :
    t.Apart key (onStore (Store.putEntry t.name l v?)) :=
  .of_onStore (Store.commutes_readEntry_putEntry h.symm v?)
    (fun w? => Store.commutes_putEntry_putEntry h.symm w? v?)
    fun _ _ _ => (Store.commutes_putEntry_putPair ..).symm

theorem apart_putPair (h : l ≠ key) (n : String) (indexKey : Bytes) (there : Option Unit) :
    t.Apart key (onStore (Store.putPair n (indexKey, l) there)) :=
  .of_onStore (Store.commutes_readEntry_putPair ..) (fun _ => Store.commutes_putEntry_putPair ..)
    fun _ _ _ => Store.commutes_putPair_putPair _ _ (fun hp => h (congrArg Prod.snd hp).symm) _ _

theorem apart_adds {f : Scope → Scope} (hf : Adds f) (t : Tree) (key : Bytes) :
    t.Apart key (Attempt.update f) where
  owner := commutes_requireOwn (state_adds_database hf)
  entry := commutes_entry_adds hf ..
  readEntry := (commutes_adds_onStore hf _).symm
  putEntry _ := (commutes_adds_onStore hf _).symm
  putPair _ _ _ := (commutes_adds_onStore hf _).symm
  adds hg := commutes_adds_adds hg hf

/-- What commutes with all that is apart from a key is apart from every other key. -/
theorem apart_of_ne {α : Type} {x : Attempt Scope α} (h : key ≠ l)
    (hx : ∀ {γ : Type} {y : Attempt Scope γ}, t.Apart l y → x.Commutes y) : t.Apart key x where
  owner := (hx (apart_requireOwn t l)).symm
  entry := (hx (apart_entry h)).symm
  readEntry := (hx (apart_readEntry h)).symm
  putEntry v? := (hx (apart_putEntry h v?)).symm
  putPair n indexKey there := (hx (apart_putPair h n indexKey there)).symm
  adds hf := (hx (apart_adds hf t l)).symm

end OtherKey

/-- A call that writes under one key, without the key. -/
inductive Write
  | insert (value : Bytes)
  | update (value : Bytes)
  | upsert (value : Bytes)
  | delete

/-- Makes the call for a key; a deletion answers whether there was an entry. -/
def Write.step (t : Tree) (key : Bytes) : Write → Attempt Scope (Option Bool)
  | insert value => do
    t.insert key value
    pure none
  | update value => do
    t.update key value
    pure none
  | upsert value => do
    t.upsert key value
    pure none
  | delete => do
    let removed ← t.delete key
    pure (some removed)

section Plain
variable (plain : ∀ i ∈ t.indexes, i.unique = false)
include plain

theorem Apart.step (h : t.Apart key y) (w : Write) : (w.step t key).Commutes y := by
  cases w with
  | insert value => exact (h.insert plain value).bind fun _ => commutes_pure none y
  | update value => exact (h.update plain value).bind fun _ => commutes_pure none y
  | upsert value => exact (h.upsert plain value).bind fun _ => commutes_pure none y
  | delete => exact h.delete.bind fun removed => commutes_pure (some removed) y

theorem commutes_step {k l : Bytes} (h : k ≠ l) (w w' : Write) :
    (w.step t k).Commutes (w'.step t l) :=
  (apart_of_ne h fun hy => hy.step plain w').step plain w

/-- Any two interleavings of the same calls for each key answer each key alike and leave the
transaction alike: what it sees, the entry count and the counters. -/
theorem interleavings_agree {calls calls' : List (Bytes × Write)}
    (same : ∀ key, under key calls = under key calls') (s : Scope) :
    (∀ key, under key (runEach (Write.step t) calls s).1 =
        under key (runEach (Write.step t) calls' s).1) ∧
      (runEach (Write.step t) calls s).2 = (runEach (Write.step t) calls' s).2 :=
  have h := alike_of_under_eq (fun hne w w' => commutes_step plain hne w w') same s
  ⟨h.answers, h.state⟩

end Plain

/-- A tree with an index over whole values that keys may share, and values joined by merging. -/
def shared : Tree :=
  ⟨"db", "t", [⟨"whole", 0, fun value _ => some value, none, false, false, none⟩],
    some fun old new => some (old ++ new), none, by decide⟩

/-- A write transaction on the empty tree `shared`, whose index table is missing. -/
def sharedScope : Scope := ⟨⟨"db", .working (Store.empty.putTable "t" .empty)⟩, 0, {}⟩

/-- Two producers take turns on one tree, one with key `[1]` and one with key `[2]`, which are under
one index key for a time. -/
def takingTurns : List (Bytes × Write) :=
  [([1], .insert [7]), ([2], .upsert [7]), ([1], .upsert [8]), ([2], .insert [9]), ([2], .delete)]

/-- The second producer goes first. -/
def inARow : List (Bytes × Write) :=
  [([2], .upsert [7]), ([2], .insert [9]), ([2], .delete), ([1], .insert [7]), ([1], .upsert [8])]

/-- The second insertion under `[2]` is refused and the deletion removes an entry, either way. -/
theorem interleavings_agree_takingTurns :
    (runEach (Write.step shared) takingTurns sharedScope).2 =
        (runEach (Write.step shared) inARow sharedScope).2 ∧
      under [2] (runEach (Write.step shared) takingTurns sharedScope).1 =
        [.ok none, .error .keyPresent, .ok (some true)] := by
  have same : ∀ key, under key takingTurns = under key inARow := by
    intro key
    by_cases h₁ : [1] = key
    · subst h₁
      rfl
    · by_cases h₂ : [2] = key
      · subst h₂
        rfl
      · simp [takingTurns, inARow, under_cons_ne h₁, under_cons_ne h₂]
  have h := interleavings_agree (t := shared) (by decide) same sharedScope
  refine ⟨h.2, ?_⟩
  rw [h.1]
  rfl

end Tree
end IndexedStore
