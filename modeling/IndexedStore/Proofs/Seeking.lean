import IndexedStore.Proofs.Positions

/-! # Seeking under a comparator

A comparator decides which keys count as equal and leaves the order of what is stored alone. To
seek a key then is to look at one entry, the least that is not below the key in byte order, and to
ask the comparator about it. What is found compares equal, but equal keys anywhere else are missed.
-/
namespace IndexedStore

/-- The comparator puts keys in the order of their bytes, if it tells them apart. -/
def Comparator.Coarsens (compare : Comparator) : Prop :=
  ∀ a b, (Bytes.cmp a b).isLE = true → (compare a b).isLE = true

theorem Comparator.Coarsens.eq_of_between {compare : Comparator} [Std.TransCmp compare]
    (h : compare.Coarsens) {a b key : Bytes} (above : (Bytes.cmp key a).isLE = true)
    (below : (Bytes.cmp a b).isLE = true) (equal : compare b key = .eq) : compare a key = .eq := by
  have hle : (compare a key).isLE = true :=
    Std.TransCmp.isLE_trans (h a b below) (Ordering.isLE_of_eq_eq equal)
  exact Std.OrientedCmp.isLE_antisymm hle (h key a above)

namespace Cursor
variable {t : Tree} {c : Cursor} {s s' : Scope} {l : List Entry} {compare : Comparator}

theorem isLE_of_order_eq_lt {e f : Entry} (h : c.order e f = .lt) :
    (Bytes.cmp e.1 f.1).isLE = true := by
  unfold order at h
  cases hi : c.index? with
  | none =>
    rw [hi] at h
    exact Ordering.isLE_of_eq_lt h
  | some i =>
    rw [hi] at h
    exact Pair.isLE_of_cmp_eq_lt h

/-- The least entry whose key is not below the target, if there is one and it compares equal. -/
def sought (compare : Comparator) (order : Entry → Entry → Ordering) (l : List Entry)
    (key : Bytes) : Option Entry :=
  ((Place.notBelow key).pick order l).filter fun e => compare e.1 key == .eq

theorem Sees.run_seek (h : Sees t c s l s') (compared : c.compare? t = some compare)
    (key : Bytes) :
    ((Move.seek key).step t).run (c, s) =
      (.ok (sought compare c.order l key).isSome,
        ({ c with position := sought compare c.order l key }, s')) := by
  refine run_moveTo_of_landing ?_
  simp only [landing, compared]
  rw [Attempt.run_bind_ok (h.run_look _)]
  rfl

theorem least_notBelow (sorted : l.Pairwise fun e f => c.order e f = .lt) (key : Bytes) :
    Move.Least c.order l (fun f => (Bytes.cmp key f.1).isLE = true)
      ((Place.notBelow key).pick c.order l) := Move.least_pick sorted rfl fun _ => .rfl

theorem sought_eq_some_iff (sorted : l.Pairwise fun e f => c.order e f = .lt) {key : Bytes}
    {e : Entry} :
    sought compare c.order l key = some e ↔
      Move.Least c.order l (fun f => (Bytes.cmp key f.1).isLE = true) (some e) ∧
        compare e.1 key = .eq := by
  have hleast := least_notBelow sorted key
  rw [sought, Option.filter_eq_some_iff, beq_iff_eq]
  refine and_congr_left fun _ => ⟨fun hpick => hpick ▸ hleast, fun he => ?_⟩
  exact hleast.unique c.order_asymm he

theorem isSome_sought_iff (sorted : l.Pairwise fun e f => c.order e f = .lt) {key : Bytes} :
    (sought compare c.order l key).isSome = true ↔
      ∃ e, Move.Least c.order l (fun f => (Bytes.cmp key f.1).isLE = true) (some e) ∧
        compare e.1 key = .eq := by
  rw [Option.isSome_iff_exists]
  exact exists_congr fun _ => sought_eq_some_iff sorted

/-- Under a comparator that follows byte order only what is below the key is missed. -/
theorem isSome_sought_iff_of_coarsens [Std.TransCmp compare] (coarse : compare.Coarsens)
    (sorted : l.Pairwise fun e f => c.order e f = .lt) {key : Bytes} :
    (sought compare c.order l key).isSome = true ↔
      ∃ e ∈ l, compare e.1 key = .eq ∧ (Bytes.cmp key e.1).isLE = true := by
  rw [isSome_sought_iff sorted]
  constructor
  · rintro ⟨e, ⟨⟨he, habove⟩, -⟩, hequal⟩
    exact ⟨e, he, hequal, habove⟩
  · rintro ⟨e, he, hequal, habove⟩
    have hleast := least_notBelow sorted key
    cases hpick : (Place.notBelow key).pick c.order l with
    | none =>
      rw [hpick] at hleast
      exact absurd habove (hleast e he)
    | some f =>
      rw [hpick] at hleast
      refine ⟨f, hleast, ?_⟩
      rcases hleast.2 e he habove with rfl | hlt
      · exact hequal
      · exact coarse.eq_of_between hleast.1.2 (isLE_of_order_eq_lt hlt) hequal

/-- Under a comparator a cursor that seeks a key stands on an equal key if it finds one, and it
finds one just when the least key not below the target in byte order compares equal. For a
comparator that follows byte order that is so when any key not below the target compares equal. -/
theorem seek_under_comparator (compared : c.compare? t = some compare) (h : c.Sees t s l s')
    (key : Bytes) :
    ∃ e?, ((Move.seek key).step t).run (c, s) = (.ok e?.isSome, ({ c with position := e? }, s')) ∧
      (∀ e, e? = some e → e ∈ l ∧ compare e.1 key = .eq) ∧
      (e?.isSome = true ↔
        ∃ e, Move.Least c.order l (fun f => (Bytes.cmp key f.1).isLE = true) (some e) ∧
          compare e.1 key = .eq) ∧
      (Std.TransCmp compare → compare.Coarsens →
        (e?.isSome = true ↔
          ∃ e ∈ l, compare e.1 key = .eq ∧ (Bytes.cmp key e.1).isLE = true)) := by
  refine ⟨_, h.run_seek compared key, fun e he => ?_, isSome_sought_iff h.ordered,
    fun _ coarse => isSome_sought_iff_of_coarsens coarse h.ordered⟩
  obtain ⟨⟨⟨hmem, -⟩, -⟩, hequal⟩ := (sought_eq_some_iff h.ordered).mp he
  exact ⟨hmem, hequal⟩

/-- Keys compared without regard to the case of letters. -/
def caseless : Comparator := fun a b =>
  Bytes.cmp (a.map lower) (b.map lower)
where
  /-- the small letter for a capital letter -/
  lower (b : UInt8) : UInt8 := if 0x41 ≤ b && b ≤ 0x5A then b + 0x20 else b

instance : Std.TransCmp caseless where
  eq_swap {a b} := by
    rw [caseless, caseless]
    exact Std.OrientedCmp.eq_swap
  isLE_trans {a b c} hab hbc := by
    rw [caseless] at *
    exact Std.TransCmp.isLE_trans hab hbc

def comparedTree (compare : Comparator) : Tree := (Tree.bare "db" "t").setCompare compare

def unplaced : Cursor := ⟨none, none⟩

def letters : List Entry := [([0x42], [1]), ([0x61], [2])]

def lettersReader : Scope :=
  ⟨⟨"db", .snapshot (Store.empty.putTable "t" ⟨letters, by decide⟩)⟩, 0, {}⟩

theorem sees_letters (compare : Comparator) :
    unplaced.Sees (comparedTree compare) lettersReader letters lettersReader :=
  .entries (T := ⟨letters, by decide⟩) rfl rfl (Store.table?_putTable_self ..)

/-- For `A` the cursor looks at `B`, which is another letter. In byte order it finds `a`. -/
theorem seek_under_comparator_letters :
    (∃ σ, ((Move.seek [0x41]).step (comparedTree caseless)).run (unplaced, lettersReader) =
        (.ok false, σ)) ∧
      ∃ σ, ((Move.seek [0x61]).step (comparedTree Bytes.cmp)).run (unplaced, lettersReader) =
        (.ok true, σ) ∧ σ.1.position = some ([0x61], [2]) := by
  have hcases : ∀ e ∈ letters, e = ([0x42], [1]) ∨ e = ([0x61], [2]) := by decide
  constructor
  · have compared : unplaced.compare? (comparedTree caseless) = some caseless := rfl
    obtain ⟨e?, hrun, -, hfound, -⟩ := seek_under_comparator compared (sees_letters _) [0x41]
    cases e? with
    | none => exact ⟨_, hrun⟩
    | some e =>
      obtain ⟨f, ⟨⟨hf, -⟩, hleast⟩, hequal⟩ := hfound.mp rfl
      rcases hcases f hf with rfl | rfl
      · cases hequal
      · rcases hleast ([0x42], [1]) List.mem_cons_self rfl with h | h <;> cases h
  · have compared : unplaced.compare? (comparedTree Bytes.cmp) = some Bytes.cmp := rfl
    have coarse : Comparator.Coarsens Bytes.cmp := fun _ _ h => h
    obtain ⟨e?, hrun, hsound, -, hfound⟩ :=
      seek_under_comparator compared (sees_letters _) [0x61]
    have hstored : ([0x61], [2]) ∈ letters := by decide
    obtain ⟨e, rfl⟩ := Option.isSome_iff_exists.mp
      ((hfound inferInstance coarse).mpr ⟨_, hstored, rfl, rfl⟩)
    obtain ⟨he, hequal⟩ := hsound e rfl
    refine ⟨_, hrun, ?_⟩
    rcases hcases e he with rfl | rfl
    · cases hequal
    · rfl

/-- Equal keys are missed that come after another key in byte order, or before the target. -/
theorem seek_misses_equal_keys :
    Std.TransCmp caseless ∧ unplaced.compare? (comparedTree caseless) = some caseless ∧
      unplaced.Sees (comparedTree caseless) lettersReader letters lettersReader ∧
      (([0x61], [2]) ∈ letters ∧ caseless [0x61] [0x41] = .eq ∧
        ((Move.seek [0x41]).step (comparedTree caseless)).run (unplaced, lettersReader) =
          (.ok false, (unplaced, lettersReader))) ∧
      (([0x42], [1]) ∈ letters ∧ caseless [0x42] [0x62] = .eq ∧
        ((Move.seek [0x62]).step (comparedTree caseless)).run (unplaced, lettersReader) =
          (.ok false, (unplaced, lettersReader))) :=
  ⟨inferInstance, rfl, sees_letters _, ⟨by decide, by decide, rfl⟩, by decide, by decide, rfl⟩

end Cursor
end IndexedStore
