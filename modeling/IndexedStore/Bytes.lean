import IndexedStore.OrderedMap

/-! # Byte strings

Keys, values and the opaque data of an index are byte strings, ordered as dictionaries order words
over unsigned bytes. Text enters a table as its UTF-8 bytes.
-/
namespace IndexedStore

abbrev Bytes := List UInt8

namespace Bytes

/-- Bytewise order: the first difference decides, and a string precedes its extensions. -/
def cmp : Bytes → Bytes → Ordering := List.compareLex (compare : UInt8 → UInt8 → Ordering)

instance : Std.TransCmp cmp :=
  inferInstanceAs (Std.TransCmp (List.compareLex (compare : UInt8 → UInt8 → Ordering)))

instance : Std.LawfulEqCmp cmp :=
  inferInstanceAs (Std.LawfulEqCmp (List.compareLex (compare : UInt8 → UInt8 → Ordering)))

def ofText (s : String) : Bytes := s.toUTF8.data.toList

/-- Which second bytes may follow a leading byte of a multi-byte character, how many bytes follow
in all, and the bits the leading byte contributes. -/
def leadingByte (b : UInt8) : Option (UInt8 × UInt8 × Nat × Nat) :=
  if 0xC2 ≤ b && b ≤ 0xDF then some (0x80, 0xBF, 1, b.toNat % 32)
  else if b == 0xE0 then some (0xA0, 0xBF, 2, 0)
  else if b == 0xED then some (0x80, 0x9F, 2, 13)
  else if 0xE1 ≤ b && b ≤ 0xEF then some (0x80, 0xBF, 2, b.toNat % 16)
  else if b == 0xF0 then some (0x90, 0xBF, 3, 0)
  else if 0xF1 ≤ b && b ≤ 0xF3 then some (0x80, 0xBF, 3, b.toNat % 8)
  else if b == 0xF4 then some (0x80, 0x8F, 3, 4)
  else none

/-- The longest run of at most `n` continuation bytes, the first of them within `lo` and `hi`. -/
def continuation (lo hi : UInt8) : Nat → Bytes → Bytes
  | 0, _ | _, [] => []
  | n + 1, b :: rest =>
    if lo ≤ b && b ≤ hi then b :: continuation 0x80 0xBF n rest else []

/-- Reads text from bytes that need not be UTF-8: every maximal ill-formed part becomes one
replacement character. -/
def mendedChars : Bytes → List Char
  | [] => []
  | b :: rest =>
    if b < 0x80 then Char.ofNat b.toNat :: mendedChars rest
    else match leadingByte b with
      | none => '\ufffd' :: mendedChars rest
      | some (lo, hi, n, bits) =>
        let tail := continuation lo hi n rest
        let c := if tail.length == n
          then Char.ofNat (tail.foldl (fun acc t => acc * 64 + t.toNat % 64) bits) else '\ufffd'
        c :: mendedChars (rest.drop tail.length)
termination_by b => b.length
decreasing_by all_goals simp only [List.length_cons, List.length_drop]; omega

/-- The text a byte string stands for; bytes that are not UTF-8 are mended. -/
def toText (b : Bytes) : String :=
  match String.fromUTF8? ⟨b.toArray⟩ with
  | some s => s
  | none => String.ofList (mendedChars b)

end Bytes

def nameCmp : String → String → Ordering := compare

instance : Std.TransCmp nameCmp :=
  inferInstanceAs (Std.TransCmp (compare : String → String → Ordering))

instance : Std.LawfulEqCmp nameCmp :=
  inferInstanceAs (Std.LawfulEqCmp (compare : String → String → Ordering))

/-- An index pair: the index key and the primary key it points at. -/
abbrev Pair := Bytes × Bytes

/-- Pairs are ordered by index key, then by primary key. -/
def Pair.cmp (p q : Pair) : Ordering := (Bytes.cmp p.1 q.1).then (Bytes.cmp p.2 q.2)

instance : Std.TransCmp Pair.cmp where
  eq_swap {a b} := by
    rw [Pair.cmp, Pair.cmp, Ordering.swap_then, ← Std.OrientedCmp.eq_swap,
      ← Std.OrientedCmp.eq_swap]
  isLE_trans {a b c} hab hbc := by
    simp only [Pair.cmp, Ordering.isLE_then_iff_and] at *
    refine ⟨Std.TransCmp.isLE_trans hab.1 hbc.1, ?_⟩
    rcases hab.2 with hab' | hab'
    · exact .inl (Std.TransCmp.lt_of_lt_of_isLE hab' hbc.1)
    · rcases hbc.2 with hbc' | hbc'
      · exact .inl (Std.TransCmp.lt_of_isLE_of_lt hab.1 hbc')
      · exact .inr (Std.TransCmp.isLE_trans hab' hbc')

instance : Std.LawfulEqCmp Pair.cmp where
  compare_self := by simp [Pair.cmp]
  eq_of_compare {a b} h := by
    simp only [Pair.cmp, Ordering.then_eq_eq, Std.LawfulEqCmp.compare_eq_iff_eq] at h
    exact Prod.ext h.1 h.2

end IndexedStore
