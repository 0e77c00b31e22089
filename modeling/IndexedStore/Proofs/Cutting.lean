import IndexedStore.Proofs.Names

/-! # Texts cut at a limit

The texts of an error record are cut where a character ends. Among the beginnings of a text that fit
into the limit the cut one is the longest. On bytes it is found by a search that walks back from the
limit to a place where a character begins. The bytes in between go on with one character, so there
are less than four of them.
-/
namespace IndexedStore.Text

/-- Bytes of the form `10xxxxxx` go on with a character. -/
def continues (b : UInt8) : Bool := 0x80 ≤ b && b < 0xC0

/-- Whether bytes can be parted before the place `i` and no character is split. -/
def isBoundary (b : Bytes) (i : Nat) : Bool :=
  i == 0 || match b[i]? with
    | none => i == b.length
    | some x => !continues x

/-- The search for a boundary, backwards from a place. It has no answer where it would have to go
on below zero. -/
def lastBoundary (b : Bytes) : Nat → Option Nat
  | 0 => if isBoundary b 0 then some 0 else none
  | i + 1 => if isBoundary b (i + 1) then some (i + 1) else lastBoundary b i

theorem lastBoundary_eq_some {b : Bytes} {i j : Nat} (hle : j ≤ i) (hj : isBoundary b j = true)
    (hgap : ∀ k, j < k → k ≤ i → isBoundary b k = false) : lastBoundary b i = some j := by
  induction i with
  | zero =>
    obtain rfl := Nat.le_zero.mp hle
    rw [lastBoundary, if_pos hj]
  | succ i ih =>
    rcases Nat.lt_or_eq_of_le hle with hlt | rfl
    · rw [lastBoundary, if_neg (by simp [hgap (i + 1) hlt (Nat.le_refl _)])]
      exact ih (Nat.lt_succ_iff.mp hlt) fun k hk hki => hgap k hk (Nat.le_succ_of_le hki)
    · rw [lastBoundary, if_pos hj]

section Boundary
variable {s : String} {i : Nat}

/-- Bytes from `0xF8` on, which neither begin nor go on with a character, are in no text. -/
theorem lt_of_mem_utf8EncodeChar {c : Char} {b : UInt8} (h : b ∈ String.utf8EncodeChar c) :
    b < 0xF8 := by
  have hbyte : ∀ n : Nat, UInt8.ofNat n < 0xF8 ↔ n % 256 < 248 := by
    intro n
    rw [UInt8.lt_iff_toNat_lt, UInt8.toNat_ofNat']
    exact Iff.rfl
  have hval := c.valid
  simp only [UInt32.isValidChar, Nat.isValidChar] at hval
  unfold String.utf8EncodeChar at h
  simp only at h
  split at h
  · obtain rfl := List.mem_singleton.mp h
    rw [hbyte]
    omega
  · split at h
    · simp only [List.mem_cons, List.not_mem_nil, or_false] at h
      rcases h with rfl | rfl <;> rw [hbyte] <;> omega
    · split at h
      · simp only [List.mem_cons, List.not_mem_nil, or_false] at h
        rcases h with rfl | rfl | rfl <;> rw [hbyte] <;> omega
      · simp only [List.mem_cons, List.not_mem_nil, or_false] at h
        rcases h with rfl | rfl | rfl | rfl <;> rw [hbyte] <;> omega

theorem lt_of_mem_ofText {b : UInt8} (h : b ∈ Bytes.ofText s) : b < 0xF8 := by
  rw [Bytes.ofText_eq_flatMap, List.mem_flatMap] at h
  obtain ⟨c, -, hb⟩ := h
  exact lt_of_mem_utf8EncodeChar hb

theorem continues_eq_false_iff {b : UInt8} (h : b < 0xF8) :
    continues b = false ↔ b.IsUTF8FirstByte := by
  have hall : ∀ n : Fin 256, UInt8.ofFin n < 0xF8 →
      (continues (.ofFin n) = false ↔ (UInt8.ofFin n).IsUTF8FirstByte) := by
    unfold UInt8.IsUTF8FirstByte
    decide +kernel
  exact hall b.toFin h

@[simp] theorem length_ofText (s : String) : (Bytes.ofText s).length = s.utf8ByteSize := by
  simp [Bytes.ofText]

theorem isBoundary_ofText_of_lt (h : i < s.utf8ByteSize) :
    isBoundary (Bytes.ofText s) i = true ↔ (s.getUTF8Byte ⟨i⟩ h).IsUTF8FirstByte := by
  have hget : (Bytes.ofText s)[i]? = some (s.getUTF8Byte ⟨i⟩ h) := by
    rw [List.getElem?_eq_getElem (by rwa [length_ofText])]
    simp [Bytes.ofText, String.getUTF8Byte, ByteArray.getElem_eq_getElem_data]
  have htext : s.getUTF8Byte ⟨i⟩ h < 0xF8 := lt_of_mem_ofText (List.mem_of_getElem? hget)
  rw [isBoundary, hget, ← continues_eq_false_iff htext, Bool.or_eq_true, Bool.not_eq_true',
    beq_iff_eq, or_iff_right_iff_imp]
  rintro rfl
  exact (continues_eq_false_iff htext).mpr String.isUTF8FirstByte_getUTF8Byte_zero

/-- The boundaries of a text are the places where some of its characters end. -/
theorem isBoundary_ofText_iff :
    isBoundary (Bytes.ofText s) i = true ↔ ∃ u rest, s = u ++ rest ∧ i = u.utf8ByteSize := by
  have hvalid : (∃ u rest, s = u ++ rest ∧ i = u.utf8ByteSize) ↔
      (⟨i⟩ : String.Pos.Raw).IsValid s := by
    simp [String.Pos.Raw.isValid_iff_exists_append, String.Pos.Raw.ext_iff]
  rw [hvalid, String.Pos.Raw.isValid_iff_isUTF8FirstByte]
  by_cases hlt : i < s.utf8ByteSize
  · rw [isBoundary_ofText_of_lt hlt]
    simp [String.Pos.Raw.ext_iff, String.Pos.Raw.lt_iff, hlt, Nat.ne_of_lt hlt]
  · have hnone : (Bytes.ofText s)[i]? = none := List.getElem?_eq_none (by simpa using hlt)
    simp only [isBoundary, hnone, Bool.or_eq_true, beq_iff_eq, length_ofText,
      String.Pos.Raw.ext_iff, String.byteIdx_rawEndPos, String.Pos.Raw.lt_iff, hlt,
      IsEmpty.exists_iff, or_false]
    omega

end Boundary

section Characters
variable {limit : Nat} {l u rest : List Char}

theorem utf8ByteSize_ofList_cons (c : Char) (l : List Char) :
    (String.ofList (c :: l)).utf8ByteSize = c.utf8Size + (String.ofList l).utf8ByteSize := by
  rw [String.ofList_cons, String.utf8ByteSize_append, String.utf8ByteSize_singleton]

theorem cutChars_isPrefix (limit : Nat) (l : List Char) : cutChars limit l <+: l := by
  induction l generalizing limit with
  | nil => exact List.nil_prefix
  | cons c l ih =>
    rw [cutChars]
    split
    · exact List.prefix_cons_inj c |>.mpr (ih _)
    · exact List.nil_prefix

theorem utf8ByteSize_cutChars_le (limit : Nat) (l : List Char) :
    (String.ofList (cutChars limit l)).utf8ByteSize ≤ limit := by
  induction l generalizing limit with
  | nil => exact Nat.zero_le _
  | cons c l ih =>
    rw [cutChars]
    split
    · rename_i hfits
      have hrest := ih (limit - c.utf8Size)
      rw [utf8ByteSize_ofList_cons]
      omega
    · exact Nat.zero_le _

theorem prefix_cutChars (hu : u <+: l) (hfits : (String.ofList u).utf8ByteSize ≤ limit) :
    u <+: cutChars limit l := by
  induction u generalizing limit l with
  | nil => exact List.nil_prefix
  | cons c u ih =>
    obtain ⟨rest, rfl⟩ := hu
    rw [utf8ByteSize_ofList_cons] at hfits
    rw [List.cons_append, cutChars, if_pos (by omega), List.prefix_cons_inj]
    exact ih (List.prefix_append u rest) (by omega)

/-- What is cut off begins with a character that does not fit any more. -/
theorem lt_utf8ByteSize_cutChars_add (h : cutChars limit l ≠ l) :
    limit < (String.ofList (cutChars limit l)).utf8ByteSize + 4 := by
  induction l generalizing limit with
  | nil => exact absurd rfl h
  | cons c l ih =>
    rw [cutChars] at h ⊢
    split
    · rename_i hfits
      rw [if_pos hfits] at h
      have hrest := ih fun heq => h (congrArg (c :: ·) heq)
      rw [utf8ByteSize_ofList_cons]
      omega
    · have := c.utf8Size_le_four
      exact Nat.lt_add_left _ (by omega)

end Characters

section Cut
variable {limit : Nat} {s t : String}

/-- The text `t` is `s` cut to a number of bytes: what of `s` comes before a boundary, the last one
within the limit, where the search stops. -/
structure IsCut (limit : Nat) (s t : String) : Prop where
  beginning : ∃ rest, s = t ++ rest
  bytes : Bytes.ofText t = (Bytes.ofText s).take t.utf8ByteSize
  boundary : isBoundary (Bytes.ofText s) t.utf8ByteSize = true
  within : t.utf8ByteSize ≤ limit
  longest : ∀ u rest, s = u ++ rest → u.utf8ByteSize ≤ limit → ∃ more, t = u ++ more
  whole : s.utf8ByteSize ≤ limit → t = s
  loss : limit < s.utf8ByteSize → limit < t.utf8ByteSize + 4
  search : limit < s.utf8ByteSize →
    lastBoundary (Bytes.ofText s) limit = some t.utf8ByteSize
  settled : cut limit t = t

theorem cut_of_le (h : s.utf8ByteSize ≤ limit) : cut limit s = s := if_pos h

theorem cut_eq_ofList_cutChars (limit : Nat) (s : String) :
    cut limit s = String.ofList (cutChars limit s.toList) := by
  rw [cut]
  split
  · rename_i hfits
    have hwhole : s.toList <+: cutChars limit s.toList :=
      prefix_cutChars (List.prefix_refl _) (by rwa [String.ofList_toList])
    rw [(cutChars_isPrefix limit s.toList).eq_of_length_le hwhole.length_le, String.ofList_toList]
  · rfl

theorem exists_eq_append_of_prefix {a b : List Char} (h : a <+: b) :
    ∃ rest, String.ofList b = String.ofList a ++ rest := by
  obtain ⟨rest, rfl⟩ := h
  exact ⟨String.ofList rest, String.ofList_append⟩

theorem exists_eq_cut_append (limit : Nat) (s : String) : ∃ rest, s = cut limit s ++ rest := by
  obtain ⟨rest, h⟩ := exists_eq_append_of_prefix (cutChars_isPrefix limit s.toList)
  exact ⟨rest, by rwa [String.ofList_toList, ← cut_eq_ofList_cutChars] at h⟩

theorem utf8ByteSize_cut_le (limit : Nat) (s : String) : (cut limit s).utf8ByteSize ≤ limit := by
  rw [cut_eq_ofList_cutChars]
  exact utf8ByteSize_cutChars_le limit s.toList

theorem cut_longest {u rest : String} (hs : s = u ++ rest) (hfits : u.utf8ByteSize ≤ limit) :
    ∃ more, cut limit s = u ++ more := by
  have hprefix : u.toList <+: s.toList := ⟨rest.toList, by rw [hs, String.toList_append]⟩
  have hleading : u.toList <+: cutChars limit s.toList :=
    prefix_cutChars hprefix (by rwa [String.ofList_toList])
  obtain ⟨more, h⟩ := exists_eq_append_of_prefix hleading
  exact ⟨more, by rwa [String.ofList_toList, ← cut_eq_ofList_cutChars] at h⟩

theorem lt_utf8ByteSize_cut_add (h : limit < s.utf8ByteSize) :
    limit < (cut limit s).utf8ByteSize + 4 := by
  rw [cut_eq_ofList_cutChars]
  refine lt_utf8ByteSize_cutChars_add fun heq => ?_
  have hsize := utf8ByteSize_cutChars_le limit s.toList
  rw [heq, String.ofList_toList] at hsize
  omega

theorem isBoundary_cut (limit : Nat) (s : String) :
    isBoundary (Bytes.ofText s) (cut limit s).utf8ByteSize = true := by
  obtain ⟨rest, h⟩ := exists_eq_cut_append limit s
  exact isBoundary_ofText_iff.mpr ⟨_, rest, h, rfl⟩

/-- No boundary lies between the cut and the limit: the characters before it would fit. -/
theorem lastBoundary_ofText (limit : Nat) (s : String) :
    lastBoundary (Bytes.ofText s) limit = some (cut limit s).utf8ByteSize := by
  refine lastBoundary_eq_some (utf8ByteSize_cut_le limit s) (isBoundary_cut limit s)
    fun k hlt hle => Bool.eq_false_iff.mpr fun hk => ?_
  obtain ⟨u, rest, hs, rfl⟩ := isBoundary_ofText_iff.mp hk
  obtain ⟨more, hmore⟩ := cut_longest hs hle
  rw [hmore, String.utf8ByteSize_append] at hlt
  omega

theorem ofText_eq_take {rest : String} (h : s = t ++ rest) :
    Bytes.ofText t = (Bytes.ofText s).take t.utf8ByteSize := by
  have happend : Bytes.ofText s = Bytes.ofText t ++ Bytes.ofText rest := by
    simp [Bytes.ofText, h]
  rw [happend, ← length_ofText t, List.take_left]

theorem isCut_cut (limit : Nat) (s : String) : IsCut limit s (cut limit s) where
  beginning := exists_eq_cut_append limit s
  bytes := (exists_eq_cut_append limit s).elim fun _ h => ofText_eq_take h
  boundary := isBoundary_cut limit s
  within := utf8ByteSize_cut_le limit s
  longest _ _ := cut_longest
  whole := cut_of_le
  loss := lt_utf8ByteSize_cut_add
  search _ := lastBoundary_ofText limit s
  settled := cut_of_le (utf8ByteSize_cut_le limit s)

/-- The limit falls within the last character, which goes. -/
example : cut 5 "xé€" = "xé" ∧ lastBoundary (Bytes.ofText "xé€") 5 = some 3 := by decide +kernel

end Cut
end IndexedStore.Text

namespace IndexedStore.ErrorRecord

/-- A record made of any texts holds them cut to 63 and 255 bytes, and making a record of its texts
again changes nothing. Nor does a failure of the library say more in its record. -/
theorem labelled_cuts_texts :
    (∀ label code message,
      Text.IsCut 63 label (labelled label code message).label ∧
        Text.IsCut 255 message (labelled label code message).message ∧
        labelled (labelled label code message).label code (labelled label code message).message =
          labelled label code message) ∧
      ∀ f : Failure,
        Text.IsCut 63 f.label f.record.label ∧ Text.IsCut 255 f.text f.record.message := by
  refine ⟨fun label code message => ⟨Text.isCut_cut _ _, Text.isCut_cut _ _, ?_⟩, fun f =>
    ⟨Text.isCut_cut _ _, Text.isCut_cut _ _⟩⟩
  simp only [labelled, mk.injEq, true_and]
  exact ⟨(Text.isCut_cut _ label).settled, (Text.isCut_cut _ message).settled⟩

end IndexedStore.ErrorRecord
