import IndexedStore.Proofs.Record
import Mathlib.Data.List.GetD

/-! # Records as a code

The bytes of a number are given back by the number, so a record that is read is written again as
the very bytes that were read: the header and the data that it announces. What lies behind the data
is not read. Two strings that can be read hold the same record just if they agree up to there.
-/
namespace IndexedStore

theorem ofLittleEndian_lt (l : Bytes) : ofLittleEndian l < 256 ^ l.length := by
  induction l with
  | nil => exact Nat.one_pos
  | cons b rest ih =>
    have hb : b.toNat < 256 := b.toNat_lt
    rw [ofLittleEndian, List.length_cons, Nat.pow_succ']
    omega

theorem ofLittleEndian_lt_of_length {l : Bytes} {width : Nat} (h : l.length = width) :
    ofLittleEndian l < 256 ^ width := by
  rw [← h]
  exact ofLittleEndian_lt l

/-- `ofLittleEndian_littleEndian` from the side of the bytes. -/
theorem littleEndian_ofLittleEndian (l : Bytes) :
    littleEndian l.length (ofLittleEndian l) = l := by
  induction l with
  | nil => rfl
  | cons b rest ih =>
    have hb : b.toNat < 256 := b.toNat_lt
    have hlow : UInt8.ofNat (b.toNat + 256 * ofLittleEndian rest) = b := by
      refine UInt8.toNat_inj.mp ?_
      rw [UInt8.toNat_ofNat']
      omega
    have hhigh : (b.toNat + 256 * ofLittleEndian rest) / 256 = ofLittleEndian rest := by omega
    rw [ofLittleEndian, List.length_cons, littleEndian, hlow, hhigh, ih]

theorem littleEndian_ofLittleEndian_of_length {l : Bytes} {width : Nat} (h : l.length = width) :
    littleEndian width (ofLittleEndian l) = l := by
  rw [← h, littleEndian_ofLittleEndian]

namespace IndexRecord

/-- The length of the data as the header has it, in the last four of its bytes. -/
def announced (d : Bytes) : Nat :=
  (d.getD 12 0).toNat + 256 * (d.getD 13 0).toNat + 65536 * (d.getD 14 0).toNat +
    16777216 * (d.getD 15 0).toNat

/-- The header is there, and as many bytes of data as it announces. -/
def Complete (d : Bytes) : Prop := 16 ≤ d.length ∧ 16 + announced d ≤ d.length

instance (d : Bytes) : Decidable (Complete d) := inferInstanceAs (Decidable (_ ∧ _))

/-- The part of a string that is read. -/
def significant (d : Bytes) : Bytes := d.take (16 + announced d)

theorem ofLittleEndian_eq_announced {d : Bytes} (h : 16 ≤ d.length) :
    ofLittleEndian ((d.drop 12).take 4) = announced d := by
  have hbytes : (d.drop 12).take 4 = [d.getD 12 0, d.getD 13 0, d.getD 14 0, d.getD 15 0] := by
    have h₁₂ : 12 < d.length := by omega
    have h₁₃ : 13 < d.length := by omega
    have h₁₄ : 14 < d.length := by omega
    have h₁₅ : 15 < d.length := by omega
    rw [List.drop_eq_getElem_cons h₁₂, List.drop_eq_getElem_cons h₁₃,
      List.drop_eq_getElem_cons h₁₄, List.drop_eq_getElem_cons h₁₅,
      List.getD_eq_getElem d 0 h₁₂, List.getD_eq_getElem d 0 h₁₃,
      List.getD_eq_getElem d 0 h₁₄, List.getD_eq_getElem d 0 h₁₅]
    rfl
  rw [hbytes]
  simp only [ofLittleEndian, announced]
  omega

/-- What is read from a string that is long enough. -/
theorem decode_of_complete {d : Bytes} (h : Complete d) :
    decode d = .ok {
      extractorId := .ofNat (ofLittleEndian (d.take 8))
      flags := .ofNat (ofLittleEndian ((d.drop 8).take 4))
      userData := if announced d = 0 then none else some ((d.drop 16).take (announced d)) } := by
  have hbody : ¬ (d.drop headerSize).length < announced d := by
    have hdata := h.2
    rw [List.length_drop, headerSize]
    omega
  have hheader : ¬ d.length < headerSize := Nat.not_lt.mpr h.1
  unfold decode
  rw [if_neg hheader]
  simp only [ofLittleEndian_eq_announced h.1]
  rw [if_neg hbody]
  rfl

theorem decode_of_not_complete {d : Bytes} (h : ¬ Complete d) :
    ∃ e, decode d = .error e ∧ e.code = .invalidArg := by
  unfold decode
  by_cases hheader : d.length < headerSize
  · exact ⟨_, if_pos hheader, rfl⟩
  · have hlong : 16 ≤ d.length := Nat.not_lt.mp hheader
    have hshort : (d.drop headerSize).length < announced d := by
      have hdata : ¬ 16 + announced d ≤ d.length := fun hdata => h ⟨hlong, hdata⟩
      rw [List.length_drop, headerSize]
      omega
    rw [if_neg hheader]
    simp only [ofLittleEndian_eq_announced hlong]
    exact ⟨_, if_pos hshort, rfl⟩

theorem decode_isOk_iff (d : Bytes) : (∃ r, decode d = .ok r) ↔ Complete d := by
  constructor
  · rintro ⟨r, hr⟩
    refine Decidable.byContradiction fun hshort => ?_
    obtain ⟨e, he, -⟩ := decode_of_not_complete hshort
    rw [he] at hr
    cases hr
  · exact fun h => ⟨_, decode_of_complete h⟩

/-- The header and the data, put together again. -/
theorem significant_eq (d : Bytes) :
    significant d = d.take 8 ++ (d.drop 8).take 4 ++ (d.drop 12).take 4 ++
      (d.drop 16).take (announced d) := by
  rw [significant, List.take_add, show (16 : Nat) = 8 + 4 + 4 from rfl, List.take_add,
    List.take_add]

/-- A record that was read is written as it was found. -/
theorem encode_of_decode {d : Bytes} {r : IndexRecord} (h : decode d = .ok r) :
    r.encode = significant d := by
  have hd : Complete d := (decode_isOk_iff d).mp ⟨r, h⟩
  obtain ⟨hheader, hdata⟩ := hd
  rw [decode_of_complete ⟨hheader, hdata⟩] at h
  cases h
  have hid : (d.take 8).length = 8 := by
    rw [List.length_take]
    omega
  have hflags : ((d.drop 8).take 4).length = 4 := by
    rw [List.length_take, List.length_drop]
    omega
  have hcount : ((d.drop 12).take 4).length = 4 := by
    rw [List.length_take, List.length_drop]
    omega
  have hbody : ((d.drop 16).take (announced d)).length = announced d := by
    rw [List.length_take, List.length_drop]
    omega
  have hidlt : ofLittleEndian (d.take 8) < 256 ^ 8 := ofLittleEndian_lt_of_length hid
  have hflagslt : ofLittleEndian ((d.drop 8).take 4) < 256 ^ 4 := ofLittleEndian_lt_of_length hflags
  have hread : (if announced d = 0 then none
      else some ((d.drop 16).take (announced d))).getD [] = (d.drop 16).take (announced d) := by
    split
    · rename_i hzero
      rw [hzero, List.take_zero]
      rfl
    · rfl
  rw [significant_eq, encode]
  simp only [hread, hbody, UInt64.toNat_ofNat_of_lt' hidlt, UInt32.toNat_ofNat_of_lt' hflagslt]
  rw [littleEndian_ofLittleEndian_of_length hid, littleEndian_ofLittleEndian_of_length hflags,
    ← ofLittleEndian_eq_announced hheader, littleEndian_ofLittleEndian_of_length hcount]

theorem announced_lt (d : Bytes) : announced d < 256 ^ 4 := by
  have h₀ : (d.getD 12 0).toNat < 256 := UInt8.toNat_lt _
  have h₁ : (d.getD 13 0).toNat < 256 := UInt8.toNat_lt _
  have h₂ : (d.getD 14 0).toNat < 256 := UInt8.toNat_lt _
  have h₃ : (d.getD 15 0).toNat < 256 := UInt8.toNat_lt _
  have hsum : announced d < 4294967296 := by
    unfold announced
    omega
  exact hsum

theorem fits_of_decode {d : Bytes} {r : IndexRecord} (h : decode d = .ok r) : Fits r.userData := by
  have hd : Complete d := (decode_isOk_iff d).mp ⟨r, h⟩
  rw [decode_of_complete hd] at h
  cases h
  unfold Fits
  split
  · exact Nat.pow_pos (by decide)
  · exact Nat.lt_of_le_of_lt (List.length_take_le _ _) (announced_lt d)

/-- What is not significant is not read. -/
theorem decode_significant {d : Bytes} (h : Complete d) : decode (significant d) = decode d := by
  obtain ⟨r, hr⟩ := (decode_isOk_iff d).mpr h
  rw [← encode_of_decode hr, decode_encode r (fits_of_decode hr),
    storedData_eq_self (userData_of_decode hr), hr]

theorem decode_eq_iff {d d' : Bytes} (h : Complete d) (h' : Complete d') :
    decode d = decode d' ↔ significant d = significant d' := by
  constructor
  · intro heq
    obtain ⟨r, hr⟩ := (decode_isOk_iff d).mpr h
    rw [← encode_of_decode hr, ← encode_of_decode (heq ▸ hr)]
  · intro heq
    rw [← decode_significant h, heq, decode_significant h']

/-- Records and their bytes determine each other. A record is read back from what was written, data
of no bytes as none; the strings that can be read are those that are long enough, every other one is
an invalid argument; a record that was read is written as the significant bytes, and these are all
that two strings of one record have in common. -/
theorem faithful_code (r : IndexRecord) (d d' : Bytes) :
    ((r.userData.getD []).length < 4294967296 →
      decode r.encode =
        .ok { r with userData := if r.userData = some [] then none else r.userData }) ∧
    ((∃ s, decode d = .ok s) ↔ 16 ≤ d.length ∧ 16 + announced d ≤ d.length) ∧
    (∀ e, decode d = .error e → e.code = .invalidArg) ∧
    (∀ s, decode d = .ok s → s.encode = d.take (16 + announced d)) ∧
    (∀ s s', decode d = .ok s → decode d' = .ok s' →
      (s = s' ↔ d.take (16 + announced d) = d'.take (16 + announced d'))) := by
  refine ⟨fun hfits => ?_, decode_isOk_iff d, fun e he => ?_, fun s => encode_of_decode,
    fun s s' hs hs' => ?_⟩
  · have hdata : storedData r.userData = if r.userData = some [] then none else r.userData := by
      split
      · rename_i hempty
        rw [hempty]
        rfl
      · rename_i hdata
        exact storedData_eq_self hdata
    rw [decode_encode r hfits, hdata]
  · have hshort : ¬ Complete d := by
      intro h
      rw [decode_of_complete h] at he
      cases he
    obtain ⟨e', he', hcode⟩ := decode_of_not_complete hshort
    rw [he] at he'
    cases he'
    exact hcode
  · have heq := decode_eq_iff ((decode_isOk_iff d).mp ⟨s, hs⟩) ((decode_isOk_iff d').mp ⟨s', hs'⟩)
    rw [hs, hs', Except.ok.injEq] at heq
    exact heq

/-- The index with id 7, no flags and the data `ab`, and its bytes with two more behind them. -/
def paddedRecord : Bytes := [7, 0, 0, 0, 0, 0, 0, 0, 0, 0, 0, 0, 2, 0, 0, 0, 97, 98, 1, 2]

theorem faithful_code_of_padded_record :
    decode paddedRecord = .ok ⟨7, 0, some [97, 98]⟩ ∧
      IndexRecord.encode ⟨7, 0, some [97, 98]⟩ = paddedRecord.take 18 ∧
      decode (IndexRecord.encode ⟨7, 0, some []⟩) = .ok ⟨7, 0, none⟩ :=
  have hpadded : decode paddedRecord = .ok ⟨7, 0, some [97, 98]⟩ := by rfl
  have hlaws := faithful_code ⟨7, 0, some []⟩ paddedRecord []
  ⟨hpadded, hlaws.2.2.2.1 _ hpadded, hlaws.1 (by decide)⟩

end IndexRecord
end IndexedStore
