import IndexedStore.Index.Basic
import Mathlib.Algebra.Group.Nat.Defs

/-! # Reading records back

A number written in a fixed number of bytes is read back unless it is too large for them. So a
record is read back with the id and the flags it was written with, and with its data, except that
data of no bytes cannot be told from no data.
-/
namespace IndexedStore

@[simp] theorem length_littleEndian (width n : Nat) : (littleEndian width n).length = width := by
  induction width generalizing n with
  | zero => rfl
  | succ width ih => rw [littleEndian, List.length_cons, ih]

theorem ofLittleEndian_littleEndian (width n : Nat) :
    ofLittleEndian (littleEndian width n) = n % 256 ^ width := by
  induction width generalizing n with
  | zero => rw [Nat.pow_zero, Nat.mod_one]; rfl
  | succ width ih =>
    have hlow : (UInt8.ofNat n).toNat = n % 256 := UInt8.toNat_ofNat'
    rw [littleEndian, ofLittleEndian, hlow, ih, Nat.pow_succ', Nat.mod_mul]

theorem ofLittleEndian_of_lt {width n : Nat} (h : n < 256 ^ width) :
    ofLittleEndian (littleEndian width n) = n := by
  rw [ofLittleEndian_littleEndian, Nat.mod_eq_of_lt h]

namespace IndexRecord

/-- The data of an index as it is read back. -/
def storedData (data : Option Bytes) : Option Bytes := data.filter fun d => !d.isEmpty

theorem storedData_eq_self {data : Option Bytes} (h : data ≠ some []) : storedData data = data := by
  rcases data with _ | _ | _
  · rfl
  · exact absurd rfl h
  · rfl

/-- The length of the data is written in four bytes. -/
def Fits (data : Option Bytes) : Prop := (data.getD []).length < 256 ^ 4

/-- The parts of a record lie where they are read. -/
theorem parts_of_encode {a b c : Bytes} (data : Bytes) (ha : a.length = 8) (hb : b.length = 4)
    (hc : c.length = 4) :
    (a ++ b ++ c ++ data).take 8 = a ∧ ((a ++ b ++ c ++ data).drop 8).take 4 = b ∧
      ((a ++ b ++ c ++ data).drop 12).take 4 = c ∧
      (a ++ b ++ c ++ data).drop headerSize = data := by
  have hab : (a ++ b).length = 12 := by
    rw [List.length_append]
    omega
  have habc : (a ++ b ++ c).length = 16 := by
    rw [List.length_append]
    omega
  refine ⟨?_, ?_, ?_, List.drop_left' habc⟩
  · rw [List.append_assoc, List.append_assoc, List.take_left' ha]
  · rw [List.append_assoc, List.append_assoc, List.drop_left' ha, List.take_left' hb]
  · rw [List.append_assoc, List.drop_left' hab, List.take_left' hc]

theorem decode_encode (r : IndexRecord) (fits : Fits r.userData) :
    decode r.encode = .ok { r with userData := storedData r.userData } := by
  have hid : ofLittleEndian (littleEndian 8 r.extractorId.toNat) = r.extractorId.toNat :=
    ofLittleEndian_of_lt r.extractorId.toNat_lt
  have hflags : ofLittleEndian (littleEndian 4 r.flags.toNat) = r.flags.toNat :=
    ofLittleEndian_of_lt r.flags.toNat_lt
  have hlength : ofLittleEndian (littleEndian 4 (r.userData.getD []).length) =
      (r.userData.getD []).length := ofLittleEndian_of_lt fits
  obtain ⟨h₁, h₂, h₃, h₄⟩ := parts_of_encode (r.userData.getD [])
    (length_littleEndian 8 r.extractorId.toNat) (length_littleEndian 4 r.flags.toNat)
    (length_littleEndian 4 (r.userData.getD []).length)
  have hlong : ¬ r.encode.length < headerSize := by
    simp only [encode, headerSize, List.length_append, length_littleEndian]
    omega
  unfold decode
  rw [if_neg hlong]
  simp only [encode, h₁, h₂, h₃, h₄, hid, hflags, hlength, Nat.lt_irrefl, if_false,
    UInt64.ofNat_toNat, UInt32.ofNat_toNat, List.take_length]
  rcases r with ⟨id, flags, _ | _ | _⟩ <;> rfl

/-- What is read has data or none, but not data of no bytes. -/
theorem userData_of_decode {raw : Bytes} {r : IndexRecord} (h : decode raw = .ok r) :
    r.userData ≠ some [] := by
  unfold decode at h
  split at h
  · cases h
  · simp only at h
    split at h
    · cases h
    · rename_i hlong
      cases h
      intro hempty
      simp only at hempty
      split at hempty
      · cases hempty
      · rename_i hzero
        have htake := congrArg List.length (Option.some.inj hempty)
        rw [List.length_take, List.length_nil] at htake
        omega

end IndexRecord
end IndexedStore
