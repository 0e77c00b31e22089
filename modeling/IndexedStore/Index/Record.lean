import IndexedStore.Bytes
import IndexedStore.Extractor
import IndexedStore.Failure

/-! # Index records

What is kept of an index between openings: the id of its extractor, its flags and its own data. The
record is a header of sixteen bytes, all words little-endian (the id in eight bytes, the flags and
the length of the data in four each), followed by the data.
-/
namespace IndexedStore

/-- The low `width` bytes of a number, least significant first. -/
def littleEndian : Nat → Nat → Bytes
  | 0, _ => []
  | width + 1, n => UInt8.ofNat n :: littleEndian width (n / 256)

def ofLittleEndian : Bytes → Nat
  | [] => 0
  | b :: rest => b.toNat + 256 * ofLittleEndian rest

structure IndexRecord where
  extractorId : UInt64
  flags : UInt32
  /-- data handed to the extractor; empty data is read back as none -/
  userData : Option Bytes
deriving DecidableEq

namespace IndexRecord

def headerSize : Nat := 16

def isUnique (r : IndexRecord) : Bool := r.flags &&& uniqueFlag != 0

def isSparse (r : IndexRecord) : Bool := r.flags &&& sparseFlag != 0

def encode (r : IndexRecord) : Bytes :=
  let data := r.userData.getD []
  littleEndian 8 r.extractorId.toNat ++ littleEndian 4 r.flags.toNat ++
    littleEndian 4 data.length ++ data

/-- Reads a record back. Bytes after the announced data are ignored. -/
def decode (d : Bytes) : Except Failure IndexRecord :=
  if d.length < headerSize then .error (.recordTooShort d.length)
  else
    let length := ofLittleEndian ((d.drop 12).take 4)
    let body := d.drop headerSize
    if body.length < length then .error (.recordTruncated length body.length)
    else .ok {
      extractorId := .ofNat (ofLittleEndian (d.take 8))
      flags := .ofNat (ofLittleEndian ((d.drop 8).take 4))
      userData := if length = 0 then none else some (body.take length) }

end IndexRecord
end IndexedStore
