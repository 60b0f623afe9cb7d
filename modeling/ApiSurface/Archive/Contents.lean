import ApiSurface.Archive.Checksum
import ApiSurface.Archive.Directory
import ApiSurface.Archive.Inflate
import ApiSurface.Files.Fault

/-!
# The contents of archive entries

The contents of an entry stand behind a header of their own. They are taken as they are or unpacked,
and must fit the checksum that the directory gives.
-/

namespace ApiSurface.Archive.Record

/-- Where the contents of the entry begin, if their header is in order and they are packed in a way
that is known. -/
def contentsStart? (bytes : ByteArray) (r : Record) : Option Nat := do
  if r.isEncrypted || r.isSealed then none
  let signature ← number? bytes r.offset 4
  if signature ≠ 0x04034B50 then none
  let nameLength ← number? bytes (r.offset + 26) 2
  let extraLength ← number? bytes (r.offset + 28) 2
  if r.method ≠ 0 ∧ r.method ≠ 8 then none
  return r.offset + 30 + nameLength + extraLength

/-- The bytes of an archive in which the entry's contents are packed, as far as they are there. -/
def packed (bytes : ByteArray) (start : Nat) (r : Record) : ByteArray :=
  bytes.extract (min start bytes.size) (min (start + r.packedSize) bytes.size)

/-- The contents of the entry, which begin at `start`. -/
def contents (bytes : ByteArray) (start : Nat) (r : Record) : Except FileFault ByteArray :=
  let packed := r.packed bytes start
  let unpacked := if r.method = 0 then Unpacked.complete packed else inflate packed
  match unpacked with
  | .corrupt => .error .badCompression
  | .complete contents | .cut contents =>
    if (Archive.checksum contents).toNat = r.checksum then .ok contents else .error .badChecksum

end ApiSurface.Archive.Record
