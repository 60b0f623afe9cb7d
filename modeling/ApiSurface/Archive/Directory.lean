import ApiSurface.Text.Utf8

/-!
# The directory of an archive

A ZIP archive ends with a record that says where its directory stands and how many entries it has;
an archive with large numbers has a second record before that one. Every directory entry gives a
name, how the contents are packed, their checksum and where they stand. Bytes in front of the
archive shift all its offsets.
-/

namespace ApiSurface.Archive

/-! ## Numbers -/

/-- The number of `count` bytes at an offset, lowest byte first. -/
def number? (bytes : ByteArray) (offset : Nat) : (count : Nat) → Option Nat
  | 0 => some 0
  | count + 1 =>
    if h : offset < bytes.size then
      (number? bytes (offset + 1) count).map fun high => bytes[offset].toNat + 256 * high
    else none

/-- The largest offset. -/
def largest : Nat := 0xFFFFFFFFFFFFFFFF

/-- The bytes from an offset on, if there are as many. -/
def slice? (bytes : ByteArray) (offset count : Nat) : Option ByteArray :=
  if offset + count ≤ bytes.size then some (bytes.extract offset (offset + count)) else none

/-! ## Names -/

/-- The characters for the bytes from 128 on in names that are not marked as UTF-8. -/
def highCharacters : Array Char :=
  ("ÇüéâäàåçêëèïîìÄÅÉæÆôöòûùÿÖÜ¢£¥₧ƒáíóúñÑªº¿⌐¬½¼¡«»░▒▓│┤╡╢╖╕╣║╗╝╜╛┐" ++
    "└┴┬├─┼╞╟╚╔╩╦╠═╬╧╨╤╥╙╘╒╓╫╪┘┌█▄▌▐▀αßΓπΣσµτΦΘΩδ∞φε∩≡±≥≤⌠⌡÷≈°∙·√ⁿ²■\u00A0").toList.toArray

/-- A byte of such a name as a character. -/
def nameCharacter (b : UInt8) : Char :=
  if b.toNat < 128 then Char.ofNat b.toNat else highCharacters.getD (b.toNat - 128) '?'

/-- A name from its bytes. -/
def entryName (isUtf8 : Bool) (bytes : ByteArray) : String :=
  if isUtf8 then Text.Utf8.decodeLossy bytes
  else String.ofList (bytes.data.toList.map nameCharacter)

/-! ## Entries -/

/-- An entry of the directory. -/
structure Record where
  name : String
  isEncrypted : Bool
  /-- How the contents are packed: 0 for not at all, 8 for deflated. -/
  method : Nat
  checksum : Nat
  packedSize : Nat
  size : Nat
  /-- Where the header of the contents stands. -/
  offset : Nat
  /-- Whether the additional data says how the contents are encrypted. -/
  isSealed : Bool := false

namespace Record

/-- Whether the entry is a directory. -/
def isDirectory (r : Record) : Bool :=
  match r.name.toList.getLast? with
  | some c => c == '/' || c == '\\'
  | none => false

/-- The number that stands for one too large for its place. -/
def largeMark : Nat := 0xFFFFFFFF

/-- The method of an entry that is packed as its additional data says. -/
def sealedMethod : Nat := 99

/-- A size or offset that may be given in the additional data instead; the offset behind it. -/
def large? (bytes : ByteArray) (offset value : Nat) : Option (Nat × Nat) :=
  if value = largeMark then (number? bytes offset 8).map fun n => (n, offset + 8)
  else some (value, offset)

/-- Takes large sizes and offsets from the additional data at the given place; the place behind
them. What cannot be read is left as it is. -/
def withLarge (bytes : ByteArray) (place : Nat) (r : Record) : Record × Option Nat :=
  match large? bytes place r.size with
  | none => (r, none)
  | some (size, place) =>
    let r := { r with size }
    match large? bytes place r.packedSize with
    | none => (r, none)
    | some (packedSize, place) =>
      let r := { r with packedSize }
      match large? bytes place r.offset with
      | none => (r, none)
      | some (offset, place) => ({ r with offset }, some place)

/-- Whether the data of an encrypted entry is in order; what cannot be read counts as in order. -/
def encryptionIsKnown (bytes : ByteArray) (place length : Nat) : Bool :=
  length = 7 &&
    match number? bytes place 2, number? bytes (place + 2) 2, number? bytes (place + 4) 1,
      number? bytes (place + 5) 2 with
    | some version, some vendor, some strength, some _ =>
      vendor = 0x4541 && (version = 1 || version = 2) && 1 ≤ strength && strength ≤ 3
    | _, _, _, _ => true

/-- The entry with what its additional data says, from the given place on. The first argument bounds
the number of pieces of data. Nothing if the data of an encrypted entry is not in order. -/
def withExtra (bytes : ByteArray) : Nat → Nat → Record → Option Record
  | 0, _, r => some r
  | bound + 1, place, r =>
    match number? bytes place 2, number? bytes (place + 2) 2 with
    | some kind, some length =>
      let start := place + 4
      if kind = 1 then
        match r.withLarge bytes start with
        | (r, none) => some r
        | (r, some behind) => r.withExtra bytes bound (max behind (start + length))
      else if kind = 0x9901 then
        if encryptionIsKnown bytes start length then
          { r with isSealed := true }.withExtra bytes bound (start + length)
        else none
      else r.withExtra bytes bound (start + length)
    | _, _ => some r

/-- The directory entry at the given place of an archive whose offsets are shifted, and the place
behind it. -/
def read? (bytes : ByteArray) (shift place : Nat) : Option (Record × Nat) := do
  let signature ← number? bytes place 4
  if signature ≠ 0x02014B50 then none
  let flags ← number? bytes (place + 8) 2
  let method ← number? bytes (place + 10) 2
  let checksum ← number? bytes (place + 16) 4
  let packedSize ← number? bytes (place + 20) 4
  let size ← number? bytes (place + 24) 4
  let nameLength ← number? bytes (place + 28) 2
  let extraLength ← number? bytes (place + 30) 2
  let commentLength ← number? bytes (place + 32) 2
  let offset ← number? bytes (place + 42) 4
  let name ← slice? bytes (place + 46) nameLength
  let extra ← slice? bytes (place + 46 + nameLength) extraLength
  let behind := place + 46 + nameLength + extraLength + commentLength
  if bytes.size < behind then none
  let record ← withExtra extra (extraLength + 1) 0
    { name := entryName (flags / 2048 % 2 = 1) name
      isEncrypted := flags % 2 = 1
      method, checksum, packedSize, size, offset }
  if method = sealedMethod ∧ !record.isSealed then none
  if largest < record.offset + shift then none
  return ({ record with offset := record.offset + shift }, behind)

end Record

/-! ## Where the directory stands -/

/-- The last place, at most `left` bytes before `place`, where the signature stands. -/
def lastSignature? (bytes : ByteArray) (signature : Nat) : (left place : Nat) → Option Nat
  | left, place =>
    if number? bytes place 4 = some signature then some place
    else
      match left, place with
      | left + 1, place + 1 => lastSignature? bytes signature left place
      | _, _ => none

/-- The first place, at most `left` bytes behind `place`, where the signature stands. -/
def firstSignature? (bytes : ByteArray) (signature : Nat) : (left place : Nat) → Option Nat
  | left, place =>
    if number? bytes place 4 = some signature then some place
    else
      match left with
      | left + 1 => firstSignature? bytes signature left (place + 1)
      | 0 => none

/-- Where the directory begins, how many entries it has, and by how much offsets are shifted. -/
structure Location where
  start : Nat
  count : Nat
  shift : Nat
deriving DecidableEq, Repr

/-- The directory of an archive with large numbers, whose record is announced at the given place. The
end record stands at `last`; `disk` is the disk it names, unless its numbers are too small. -/
def largeLocation? (bytes : ByteArray) (last announced : Nat) (disk : Option Nat) :
    Option Location := do
  let announcedDisk ← number? bytes (announced + 4) 4
  let nominal ← number? bytes (announced + 8) 8
  if disk.any (· ≠ announcedDisk) then none
  if last < 60 ∨ last - 60 < nominal then none
  let place ← firstSignature? bytes 0x06064B50 (last - 60 - nominal) nominal
  let thisDisk ← number? bytes (place + 16) 4
  let directoryDisk ← number? bytes (place + 20) 4
  let count ← number? bytes (place + 32) 8
  let start ← number? bytes (place + 48) 8
  if thisDisk ≠ directoryDisk then none
  if largest < start + (place - nominal) then none
  return { start := start + (place - nominal), count, shift := place - nominal }

/-- Where the directory of an archive stands, by the record at its end. -/
def location? (bytes : ByteArray) : Option Location := do
  if bytes.size < 22 then none
  let last ← lastSignature? bytes 0x06054B50 65535 (bytes.size - 22)
  let disk ← number? bytes (last + 4) 2
  let directoryDisk ← number? bytes (last + 6) 2
  let diskCount ← number? bytes (last + 8) 2
  let count ← number? bytes (last + 10) 2
  let size ← number? bytes (last + 12) 4
  let start ← number? bytes (last + 16) 4
  let commentLength ← number? bytes (last + 20) 2
  if bytes.size < last + 22 + commentLength then none
  let tooSmall := disk = 0xFFFF ∨ directoryDisk = 0xFFFF ∨ diskCount = 0xFFFF ∨ count = 0xFFFF ∨
    size = 0xFFFFFFFF ∨ start = 0xFFFFFFFF
  if ¬ tooSmall ∧ disk ≠ directoryDisk then none
  let announced := bytes.size - (42 + commentLength)
  if 42 + commentLength ≤ bytes.size ∧ number? bytes announced 4 = some 0x07064B50 then
    largeLocation? bytes last announced (if tooSmall then none else some disk)
  else
    if last < size + start then none
    return { start := last - size, count := diskCount, shift := last - size - start }

/-- The entries of the directory from the given place on, behind those read before, last first. -/
def recordsFrom? (bytes : ByteArray) (shift : Nat) :
    (count place : Nat) → (before : List Record) → Option (List Record)
  | 0, _, before => some before.reverse
  | count + 1, place, before => do
    let (record, place) ← Record.read? bytes shift place
    recordsFrom? bytes shift count place (record :: before)

/-- The entries of an archive, or nothing if the bytes are none. -/
def records? (bytes : ByteArray) : Option (List Record) := do
  let location ← location? bytes
  recordsFrom? bytes location.shift location.count location.start []

end ApiSurface.Archive
