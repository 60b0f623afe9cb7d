/-!
# The checksum of archive entries

The cyclic redundancy check of 32 bits with the reflected polynomial `0xEDB88320`, computed bit by
bit.
-/

namespace ApiSurface.Archive

/-- One step of the division: the lowest bit is shifted out. -/
def checksumBit (crc : UInt32) : UInt32 :=
  if crc &&& 1 = 1 then (crc >>> 1) ^^^ 0xEDB88320 else crc >>> 1

/-- The eight steps for one byte. -/
def checksumByte (crc : UInt32) (b : UInt8) : UInt32 :=
  let crc := crc ^^^ b.toUInt32
  checksumBit (checksumBit (checksumBit (checksumBit
    (checksumBit (checksumBit (checksumBit (checksumBit crc)))))))

/-- The checksum of the bytes. -/
def checksum (bytes : ByteArray) : UInt32 :=
  bytes.foldl checksumByte 0xFFFFFFFF ^^^ 0xFFFFFFFF

end ApiSurface.Archive
