/-!
# Reading bits

Bytes read bit by bit, from the lowest bit of each byte up.
-/

namespace ApiSurface.Archive

/-- Bytes, and the index of the bit to be read next. -/
structure Bits where
  bytes : ByteArray
  position : Nat := 0

namespace Bits

/-- The next bit. -/
def next? (b : Bits) : Option (Nat × Bits) :=
  if h : b.position / 8 < b.bytes.size then
    some ((b.bytes[b.position / 8].toNat >>> (b.position % 8)) % 2,
      { b with position := b.position + 1 })
  else none

/-- A number of the given count of bits, the lowest bit first. -/
def take? : Nat → Bits → Option (Nat × Bits)
  | 0, b => some (0, b)
  | n + 1, b => do
    let (low, b) ← b.next?
    let (high, b) ← take? n b
    return (low + 2 * high, b)

/-- The next bit that begins a byte. -/
def align (b : Bits) : Bits := { b with position := (b.position + 7) / 8 * 8 }

/-- The bytes from the next bit on, which begins a byte, at most `count` of them. -/
def upTo (count : Nat) (b : Bits) : ByteArray :=
  b.bytes.extract (b.position / 8) (min (b.position / 8 + count) b.bytes.size)

/-- Behind `count` bytes. -/
def skipBytes (count : Nat) (b : Bits) : Bits := { b with position := b.position + 8 * count }

end Bits

end ApiSurface.Archive
