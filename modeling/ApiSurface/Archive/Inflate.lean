import ApiSurface.Archive.Bits

/-!
# Unpacking deflated data

Deflated data is a sequence of blocks. A block holds bytes as they are, or symbols in a prefix-free
code: literal bytes, and copies of bytes that have been written before, by length and distance. The
code is fixed, or given at the start of the block by the lengths of its code words.

Data that ends too early leaves what was unpacked before; data that breaks the format leaves
nothing. A copy from before the start of the data reads zeros.
-/

namespace ApiSurface.Archive

/-- How an unpacking ends. -/
inductive Unpacked where
  | complete (contents : ByteArray)
  | cut (contents : ByteArray)
  | corrupt

/-- Why reading one item fails. -/
inductive Stop where
  | cut
  | corrupt
deriving DecidableEq, Repr

/-- The next bits as a number. -/
def Bits.number (count : Nat) (b : Bits) : Except Stop (Nat × Bits) :=
  match b.take? count with
  | some found => .ok found
  | none => .error .cut

/-! ## Codes -/

/-- A canonical code: how many code words there are of each length from 1 to 15, and the symbols
ordered by the length of their code words. -/
structure Code where
  counts : List Nat
  symbols : Array Nat

namespace Code

/-- The code whose symbol `i` has a code word of length `lengths[i]`, or none if that is 0. -/
def ofLengths (lengths : List Nat) : Code :=
  let numbered := lengths.zipIdx
  let ofLength (n : Nat) : List Nat := (numbered.filter fun p => p.1 == n).map Prod.snd
  let classes := (List.range 15).map fun n => ofLength (n + 1)
  { counts := classes.map List.length, symbols := classes.flatten.toArray }

/-- How many code words there are. -/
def used (c : Code) : Nat := c.symbols.size

/-- How many words of 15 bits begin with a code word, if none begins with two. -/
def weight (c : Code) : Nat := c.counts.foldl (fun weight count => 2 * weight + count) 0

/-- Whether every word of 15 bits begins with exactly one code word. -/
def isComplete (c : Code) : Bool := c.weight == 0x8000

/-- Reads a code word, of which the bits read so far have the value `code`; `first` is the first
code word of the next length, and `index` the number of symbols with shorter code words. -/
def readFrom (c : Code) (code first index : Nat) (b : Bits) : List Nat → Except Stop (Nat × Bits)
  | [] => .error .corrupt
  | count :: longer =>
    match b.next? with
    | none => .error .cut
    | some (bit, b) =>
      let code := 2 * code + bit
      if code < first + count then
        match c.symbols[index + (code - first)]? with
        | some symbol => .ok (symbol, b)
        | none => .error .corrupt
      else c.readFrom code (2 * (first + count)) (index + count) b longer

/-- The symbol of the next code word. -/
def read (c : Code) (b : Bits) : Except Stop (Nat × Bits) := c.readFrom 0 0 0 b c.counts

end Code

/-! ## Blocks -/

/-- The least copy length of each length symbol, and how many bits more follow it. -/
def copyLengths : Array (Nat × Nat) :=
  #[(3, 0), (4, 0), (5, 0), (6, 0), (7, 0), (8, 0), (9, 0), (10, 0), (11, 1), (13, 1), (15, 1),
    (17, 1), (19, 2), (23, 2), (27, 2), (31, 2), (35, 3), (43, 3), (51, 3), (59, 3), (67, 4),
    (83, 4), (99, 4), (115, 4), (131, 5), (163, 5), (195, 5), (227, 5), (258, 0)]

/-- The least distance of each distance symbol, and how many bits more follow it. -/
def copyDistances : Array (Nat × Nat) :=
  #[(1, 0), (2, 0), (3, 0), (4, 0), (5, 1), (7, 1), (9, 2), (13, 2), (17, 3), (25, 3), (33, 4),
    (49, 4), (65, 5), (97, 5), (129, 6), (193, 6), (257, 7), (385, 7), (513, 8), (769, 8),
    (1025, 9), (1537, 9), (2049, 10), (3073, 10), (4097, 11), (6145, 11), (8193, 12), (12289, 12),
    (16385, 13), (24577, 13)]

/-- A value given by a symbol and the bits behind it. -/
def extended (table : Array (Nat × Nat)) (symbol : Nat) (b : Bits) : Except Stop (Nat × Bits) :=
  match table[symbol]? with
  | none => .error .corrupt
  | some (least, count) => do
    let (more, b) ← b.number count
    return (least + more, b)

/-- The output with `length` bytes copied from `distance` bytes before its end. -/
def copy (distance : Nat) : (length : Nat) → ByteArray → ByteArray
  | 0, out => out
  | length + 1, out =>
    let byte := if distance ≤ out.size then out.data.getD (out.size - distance) 0 else 0
    copy distance length (out.push byte)

/-- What a block leaves: the place behind it and the output, or an end of the unpacking. -/
inductive BlockEnd where
  | next (b : Bits) (out : ByteArray)
  | stop (result : Unpacked)

/-- The end of an unpacking that had to stop. -/
def Stop.result (out : ByteArray) : Stop → Unpacked
  | cut => .cut out
  | corrupt => .corrupt

/-- One symbol of a block: a byte, the end of the block, or a copy. -/
inductive Item where
  | byte (value : UInt8)
  | blockEnd
  | copy (length distance : Nat)

/-- Reads one symbol of a block. -/
def item (literals distances : Code) (b : Bits) : Except Stop (Item × Bits) := do
  let (symbol, b) ← literals.read b
  if symbol < 256 then return (.byte symbol.toUInt8, b)
  else if symbol = 256 then return (.blockEnd, b)
  else
    let (length, b) ← extended copyLengths (symbol - 257) b
    let (symbol, b) ← distances.read b
    let (distance, b) ← extended copyDistances symbol b
    return (.copy length distance, b)

/-- Unpacks the symbols of a block. The first argument bounds their number. -/
def symbolBlock (literals distances : Code) : Nat → Bits → ByteArray → BlockEnd
  | 0, _, out => .stop (.cut out)
  | bound + 1, b, out =>
    match item literals distances b with
    | .error stop => .stop (stop.result out)
    | .ok (.byte value, b) => symbolBlock literals distances bound b (out.push value)
    | .ok (.blockEnd, b) => .next b out
    | .ok (.copy length distance, b) =>
      symbolBlock literals distances bound b (copy distance length out)

/-- Unpacks a block of bytes as they are: their number, its complement, and the bytes. -/
def plainBlock (b : Bits) (out : ByteArray) : BlockEnd :=
  let b := b.align
  match b.take? 32 with
  | none => .stop (.cut out)
  | some (sizes, b) =>
    let size := sizes % 0x10000
    if size + sizes / 0x10000 ≠ 0xFFFF then .stop .corrupt
    else
      let bytes := b.upTo size
      if bytes.size < size then .stop (.cut (out ++ bytes))
      else .next (b.skipBytes size) (out ++ bytes)

/-- The code of literals and lengths of a block without a code of its own. -/
def fixedLiterals : Code :=
  .ofLengths (List.replicate 144 8 ++ List.replicate 112 9 ++ List.replicate 24 7 ++
    List.replicate 8 8)

/-- The code of distances of a block without a code of its own. -/
def fixedDistances : Code := .ofLengths (List.replicate 32 5)

/-! ## Codes given in a block -/

/-- The order in which the lengths of the code for code lengths are given. -/
def lengthOrder : List Nat := [16, 17, 18, 0, 8, 7, 9, 6, 10, 5, 11, 4, 12, 3, 13, 2, 14, 1, 15]

/-- The lengths of the code for code lengths, by the order in which they are given. -/
def lengthCode (given : List Nat) : Code :=
  let pairs := lengthOrder.zip given
  .ofLengths ((List.range 19).map fun symbol => (pairs.lookup symbol).getD 0)

/-- Several numbers of `width` bits. -/
def numbers (width : Nat) : Nat → Bits → Except Stop (List Nat × Bits)
  | 0, b => .ok ([], b)
  | n + 1, b => do
    let (first, b) ← b.number width
    let (more, b) ← numbers width n b
    return (first :: more, b)

/-- Reads `missing` code lengths behind those read before, last first. The first argument bounds the
number of symbols. -/
def codeLengths (c : Code) : Nat → (missing : Nat) → (before : List Nat) → Bits →
    Except Stop (List Nat × Bits)
  | _, 0, before, b => .ok (before.reverse, b)
  | 0, _ + 1, _, _ => .error .corrupt
  | bound + 1, missing, before, b => do
    let (symbol, b) ← c.read b
    let (value, count, b) ←
      if symbol < 16 then pure (symbol, 1, b)
      else if symbol = 16 then
        match before with
        | [] => throw .corrupt
        | last :: _ => do
          let (more, b) ← b.number 2
          pure (last, 3 + more, b)
      else if symbol = 17 then do
        let (more, b) ← b.number 3
        pure (0, 3 + more, b)
      else do
        let (more, b) ← b.number 7
        pure (0, 11 + more, b)
    if missing < count then throw .corrupt
    else codeLengths c bound (missing - count) (List.replicate count value ++ before) b

/-- The codes of literals and of distances that a block gives. A code must be complete, or have at
most one code word. -/
def blockCodes (b : Bits) : Except Stop (Code × Code × Bits) := do
  let (literalCount, b) ← b.number 5
  let (distanceCount, b) ← b.number 5
  let (lengthCount, b) ← b.number 4
  let literalCount := literalCount + 257
  let distanceCount := distanceCount + 1
  if 286 < literalCount ∨ 30 < distanceCount then throw .corrupt
  let (given, b) ← numbers 3 (lengthCount + 4) b
  let code := lengthCode given
  if !code.isComplete then throw .corrupt
  let total := literalCount + distanceCount
  let (lengths, b) ← codeLengths code total total [] b
  let literals := Code.ofLengths (lengths.take literalCount)
  let distances := Code.ofLengths (lengths.drop literalCount)
  if (!literals.isComplete && 1 < literals.used) || (!distances.isComplete && 1 < distances.used)
  then throw .corrupt
  return (literals, distances, b)

/-! ## The whole data -/

/-- Unpacks one block behind its first three bits. -/
def block (kind bound : Nat) (b : Bits) (out : ByteArray) : BlockEnd :=
  match kind with
  | 0 => plainBlock b out
  | 1 => symbolBlock fixedLiterals fixedDistances bound b out
  | 2 =>
    match blockCodes b with
    | .error stop => .stop (stop.result out)
    | .ok (literals, distances, b) => symbolBlock literals distances bound b out
  | _ => .stop .corrupt

/-- Unpacks block after block through the last one. The first argument bounds their number. -/
def blocks (bound : Nat) : Nat → Bits → ByteArray → Unpacked
  | 0, _, out => .cut out
  | left + 1, b, out =>
    match b.take? 3 with
    | none => .cut out
    | some (start, b) =>
      match block (start / 2) bound b out with
      | .stop result => result
      | .next b out => if start % 2 = 1 then .complete out else blocks bound left b out

/-- Unpacks deflated data. Every block and every symbol takes at least one bit. -/
def inflate (bytes : ByteArray) : Unpacked :=
  let bound := 8 * bytes.size + 1
  blocks bound bound ⟨bytes, 0⟩ .empty

end ApiSurface.Archive
