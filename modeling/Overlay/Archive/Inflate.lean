/-!
# Inflating

The decoder of the DEFLATE format, over the list of the bits in the order in which they are read.
A stream that breaks a rule of the format is malformed; one whose bits run out before its last
block is complete has ended early. What follows the last block is not looked at.
-/

namespace Overlay.Archive

inductive InflateFault where
  | malformed
  | endedEarly
deriving DecidableEq

namespace Inflate

abbrev Bits := List Bool

/-- The bits of a byte, the least significant first. -/
def bitsOfByte (b : UInt8) : Bits := (List.range 8).map fun i => b.toNat.testBit i

def bitsOf (bytes : ByteArray) : Bits := bytes.data.toList.flatMap bitsOfByte

/-- A number of `n` bits, the least significant first. -/
def number : Nat → Bits → Except InflateFault (Nat × Bits)
  | 0, bits => .ok (0, bits)
  | _ + 1, [] => .error .endedEarly
  | n + 1, b :: bits => do
    let (high, rest) ← number n bits
    pure (2 * high + b.toNat, rest)

/-- A prefix code: how many code words there are of each length from 1 on, without trailing
zeros, and the symbols in the order of their code words. -/
structure Code where
  counts : List Nat
  symbols : Array Nat

/-- The code in which the symbol `s` has a code word of `lengths[s]` bits, where 0 is none. A code
must use up every word, but if `sparse` allows it, one without code words or with a single one of
one bit may stand too. -/
def Code.ofLengths (sparse : Bool) (lengths : List Nat) : Except InflateFault Code :=
  let counts := (List.range 15).map fun n => lengths.count (n + 1)
  let space := counts.foldl (fun total n => 2 * (total + n)) 0
  let indexed := lengths.zipIdx
  let symbols := (List.range 15).flatMap fun n =>
    (indexed.filter fun e => e.1 == n + 1).map Prod.snd
  let isSparse := symbols.isEmpty || counts == 1 :: List.replicate 14 0
  if space != 0x10000 && !(sparse && isSparse) then .error .malformed
  else .ok ⟨(counts.reverse.dropWhile (· == 0)).reverse, symbols.toArray⟩

/-- Reads a code word bit by bit. Among the words of the current length, `first` is the lowest and
`index` the place of its symbol. -/
def Code.symbolFrom (symbols : Array Nat) : List Nat → (word first index : Nat) → Bits →
    Except InflateFault (Nat × Bits)
  | _, _, _, _, [] => .error .endedEarly
  | [], _, _, _, _ :: _ => .error .malformed
  | count :: counts, word, first, index, b :: bits =>
    let word := 2 * word + b.toNat
    if word < first + count then
      match symbols[index + (word - first)]? with
      | some symbol => .ok (symbol, bits)
      | none => .error .malformed
    else if counts.isEmpty then .error .malformed
    else symbolFrom symbols counts word (2 * (first + count)) (index + count) bits

def Code.symbol (code : Code) (bits : Bits) : Except InflateFault (Nat × Bits) :=
  symbolFrom code.symbols code.counts 0 0 0 bits

/-- Least length and number of further bits of each length symbol from 257 on. -/
def lengthTable : Array (Nat × Nat) := #[
  (3, 0), (4, 0), (5, 0), (6, 0), (7, 0), (8, 0), (9, 0), (10, 0), (11, 1), (13, 1), (15, 1),
  (17, 1), (19, 2), (23, 2), (27, 2), (31, 2), (35, 3), (43, 3), (51, 3), (59, 3), (67, 4),
  (83, 4), (99, 4), (115, 4), (131, 5), (163, 5), (195, 5), (227, 5), (258, 0)]

/-- Least distance and number of further bits of each distance symbol. -/
def distanceTable : Array (Nat × Nat) := #[
  (1, 0), (2, 0), (3, 0), (4, 0), (5, 1), (7, 1), (9, 2), (13, 2), (17, 3), (25, 3), (33, 4),
  (49, 4), (65, 5), (97, 5), (129, 6), (193, 6), (257, 7), (385, 7), (513, 8), (769, 8),
  (1025, 9), (1537, 9), (2049, 10), (3073, 10), (4097, 11), (6145, 11), (8193, 12), (12289, 12),
  (16385, 13), (24577, 13)]

def measure (table : Array (Nat × Nat)) (symbol : Nat) (bits : Bits) :
    Except InflateFault (Nat × Bits) :=
  match table[symbol]? with
  | none => .error .malformed
  | some (least, further) => do
    let (n, bits) ← number further bits
    pure (least + n, bits)

/-- Repeats what was put out `distance` bytes ago; before the first byte there are zeros. -/
def copy (distance : Nat) : Nat → ByteArray → ByteArray
  | 0, out => out
  | n + 1, out =>
    let b := if distance ≤ out.size then out.get! (out.size - distance) else 0
    copy distance n (out.push b)

/-- The symbols of a block up to its end. Each takes a bit at least, so `fuel` bits suffice. -/
def symbols (literals distances : Code) : (fuel : Nat) → Bits → ByteArray →
    Except InflateFault (Bits × ByteArray)
  | 0, _, _ => .error .endedEarly
  | fuel + 1, bits, out => do
    let (symbol, bits) ← literals.symbol bits
    if symbol < 256 then symbols literals distances fuel bits (out.push (UInt8.ofNat symbol))
    else if symbol = 256 then pure (bits, out)
    else
      let (length, bits) ← measure lengthTable (symbol - 257) bits
      let (symbol, bits) ← distances.symbol bits
      let (distance, bits) ← measure distanceTable symbol bits
      symbols literals distances fuel bits (copy distance length out)

def fixedLiterals : List Nat :=
  List.replicate 144 8 ++ List.replicate 112 9 ++ List.replicate 24 7 ++ List.replicate 8 8

def fixedDistances : List Nat := List.replicate 32 5

/-- The order in which a block states the lengths of the code for code lengths. -/
def lengthOrder : List Nat :=
  [16, 17, 18, 0, 8, 7, 9, 6, 10, 5, 11, 4, 12, 3, 13, 2, 14, 1, 15]

/-- `count` numbers of `width` bits each. -/
def numbers (width : Nat) : (count : Nat) → Bits → Except InflateFault (List Nat × Bits)
  | 0, bits => .ok ([], bits)
  | count + 1, bits => do
    let (n, bits) ← number width bits
    let (rest, bits) ← numbers width count bits
    pure (n :: rest, bits)

/-- The lengths of the code words of a block, the last one first, until there are `wanted`. -/
def codeLengths (code : Code) (wanted : Nat) : (fuel : Nat) → List Nat → Bits →
    Except InflateFault (List Nat × Bits)
  | 0, _, _ => .error .endedEarly
  | fuel + 1, lengths, bits =>
    if lengths.length = wanted then .ok (lengths, bits)
    else if wanted < lengths.length then .error .malformed
    else do
      let (symbol, bits) ← code.symbol bits
      if symbol < 16 then codeLengths code wanted fuel (symbol :: lengths) bits
      else if symbol = 16 then
        match lengths with
        | [] => throw .malformed
        | last :: _ =>
          let (n, bits) ← number 2 bits
          codeLengths code wanted fuel (List.replicate (3 + n) last ++ lengths) bits
      else if symbol = 17 then
        let (n, bits) ← number 3 bits
        codeLengths code wanted fuel (List.replicate (3 + n) 0 ++ lengths) bits
      else
        let (n, bits) ← number 7 bits
        codeLengths code wanted fuel (List.replicate (11 + n) 0 ++ lengths) bits

def ownCodes (bits : Bits) : Except InflateFault (Code × Code × Bits) := do
  let (hlit, bits) ← number 5 bits
  let (hdist, bits) ← number 5 bits
  let (hclen, bits) ← number 4 bits
  let literals := hlit + 257
  let distances := hdist + 1
  if 286 < literals ∨ 30 < distances then throw .malformed
  let (stated, bits) ← numbers 3 (hclen + 4) bits
  let given := lengthOrder.zip stated
  let code ← Code.ofLengths false ((List.range 19).map fun s => (given.lookup s).getD 0)
  let wanted := literals + distances
  let (reversed, bits) ← codeLengths code wanted (wanted + 1) [] bits
  let lengths := reversed.reverse
  let distanceCode ← Code.ofLengths true (lengths.drop literals)
  let literalCode ← Code.ofLengths true (lengths.take literals)
  pure (literalCode, distanceCode, bits)

/-- A block that is stored as it is, from the next byte on. -/
def storedBlock (total : Nat) (bits : Bits) (out : ByteArray) :
    Except InflateFault (Bits × ByteArray) := do
  let bits := bits.drop ((bits.length + 8 * total) % 8)
  let (length, bits) ← number 16 bits
  let (complement, bits) ← number 16 bits
  if length + complement ≠ 0xFFFF then throw .malformed
  let (bytes, bits) ← numbers 8 length bits
  pure (bits, bytes.foldl (fun out b => out.push (UInt8.ofNat b)) out)

/-- One block after another up to the last one. Each takes a bit at least, so `fuel` bits
suffice. -/
def blocks (total : Nat) : (fuel : Nat) → Bits → ByteArray → Except InflateFault ByteArray
  | 0, _, _ => .error .endedEarly
  | fuel + 1, bits, out => do
    let (final, bits) ← number 1 bits
    let (kind, bits) ← number 2 bits
    let (bits, out) ←
      match kind with
      | 0 => storedBlock total bits out
      | 1 => do
        let literals ← Code.ofLengths true fixedLiterals
        let distances ← Code.ofLengths true fixedDistances
        symbols literals distances (bits.length + 1) bits out
      | 2 => do
        let (literals, distances, bits) ← ownCodes bits
        symbols literals distances (bits.length + 1) bits out
      | _ => throw .malformed
    if final = 1 then pure out else blocks total fuel bits out

end Inflate

def inflate (bytes : ByteArray) : Except InflateFault ByteArray :=
  let bits := Inflate.bitsOf bytes
  Inflate.blocks bytes.size (bits.length + 1) bits ByteArray.empty

end Overlay.Archive
