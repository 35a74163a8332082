import ContainerLayer.Compression.Zstd.Huffman

/-
Compressed blocks: literals, and sequences that say how to put the output
together from literals and from what was put out before.

Codes and tables may be taken over from the block before, so decoding a block
takes a state and gives one.
-/

namespace ContainerLayer
namespace Zstd

/-- What one block hands on to the next. -/
structure BlockState where
  huffman : Option HuffmanTable := none
  literalLengths : Option FseTable := none
  offsets : Option FseTable := none
  matchLengths : Option FseTable := none
  /-- The three offsets used last. -/
  recent : Nat × Nat × Nat := (1, 4, 8)
  output : Array UInt8 := #[]

def maxBlock : Nat := 131072

/-! ## Literals -/

/-- The sizes in front of literals that are not coded: their number, and the length of the
header. -/
def plainSizes (b : Bytes) : Nat × Nat :=
  let x := Bytes.littleEndian (b.take 3)
  match x / 4 % 4 with
  | 1 => (x % 65536 / 16, 2)
  | 3 => (x / 16, 3)
  | _ => (x % 256 / 8, 1)

/-- The sizes in front of coded literals: their number, the length of their code, the
length of the header, and whether there are four strings of bits. -/
def codedSizes (b : Bytes) : Nat × Nat × Nat × Bool :=
  let x := Bytes.littleEndian (b.take 5)
  match x / 4 % 4 with
  | 0 => ((x >>> 4) % 0x400, (x >>> 14) % 0x400, 3, false)
  | 1 => ((x >>> 4) % 0x400, (x >>> 14) % 0x400, 3, true)
  | 2 => ((x >>> 4) % 0x4000, (x >>> 18) % 0x4000, 4, true)
  | _ => ((x >>> 4) % 0x40000, (x >>> 22) % 0x40000, 5, true)

/-- Reads the literals at the front of a block.  The rest of the block comes back. -/
def literals (limit : Nat) (st : BlockState) (b : Bytes) :
    Option (Bytes × BlockState × Bytes) := do
  let kind := (← b.head?).toNat % 4
  if kind < 2 then
    let (count, header) := plainSizes b
    if limit < count || b.length < header then none
    let b := b.drop header
    if kind = 0 then
      if b.length < count then none
      return (b.take count, st, b.drop count)
    else
      match b with
      | [] => none
      | x :: b => return (List.replicate count x, st, b)
  else
    let (count, size, header, four) := codedSizes b
    if limit < count || b.length < header + size then none
    let coded := (b.drop header).take size
    let (table, coded) ←
      if kind = 2 then Huffman.describe coded
      else st.huffman.map fun t => (t, coded)
    let out ← if four then Huffman.decodeFour table count coded else Huffman.decode table count coded
    return (out, { st with huffman := some table }, b.drop (header + size))

/-! ## Sequences -/

/-- The literal lengths that symbols stand for: a base and a number of further bits. -/
def literalLengthTable : Array (Nat × Nat) := #[
  (0, 0), (1, 0), (2, 0), (3, 0), (4, 0), (5, 0), (6, 0), (7, 0), (8, 0), (9, 0), (10, 0),
  (11, 0), (12, 0), (13, 0), (14, 0), (15, 0), (16, 1), (18, 1), (20, 1), (22, 1), (24, 2),
  (28, 2), (32, 3), (40, 3), (48, 4), (64, 6), (128, 7), (256, 8), (512, 9), (1024, 10),
  (2048, 11), (4096, 12), (8192, 13), (16384, 14), (32768, 15), (65536, 16)]

def matchLengthTable : Array (Nat × Nat) := #[
  (3, 0), (4, 0), (5, 0), (6, 0), (7, 0), (8, 0), (9, 0), (10, 0), (11, 0), (12, 0), (13, 0),
  (14, 0), (15, 0), (16, 0), (17, 0), (18, 0), (19, 0), (20, 0), (21, 0), (22, 0), (23, 0),
  (24, 0), (25, 0), (26, 0), (27, 0), (28, 0), (29, 0), (30, 0), (31, 0), (32, 0), (33, 0),
  (34, 0), (35, 1), (37, 1), (39, 1), (41, 1), (43, 2), (47, 2), (51, 3), (59, 3), (67, 4),
  (83, 4), (99, 5), (131, 7), (259, 8), (515, 9), (1027, 10), (2051, 11), (4099, 12), (8195, 13),
  (16387, 14), (32771, 15), (65539, 16)]

def usualLiteralLengths : FseTable := Fse.build 6 [
  4, 3, 2, 2, 2, 2, 2, 2, 2, 2, 2, 2, 2, 1, 1, 1, 2, 2, 2, 2, 2, 2, 2, 2, 2, 3, 2, 1, 1, 1, 1, 1,
  -1, -1, -1, -1]

def usualMatchLengths : FseTable := Fse.build 6 [
  1, 4, 3, 2, 2, 2, 2, 2, 2, 1, 1, 1, 1, 1, 1, 1, 1, 1, 1, 1, 1, 1, 1, 1, 1, 1, 1, 1, 1, 1, 1, 1,
  1, 1, 1, 1, 1, 1, 1, 1, 1, 1, 1, 1, 1, 1, -1, -1, -1, -1, -1, -1, -1]

def usualOffsets : FseTable := Fse.build 5 [
  1, 1, 1, 1, 1, 1, 2, 2, 2, 1, 1, 1, 1, 1, 1, 1, 1, 1, 1, 1, 1, 1, 1, 1, -1, -1, -1, -1, -1]

def sequenceCount : Bytes → Option (Nat × Bytes)
  | [] => none
  | x :: b =>
    let n := x.toNat
    if n < 128 then some (n, b)
    else if n < 255 then
      match b with
      | [] => none
      | y :: b => some ((n - 128) * 256 + y.toNat, b)
    else
      match b with
      | y :: z :: b => some (y.toNat + z.toNat * 256 + 0x7F00, b)
      | _ => none

/-- Reads a table in one of the four ways: the usual one, one symbol, a description, or the
table of the block before. -/
def tableOf (mode maxSymbol maxLog : Nat) (usual : FseTable) (before : Option FseTable)
    (b : Bytes) : Option (FseTable × Bytes) :=
  match mode with
  | 0 => some (usual, b)
  | 1 =>
    match b with
    | [] => none
    | x :: b => if maxSymbol < x.toNat then none else some (Fse.single x.toNat, b)
  | 2 => Fse.describe maxSymbol maxLog b
  | _ => before.map fun t => (t, b)

/-- The offset that a value stands for, and the offsets used last from then on.  The small
values stand for offsets that were used before; after a sequence without literals their
meaning shifts by one. -/
def offsetOf (value : Nat) (noLiterals : Bool) (recent : Nat × Nat × Nat) :
    Nat × (Nat × Nat × Nat) :=
  let (a, b, c) := recent
  if 3 < value then (value - 3, (value - 3, a, b))
  else
    match if noLiterals then value + 1 else value with
    | 1 => (a, (a, b, c))
    | 2 => (b, (b, a, c))
    | 3 => (c, (c, a, b))
    | _ => (a - 1, (a - 1, a, b))

/-- Puts out `count` bytes again that were put out `distance` bytes before. -/
def repeatOutput (out : Array UInt8) (distance : Nat) : (count : Nat) → Array UInt8
  | 0 => out
  | count + 1 => repeatOutput (out.push (out.getD (out.size - distance) 0)) distance count

structure SequenceState where
  literalLength : Nat
  offset : Nat
  matchLength : Nat
  bits : Backward
  literals : Bytes
  recent : Nat × Nat × Nat
  output : Array UInt8

/-- Decodes one sequence: copies literals, and then repeats earlier output. -/
def sequence (ll off ml : FseTable) (limit : Nat) : SequenceState → Option SequenceState
  | ⟨llState, offState, mlState, bits, lits, recent, output⟩ => do
    let offsetCode := (off.state offState).symbol
    let (more, bits) := bits.read offsetCode
    let value := (1 <<< offsetCode) + more
    let (base, extra) ← matchLengthTable[(ml.state mlState).symbol]?
    let (more, bits) := bits.read extra
    let matchLength := base + more
    let (base, extra) ← literalLengthTable[(ll.state llState).symbol]?
    let (more, bits) := bits.read extra
    let literalLength := base + more
    let (distance, recent) := offsetOf value (literalLength = 0) recent
    if lits.length < literalLength then none
    let output := (lits.take literalLength).foldl (fun out x => out.push x) output
    if distance = 0 || output.size < distance || limit < output.size + matchLength then none
    return ⟨llState, offState, mlState, bits, lits.drop literalLength, recent,
      repeatOutput output distance matchLength⟩

def sequences (ll off ml : FseTable) (limit : Nat) (s : SequenceState) :
    (count : Nat) → Option SequenceState
  | 0 => if s.bits.left = 0 then some s else none
  | count + 1 => do
    let s ← sequence ll off ml limit s
    if count = 0 then sequences ll off ml limit s 0
    else
      let (literalLength, bits) := ll.next s.literalLength s.bits
      let (matchLength, bits) := ml.next s.matchLength bits
      let (offset, bits) := off.next s.offset bits
      if bits.left < 0 then none
      else
        sequences ll off ml limit { s with literalLength, matchLength, offset, bits } count

/-- Decodes a compressed block, whose output may have `limit` bytes. -/
def block (limit : Nat) (st : BlockState) (b : Bytes) : Option BlockState := do
  if b.length < 2 then none
  let (lits, st, b) ← literals limit st b
  let (count, b) ← sequenceCount b
  let limit := st.output.size + limit
  if count = 0 then
    if b ≠ [] then none
    return { st with output := lits.foldl (fun out x => out.push x) st.output }
  else
    let modes ← b.head?
    let m := modes.toNat
    if m % 4 ≠ 0 then none
    let b := b.drop 1
    let (ll, b) ← tableOf (m / 64) 35 9 usualLiteralLengths st.literalLengths b
    let (off, b) ← tableOf (m / 16 % 4) 31 8 usualOffsets st.offsets b
    let (ml, b) ← tableOf (m / 4 % 4) 52 9 usualMatchLengths st.matchLengths b
    let bits ← Backward.ofBytes b
    let (literalLength, bits) := ll.start bits
    let (offset, bits) := off.start bits
    let (matchLength, bits) := ml.start bits
    let recent := st.recent
    let output := st.output
    let st := { st with output := #[] }
    let s ← sequences ll off ml limit
      ⟨literalLength, offset, matchLength, bits, lits, recent, output⟩ count
    if limit < s.output.size + s.literals.length then none
    return { st with
      literalLengths := some ll, offsets := some off, matchLengths := some ml, recent := s.recent,
      output := s.literals.foldl (fun out x => out.push x) s.output }

end Zstd
end ContainerLayer
