import ContainerLayer.Compression.Zstd.Fse

/-
Huffman coding of literals.

A code is given by the weights of its symbols; a symbol of weight `w` above zero
has a code word that is `w - 1` bits shorter than the longest one.  The weight
of the last symbol is not written, since it is what the others leave.
-/

namespace ContainerLayer
namespace Zstd

/-- A code: for every string of `log` bits the symbol that it starts with, and the length of
that symbol's code word. -/
structure HuffmanTable where
  log : Nat
  entries : Array (UInt8 × Nat)

namespace Huffman

/-- The longest code word that is allowed. -/
def maxLog : Nat := 12

/-- The code for the weights of all symbols but the last one. -/
def ofWeights (weights : List Nat) : Option HuffmanTable := do
  if weights.any fun w => maxLog < w then none
  let total := (weights.map fun w => (1 <<< w) / 2).foldl (· + ·) 0
  if total = 0 then none
  let log := highBit total + 1
  if maxLog < log then none
  let rest := (1 <<< log) - total
  if 1 <<< highBit rest ≠ rest then none
  let weights := weights ++ [highBit rest + 1]
  let ones := weights.count 1
  if ones < 2 || ones % 2 = 1 then none
  let symbols := weights.zipIdx
  let entries := (List.range log).flatMap fun w =>
    (symbols.filter fun p => p.1 = w + 1).flatMap fun p =>
      List.replicate (1 <<< w) (UInt8.ofNat p.2, log - w)
  return ⟨log, entries.toArray⟩

/-- Reads weights with two states that take turns, `a` the one whose turn it is, until the
bits run out. -/
def weightsFrom (t : FseTable) (acc : List Nat) (a b : Nat) (s : Backward) :
    (fuel : Nat) → Option (List Nat)
  | 0 => none
  | fuel + 1 =>
    let acc := (t.state a).symbol :: acc
    let (a, s) := t.next a s
    if s.left < 0 then some ((t.state b).symbol :: acc).reverse
    else weightsFrom t acc b a s fuel

def codedWeights (b : Bytes) : Option (List Nat) := do
  let (t, b) ← Fse.describe 255 6 b
  let s ← Backward.ofBytes b
  let (first, s) := t.start s
  let (second, s) := t.start s
  if s.left < 0 then none
  weightsFrom t [] first second s 256

/-- Reads weights that are written with four bits each. -/
def plainWeights (count : Nat) (b : Bytes) : List Nat :=
  (b.flatMap fun x => [x.toNat / 16, x.toNat % 16]).take count

/-- Reads the description of a code.  The rest of the bytes comes back. -/
def describe : Bytes → Option (HuffmanTable × Bytes)
  | [] => none
  | x :: b =>
    let n := x.toNat
    if n < 128 then do
      if b.length < n then none
      let weights ← codedWeights (b.take n)
      if 255 < weights.length then none
      return (← ofWeights weights, b.drop n)
    else do
      let count := n - 127
      let used := (count + 1) / 2
      if b.length < used then none
      return (← ofWeights (plainWeights count b), b.drop used)

/-- Reads `count` symbols from all of a string of bits and puts them behind `out`. -/
def symbolsFrom (t : HuffmanTable) (out : Array UInt8) (s : Backward) :
    (count : Nat) → Option (Array UInt8)
  | 0 => if s.left = 0 then some out else none
  | count + 1 =>
    match t.entries[s.peek t.log]? with
    | none => none
    | some (x, length) =>
      let s := s.drop length
      if s.left < 0 then none else symbolsFrom t (out.push x) s count

def decode (t : HuffmanTable) (count : Nat) (b : Bytes) : Option Bytes := do
  let s ← Backward.ofBytes b
  return (← symbolsFrom t #[] s count).toList

/-- Decodes `count` symbols from four strings of bits, the lengths of the first three of
which stand in front. -/
def decodeFour (t : HuffmanTable) (count : Nat) (b : Bytes) : Option Bytes := do
  if b.length < 10 || count < 6 then none
  let n1 := Bytes.littleEndian (b.take 2)
  let n2 := Bytes.littleEndian ((b.drop 2).take 2)
  let n3 := Bytes.littleEndian ((b.drop 4).take 2)
  let b := b.drop 6
  if b.length < n1 + n2 + n3 then none
  let part := (count + 3) / 4
  if count < 3 * part then none
  let r1 ← decode t part (b.take n1)
  let r2 ← decode t part ((b.drop n1).take n2)
  let r3 ← decode t part ((b.drop (n1 + n2)).take n3)
  let r4 ← decode t (count - 3 * part) (b.drop (n1 + n2 + n3))
  return r1 ++ r2 ++ r3 ++ r4

end Huffman
end Zstd
end ContainerLayer
