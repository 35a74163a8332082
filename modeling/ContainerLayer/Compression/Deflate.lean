import ContainerLayer.Bytes

/-
Inflating: reading deflated data.

The data is a row of blocks.  A block is stored as it is, or it is a row of
symbols in canonical Huffman codes, each of which stands for a byte or for a
stretch of what was put out before.

The output is handed out a window at a time.  If the data turns out to be
damaged, the window that was being filled is not handed out any more, so the
state keeps how much of the output was complete before.
-/

namespace ContainerLayer
namespace Deflate

inductive Stop where
  | truncated
  | damaged
  deriving DecidableEq

structure State where
  input : Array UInt8
  /-- The place in the input, in bits. -/
  place : Nat
  output : Array UInt8 := #[]
  /-- How much of the output has been handed out. -/
  handed : Nat := 0
  /-- The first byte of the input that is in the next load of it. -/
  nextLoad : Nat

/-- Inflating, with the state kept when it stops early. -/
abbrev Inflate (α : Type) := ExceptT Stop (StateM State) α

/-- The length of a window, and of a load of input. -/
def windowSize : Nat := 32768

def bit : Inflate Nat := fun s =>
  let i := s.place / 8
  if h : i < s.input.size then
    let b := (s.input[i].toNat >>> (s.place % 8)) % 2
    if i < s.nextLoad then (.ok b, { s with place := s.place + 1 })
    else
      (.ok b, { s with place := s.place + 1, handed := s.output.size,
                       nextLoad := s.nextLoad + windowSize })
  else (.error .truncated, s)

/-- Reads a number of `n` bits, the lowest first. -/
def bits : (n : Nat) → Inflate Nat
  | 0 => pure 0
  | n + 1 => do
    let b ← bit
    return b + 2 * (← bits n)

def put (x : UInt8) : Inflate Unit := modify fun ⟨input, place, output, handed, nextLoad⟩ =>
  let output := output.push x
  ⟨input, place, output, if output.size % windowSize = 0 then output.size else handed, nextLoad⟩

/-- Puts out `length` bytes again that were put out `distance` bytes before.  In front of
the output there are zeros. -/
def repeatOutput (distance : Nat) : (length : Nat) → Inflate Unit
  | 0 => pure ()
  | length + 1 => do
    let s ← get
    put (if distance ≤ s.output.size then s.output.getD (s.output.size - distance) 0 else 0)
    repeatOutput distance length

/-! ## Codes -/

/-- A canonical code: for each length how many code words have it, and the symbols in the
order of their code words. -/
structure Code where
  counts : Array Nat
  symbols : Array Nat

def maxLength : Nat := 15

/-- The canonical code for the lengths of the code words of all symbols; a length of zero
says that a symbol is not used. -/
def codeOf (lengths : List Nat) : Code :=
  let counts := (List.range (maxLength + 1)).map fun l => if l = 0 then 0 else lengths.count l
  let indexed := lengths.zipIdx
  let symbols := (List.range (maxLength + 1)).flatMap fun l =>
    if l = 0 then [] else (indexed.filter fun p => p.1 = l).map (·.2)
  ⟨counts.toArray, symbols.toArray⟩

/-- Do the code words use up all of the code space? -/
def Code.isComplete (c : Code) : Bool :=
  ((List.range (maxLength + 1)).foldl (fun n l => n + (c.counts.getD l 0 <<< (maxLength - l))) 0)
    = 1 <<< maxLength

/-- May the code be used?  A code with at most one word need not be complete. -/
def Code.isUsable (c : Code) : Bool := c.isComplete || c.symbols.size ≤ 1

/-- Reads a symbol whose code word has at most `fuel` more bits.  `word` is what was read
of it so far, `first` the first code word of the present length and `index` the place of
that one's symbol. -/
def Code.next (c : Code) (length word first index : Nat) : (fuel : Nat) → Inflate Nat
  | 0 => throw .damaged
  | fuel + 1 => do
    let word := 2 * word + (← bit)
    let length := length + 1
    let first := 2 * first
    let count := c.counts.getD length 0
    if word < first + count then
      match c.symbols[index + (word - first)]? with
      | some s => return s
      | none => throw .damaged
    else c.next length word (first + count) (index + count) fuel

def Code.read (c : Code) : Inflate Nat := c.next 0 0 0 0 maxLength

/-! ## Blocks -/

/-- The lengths that the symbols from 257 on stand for: a base and a number of further
bits. -/
def lengthTable : Array (Nat × Nat) := #[
  (3, 0), (4, 0), (5, 0), (6, 0), (7, 0), (8, 0), (9, 0), (10, 0), (11, 1), (13, 1), (15, 1),
  (17, 1), (19, 2), (23, 2), (27, 2), (31, 2), (35, 3), (43, 3), (51, 3), (59, 3), (67, 4),
  (83, 4), (99, 4), (115, 4), (131, 5), (163, 5), (195, 5), (227, 5), (258, 0)]

def distanceTable : Array (Nat × Nat) := #[
  (1, 0), (2, 0), (3, 0), (4, 0), (5, 1), (7, 1), (9, 2), (13, 2), (17, 3), (25, 3), (33, 4),
  (49, 4), (65, 5), (97, 5), (129, 6), (193, 6), (257, 7), (385, 7), (513, 8), (769, 8),
  (1025, 9), (1537, 9), (2049, 10), (3073, 10), (4097, 11), (6145, 11), (8193, 12), (12289, 12),
  (16385, 13), (24577, 13)]

/-- Reads the value of a symbol that stands for a range of numbers. -/
def ranged (table : Array (Nat × Nat)) (symbol : Nat) : Inflate Nat :=
  match table[symbol]? with
  | none => throw .damaged
  | some (base, extra) => do return base + (← bits extra)

/-- Reads symbols up to the end of the block; there are at most `fuel` of them. -/
def symbolsOf (literals distances : Code) : (fuel : Nat) → Inflate Unit
  | 0 => throw .truncated
  | fuel + 1 => do
    let s ← literals.read
    if s < 256 then
      put (UInt8.ofNat s)
      symbolsOf literals distances fuel
    else if s = 256 then return ()
    else
      let length ← ranged lengthTable (s - 257)
      let distance ← ranged distanceTable (← distances.read)
      repeatOutput distance length
      symbolsOf literals distances fuel

def copyBytes : (n : Nat) → Inflate Unit
  | 0 => pure ()
  | n + 1 => do
    put (UInt8.ofNat (← bits 8))
    copyBytes n

def storedBlock : Inflate Unit := do
  modify fun s => { s with place := (s.place + 7) / 8 * 8 }
  let length ← bits 16
  let check ← bits 16
  if length + check ≠ 0xFFFF then throw .damaged
  copyBytes length

/-- The code for literals and lengths of blocks without a code of their own. -/
def fixedLiterals : Code :=
  codeOf (List.replicate 144 8 ++ List.replicate 112 9 ++ List.replicate 24 7
    ++ List.replicate 8 8)

def fixedDistances : Code := codeOf (List.replicate 32 5)

/-- The order in which the lengths of the code for lengths are given. -/
def lengthOrder : List Nat := [16, 17, 18, 0, 8, 7, 9, 6, 10, 5, 11, 4, 12, 3, 13, 2, 14, 1, 15]

/-- Reads lengths until there are `total` of them, with those read so far in `acc`, last
first. -/
def lengthsOf (code : Code) (total : Nat) (acc : List Nat) : (fuel : Nat) → Inflate (List Nat)
  | 0 => throw .damaged
  | fuel + 1 => do
    if acc.length = total then return acc.reverse
    else if total < acc.length then throw .damaged
    else
      let s ← code.read
      if s < 16 then lengthsOf code total (s :: acc) fuel
      else if s = 16 then
        match acc with
        | [] => throw .damaged
        | l :: _ => lengthsOf code total (List.replicate (3 + (← bits 2)) l ++ acc) fuel
      else if s = 17 then
        lengthsOf code total (List.replicate (3 + (← bits 3)) 0 ++ acc) fuel
      else lengthsOf code total (List.replicate (11 + (← bits 7)) 0 ++ acc) fuel

def threeBits : (n : Nat) → Inflate (List Nat)
  | 0 => pure []
  | n + 1 => do
    let b ← bits 3
    return b :: (← threeBits n)

def ownCodes : Inflate (Code × Code) := do
  let literals := 257 + (← bits 5)
  let distances := 1 + (← bits 5)
  let given ← threeBits (4 + (← bits 4))
  if 286 < literals || 30 < distances then throw .damaged
  let order := lengthOrder.zip given
  let code := codeOf ((List.range 19).map fun s => (order.lookup s).getD 0)
  if !code.isComplete then throw .damaged
  let total := literals + distances
  let lengths ← lengthsOf code total [] (total + 1)
  let l := codeOf (lengths.take literals)
  let d := codeOf (lengths.drop literals)
  if l.isUsable && d.isUsable then return (l, d) else throw .damaged

/-- Reads blocks up to the last one; there are at most `fuel` of them, and of symbols in
each. -/
def blocks (symbols : Nat) : (fuel : Nat) → Inflate Unit
  | 0 => throw .truncated
  | fuel + 1 => do
    let last ← bit
    match ← bits 2 with
    | 0 => storedBlock
    | 1 => symbolsOf fixedLiterals fixedDistances symbols
    | 2 => do
      let (l, d) ← ownCodes
      symbolsOf l d symbols
    | _ => throw .damaged
    if last = 1 then return () else blocks symbols fuel

/-- Inflates the data that starts at byte `start` of `input`. -/
def inflate (input : Array UInt8) (start nextLoad : Nat) : Except Stop Unit × State :=
  let fuel := 8 * input.size + 1
  (blocks fuel fuel).run { input, place := 8 * start, nextLoad }

/-- The first byte of the input behind the data. -/
def State.endOf (s : State) : Nat := (s.place + 7) / 8

end Deflate
end ContainerLayer
