/-
Bytes and the few ways in which the library reads numbers and text out of them.

Layers, headers and names are all lists of bytes here.  A list keeps every
statement about them a statement about `take`, `drop` and `++`.
-/

namespace ContainerLayer

abbrev Bytes := List UInt8

def ascii (s : String) : Bytes := s.toList.map fun c => UInt8.ofNat c.toNat

namespace Bytes

def ofText (s : String) : Bytes := s.toUTF8.toList

/-- The number written in `b` with the most significant byte first. -/
def bigEndian (b : Bytes) : Nat := b.foldl (fun n x => n * 256 + x.toNat) 0

/-- The number written in `b` with the least significant byte first. -/
def littleEndian (b : Bytes) : Nat := b.foldr (fun x n => x.toNat + 256 * n) 0

/-- The `width` low bytes of `n`, the most significant one first. -/
def ofNatBigEndian (width n : Nat) : Bytes :=
  (List.range width).map fun i => UInt8.ofNat (n >>> (8 * (width - 1 - i)))

def hexDigits (x : UInt8) : List Char :=
  [Nat.digitChar (x.toNat / 16), Nat.digitChar (x.toNat % 16)]

def hex (b : Bytes) : String := String.ofList (b.flatMap hexDigits)

/-- The bytes in front of the first zero byte, or all of them. -/
def untilZero (b : Bytes) : Bytes := b.takeWhile (· != 0)

/-- As many zero bytes as bring a length of `n` to the next multiple of 512. -/
def padding (n : Nat) : Bytes := List.replicate ((512 - n % 512) % 512) 0

/-- What is left of `b` once `start` is taken from its front. -/
def dropPrefix? (b start : Bytes) : Option Bytes :=
  if start.isPrefixOf b then some (b.drop start.length) else none

/-- Puts `x` in front of the first of the parts that are already split off. -/
def splitStep (sep x : UInt8) : List Bytes → List Bytes
  | [] => [[x]]
  | p :: ps => if x = sep then [] :: p :: ps else (x :: p) :: ps

/-- Splits at every byte `sep`; the parts between two separators may be empty. -/
def splitOn (sep : UInt8) (b : Bytes) : List Bytes := b.foldr (splitStep sep) [[]]

theorem length_padding (n : Nat) : (padding n).length = (512 - n % 512) % 512 :=
  List.length_replicate

theorem length_ofNatBigEndian (width n : Nat) : (ofNatBigEndian width n).length = width := by
  simp [ofNatBigEndian]

end Bytes
end ContainerLayer
