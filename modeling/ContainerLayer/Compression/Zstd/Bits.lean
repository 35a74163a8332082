import ContainerLayer.Bytes

/-
The two ways in which Zstandard writes bits: forwards, as in the descriptions
of tables, and backwards, as in everything that is coded with a table.
-/

namespace ContainerLayer
namespace Zstd

/-- The number in the `n` bits from bit `place` on.  Bits behind the last byte are zero. -/
def bitsAt (b : Array UInt8) (place n : Nat) : Nat :=
  let first := place / 8
  let count := (place % 8 + n + 7) / 8
  let word := (List.range count).foldr (fun i w => (b.getD (first + i) 0).toNat + 256 * w) 0
  (word >>> (place % 8)) % (1 <<< n)

def highBit (n : Nat) : Nat := n.log2

/-- A string of bits that is read from its end. -/
structure Backward where
  bytes : Array UInt8
  /-- How many bits are left; below zero, more were read than there are. -/
  left : Int

namespace Backward

/-- The bits of `b`, less the zeros at its end and the one bit in front of them, which says
where they start. -/
def ofBytes (b : Bytes) : Option Backward :=
  match b.getLast? with
  | none => none
  | some x =>
    if x = 0 then none
    else some ⟨b.toArray, (8 * (b.length - 1) + highBit x.toNat : Nat)⟩

/-- The number in the last `n` bits that are left, where zeros stand for bits that are
missing. -/
def peek (s : Backward) (n : Nat) : Nat :=
  if (n : Int) ≤ s.left then bitsAt s.bytes (s.left.toNat - n) n
  else bitsAt s.bytes 0 s.left.toNat <<< (n - s.left.toNat)

def drop (s : Backward) (n : Nat) : Backward := { s with left := s.left - n }

def read (s : Backward) (n : Nat) : Nat × Backward := (s.peek n, s.drop n)

end Backward
end Zstd
end ContainerLayer
