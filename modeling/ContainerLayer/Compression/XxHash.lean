import ContainerLayer.Bytes

/-
XXH64 with seed zero, the hash that guards the content of Zstandard frames.
-/

namespace ContainerLayer
namespace XxHash

def prime1 : UInt64 := 0x9E3779B185EBCA87
def prime2 : UInt64 := 0xC2B2AE3D27D4EB4F
def prime3 : UInt64 := 0x165667B19E3779F9
def prime4 : UInt64 := 0x85EBCA77C2B2AE63
def prime5 : UInt64 := 0x27D4EB2F165667C5

def rotate (x n : UInt64) : UInt64 := (x <<< n) ||| (x >>> (64 - n))

/-- Mixes eight bytes into an accumulator. -/
def round (acc lane : UInt64) : UInt64 := rotate (acc + lane * prime2) 31 * prime1

def merge (h acc : UInt64) : UInt64 := (h ^^^ round 0 acc) * prime1 + prime4

/-- The next eight bytes as a number. -/
def lane (b : Bytes) : UInt64 := UInt64.ofNat (Bytes.littleEndian (b.take 8))

structure Lanes where
  a : UInt64
  b : UInt64
  c : UInt64
  d : UInt64

/-- Mixes in stripes of 32 bytes, of which there are `count`; the rest is left over. -/
def stripes (l : Lanes) (b : Bytes) : (count : Nat) → Lanes × Bytes
  | 0 => (l, b)
  | count + 1 =>
    stripes ⟨round l.a (lane b), round l.b (lane (b.drop 8)), round l.c (lane (b.drop 16)),
      round l.d (lane (b.drop 24))⟩ (b.drop 32) count

/-- Mixes in what is left, fewer than 32 bytes. -/
def tail (h : UInt64) (b : Bytes) : (fuel : Nat) → UInt64
  | 0 => h
  | fuel + 1 =>
    if 8 ≤ b.length then
      tail (rotate (h ^^^ round 0 (lane b)) 27 * prime1 + prime4) (b.drop 8) fuel
    else if 4 ≤ b.length then
      let word := UInt64.ofNat (Bytes.littleEndian (b.take 4))
      tail (rotate (h ^^^ (word * prime1)) 23 * prime2 + prime3) (b.drop 4) fuel
    else
      match b with
      | [] => h
      | x :: r => tail (rotate (h ^^^ (x.toUInt64 * prime5)) 11 * prime1) r fuel

/-- The last mixing, after which every bit of the input counts for every bit of the hash. -/
def avalanche (h : UInt64) : UInt64 :=
  let h := (h ^^^ (h >>> 33)) * prime2
  let h := (h ^^^ (h >>> 29)) * prime3
  h ^^^ (h >>> 32)

def hash (b : Bytes) : UInt64 :=
  let (l, rest) := stripes ⟨prime1 + prime2, prime2, 0, 0 - prime1⟩ b (b.length / 32)
  let h :=
    if 32 ≤ b.length then
      let mixed := rotate l.a 1 + rotate l.b 7 + rotate l.c 12 + rotate l.d 18
      merge (merge (merge (merge mixed l.a) l.b) l.c) l.d
    else prime5
  avalanche (tail (h + UInt64.ofNat b.length) rest 32)

end XxHash
end ContainerLayer
