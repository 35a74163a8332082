import ContainerLayer.Bytes

/-
The cyclic redundancy check of gzip: 32 bits, reflected, with the polynomial
0xEDB88320.
-/

namespace ContainerLayer
namespace Crc32

/-- The remainder after shifting out `n` bits. -/
def shift : (n : Nat) → UInt32 → UInt32
  | 0, c => c
  | n + 1, c => shift n (if c &&& 1 = 1 then (c >>> 1) ^^^ 0xEDB88320 else c >>> 1)

/-- What each byte does to the remainder. -/
def table : Array UInt32 := ((List.range 256).map fun n => shift 8 (UInt32.ofNat n)).toArray

def step (c : UInt32) (x : UInt8) : UInt32 :=
  table.getD ((c ^^^ x.toUInt32) &&& 0xFF).toNat 0 ^^^ (c >>> 8)

def sum (b : Bytes) : Nat := ((b.foldl step 0xFFFFFFFF) ^^^ 0xFFFFFFFF).toNat

end Crc32
end ContainerLayer
