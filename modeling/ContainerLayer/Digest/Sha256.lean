import ContainerLayer.Bytes

/-
SHA-256, fed byte by byte.

A hasher takes bytes as they come and can say at any time what the digest of
all bytes so far is.  Since it is a fold over the bytes, feeding two strings one
after the other is feeding their concatenation, which is `update_append`.
-/

namespace ContainerLayer

structure Sha256.Chain where
  a : UInt32
  b : UInt32
  c : UInt32
  d : UInt32
  e : UInt32
  f : UInt32
  g : UInt32
  h : UInt32
  deriving DecidableEq

structure Sha256 where
  /-- The words after the last full block. -/
  chain : Sha256.Chain
  /-- The bytes behind the last full block, last first. -/
  block : Bytes
  /-- How many of them there are. -/
  fill : Nat
  /-- How many bytes there were in all. -/
  length : Nat

namespace Sha256

/-- The first 32 bits of the fractional parts of the cube roots of the first 64 primes. -/
def roundConstants : List UInt32 := [
  0x428a2f98, 0x71374491, 0xb5c0fbcf, 0xe9b5dba5, 0x3956c25b, 0x59f111f1, 0x923f82a4, 0xab1c5ed5,
  0xd807aa98, 0x12835b01, 0x243185be, 0x550c7dc3, 0x72be5d74, 0x80deb1fe, 0x9bdc06a7, 0xc19bf174,
  0xe49b69c1, 0xefbe4786, 0x0fc19dc6, 0x240ca1cc, 0x2de92c6f, 0x4a7484aa, 0x5cb0a9dc, 0x76f988da,
  0x983e5152, 0xa831c66d, 0xb00327c8, 0xbf597fc7, 0xc6e00bf3, 0xd5a79147, 0x06ca6351, 0x14292967,
  0x27b70a85, 0x2e1b2138, 0x4d2c6dfc, 0x53380d13, 0x650a7354, 0x766a0abb, 0x81c2c92e, 0x92722c85,
  0xa2bfe8a1, 0xa81a664b, 0xc24b8b70, 0xc76c51a3, 0xd192e819, 0xd6990624, 0xf40e3585, 0x106aa070,
  0x19a4c116, 0x1e376c08, 0x2748774c, 0x34b0bcb5, 0x391c0cb3, 0x4ed8aa4a, 0x5b9cca4f, 0x682e6ff3,
  0x748f82ee, 0x78a5636f, 0x84c87814, 0x8cc70208, 0x90befffa, 0xa4506ceb, 0xbef9a3f7, 0xc67178f2]

/-- The first 32 bits of the fractional parts of the square roots of the first eight primes. -/
def initialChain : Chain :=
  ⟨0x6a09e667, 0xbb67ae85, 0x3c6ef372, 0xa54ff53a, 0x510e527f, 0x9b05688c, 0x1f83d9ab, 0x5be0cd19⟩

def rotate (x : UInt32) (n : UInt32) : UInt32 := (x >>> n) ||| (x <<< (32 - n))

def words : Bytes → List UInt32
  | a :: b :: c :: d :: r =>
    ((a.toUInt32 <<< 24) ||| (b.toUInt32 <<< 16) ||| (c.toUInt32 <<< 8) ||| d.toUInt32) :: words r
  | _ => []

/-- One more word of the schedule, from those at distance 2, 7, 15 and 16. -/
def scheduleNext (w : Array UInt32) : UInt32 :=
  let at' (k : Nat) := w.getD (w.size - k) 0
  let x := at' 15
  let y := at' 2
  let s0 := rotate x 7 ^^^ rotate x 18 ^^^ (x >>> 3)
  let s1 := rotate y 17 ^^^ rotate y 19 ^^^ (y >>> 10)
  at' 16 + s0 + at' 7 + s1

def schedule (block : Bytes) : List UInt32 :=
  ((List.range 48).foldl (fun w _ => w.push (scheduleNext w)) (words block).toArray).toList

/-- One round, with the sum of the round's constant and its word. -/
def round (s : Chain) (kw : UInt32) : Chain :=
  let s1 := rotate s.e 6 ^^^ rotate s.e 11 ^^^ rotate s.e 25
  let choice := (s.e &&& s.f) ^^^ (~~~ s.e &&& s.g)
  let t1 := s.h + s1 + choice + kw
  let s0 := rotate s.a 2 ^^^ rotate s.a 13 ^^^ rotate s.a 22
  let majority := (s.a &&& s.b) ^^^ (s.a &&& s.c) ^^^ (s.b &&& s.c)
  ⟨t1 + (s0 + majority), s.a, s.b, s.c, s.d + t1, s.e, s.f, s.g⟩

def compress (s : Chain) (block : Bytes) : Chain :=
  let t := (List.zipWith (· + ·) roundConstants (schedule block)).foldl round s
  ⟨s.a + t.a, s.b + t.b, s.c + t.c, s.d + t.d, s.e + t.e, s.f + t.f, s.g + t.g, s.h + t.h⟩

def start : Sha256 := ⟨initialChain, [], 0, 0⟩

def absorb (s : Sha256) (x : UInt8) : Sha256 :=
  if s.fill = 63 then ⟨compress s.chain (x :: s.block).reverse, [], 0, s.length + 1⟩
  else ⟨s.chain, x :: s.block, s.fill + 1, s.length + 1⟩

def update (s : Sha256) (b : Bytes) : Sha256 := b.foldl absorb s

/-- What closes a message of `length` bytes: a one bit, zeros, and the length in bits. -/
def closing (length : Nat) : Bytes :=
  0x80 :: (List.replicate ((119 - length % 64) % 64) 0 ++ Bytes.ofNatBigEndian 8 (8 * length))

def finish (s : Sha256) : Bytes :=
  let c := (s.update (closing s.length)).chain
  [c.a, c.b, c.c, c.d, c.e, c.f, c.g, c.h].flatMap fun w => Bytes.ofNatBigEndian 4 w.toNat

def hash (b : Bytes) : Bytes := (start.update b).finish

@[simp] theorem update_nil (s : Sha256) : s.update [] = s := rfl

theorem update_append (s : Sha256) (a b : Bytes) : s.update (a ++ b) = (s.update a).update b := by
  simp [update, List.foldl_append]

theorem length_finish (s : Sha256) : s.finish.length = 32 := by
  simp [finish, Bytes.length_ofNatBigEndian]

-- the messages that the standard itself gives digests of, and the empty one
example : (hash []).hex = "e3b0c44298fc1c149afbf4c8996fb92427ae41e4649b934ca495991b7852b855" := by
  decide +kernel

example : (hash (ascii "abc")).hex
    = "ba7816bf8f01cfea414140de5dae2223b00361a396177a9cb410ff61f20015ad" := by
  decide +kernel

example : (hash (ascii "abcdbcdecdefdefgefghfghighijhijkijkljklmklmnlmnomnopnopq")).hex
    = "248d6a61d20638b8e5c026930c3e6039a33ce45964ff2167f6ecedd419db06c1" := by
  decide +kernel

end Sha256
end ContainerLayer
