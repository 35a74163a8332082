import ContainerLayer.Compression.Crc32
import ContainerLayer.Compression.Decoded
import ContainerLayer.Compression.Deflate

/-
Gzip streams: rows of members, each a header, deflated data and a trailer.

A stream may end behind any member; whatever else follows one has to be the next
member.
-/

namespace ContainerLayer
namespace Gzip

def magic : Bytes := [0x1f, 0x8b]

inductive Flaw where
  | truncated
  | badHeader
  | badHeaderCheck
  | badData
  | badCheck
  deriving DecidableEq

/-- The fault that a flaw shows as, where `shortage` is that of a stream that ends early. -/
def Flaw.fault (shortage : Fault) : Flaw → Fault
  | truncated => shortage
  | badHeader => .raised .invalidInput "invalid gzip header"
  | badHeaderCheck => .raised .invalidInput "corrupt gzip stream does not have a matching checksum"
  | badData => .raised .invalidInput "corrupt deflate stream"
  | badCheck => .raised .invalidInput "corrupt gzip stream does not have a matching checksum"

/-- The longest name or comment of a header. -/
def maxText : Nat := 65535

def advance (n : Nat) (b : Bytes) : Except Flaw Bytes :=
  if b.length < n then .error .truncated else .ok (b.drop n)

/-- Passes over a text and the zero byte behind it. -/
def advanceText (b : Bytes) : Except Flaw Bytes :=
  let text := b.takeWhile (· != 0)
  if maxText < text.length then .error .badHeader else advance (text.length + 1) b

def header (b : Bytes) : Except Flaw Bytes := do
  if b.length < 10 then throw .truncated
  let flags := (b.getD 3 0).toNat
  if b.take 2 ≠ magic || b.getD 2 0 ≠ 8 || flags ≥ 32 then throw .badHeader
  let mut r := b.drop 10
  if flags.testBit 2 then
    if r.length < 2 then throw .truncated
    r ← advance (2 + Bytes.littleEndian (r.take 2)) r
  if flags.testBit 3 then r ← advanceText r
  if flags.testBit 4 then r ← advanceText r
  if flags.testBit 1 then
    let check := Crc32.sum (b.take (b.length - r.length)) % 65536
    if r.length < 2 then throw .truncated
    if Bytes.littleEndian (r.take 2) ≠ check then throw .badHeaderCheck
    r := r.drop 2
  return r

/-- Checks the trailer behind a member's output, and passes over it. -/
def trailer (output : Bytes) (b : Bytes) : Except Flaw Bytes := do
  if b.length < 8 then throw .truncated
  let crc := Bytes.littleEndian (b.take 4)
  let size := Bytes.littleEndian ((b.drop 4).take 4)
  if crc ≠ Crc32.sum output || size ≠ output.length % 0x100000000 then throw .badCheck
  return b.drop 8

/-- What decoding comes to: the output in chunks, last first, and the flaw that ended it. -/
abbrev Decoding := List Bytes × Option Flaw

/-- Decodes the members that `b` consists of, of which there are at most `fuel`.  `input` is
the whole stream, `nextLoad` the place up to which it has been loaded, and `after` what
comes behind an end that came too early. -/
def members (input : Array UInt8) (after : Bytes) (acc : List Bytes) (nextLoad : Nat) (b : Bytes) :
    (fuel : Nat) → Decoding
  | 0 => (acc, none)
  | fuel + 1 =>
    match header b with
    | .error flaw => (acc, some flaw)
    | .ok b =>
      match Deflate.inflate input (input.size - b.length) nextLoad with
      | (.error .damaged, s) => (s.output.toList.take s.handed :: acc, some .badData)
      | (.error .truncated, s) =>
        let output := s.output.toList
        (output :: acc, some (if after.length < 8 then .truncated else .badCheck))
      | (.ok (), s) =>
        let output := s.output.toList
        match trailer output (b.drop (s.endOf - (input.size - b.length))) with
        | .error flaw => (output :: acc, some flaw)
        | .ok [] => (output :: acc, none)
        | .ok b => members input after (output :: acc) s.nextLoad b fuel

/-- Decodes a stream, the first `loaded` bytes of which were loaded on their own. -/
def decode (loaded : Nat) (s : Source) : Decoded :=
  let (b, rest) := s.run
  let after := match rest with
    | .pause :: more => (Source.run more).1
    | _ => []
  let (chunks, flaw) := members b.toArray after [] loaded b (b.length + 1)
  let fault :=
    match flaw with
    | some flaw => some (flaw.fault rest.shortage)
    | none => rest.failure?
  { pending := chunks.reverse.flatten, fault }

end Gzip
end ContainerLayer
