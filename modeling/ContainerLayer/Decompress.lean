import ContainerLayer.Compression.Gzip
import ContainerLayer.Compression.Zstd.Stream
import ContainerLayer.MediaType

/-
Decompressing streams.

What comes out of a decompressor is again a reader.  Where the compression is
not known it is guessed from the first bytes, which are put back in front of the
rest.
-/

namespace ContainerLayer

inductive Unpacked where
  | plain (s : Source)
  | decoded (d : Decoded)
  | frames (z : Zstd.Decoder)

namespace Unpacked

/-- A stream of which every read fails. -/
def failing (f : Fault) : Unpacked := .decoded { fault := some f }

def read (n : Nat) : Unpacked → Except Fault Bytes × Unpacked
  | plain s => ((Source.read n s).1, plain (Source.read n s).2)
  | decoded d => ((d.read n).1, decoded (d.read n).2)
  | frames z => ((z.read n).1, frames (z.read n).2)

def extent : Unpacked → Nat
  | plain s => s.extent
  | decoded d => d.extent
  | frames z => z.extent

instance : Reader Unpacked where
  read := read
  patience := extent
  patience_lt n s f h hf := by
    cases s with
    | plain s => exact Source.extent_read_lt_of_fault h
    | decoded d => rw [Decoded.read_not_interrupted h] at hf; cases hf
    | frames z => rw [Zstd.Decoder.read_not_interrupted h] at hf; cases hf

instance : Finite Unpacked where
  patience_lt_of_data n s b h hb := by
    cases s with
    | plain s => exact Source.extent_read_lt_of_data h hb
    | decoded d => exact Decoded.extent_read_lt h hb
    | frames z => exact Zstd.Decoder.extent_read_lt h hb

end Unpacked

namespace Compression

def detect (start : Bytes) : Compression :=
  if Zstd.magic.isPrefixOf start then zstd
  else if Gzip.magic.isPrefixOf start then gzip
  else none

/-- Decompresses a stream, the first `loaded` bytes of which come on their own. -/
def decompress (c : Compression) (loaded : Nat) (s : Source) : Unpacked :=
  match c with
  | none => .plain s
  | gzip => .decoded (Gzip.decode loaded s)
  | zstd => .frames (Zstd.decode s)

/-- How many bytes tell the compression. -/
def magicLength : Nat := 4

/-- Reads the first bytes of a stream, with `want` of them still to come.  Interrupted reads
are tried again, and an early end leaves it at fewer bytes. -/
def sniff (want : Nat) (s : Source) : Except Fault Bytes × Source :=
  if _ : want = 0 then (.ok [], s)
  else
    match Reader.readPatiently want s with
    | (.error f, s) => (.error f, s)
    | (.ok b, s) =>
      if _ : b = [] then (.ok [], s)
      else
        match sniff (want - b.length) s with
        | (.ok more, s) => (.ok (b ++ more), s)
        | (.error f, s) => (.error f, s)
termination_by want
decreasing_by
  rename_i hb
  have : 0 < b.length := List.length_pos_iff.mpr hb
  omega

def decompressStream (s : Source) : Except Fault (Compression × Unpacked) :=
  match sniff magicLength s with
  | (.error f, _) => .error f
  | (.ok start, rest) =>
    let c := detect start
    .ok (c, c.decompress start.length (.data start :: rest))

end Compression
end ContainerLayer
