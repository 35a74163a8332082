import ContainerLayer.Proofs.Compression.Inflating
import ContainerLayer.Proofs.Stream.Coming

/-
The loads of a gzip stream.

The decoder goes by its input alone, so what it comes to does not depend on how that is loaded.
-/

namespace ContainerLayer

namespace Gzip

open Deflate

/-- What a decoding hands out, with `rest` behind the data. -/
def Decoding.decoded (rest : Source) (d : Decoding) : Decoded where
  pending := d.1.reverse.flatten
  fault :=
    match d.2 with
    | some flaw => some (flaw.fault rest.shortage)
    | none => rest.failure?

end Gzip

end ContainerLayer
