import ContainerLayer.Proofs.Compression.Loading
import ContainerLayer.Proofs.Compression.Pacing

/-
Sniffing.

The bytes that tell how a stream is compressed are collected over as many reads as that takes, and
put back in front of the rest.  So what is decompressed is the whole stream, however it came, but
with its first bytes in a piece of their own.  Only a decoder that minds how its input is loaded
could tell.
-/

namespace ContainerLayer

namespace Compression

variable {front : Source}

end Compression
end ContainerLayer
