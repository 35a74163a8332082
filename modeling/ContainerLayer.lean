import ContainerLayer.Applier
import ContainerLayer.Bytes
import ContainerLayer.CommandLine
import ContainerLayer.CommandLine.Request
import ContainerLayer.Compression.Crc32
import ContainerLayer.Compression.Decoded
import ContainerLayer.Compression.Deflate
import ContainerLayer.Compression.Gzip
import ContainerLayer.Compression.XxHash
import ContainerLayer.Compression.Zstd.Bits
import ContainerLayer.Compression.Zstd.Block
import ContainerLayer.Compression.Zstd.Frame
import ContainerLayer.Compression.Zstd.Fse
import ContainerLayer.Compression.Zstd.Huffman
import ContainerLayer.Compression.Zstd.Stream
import ContainerLayer.Config
import ContainerLayer.Decompress
import ContainerLayer.Descriptor
import ContainerLayer.Digest
import ContainerLayer.Digest.Sha256
import ContainerLayer.Extract
import ContainerLayer.Fault
import ContainerLayer.Filter
import ContainerLayer.Filter.Session
import ContainerLayer.Json.Value
import ContainerLayer.Json.Writer
import ContainerLayer.Layer
import ContainerLayer.LayerError
import ContainerLayer.Main
import ContainerLayer.MediaType
import ContainerLayer.Mount
import ContainerLayer.Mount.Json
import ContainerLayer.Path
import ContainerLayer.Store
import ContainerLayer.Stream.Cancelable
import ContainerLayer.Stream.Channel
import ContainerLayer.Stream.Counted
import ContainerLayer.Stream.Digested
import ContainerLayer.Stream.Exact
import ContainerLayer.Stream.Pipe
import ContainerLayer.Stream.Reader
import ContainerLayer.Stream.Relay
import ContainerLayer.Stream.Source
import ContainerLayer.Stream.Tape
import ContainerLayer.StripPrefix
import ContainerLayer.Tar.Archive
import ContainerLayer.Tar.Defect
import ContainerLayer.Tar.Header
import ContainerLayer.Tar.Naming
import ContainerLayer.Tar.Number
import ContainerLayer.Tar.Pax
import ContainerLayer.Tar.Writer
import ContainerLayer.Text.Blank
import ContainerLayer.Text.Hexadecimal
import ContainerLayer.Text.Printable
import ContainerLayer.Text.Quoted
import ContainerLayer.Text.Utf8
import ContainerLayer.Toml.Bindings
import ContainerLayer.Toml.Statement
import ContainerLayer.Tree.Basic
import ContainerLayer.Tree.Change
import ContainerLayer.Tree.Resolve
import ContainerLayer.Unpack
import ContainerLayer.Whiteout
import ContainerLayer.Proofs.Extract.Containment
import ContainerLayer.Proofs.Extract.Opaque
import ContainerLayer.Proofs.Applier.Accounting
import ContainerLayer.Proofs.Filter.Faithful
import ContainerLayer.Proofs.Stream.Looking
import ContainerLayer.Proofs.Stream.Turns
import ContainerLayer.Proofs.Stream.Integrity
import ContainerLayer.Proofs.Filter.Schedule
import ContainerLayer.Proofs.Filter.Working
import ContainerLayer.Proofs.Stream.Fair
import ContainerLayer.Proofs.Filter.Delivery
import ContainerLayer.Proofs.Filter.Moving
import ContainerLayer.Proofs.Tar.Extent
import ContainerLayer.Proofs.Filter.Truncation
import ContainerLayer.Proofs.Stream.Seamless
import ContainerLayer.Proofs.Extract.Seamless
import ContainerLayer.Proofs.Filter.Feeding
import ContainerLayer.Proofs.Applier.Streaming
import ContainerLayer.Proofs.Stream.Mirroring
import ContainerLayer.Proofs.Filter.Stopping
import ContainerLayer.Proofs.Filter.Outcome
import ContainerLayer.Proofs.Tar.Shifting
import ContainerLayer.Proofs.Filter.Dropping
import ContainerLayer.Proofs.Tar.Sparse
import ContainerLayer.Proofs.Filter.Holes
import ContainerLayer.Proofs.Filter.Fronts
import ContainerLayer.Proofs.Stream.Changes
import ContainerLayer.Proofs.Stream.Closing
import ContainerLayer.Proofs.Stream.Backpressure
import ContainerLayer.Proofs.Stream.Tallying
import ContainerLayer.Proofs.Tar.Composing
import ContainerLayer.Proofs.Filter.Heeding
import ContainerLayer.Proofs.Filter.Canceling
import ContainerLayer.Proofs.Filter.Canceled
import ContainerLayer.Proofs.Extract.Removing
import ContainerLayer.Proofs.Extract.Marks
import ContainerLayer.Proofs.Extract.Overwriting
import ContainerLayer.Proofs.Applier.Refusals
import ContainerLayer.Proofs.Applier.Hosts
import ContainerLayer.Proofs.Stream.Poisoning
import ContainerLayer.Proofs.Stream.Draining
import ContainerLayer.Proofs.Stream.Coming
import ContainerLayer.Proofs.Compression.Inflating
import ContainerLayer.Proofs.Compression.Loading
import ContainerLayer.Proofs.Compression.Pacing
import ContainerLayer.Proofs.Compression.Content
import ContainerLayer.Proofs.Compression.Sniffing
import ContainerLayer.Proofs.Extract.Leaving
import ContainerLayer.Proofs.Extract.Child
import ContainerLayer.Proofs.Extract.Failing
import ContainerLayer.Proofs.Extract.Overlay
import ContainerLayer.Proofs.Filter.Canonical
import ContainerLayer.Proofs.Digest.Grammar
import ContainerLayer.Proofs.Store
import ContainerLayer.Proofs.MediaType
import ContainerLayer.Proofs.Stream.Retrying
import ContainerLayer.Proofs.Stream.Exactness
