/-
Media types: what kind of content something is, by its name.

A layer's media type says how its archive is compressed.  Besides the types of
the image specification there are five older names for the same things, and
names outside the specification may still have the form of a layer's.
-/

namespace ContainerLayer

inductive Compression where
  | none
  | gzip
  | zstd
  deriving DecidableEq

inductive DocumentType where
  | descriptor
  | layoutHeader
  | imageManifest
  | imageIndex
  | imageConfig
  | artifactManifest
  | emptyDocument
  deriving DecidableEq

/-- What kind of content something is. -/
inductive MediaType where
  | layer (c : Compression)
  /-- A layer that is not to be passed on. -/
  | nonDistributableLayer (c : Compression)
  | document (d : DocumentType)
  /-- A type outside the specification. -/
  | other (text : String)
  deriving DecidableEq

def Compression.suffix : Compression → String
  | none => ""
  | gzip => "+gzip"
  | zstd => "+zstd"

def DocumentType.text : DocumentType → String
  | descriptor => "application/vnd.oci.descriptor"
  | layoutHeader => "application/vnd.oci.layout.header.v1+json"
  | imageManifest => "application/vnd.oci.image.manifest.v1+json"
  | imageIndex => "application/vnd.oci.image.index.v1+json"
  | imageConfig => "application/vnd.oci.image.config.v1+json"
  | artifactManifest => "application/vnd.oci.artifact.manifest.v1+json"
  | emptyDocument => "application/vnd.oci.empty.v1+json"

namespace MediaType

def layerBase : String := "application/vnd.oci.image.layer.v1.tar"

/-- What the names of layers that are not to be passed on start with. -/
def nonDistributableBase : String := "application/vnd.oci.image.layer.nondistributable.v1.tar"

def text : MediaType → String
  | layer c => layerBase ++ c.suffix
  | nonDistributableLayer c => nonDistributableBase ++ c.suffix
  | document d => d.text
  | other t => t

def specified : List MediaType :=
  [.none, .gzip, .zstd].map layer ++ [.none, .gzip, .zstd].map nonDistributableLayer
    ++ [.descriptor, .layoutHeader, .imageManifest, .imageIndex, .imageConfig,
      .artifactManifest, .emptyDocument].map document

def ofText (t : String) : MediaType := (specified.find? fun m => m.text = t).getD (other t)

def oldLayer : String := "application/vnd.docker.image.rootfs.diff.tar"

/-- The older name of a layer that is fetched from elsewhere. -/
def oldForeignLayer : String := "application/vnd.docker.image.rootfs.foreign.diff.tar"

/-- A layer in zstd under the older name, which few programs know. -/
def oldZstdLayer : String := "application/vnd.docker.image.rootfs.diff.tar.zstd"

def ofOldName? (t : String) : Option Compression :=
  if t = oldLayer || t = oldForeignLayer then some .none
  else if t = oldLayer ++ ".gzip" || t = oldForeignLayer ++ ".gzip" then some .gzip
  else if t = oldZstdLayer then some .zstd
  else none

/-- The compression that a name of the specified form stands for. -/
def ofForm? (t : String) : Option Compression :=
  let cs := t.toList
  let base := cs.takeWhile (· != '+')
  if base = layerBase.toList || base = nonDistributableBase.toList then
    match cs.dropWhile (· != '+') with
    | [] => some .none
    | ['+', 'g', 'z', 'i', 'p'] => some .gzip
    | ['+', 'z', 's', 't', 'd'] => some .zstd
    | _ => none
  else none

/-- Replaces a name that few programs know by the specified one. -/
def normalize : MediaType → MediaType
  | other t => if t = oldZstdLayer then layer .zstd else other t
  | m => m

/-- How a layer is compressed; `none` if the type is that of no layer. -/
def compression? : MediaType → Option Compression
  | layer c => some c
  | nonDistributableLayer c => some c
  | document _ => none
  | other t => (ofOldName? t).or (ofForm? t)

end MediaType
end ContainerLayer
