import ContainerLayer.Digest
import ContainerLayer.Json.Writer
import ContainerLayer.MediaType

/-
Descriptors: what a piece of content is, and how to check that one has it.
-/

namespace ContainerLayer

structure Descriptor where
  mediaType : MediaType
  digest : Digest
  size : Nat
  deriving DecidableEq

def Descriptor.render (d : Descriptor) : String :=
  JsonText.lines [
    ("mediaType", JsonText.quote d.mediaType.text),
    ("digest", JsonText.quote d.digest.render),
    ("size", toString d.size)]

end ContainerLayer
