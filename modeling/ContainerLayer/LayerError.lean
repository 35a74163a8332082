import ContainerLayer.Digest
import ContainerLayer.Fault
import ContainerLayer.Text.Quoted

/-
Why a layer cannot be applied.

Each error says which part of the work failed, and most carry the cause.  The
messages name the part and what it was about; the cause has a text of its own.
-/

namespace ContainerLayer

inductive ExtractCause where
  | escapes
  | badWhiteout
  | failed (f : Fault)
  deriving DecidableEq

def ExtractCause.fault : ExtractCause → Fault
  | escapes => .raised .invalidData "path escapes the target directory"
  | badWhiteout => .raised .invalidData "invalid whiteout name"
  | failed f => f

inductive MountCause where
  | noMounts
  | readOnly
  | refused
  deriving DecidableEq

def MountCause.fault : MountCause → Fault
  | noMounts => .raised .invalidInput "no mounts to apply to"
  | readOnly => .raised .invalidInput "read-only mount"
  | refused => .ofKind .permissionDenied

inductive StoreCause where
  | wrongSize (digest : Digest) (found expected : Nat)
  | failed (k : FaultKind)
  deriving DecidableEq

def StoreCause.fault : StoreCause → Fault
  | wrongSize digest found expected =>
    .raised .invalidData s!"blob {digest.render} has size {found}, expected {expected}"
  | failed k => .ofKind k

inductive ConfigFlaw where
  | unreadable
  | malformed
  | emptyStart
  deriving DecidableEq

def ConfigFlaw.message : ConfigFlaw → String
  | unreadable => "the file cannot be read"
  | malformed => "the text is malformed"
  | emptyStart => "path_prefix must not be empty"

inductive LayerError where
  | unsupportedMediaType (mediaType : String)
  | contentStore (cause : StoreCause)
  | mount (target : Bytes) (cause : MountCause)
  | extract (path : Bytes) (cause : ExtractCause)
  | config (flaw : ConfigFlaw)
  | descriptor (flaw : Digest.Flaw)
  | stream (f : Fault)
  deriving DecidableEq

namespace LayerError

def message : LayerError → String
  | unsupportedMediaType mediaType => "unsupported diff media type: " ++ mediaType
  | contentStore _ => "failed to get reader from content store"
  | mount target _ => "mount of " ++ Text.quoted target ++ " failed"
  | extract path _ => "failed to apply " ++ Text.quoted path
  | config flaw => "invalid configuration: " ++ flaw.message
  | descriptor _ => "building layer descriptor"
  | stream f => f.text

end LayerError
end ContainerLayer
