import ContainerLayer.LayerError

/-
Mounts: where the files of a container are to be found.

A layer is applied to the directory that a list of mounts stands for.  A single
mount that only binds a directory is used in place.  Everything else would have
to be mounted first, which this library has no rights to do.
-/

namespace ContainerLayer

structure Mount where
  kind : String
  source : Bytes
  options : List String := []
  deriving DecidableEq

namespace Mount

/-- A mount that binds a directory with everything below it, for writing. -/
def bind (source : Bytes) : Mount := { kind := "bind", source, options := ["rbind", "rw"] }

def isBind (m : Mount) : Bool :=
  m.kind == "bind" || m.options.contains "bind" || m.options.contains "rbind"

def isReadOnly (m : Mount) : Bool := m.options.contains "ro"

def target (ms : List Mount) : Except LayerError Bytes :=
  match ms, ms.find? isReadOnly with
  | [], _ => .error (.mount [] .noMounts)
  | _, some m => .error (.mount m.source .readOnly)
  | [m], none => if m.isBind then .ok m.source else .error (.mount m.source .refused)
  | m :: _, none => .error (.mount m.source .refused)

end Mount
end ContainerLayer
