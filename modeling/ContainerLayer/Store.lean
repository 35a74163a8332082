import ContainerLayer.Descriptor
import ContainerLayer.LayerError
import ContainerLayer.Tree.Resolve

/-
Stores of content, laid out as directories.

A blob is a file that is named by its digest: the algorithm is a directory, and
the encoded value a name in it.  What is in a blob is not checked against the
digest, but its size has to be the expected one.
-/

namespace ContainerLayer

structure Store where
  root : Bytes
  /-- The size that its file system gives for directories. -/
  directorySize : Nat := 4096
  deriving DecidableEq

namespace Store

def blobPath (s : Store) (d : Digest) : Bytes :=
  Path.join (Path.join (Path.join s.root (ascii "blobs")) (Bytes.ofText d.algorithm))
    (Bytes.ofText d.encoded)

/-- The size of what is at the path of a blob. -/
def blobSize (s : Store) (t : Tree) (d : Digest) : Except FaultKind Nat :=
  match t.readFile (Tree.partsOf (s.blobPath d)) with
  | .ok blob => .ok blob.length
  | .error .isADirectory => .ok s.directorySize
  | .error k => .error k

/-- Opens a blob.  A directory can be opened, too, but all reads of it fail. -/
def open? (s : Store) (t : Tree) (d : Descriptor) : Except StoreCause (Except FaultKind Bytes) :=
  match s.blobSize t d.digest with
  | .error k => .error (.failed k)
  | .ok size =>
    if size = d.size then .ok (t.readFile (Tree.partsOf (s.blobPath d.digest)))
    else .error (.wrongSize d.digest size d.size)

/-- Opens a blob and reads all of it. -/
def read (s : Store) (t : Tree) (d : Descriptor) : Except StoreCause Bytes := do
  match ← s.open? t d with
  | .ok blob => return blob
  | .error k => throw (.failed k)

end Store
end ContainerLayer
