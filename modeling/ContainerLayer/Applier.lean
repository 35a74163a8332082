import ContainerLayer.Config
import ContainerLayer.Extract
import ContainerLayer.Filter.Session
import ContainerLayer.Layer
import ContainerLayer.Mount

/-
Applying layers to the directories that mounts stand for.

A layer can be applied as it is.  A layer for Windows holds the files of the
container in one directory and other things beside it; on other hosts, only what
is in that directory is applied, moved to the root.  In either case the result
describes the whole layer, not what was applied of it.
-/

namespace ContainerLayer

/-- What is asked for with a layer. -/
structure ApplyOptions where
  windowsLayer : Bool := false
  deriving DecidableEq

inductive Applier where
  | direct (store : Store)
  /-- Applies layers for Windows by moving what is in the directory `start` to the root, and
  hands all others to `inner`. -/
  | windows (store : Store) (start : String) (inner : Applier)

namespace Applier

/-- The applier for a kind of host, given the one that applies what the host understands.
Windows needs no help with its own layers. -/
def forHost (store : Store) (inner : Applier) (config : Config) : Applier :=
  match config.host with
  | .windows => inner
  | .linux => windows store config.start inner

/-- Finds out how a layer is compressed and where it is to be applied, and opens it. -/
def prepare (store : Store) (d : Descriptor) (mounts : List Mount) (t : Tree) :
    Except LayerError (PathParts × Layer) :=
  match d.mediaType.compression? with
  | none => .error (.unsupportedMediaType d.mediaType.text)
  | some c => do
    let target ← Mount.target mounts
    let layer ← Layer.open? store t d c
    return (Tree.partsOf target, layer)

def applyWhole (root : PathParts) (layer : Layer) (t : Tree) :
    Except LayerError Descriptor × Tree :=
  let o := (Extract.applyArchive root t).run layer
  match o.result with
  | (.error e, t) => (.error e, t)
  | (.ok _, t) => (o.rest.complete, t)

/-- Applies what `start` leads to in a layer.  The layer is filtered while the outcome is
unpacked; once that is done, the filter may still turn out to have failed behind the last
entry. -/
def applyMoved (start : String) (root : PathParts) (layer : Layer) (t : Tree) :
    Except LayerError Descriptor × Tree :=
  let filtered := Filtered.start layer (stripDecision (Bytes.ofText start)) ()
  let o := (Extract.applyArchive root t).run filtered
  match o.result with
  | (.error e, t) => (.error e, t)
  | (.ok _, t) =>
    match o.rest.drain.fault with
    | some f => (.error (.stream f), t)
    | none =>
      match o.rest.finish with
      | (.error f, _) => (.error (.stream f), t)
      | (.ok _, layer) => (layer.complete, t)

/-- Applies the layer that a descriptor names to the directory that mounts stand for.  The
result describes the layer without compression; the tree is what is there afterwards, also
if the work failed. -/
def apply (a : Applier) (d : Descriptor) (mounts : List Mount) (options : ApplyOptions)
    (t : Tree) : Except LayerError Descriptor × Tree :=
  let d := { d with mediaType := d.mediaType.normalize }
  match a with
  | direct store =>
    match prepare store d mounts t with
    | .error e => (.error e, t)
    | .ok (root, layer) => applyWhole root layer t
  | windows store start inner =>
    if !options.windowsLayer then inner.apply d mounts options t
    else
      match prepare store d mounts t with
      | .error e => (.error e, t)
      | .ok (root, layer) => applyMoved start root layer t

end Applier
end ContainerLayer
