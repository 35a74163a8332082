import ContainerLayer.Decompress
import ContainerLayer.Store
import ContainerLayer.Stream.Counted
import ContainerLayer.Stream.Digested

/-
Layers as they are read: decompressed, counted and digested on the way.
-/

namespace ContainerLayer

abbrev Layer := Counted (Digested Unpacked)

namespace Layer

def ofStream (s : Unpacked) : Layer := { inner := { inner := s } }

/-- Opens the layer that a descriptor names.  The type only says whether it is compressed;
how it is compressed shows in the content. -/
def open? (store : Store) (t : Tree) (d : Descriptor) (c : Compression) :
    Except LayerError Layer :=
  match store.open? t d, c with
  | .error cause, _ => .error (.contentStore cause)
  | .ok (.error k), .none => .ok (ofStream (.failing (.ofKind k)))
  | .ok (.error k), _ => .error (.stream (.ofKind k))
  | .ok (.ok blob), .none => .ok (ofStream (.plain (Source.ofBytes blob)))
  | .ok (.ok blob), _ =>
    match Compression.decompressStream (Source.ofBytes blob) with
    | .error f => .error (.stream f)
    | .ok (_, s) => .ok (ofStream s)

def descriptor (layer : Layer) : Except LayerError Descriptor :=
  match layer.inner.digest with
  | .error flaw => .error (.descriptor flaw)
  | .ok digest => .ok { mediaType := .layer .none, digest, size := layer.count }

/-- How much is read at a time of what nobody needs. -/
def drainSize : Nat := 8192

/-- Reads the rest of a layer, and gives the descriptor of all of it. -/
def complete (layer : Layer) : Except LayerError Descriptor :=
  let d := Reader.drainOnto drainSize [] layer
  match d.fault with
  | some f => .error (.stream f)
  | none => descriptor d.rest

end Layer
end ContainerLayer
