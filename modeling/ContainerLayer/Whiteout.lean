import ContainerLayer.Bytes

/-
Whiteouts: entries of a layer that stand for removals.

A file whose name starts with `.wh.` removes the file with the rest of that name
from the directory that it is in.  One such name removes instead what lower
layers put into the directory.
-/

namespace ContainerLayer

/-- What an entry asks to remove. -/
inductive Whiteout where
  /-- Everything in the directory of the entry that the layer did not put there. -/
  | lower
  | file (name : Bytes)
  /-- No file can have the name. -/
  | invalid
  deriving DecidableEq

namespace Whiteout

/-- The name of the whiteout for all of a directory. -/
def lowerName : Bytes := ascii ".wh..wh..opq"

/-- What the names of whiteouts start with. -/
def mark : Bytes := ascii ".wh."

/-- What an entry with the given name removes; `none` for an ordinary entry. -/
def ofName? (name : Bytes) : Option Whiteout :=
  if name = lowerName then some .lower
  else
    match name.dropPrefix? mark with
    | none => none
    | some rest =>
      if rest = [] || rest = [46] || rest = [46, 46] || rest.contains 47 then some .invalid
      else some (.file rest)

end Whiteout
end ContainerLayer
