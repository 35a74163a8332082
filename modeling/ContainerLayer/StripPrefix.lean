import ContainerLayer.Filter

/-
Moving the entries below one directory to the root of an archive.
-/

namespace ContainerLayer

/-- The directory of a Windows layer that holds the files of the container. -/
def windowsFiles : String := "Files/"

/-- Keeps the entries whose path starts with `start`, without it; an entry for the
directory itself is dropped.  Link names lose `start`, too, if they have it. -/
def stripStart (start : Bytes) (e : EntryHeader) : Bool × EntryHeader :=
  match e.path.dropPrefix? start with
  | none => (false, e)
  | some [] => (false, e)
  | some path =>
    (true, { e with path, linkName := e.linkName.map fun t => (t.dropPrefix? start).getD t })

/-- The decision that moves everything below `start` to the root. -/
def stripDecision (start : Bytes) : Decision Unit := fun _ e => (stripStart start e, ())

end ContainerLayer
