import ContainerLayer.Fault
import ContainerLayer.Tree.Basic

/-
Following paths through a tree.

A path is given by its parts, from the root of the tree on.  Symbolic links on
the way are followed, and one at the end if asked for; the number of links that
one look-up may follow is limited.  The outcome is a location, at which there
may or may not be something: only the way there has to exist.
-/

namespace ContainerLayer

abbrev PathParts := List Bytes

namespace Tree

/-- How many symbolic links one look-up may follow. -/
def linkBudget : Nat := 40

def maxName : Nat := 255

/-- Every path is shorter than this. -/
def maxPath : Nat := 4096

/-- How long a path is as a text, with a slash in front of each part. -/
def pathLength (path : PathParts) : Nat := path.foldl (fun n p => n + p.length + 1) 0

@[simp] theorem pathLength_concat (path : PathParts) (name : Bytes) :
    pathLength (path ++ [name]) = pathLength path + name.length + 1 := by
  rw [pathLength, List.foldl_append]
  rfl

/-- The parts of a path.  A slash at the end asks for a directory, as a dot there does. -/
def partsOf (path : Bytes) : PathParts :=
  let parts := (path.splitOn Path.slash).filter (· != [])
  if Path.endsWithSlash path then parts ++ [Path.dot] else parts

/-- Goes down `parts` from the location `here` up to the first link that is to be followed;
`jump` goes on from there, with the place where the link starts and the parts to come. -/
def walk (t : Tree) (last : Bool) (jump : Location → PathParts → Except FaultKind Location)
    (here : Location) (parts : PathParts) : Except FaultKind Location :=
  match parts with
  | [] => .ok here
  | part :: rest =>
    match t.lookup here with
    | none => .error .notFound
    | some (.file _) => .error .notADirectory
    | some (.symlink _) => .error .notADirectory
    | some (.directory _) =>
      if part = Path.dot then walk t last jump here rest
      else if part = Path.dots then walk t last jump here.dropLast rest
      else if maxName < part.length then .error .invalidFilename
      else
        let there := here ++ [part]
        match t.lookup there with
        | none => if rest = [] then .ok there else .error .notFound
        | some (.symlink target) =>
          if rest = [] && !last then .ok there
          else jump (if Path.isAbsolute target then [] else here) (partsOf target ++ rest)
        | some _ => walk t last jump there rest

/-- Follows `parts` from the location `here`, with `links` links left to follow. -/
def follow (t : Tree) (last : Bool) (links : Nat) :
    (here : Location) → (parts : PathParts) → Except FaultKind Location :=
  match links with
  | 0 => t.walk last fun _ _ => .error .filesystemLoop
  | links + 1 => t.walk last (t.follow last links)

/-- The location that a path leads to; `last` says whether a link at its end is followed. -/
def resolve (t : Tree) (last : Bool) (path : PathParts) : Except FaultKind Location :=
  if path.any fun p => p.contains 0 then .error .invalidInput
  else if maxPath ≤ pathLength path then .error .invalidFilename
  else t.follow last linkBudget [] path

theorem pathLength_lt_of_resolve {t : Tree} {last : Bool} {path : PathParts} {l : Location}
    (h : t.resolve last path = .ok l) : pathLength path < maxPath := by
  unfold resolve at h
  split at h
  · cases h
  · split at h
    · cases h
    · rename_i hlong
      exact Nat.not_le.mp hlong

def find (t : Tree) (last : Bool) (path : PathParts) : Except FaultKind (Location × Node) := do
  let l ← t.resolve last path
  match t.lookup l with
  | some n => return (l, n)
  | none => throw .notFound

/-- The location of what a path leads to, with all links followed. -/
def canonicalize (t : Tree) (path : PathParts) : Except FaultKind Location := do
  return (← t.find true path).1

def readFile (t : Tree) (path : PathParts) : Except FaultKind Bytes := do
  match (← t.find true path).2 with
  | .file f => return f.data
  | .directory _ => throw .isADirectory
  | .symlink _ => throw .filesystemLoop

def hasEntry (t : Tree) (path : PathParts) : Bool := (t.find false path).toBool

end Tree
end ContainerLayer
