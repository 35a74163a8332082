import ContainerLayer.Tree.Resolve

/-
Changing a tree through paths.

These are the changes that a file system offers.  Each either makes its one
change or fails with a kind of fault and leaves the tree alone.
-/

namespace ContainerLayer
namespace Tree

def makeDirectory (t : Tree) (path : PathParts) (mode : Nat) : Except FaultKind Tree := do
  let l ← t.resolve false path
  match t.lookup l with
  | some _ => throw .alreadyExists
  | none => return t.insert l (.directory mode)

/-- Makes an empty file where there is nothing yet, and says where it is. -/
def createFile (t : Tree) (path : PathParts) : Except FaultKind (Location × Tree) := do
  let l ← t.resolve false path
  match t.lookup l with
  | some _ => throw .alreadyExists
  | none => return (l, t.insertFile l [] 0o644 none)

def makeSymlink (t : Tree) (path : PathParts) (target : Bytes) : Except FaultKind Tree := do
  if target.contains 0 then throw .invalidInput
  if target = [] then throw .notFound
  if maxPath ≤ target.length then throw .invalidFilename
  let l ← t.resolve false path
  match t.lookup l with
  | some _ => throw .alreadyExists
  | none => return t.insert l (.symlink target)

/-- Gives a file a second name.  A symbolic link gets the second name itself. -/
def makeHardLink (t : Tree) (existing path : PathParts) : Except FaultKind Tree := do
  let (_, n) ← t.find false existing
  let l ← t.resolve false path
  if (t.lookup l).isSome then throw .alreadyExists
  if n.isDirectory then throw .permissionDenied
  return t.insert l n

def unlink (t : Tree) (path : PathParts) : Except FaultKind Tree := do
  let (l, n) ← t.find false path
  if n.isDirectory then throw .isADirectory
  return t.erase l

/-- Removes whatever a path names, a directory with everything in it; nothing there is
fine, too.  A directory is emptied where it was found and then removed by its path.  If the path
came by a link in the directory itself, it leads nowhere by then, and the empty directory stays. -/
def removeAll (t : Tree) (path : PathParts) : Except FaultKind Tree :=
  match t.find false path with
  | .error .notFound => .ok t
  | .error k => .error k
  | .ok (l, n) =>
    if n.isDirectory then
      let t := t.hollow l
      .ok (if t.hasEntry path then t.erase l else t)
    else .ok (t.erase l)

def openDirectory (t : Tree) (path : PathParts) : Except FaultKind Location := do
  let (l, n) ← t.find true path
  if n.isDirectory then return l else throw .notADirectory

theorem pathLength_lt_of_openDirectory {t : Tree} {path : PathParts} {l : Location}
    (h : t.openDirectory path = .ok l) : pathLength path < maxPath := by
  cases hr : t.resolve true path with
  | error k =>
    simp only [openDirectory, find, hr, bind, Except.bind] at h
    cases h
  | ok d => exact pathLength_lt_of_resolve hr

def setMode (t : Tree) (l : Location) (mode : Nat) : Tree :=
  t.modify l fun
    | .directory _ => .directory mode
    | .file f => .file { f with mode }
    | .symlink target => .symlink target

def setData (t : Tree) (l : Location) (data : Bytes) : Tree :=
  t.modify l fun
    | .file f => .file { f with data }
    | n => n

def setMtime (t : Tree) (l : Location) (mtime : Int) : Tree :=
  t.modify l fun
    | .file f => .file { f with mtime := some mtime }
    | n => n

/-- A failed change to the directory at a path is fine if there is a directory already. -/
def orDirectory (t : Tree) (path : PathParts) (r : Except FaultKind Tree) :
    Except FaultKind Tree :=
  match r, t.openDirectory path with
  | .error _, .ok _ => .ok t
  | r, _ => r

/-- Makes the directory at a path and those above it that are missing.  The path is given
backwards, its last name first. -/
def makeDirectories (t : Tree) : (reversed : PathParts) → Except FaultKind Tree
  | [] => .ok t
  | name :: above =>
    let path := (name :: above).reverse
    match t.makeDirectory path 0o755 with
    | .error .notFound => do
      let t ← t.makeDirectories above
      t.orDirectory path (t.makeDirectory path 0o755)
    | r => t.orDirectory path r

end Tree
end ContainerLayer
