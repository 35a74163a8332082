import ContainerLayer.LayerError
import ContainerLayer.Unpack
import ContainerLayer.Whiteout

/-
Applying an archive to a directory.

Ordinary entries are unpacked.  Whiteouts remove things: one file, or everything
in a directory except what earlier entries of the same archive put there.  All of
that goes by paths, which are followed anew each time.  The first entry that fails
ends the work, and everything done before it stays.
-/

namespace ContainerLayer
namespace Extract

open Tar

/-- The places below the directory that earlier entries were unpacked to, as the names of
their paths. -/
abbrev Applied := List (List Bytes)

/-- Removes the child `name` of the directory at `l`, which was opened by `root ++ names`, by its
path, if that was not applied.  If it was, and the child is a directory, does what `below` does. -/
def clearChild (applied : Applied) (root : PathParts) (names : List Bytes) (below : TreeWork Unit)
    (l : Location) (name : Bytes) : TreeWork Unit := do
  if !applied.contains (names ++ [name]) then
    TreeWork.change fun t => t.removeAll (root ++ (names ++ [name]))
  else if (← get).isDirectory (l ++ [name]) then below

/-- Clears the directory at `root ++ names`, and those in it that were applied, with directories
listed as `order` says.  Each of them is opened by its path, which leads nowhere if a link on the
way was cleared before.  There is an end to it because paths that can be opened are not long. -/
def clearIn (order : Tree → Location → List Bytes) (applied : Applied) (root : PathParts)
    (names : List Bytes) : TreeWork Unit := do
  let t ← get
  match _h : t.openDirectory (root ++ names) with
  | .error .notFound => return ()
  | .error k => throw (.ofKind k)
  | .ok l =>
    (order t l).forM fun name =>
      clearChild applied root names (clearIn order applied root (names ++ [name])) l name
termination_by Tree.maxPath - Tree.pathLength (root ++ names)
decreasing_by
  have := Tree.pathLength_lt_of_openDirectory _h
  rw [← List.append_assoc, Tree.pathLength_concat]
  omega

/-- Removes from the directory at `root ++ names` what was not applied. -/
def clear (applied : Applied) (root : PathParts) (names : List Bytes) : TreeWork Unit :=
  clearIn Tree.children applied root names

/-- The names of a path that never leads upwards. -/
def resolve (path : Bytes) : Except LayerError (List Bytes) :=
  if Path.hasUp path then .error (.extract path .escapes) else .ok (Path.names path)

def whiteout? (path : Bytes) : Option Whiteout := (Path.fileName path).bind Whiteout.ofName?

/-- The removing that a whiteout asks for, unless nothing can be removed by its path. -/
def removal (applied : Applied) (root : PathParts) (path : Bytes) (w : Whiteout) :
    Except LayerError (TreeWork Unit) :=
  let above := Path.parent path
  match w with
  | .invalid => .error (.extract path .badWhiteout)
  | .lower => do return clear applied root (← resolve above)
  | .file name => do
    let names ← resolve (Path.join above name)
    return TreeWork.change fun t => t.removeAll (root ++ names)

/-- Removes what a whiteout asks for.  The tree is what it is afterwards, also if that fails. -/
def remove (applied : Applied) (root : PathParts) (path : Bytes) (w : Whiteout) (t : Tree) :
    Option LayerError × Tree :=
  match removal applied root path w with
  | .error err => (some err, t)
  | .ok work =>
    match work.run t with
    | (.ok _, t) => (none, t)
    | (.error f, t) => (some (.extract path (.failed f)), t)

/-- What the work has come to between two entries. -/
structure Progress where
  tree : Tree
  applied : Applied := []
  count : Nat := 0

/-- Does what one entry asks for.  The progress is what it is afterwards, also if the entry
fails. -/
def applyEntry (root : PathParts) (e : Entry) (p : Progress) :
    Tape (Option LayerError × Progress) := do
  let path := e.path
  match whiteout? path with
  | some w =>
    match remove p.applied root path w p.tree with
    | (none, tree) => return (none, { p with tree, count := p.count + 1 })
    | (some err, tree) => return (some err, { p with tree })
  | none =>
    if Path.hasUp path then return (some (.extract path .escapes), p)
    else
      match ← Unpack.entry root e p.tree with
      | (some f, tree) => return (some (.extract path (.failed f)), { p with tree })
      | (none, tree) =>
        let applied := Path.names path :: p.applied
        return (none, { tree, applied, count := p.count + 1 })

/-- Applies the entries from `start` on, where `position` is how much was read so far. -/
def applyEntries (root : PathParts) (start position : Nat) (p : Progress) :
    Relay (Except LayerError Nat × Tree) := do
  match ← (readEntry start).run position with
  | .error f => return (.error (.stream f), p.tree)
  | .ok (none, _) => return (.ok p.count, p.tree)
  | .ok (some ⟨e, _⟩, position) =>
    match ← (applyEntry root e p).run position with
    | .error f => return (.error (.stream f), p.tree)
    | .ok ((some err, p), _) => return (.error err, p.tree)
    | .ok ((none, p), position) => applyEntries root e.next position p
termination_by limit - start
decreasing_by
  rename_i h
  have := h.1
  have := h.2
  omega

/-- Applies an archive to the directory that `root` leads to.  The result is the number of
entries, or why the work ended early, with the tree afterwards. -/
def applyArchive (root : PathParts) (t : Tree) : Relay (Except LayerError Nat × Tree) :=
  applyEntries root 0 0 { tree := t }

end Extract
end ContainerLayer
