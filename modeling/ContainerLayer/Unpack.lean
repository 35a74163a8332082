import ContainerLayer.Tar.Archive
import ContainerLayer.Tree.Change

/-
Unpacking one entry of an archive below a directory.

Everything that an entry does to the tree happens below the directory, or the
entry fails: missing directories are made one by one, each only where the one
above leads to a place inside, and a hard link has to lead to one, too.  Faults
leave what was done before them.
-/

namespace ContainerLayer

/-- Work on a tree that a fault may stop; what was done by then stays. -/
abbrev TreeWork (α : Type) := ExceptT Fault (StateM Tree) α

namespace TreeWork

def inspect {α : Type} (f : Tree → Except FaultKind α) : TreeWork α := do
  match f (← get) with
  | .ok a => pure a
  | .error k => throw (.ofKind k)

def change (f : Tree → Except FaultKind Tree) : TreeWork Unit := do set (← inspect f)

end TreeWork

namespace Unpack

open Tar

/-- Fails unless `path` leads to something inside the directory that `root` leads to.  The
result is where that directory is. -/
def requireInside (root path : PathParts) : TreeWork Location := do
  let inner ← TreeWork.inspect fun t => t.canonicalize path
  let outer ← TreeWork.inspect fun t => t.canonicalize root
  if outer.isPrefixOf inner then return outer
  else throw (.other "trying to unpack outside of destination path")

/-- The directories to make so that there is something at a path, which is given backwards.
They are in the order in which they have to be made, each backwards, too. -/
def missing (t : Tree) : (reversed : PathParts) → List PathParts
  | [] => []
  | name :: above =>
    if t.hasEntry (name :: above).reverse then [] else missing t above ++ [name :: above]

/-- Makes the missing directories on the way to a path, and the last one. -/
def makeWay (root path : PathParts) : TreeWork Unit := do
  for directory in missing (← get) path.reverse do
    let _ ← requireInside root directory.tail.reverse
    TreeWork.change fun t => t.makeDirectories directory

/-- The mode that a header gives, less what is no permission. -/
def modeOf (h : Header) : Option Nat :=
  (Number.ofOctal (h.get .mode)).toOption.map (· % 0o10000)

/-- The time that a header gives, as a signed number of seconds; zero counts as one. -/
def mtimeOf (h : Header) : Option Int :=
  (Number.ofField (h.get .mtime)).toOption.map fun n =>
    if n = 0 then 1 else if n < 0x8000000000000000 then (n : Int) else (n : Int) - 0x10000000000000000

def applyMode (h : Header) (l : Location) (t : Tree) : Tree :=
  match modeOf h with
  | some mode => t.setMode l mode
  | none => t

/-- Makes a directory, or takes the one that is there, and sets its mode. -/
def placeDirectory (h : Header) (path : PathParts) : TreeWork Unit := do
  TreeWork.change fun t =>
    match t.makeDirectory path 0o755, t.find false path with
    | .error .alreadyExists, .ok (_, .directory _) => .ok t
    | r, _ => r
  let l ← TreeWork.inspect fun t => t.resolve true path
  modify (applyMode h l)

/-- Makes a hard link; the target counts from `root`. -/
def placeHardLink (root : Location) (target : Bytes) (path : PathParts) : TreeWork Unit := do
  let existing := (if Path.isAbsolute target then [] else root) ++ Tree.partsOf target
  let _ ← requireInside root existing
  TreeWork.change fun t => t.makeHardLink existing path

/-- Makes a symbolic link, in place of whatever has its name. -/
def placeSymlink (target : Bytes) (path : PathParts) : TreeWork Unit :=
  TreeWork.change fun t =>
    match t.makeSymlink path target with
    | .error .alreadyExists => do (← t.unlink path).makeSymlink path target
    | r => r

/-- Makes an empty file, in place of whatever has its name, and says where it is. -/
def placeFile (path : PathParts) : TreeWork Location := do
  let (l, t) ← TreeWork.inspect fun t =>
    match t.createFile path with
    | .error .alreadyExists => do (← t.unlink path).createFile path
    | r => r
  set t
  return l

/-- Does the entry make a directory?  In archives without the ustar magic a slash at the end
of the path says so, too. -/
def isDirectory (e : Entry) : Bool :=
  e.header.kind == .directory
    || (e.header.dialect != .ustar && Path.endsWithSlash e.path && !e.header.kind.isLink
      && !e.header.kind.isAbout)

def targetOf (e : Entry) : TreeWork Bytes :=
  match e.linkName with
  | none => throw (.other "link listed but no link name found")
  | some target =>
    if Path.components target = [] then throw (.other "link destination is empty")
    else pure target

/-- Does what the entry does to the tree apart from the content.  The result is where the
file is that the content belongs into. -/
def place (root : Location) (e : Entry) (path : PathParts) : TreeWork (Option Location) := do
  if isDirectory e then
    placeDirectory e.header path
    return none
  else if e.header.kind = .hardLink then
    placeHardLink root (← targetOf e) path
    return none
  else if e.header.kind = .symlink then
    placeSymlink (← targetOf e) path
    return none
  else if e.header.kind.isAbout then return none
  else return some (← placeFile path)

/-- Prepares the tree for the content of an entry whose path never leads upwards. -/
def prepare (root : PathParts) (e : Entry) : TreeWork (Option Location) := do
  let names := Path.names e.path
  if names = [] then return none
  else
    let above := root ++ names.dropLast
    makeWay root above
    let outer ← requireInside root above
    place outer e (root ++ names)

def chunk : Nat := 8192

/-- Reads a stretch of stored content, with `acc` in front of it.  The fault says why there
is less of it than there should be. -/
def readStored (acc : List Bytes) (n : Nat) : Tape (List Bytes × Option Fault) := do
  if _ : n = 0 then return (acc, none)
  else
    match ← Tape.attempt (min n chunk) true with
    | .error f => return (acc, some f)
    | .ok b =>
      if _ : b = [] then return (acc, some (.other "failed to write entire file"))
      else readStored (b :: acc) (n - b.length)
termination_by n
decreasing_by
  rename_i hn hb
  have : 0 < b.length := List.length_pos_iff.mpr hb
  omega

/-- Reads the content of a file: the chunks of it that were to be had, last first, and why
there are no more of them. -/
def readContent (acc : List Bytes) : Content → Tape (List Bytes × Option Fault)
  | [] => pure (acc, none)
  | .gap n :: rest =>
    if n ≥ 0x8000000000000000 then pure (acc, some (.ofKind .invalidInput))
    else readContent (List.replicate n 0 :: acc) rest
  | .stored n :: rest => do
    match ← readStored acc n with
    | (acc, none) => readContent acc rest
    | (acc, some f) => pure (acc, some f)

/-- Writes the content into a file; time and mode are set only once all of it is there. -/
def fill (h : Header) (l : Location) (data : Bytes) (complete : Bool) (t : Tree) : Tree :=
  let t := t.setData l data
  if complete then
    let t := match mtimeOf h with
      | some mtime => t.setMtime l mtime
      | none => t
    applyMode h l t
  else t

/-- Unpacks an entry whose path never leads upwards.  The tree is what it is afterwards,
also if the entry fails. -/
def entry (root : PathParts) (e : Entry) (t : Tree) : Tape (Option Fault × Tree) := do
  match (prepare root e).run t with
  | (.error f, t) => return (some f, t)
  | (.ok none, t) => return (none, t)
  | (.ok (some l), t) =>
    let (chunks, fault) ← readContent [] e.content
    return (fault, fill e.header l chunks.reverse.flatten fault.isNone t)

end Unpack
end ContainerLayer
