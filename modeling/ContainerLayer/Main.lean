import ContainerLayer.CommandLine

/-
The command as a program.

All decisions are made by `CommandLine.run` on a tree in memory.  Around it, the
files that a request names are put into that tree, with an empty directory for
the target, and what is in the target afterwards is written out.  Links cannot
be made from here, so a layer with links is refused before anything is written;
times are left as they come.
-/

namespace ContainerLayer
namespace Program

/-- The location that a path leads to if there are no links. -/
def place (path : Bytes) : Location :=
  (Tree.partsOf path).foldl (fun l part =>
    if part = Path.dot then l else if part = Path.dots then l.dropLast else l ++ [part]) []

def withDirectory (t : Tree) (l : Location) : Tree :=
  (List.range (l.length + 1)).foldl (fun t n =>
    if (t.lookup (l.take n)).isSome then t else t.insert (l.take n) (.directory 0o755)) t

def addFile (t : Tree) (path : String) : IO Tree := do
  try
    let data ← IO.FS.readBinFile path
    let l := place (Bytes.ofText path)
    return (withDirectory t l.dropLast).insertFile l data.toList 0o644 none
  catch _ => return t

def inputs (r : ApplyRequest) : List String :=
  let blob := (Digest.parse r.digest).toOption.map fun d =>
    Utf8.decodeLossy ((CommandLine.storeOf r).blobPath d)
  r.config.toList ++ blob.toList

def load (r : ApplyRequest) : IO Tree :=
  (inputs r).foldlM addFile (withDirectory Tree.empty (place (Bytes.ofText r.target)))

def rightsOf (mode : Nat) : IO.FileRight :=
  let access (n : Nat) : IO.AccessRight :=
    { read := n.testBit 2, write := n.testBit 1, execution := n.testBit 0 }
  { user := access (mode / 64 % 8), group := access (mode / 8 % 8), other := access (mode % 8) }

/-- What is to be written below the target, by path, with the directories in front of what is
in them; `none` if some of it cannot be written. -/
def outputs (r : ApplyRequest) (t : Tree) : Option (List (String × Node)) := do
  let target := place (Bytes.ofText r.target)
  let inside := t.nodes.filter fun p => target.isPrefixOf p.1 && target.length < p.1.length
  let sorted := inside.mergeSort fun a b => a.1.length ≤ b.1.length
  let ids := sorted.filterMap fun p =>
    match p.2 with
    | .file f => some f.id
    | _ => none
  if ids.eraseDups.length < ids.length then none
  else
    sorted.mapM fun p => do
      let names ← (p.1.drop target.length).mapM Utf8.decode?
      match p.2 with
      | .symlink _ => none
      | n => some ("/".intercalate (r.target :: names), n)

def write (path : String) (n : Node) : IO Unit :=
  match n with
  | .directory _ => IO.FS.createDirAll path
  | .file f => IO.FS.writeBinFile path ⟨f.data.toArray⟩
  | .symlink _ => pure ()

def protect (path : String) (n : Node) : IO Unit :=
  match n with
  | .directory mode => IO.setAccessRights path (rightsOf mode)
  | .file f => IO.setAccessRights path (rightsOf f.mode)
  | .symlink _ => pure ()

def save (r : ApplyRequest) (t : Tree) : IO Unit := do
  match outputs r t with
  | none => throw (IO.userError "the layer holds links or names that cannot be written")
  | some items =>
    for (path, n) in items do write path n
    for (path, n) in items.reverse do protect path n

def run (arguments : List String) : IO UInt32 := do
  let request := Request.read arguments
  let tree ← match request with
    | .ok (.apply r) => load r
    | _ => pure Tree.empty
  let outcome := CommandLine.run arguments tree
  match request with
  | .ok (.apply r) => save r outcome.tree
  | _ => pure ()
  IO.print outcome.output
  IO.eprint outcome.complaint
  return UInt32.ofNat outcome.status

end Program
end ContainerLayer

def main (arguments : List String) : IO UInt32 := ContainerLayer.Program.run arguments
