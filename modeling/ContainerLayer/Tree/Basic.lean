import ContainerLayer.Path

/-
File trees.

A tree gives a node to some locations, where a location is the list of names
that leads down to it from the root.  It knows nothing of how paths are
followed; symbolic links are nodes like others here.
-/

namespace ContainerLayer

/-- The names that lead from the root of a tree down to a place in it. -/
abbrev Location := List Bytes

structure StoredFile where
  /-- Tells files apart: two names of one file have the same identity. -/
  id : Nat
  data : Bytes := []
  mode : Nat := 0o644
  /-- When the file was last modified, in seconds; `none` for just now. -/
  mtime : Option Int := none
  deriving DecidableEq

inductive Node where
  | directory (mode : Nat)
  | file (f : StoredFile)
  | symlink (target : Bytes)
  deriving DecidableEq

def Node.isDirectory : Node → Bool
  | directory _ => true
  | _ => false

/-- A file tree.  A location has the first node listed for it. -/
structure Tree where
  nodes : List (Location × Node)
  /-- An identity that no file has. -/
  freshId : Nat := 0
  deriving DecidableEq

namespace Tree

def lookup (t : Tree) (l : Location) : Option Node := (t.nodes.find? fun p => p.1 == l).map (·.2)

def isDirectory (t : Tree) (l : Location) : Bool := (t.lookup l).any Node.isDirectory

def erase (t : Tree) (l : Location) : Tree := { t with nodes := t.nodes.filter fun p => p.1 != l }

/-- Drops everything below a location, but not what is there itself. -/
def hollow (t : Tree) (l : Location) : Tree :=
  { t with nodes := t.nodes.filter fun p => p.1 = l || !l.isPrefixOf p.1 }

def insert (t : Tree) (l : Location) (n : Node) : Tree :=
  { t with nodes := (l, n) :: (t.erase l).nodes }

def insertFile (t : Tree) (l : Location) (data : Bytes) (mode : Nat) (mtime : Option Int) : Tree :=
  { t.insert l (.file ⟨t.freshId, data, mode, mtime⟩) with freshId := t.freshId + 1 }

def modify (t : Tree) (l : Location) (f : Node → Node) : Tree :=
  { t with nodes := t.nodes.map fun p => if p.1 = l then (p.1, f p.2) else p }

/-- The names in a directory, as a listing of it gives them: the two dots are never among them. -/
def children (t : Tree) (l : Location) : List Bytes :=
  t.nodes.filterMap fun p =>
    match p.1.getLast? with
    | some name =>
      if p.1.dropLast = l ∧ name ≠ Path.dot ∧ name ≠ Path.dots then some name else none
    | none => none

def empty : Tree := { nodes := [([], .directory 0o755)] }

@[simp] theorem lookup_insert_self (t : Tree) (l : Location) (n : Node) :
    (t.insert l n).lookup l = some n := by simp [lookup, insert]

theorem lookup_erase_ne {t : Tree} {l k : Location} (h : k ≠ l) :
    (t.erase l).lookup k = t.lookup k := by
  simp only [lookup, erase]
  congr 1
  induction t.nodes with
  | nil => rfl
  | cons p ps ih =>
    by_cases hp : p.1 = l
    · have hk : (l == k) = false := by simpa using fun e => h e.symm
      simp [hp, ih, hk]
    · simp [hp, List.find?_cons, ih]

theorem lookup_insert_ne {t : Tree} {l k : Location} (h : k ≠ l) (n : Node) :
    (t.insert l n).lookup k = t.lookup k := by
  have hk : (l == k) = false := by simpa using fun e => h e.symm
  have : (t.insert l n).lookup k = (t.erase l).lookup k := by simp [lookup, insert, hk]
  rw [this, lookup_erase_ne h]

@[simp] theorem lookup_erase_self (t : Tree) (l : Location) : (t.erase l).lookup l = none := by
  simp [lookup, erase, List.find?_eq_none]

end Tree
end ContainerLayer
