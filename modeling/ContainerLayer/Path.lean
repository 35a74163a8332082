import ContainerLayer.Bytes

/-
Paths as text: bytes with slashes in between.

Empty parts mean nothing, and a single dot means something only as the first
part of a relative path.  These rules look at the text alone; what a path leads
to in a file tree is another matter.
-/

namespace ContainerLayer

inductive Component where
  /-- The slash in front of an absolute path. -/
  | root
  /-- The directory itself: a leading dot. -/
  | here
  /-- The directory above: two dots. -/
  | up
  | name (n : Bytes)
  deriving DecidableEq

def Component.text : Component → Bytes
  | root => [47]
  | here => [46]
  | up => [46, 46]
  | name n => n

namespace Path

def slash : UInt8 := 47

def dot : Bytes := [46]

def dots : Bytes := [46, 46]

def isAbsolute (p : Bytes) : Bool := p.head? == some slash

def endsWithSlash (p : Bytes) : Bool := p.getLast? == some slash

/-- What a part between slashes stands for, unless it comes first. -/
def componentOf (part : Bytes) : Option Component :=
  if part = [] || part = dot then none
  else if part = dots then some .up
  else some (.name part)

def components (p : Bytes) : List Component :=
  match p.splitOn slash with
  | [] => []
  | first :: rest =>
    let later := rest.filterMap componentOf
    if p = [] then []
    else if first = [] then .root :: later
    else if first = dot then .here :: later
    else (componentOf first).toList ++ later

/-- The names of a path, leaving out everything else. -/
def names (p : Bytes) : List Bytes :=
  (components p).filterMap fun
    | .name n => some n
    | _ => none

def hasUp (p : Bytes) : Bool := (components p).contains .up

/-- The name that the path ends with, if it ends with one. -/
def fileName (p : Bytes) : Option Bytes :=
  match (components p).getLast? with
  | some (.name n) => some n
  | _ => none

/-- Is a part at the end of a path without meaning?  The dot at the very front has one. -/
def isIdle (parts : List Bytes) : Bool :=
  match parts with
  | [] => false
  | [_] => false
  | last :: _ => last = [] || last = dot

/-- Drops meaningless parts, with the parts of a path last first. -/
def dropIdle : List Bytes → List Bytes
  | [] => []
  | last :: rest => if isIdle (last :: rest) then dropIdle rest else last :: rest

/-- Puts parts, last first, together again.  A path with nothing but the slash of an
absolute path keeps that slash. -/
def rejoin (reversed : List Bytes) : Bytes :=
  match reversed with
  | [] => []
  | [[]] => [slash]
  | [p] => p
  | _ => (reversed.reverse.intersperse [slash]).flatten

/-- The path without its last component; `none` if it has no component that is not the
root.  It is the front of the text as it stands, less any meaningless parts at its end. -/
def parent? (p : Bytes) : Option Bytes :=
  match (components p).getLast? with
  | none => none
  | some .root => none
  | some _ =>
    match dropIdle (p.splitOn slash).reverse with
    | [] => none
    | _ :: rest => if rest = [] then some [] else some (rejoin (dropIdle rest))

def parent (p : Bytes) : Bytes := (parent? p).getD []

/-- `p` with the relative path `q` below it; an absolute `q` replaces `p`. -/
def join (p q : Bytes) : Bytes :=
  if isAbsolute q then q
  else if p = [] || endsWithSlash p then p ++ q
  else p ++ slash :: q

end Path
end ContainerLayer
