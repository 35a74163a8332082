import ContainerLayer.Path
import ContainerLayer.Tar.Header
import ContainerLayer.Tar.Defect

/-
Putting paths and link names into headers.

A name is written piece by piece, each behind the last.  A zero byte ends it
where the field has room for one, and what stood in the field behind that stays.
Writing stops at the first piece that does not go in; the pieces in front of it
have been written by then.
-/

namespace ContainerLayer
namespace Tar

/-- What is asked of the components of a name. -/
inductive NameRule where
  /-- The path of an entry: relative, and never upwards. -/
  | entry
  /-- The front of such a path, cut off anywhere: two dots at its end may be the front of
  a longer name. -/
  | cutEntry
  /-- The target of a link, which may lead anywhere. -/
  | link
  deriving DecidableEq

namespace Naming

/-- The pieces for the components of a name; `slashed` says that the next one needs a
slash in front, and `single` that the name has one component only. -/
def pieces (rule : NameRule) (single slashed : Bool) :
    List Component → List (Except NameFlaw Bytes)
  | [] => []
  | c :: rest =>
    let put : List (Except NameFlaw Bytes) :=
      (if slashed then [.ok [Path.slash]] else [])
        ++ .ok c.text :: pieces rule single (slashed || c != .root) rest
    if rule = .link then put
    else
      match c with
      | .root => [.error .absolute]
      | .up => if rule = .cutEntry && rest = [] then put else [.error .upward]
      | .here => if single then put else pieces rule single slashed rest
      | .name _ => put

/-- All pieces of a name, or the flaw in place of the piece that has it. -/
def piecesOf (rule : NameRule) (name : Bytes) : List (Except NameFlaw Bytes) :=
  let cs := Path.components name
  let ps := pieces rule (cs.length == 1) false cs
  if ps = [] then [.error .empty]
  else if Path.endsWithSlash name then ps ++ [.ok [Path.slash]]
  else ps

/-- Writes a piece at the start of `room`, with a zero byte behind it if there is room. -/
def putPiece (room piece : Bytes) : Except NameFlaw Bytes :=
  if room.length < piece.length then .error .tooLong
  else if piece.contains 0 then .error .zeroByte
  else
    match room.drop piece.length with
    | [] => .ok []
    | _ :: rest => .ok (0 :: rest)

/-- Writes pieces behind `written` into `room`.  The result is all of the field, and the
flaw that stopped the writing. -/
def putPieces (written room : Bytes) :
    List (Except NameFlaw Bytes) → Bytes × Option NameFlaw
  | [] => (written ++ room, none)
  | .error flaw :: _ => (written ++ room, some flaw)
  | .ok piece :: rest =>
    match putPiece room piece with
    | .error flaw => (written ++ room, some flaw)
    | .ok room => putPieces (written ++ piece) room rest

end Naming

namespace Header

def putName (h : Header) (f : Field) (rule : NameRule) (name : Bytes) :
    Header × Option NameFlaw :=
  let (b, flaw) := Naming.putPieces [] (h.get f) (Naming.piecesOf rule name)
  (h.put f b, flaw)

/-- The longest path that goes in front of another one of the same header. -/
def maxFront : Nat := 155

/-- The first of the directories above `path`, innermost first, that is short enough for
the front field. -/
def splitAt? (fuel : Nat) (path : Bytes) : Option Bytes :=
  match fuel with
  | 0 => none
  | fuel + 1 =>
    match Path.parent? path with
    | none => none
    | some p => if p.length ≤ maxFront then some p else splitAt? fuel p

/-- Writes a name into one field, and says which header has the flaw. -/
def putPath (h : Header) (f : Field) (rule : NameRule) (name : Bytes) :
    Header × Option NamingDefect :=
  let (h, flaw) := h.putName f rule name
  (h, flaw.map fun flaw => .path flaw h.lossyPath)

/-- Writes the path of an entry.  A ustar header has room for a long path in two fields;
a short one leaves the front field alone. -/
def setPath (h : Header) (rule : NameRule) (path : Bytes) : Header × Option NamingDefect :=
  if h.dialect ≠ .ustar then h.putPath .name rule path
  else if path.length ≤ 100 then h.putPath .name .entry path
  else
    match splitAt? (path.length + 1) path with
    | none => (h, some (.unsplittable (Utf8.decodeLossy path)))
    | some front =>
      match h.putPath .front .entry front with
      | (h, some d) => (h, some d)
      | (h, none) => h.putPath .name .entry (path.drop (front.length + 1))

def setLinkName (h : Header) (name : Bytes) : Header × Option NamingDefect :=
  let (h, flaw) := h.putName .linkName .link name
  (h, flaw.map fun flaw => .linkName flaw h.lossyPath)

end Header
end Tar
end ContainerLayer
