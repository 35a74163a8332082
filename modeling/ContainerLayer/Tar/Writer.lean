import ContainerLayer.Stream.Exact
import ContainerLayer.Tar.Archive
import ContainerLayer.Tar.Naming

/-
Writing archives.

A member is a header block and its content, filled up to whole blocks.  A name
that does not go into its header is written as a member of its own in front of
the entry, and the header keeps as much of it as it can.
-/

namespace ContainerLayer
namespace Tar

def writeMember (h : Header) (content : Bytes) : Tape Unit := do
  Tape.write h.bytes
  Tape.write content
  Tape.write (Bytes.padding content.length)

/-- The header of a member that holds a long name. -/
def longHeader (kind : EntryKind) (length : Nat) : Header :=
  let h := Header.newGnu.put .name (ascii "././@LongLink")
  let h := (((h.setMode 0o644).setUid 0).setGid 0).setMtime 0
  ((h.setSize (length + 1)).setKind kind).setChecksum

/-- Writes a long name as a member of its own, with a zero byte at its end. -/
def writeLong (kind : EntryKind) (name : Bytes) : Tape Unit :=
  writeMember (longHeader kind name.length) (name ++ [0])

/-- The shortest name that may become a member of its own. -/
def longFrom : Nat := 100

/-- As much of a name as goes into a field, without cutting a character in two. -/
def cutName (name : Bytes) : Bytes :=
  let front := name.take longFrom
  match Utf8.flaw? front with
  | none => front
  | some flaw => front.take flaw.index

/-- Gives a header its path; if the path does not go in, writes it as a long name. -/
def writePath (h : Header) (path : Bytes) : Tape Header := do
  match h.setPath .entry path with
  | (h, none) => return h
  | (h, some d) =>
    if path.length < longFrom then throw d.fault
    else
      match h.setPath .cutEntry (cutName path) with
      | (_, some d) => throw d.fault
      | (h, none) =>
        writeLong .longName path
        return h

/-- Gives a header its link name; if the name does not go in, writes it as a long link. -/
def writeLinkName (h : Header) (name : Bytes) : Tape Header := do
  match h.setLinkName name with
  | (h, none) => return h
  | (h, some d) =>
    if name.length < longFrom then throw d.fault
    else
      writeLong .longLink name
      return h

def writeExtensions (rs : List PaxRecord) : Tape Unit :=
  let data := Pax.render rs
  writeMember ((Header.newUstar.setSize data.length).setKind .extension).setChecksum data

/-- The end of an archive: two blocks of zeros. -/
def trailer : Bytes := List.replicate 1024 0

end Tar
end ContainerLayer
