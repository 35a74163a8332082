import ContainerLayer.Tar.Writer

/-
Filtering archives.

A filter reads an archive entry by entry, lets a decision see and change each
entry's header, and writes the entries that are kept to a new archive.  All
content is counted, also that of entries that are dropped, so a source that ends
too early never passes for a shorter archive.
-/

namespace ContainerLayer

/-- An extension record as decisions see it; its key is text. -/
structure Attribute where
  key : String
  value : Bytes
  deriving DecidableEq

/-- What a decision sees of an entry, and may change. -/
structure EntryHeader where
  path : Bytes
  linkName : Option Bytes
  /-- The raw header.  Its path, link name and size are set again when the entry is written. -/
  header : Tar.Header
  /-- The extension records other than those for path, link name and size. -/
  attributes : List Attribute
  size : Nat

/-- Decides about entries, one after the other, with a state of type `δ`.  `true` keeps the
entry under the header that is returned. -/
abbrev Decision (δ : Type) := δ → EntryHeader → (Bool × EntryHeader) × δ

namespace EntryHeader

open Tar

def lossyPath (e : EntryHeader) : String := Utf8.decodeLossy e.path

/-- Is the entry another name for something? -/
def isLink (e : EntryHeader) : Bool := e.header.kind.isLink

/-- Does the filter work out this record itself? -/
def isDerived (key : Bytes) : Bool :=
  key = Pax.pathKey || key = Pax.linkPathKey || key = Pax.sizeKey

/-- The records to hand to the decision, or what is wrong with the first bad one. -/
def attributesOf : List (Option PaxRecord) → Except Fault (List Attribute)
  | [] => .ok []
  | none :: _ => .error Defect.malformedExtension.fault
  | some r :: rest =>
    match Utf8.decode? r.key with
    | none =>
      .error (.raised .invalidData (((Utf8.flaw? r.key).map Utf8.Flaw.message).getD ""))
    | some key => do
      let rest ← attributesOf rest
      return if isDerived r.key then rest else ⟨key, r.value⟩ :: rest

/-- The extension records of an entry.  An entry that consists of such records is read for
them, which leaves none of its content. -/
def extensionsOf (e : Entry) : Tape (Option Bytes × Content) :=
  match e.extensions with
  | some data => pure (some data, e.content)
  | none =>
    if e.header.kind = .extension || e.header.kind = .globalExtension then do
      return (some (← e.content.collect), [])
    else pure (none, e.content)

/-- What a decision sees of an entry, and what is left of the entry's content. -/
def ofEntry (e : Entry) : Tape (EntryHeader × Content) := do
  let (data, content) ← extensionsOf e
  match attributesOf ((data.map Pax.records).getD []) with
  | .error f => throw f
  | .ok attributes =>
    return ({ path := e.path, linkName := e.linkName, header := e.header, attributes,
              size := e.size }, content)

def copySize : Nat := 8192

def copyContent (e : EntryHeader) (sink : Bytes → Tape Unit) (content : Content) :
    Tape Content := do
  let (_, content) ←
    (Exact.forEach (m := StateT Content Tape) Content.read copySize
      (fun b => StateT.lift (sink b)) ⟨e.size⟩).run content
  return content

def dropContent (e : EntryHeader) (content : Content) : Tape Unit := do
  let _ ← e.copyContent (fun _ => pure ()) content

/-- Writes the entry behind its extension records.  A link with a target has no content. -/
def appendMember (e : EntryHeader) (content : Content) : Tape Unit :=
  match e.linkName, e.isLink with
  | some target, true => do
    e.dropContent content
    let h ← writePath (e.header.setSize 0) e.path
    let h ← writeLinkName h target
    Tape.write h.setChecksum.bytes
  | _, _ => do
    let h ← writePath (e.header.setSize e.size) e.path
    Tape.write h.setChecksum.bytes
    let _ ← e.copyContent Tape.write content
    Tape.write (Bytes.padding e.size)

def append (e : EntryHeader) (content : Content) : Tape Unit :=
  if e.attributes = [] then e.appendMember content
  else do
    writeExtensions (e.attributes.map fun a => ⟨Bytes.ofText a.key, a.value⟩)
    e.appendMember content

end EntryHeader

structure FilterStats where
  kept : Nat := 0
  skipped : Nat := 0
  deriving DecidableEq

namespace Filter

def nextEntry (start : Nat) :
    Tape (Option (EntryHeader × Tar.Content × { next : Nat // Tar.Behind start next })) := do
  match ← Tar.readEntry start with
  | none => return none
  | some e =>
    let (header, content) ← EntryHeader.ofEntry e.1
    return some (header, content, Tar.Entry.behind e)

def handle (keep : Bool) (header : EntryHeader) (content : Tar.Content) : Tape Unit :=
  if keep then header.append content else header.dropContent content

/-- Copies the entries from `start` on, where `position` is how much was read so far. -/
def copyEntries {δ : Type} (decide : Decision δ) (start position : Nat) (stats : FilterStats)
    (d : δ) : Relay (Except Fault FilterStats × δ) := do
  match ← (nextEntry start).run position with
  | .error f => return (.error f, d)
  | .ok (none, _) => return (.ok stats, d)
  | .ok (some (header, content, ⟨next, _⟩), position) =>
    let ((keep, header), d) := decide d header
    match ← (handle keep header content).run position with
    | .error f => return (.error f, d)
    | .ok ((), position) =>
      let stats :=
        if keep then { stats with kept := stats.kept + 1 }
        else { stats with skipped := stats.skipped + 1 }
      copyEntries decide next position stats d
termination_by Tar.limit - start
decreasing_by
  rename_i h
  have := h.1
  have := h.2
  omega

/-- Filters an archive: reads it, and writes what is kept with a trailer behind it. -/
def produce {δ : Type} (decide : Decision δ) (d : δ) : Relay (Except Fault FilterStats × δ) := do
  match ← copyEntries decide 0 0 {} d with
  | (.error f, d) => return (.error f, d)
  | (.ok stats, d) =>
    match ← (Tape.write Tar.trailer).run 0 with
    | .error f => return (.error f, d)
    | .ok _ => return (.ok stats, d)

end Filter
end ContainerLayer
