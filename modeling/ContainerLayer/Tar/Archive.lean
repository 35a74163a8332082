import ContainerLayer.Stream.Tape
import ContainerLayer.Tar.Header
import ContainerLayer.Tar.Pax

/-
Reading archives.

An archive is a row of members, each a header block with its content behind it.
`readEntry` reads one entry: the member it is about, with the long names and
extension records in front of it, and with the map of a sparse file taken apart.
What stays on the tape is the content, which the caller reads or leaves.

Positions are positions in the archive.  Every entry says where the next header
is, which lies behind its own header and below `limit`, so a loop over entries
ends whatever the archive holds.
-/

namespace ContainerLayer
namespace Tar

/-- Every position is below this. -/
def limit : Nat := 0x10000000000000000

/-- A stretch of an entry's content. -/
inductive Segment where
  | stored (n : Nat)
  /-- Zeros that are not on the tape. -/
  | gap (n : Nat)
  deriving DecidableEq

abbrev Content := List Segment

namespace Content

/-- One read of at most `n` bytes of content.  Where the tape ends inside a stretch, the
rest of that stretch is passed over. -/
def read (n : Nat) : Content → Tape (Bytes × Content)
  | [] => pure ([], [])
  | .stored k :: rest =>
    if k = 0 then read n rest
    else do
      let b ← Tape.read (min n k) true
      if b = [] then read n rest else return (b, .stored (k - b.length) :: rest)
  | .gap k :: rest =>
    if k = 0 then read n rest
    else
      let m := min n k
      pure (List.replicate m 0, .gap (k - m) :: rest)

def collect : Content → Tape Bytes
  | [] => pure []
  | .stored k :: rest => do
    let b ← Tape.gather k true
    return b ++ (← collect rest)
  | .gap k :: rest => do return List.replicate k 0 ++ (← collect rest)

end Content

/-- One header with the length of what follows it. -/
structure Member where
  header : Header
  size : Nat
  next : Nat

/-- An entry that has been read up to its content. -/
structure Entry where
  header : Header
  size : Nat
  next : Nat
  longName : Option Bytes := none
  longLink : Option Bytes := none
  extensions : Option Bytes := none
  content : Content

/-- `next` is a place for a header behind `start`. -/
def Behind (start next : Nat) : Prop := start < next ∧ next < limit

theorem Behind.trans {a b c : Nat} (h : Behind a b) (k : Behind b c) : Behind a c :=
  ⟨Nat.lt_trans h.1 k.1, k.2⟩

def Entry.behind {start : Nat} (e : { e : Entry // Behind start e.next }) :
    { next : Nat // Behind start next } := ⟨e.1.next, e.2⟩

/-- Where the next header is, if the header at `start` has `size` bytes of content. -/
def nextHeader (start size : Nat) : Except Defect { next : Nat // Behind start next } :=
  let next := start + 512 + (size + 511) / 512 * 512
  if size + 511 ≥ limit then .error .sizeOverflow
  else if h : next < limit then .ok ⟨next, by simp only [next, Behind] at *; omega⟩
  else .error .sizeOverflow

/-- Does the header stand for names or numbers of another entry, going by its kind alone? -/
def EntryKind.isAbout (k : EntryKind) : Bool :=
  k == .longName || k == .longLink || k == .extension || k == .globalExtension

/-- A number of a header, or why the archive cannot be read without it. -/
def Header.number (h : Header) (f : Field) (place : String → NumberPlace) : Except Defect Nat :=
  match Number.ofField (h.get f) with
  | .ok n => .ok n
  | .error flaw => .error (.badNumber flaw (place h.lossyPath))

def Header.verify (h : Header) : Except Defect Unit :=
  match Number.ofOctal (h.get .checksum) with
  | .error flaw => .error (.badNumber flaw (.checksum h.lossyPath))
  | .ok n => if n = h.sum then .ok () else .error .checksumMismatch

/-- Takes owner and group from the extension records. -/
def Header.adopt (h : Header) (extensions : Bytes) : Header :=
  let h := match Pax.number? Pax.uidKey extensions with
    | some n => h.setUid n
    | none => h
  match Pax.number? Pax.gidKey extensions with
  | some n => h.setGid n
  | none => h

/-- What a header block at `start` says, given the extension records in front of it. -/
def interpret (start : Nat) (extensions : Option Bytes) (h : Header) :
    Except Defect { m : Member // Behind start m.next } := do
  h.verify
  let records := if h.kind.isAbout then none else extensions
  let h' := (records.map h.adopt).getD h
  let declared ← h'.number .size .size
  let size := (records.bind (Pax.number? Pax.sizeKey)).getD declared
  let next ← nextHeader start size
  return ⟨⟨h', size, next.1⟩, next.2⟩

def Defect.check {α : Type} (r : Except Defect α) : Tape α :=
  match r with
  | .ok a => pure a
  | .error d => throw d.fault

/-- Reads the header block at `start`, which lies ahead.  A block of zeros and the end of
the tape both end the archive. -/
def readHeader (start : Nat) : Tape (Option Header) := do
  Tape.skip (start - (← Tape.position)) Defect.endInSkip.fault
  let b ← Tape.gather 512 false
  if b = [] then return none
  else if h : b.length = 512 then
    let header : Header := ⟨b, h⟩
    return if header.isZero then none else some header
  else throw Defect.endInBlock.fault

def readMember (start : Nat) (extensions : Option Bytes) :
    Tape (Option { m : Member // Behind start m.next }) := do
  match ← readHeader start with
  | none => return none
  | some h => return some (← Defect.check (interpret start extensions h))

/-! ## Sparse files -/

/-- How far the map of a sparse file has been followed. -/
structure SparseMap where
  /-- The length of what is stored for the file. -/
  stored : Nat
  /-- How much of that is not accounted for yet. -/
  remaining : Nat
  /-- Up to where the file is covered. -/
  covered : Nat := 0
  /-- The stretches so far, last first. -/
  segments : Content := []

namespace SparseMap

def number (field : Bytes) (place : NumberPlace) : Except Defect Nat :=
  match Number.ofField field with
  | .ok n => .ok n
  | .error flaw => .error (.badNumber flaw place)

/-- Follows a stretch of `length` stored bytes that belongs at `offset` in the file. -/
def stretch (m : SparseMap) (offset length : Nat) : Except Defect SparseMap :=
  if length ≠ 0 && (m.stored - m.remaining) % 512 ≠ 0 then .error .sparseUnaligned
  else if offset < m.covered then .error .sparseOrder
  else if offset + length ≥ limit then .error .sparseOverflow
  else if m.remaining < length then .error .sparseTooLong
  else
    let segments :=
      if m.covered < offset then .gap (offset - m.covered) :: m.segments else m.segments
    .ok ⟨m.stored, m.remaining - length, offset + length, .stored length :: segments⟩

/-- Follows one part of the map: a file offset and a length, in two fields. -/
def add (m : SparseMap) (part : Bytes) : Except Defect SparseMap :=
  let offsetField := part.take 12
  let lengthField := part.drop 12
  if offsetField.headD 0 = 0 || lengthField.headD 0 = 0 then .ok m
  else do
    let offset ← number offsetField .sparseOffset
    let length ← number lengthField .sparseLength
    m.stretch offset length

def addAll (m : SparseMap) (count : Nat) (parts : Bytes) : Except Defect SparseMap :=
  match count with
  | 0 => .ok m
  | count + 1 => do (← m.add (parts.take 24)).addAll count (parts.drop 24)

/-- Follows the blocks with further parts; the first of them is the next on the tape. -/
def addBlocks (start next : Nat) (h : Behind start next) (m : SparseMap) :
    Tape (SparseMap × { next : Nat // Behind start next }) := do
  let block ← Tape.gather 512 false
  if block = [] then throw Defect.noSparseBlock.fault
  else if block.length ≠ 512 then throw Defect.endInBlock.fault
  else if hn : next + 512 < limit then do
    let m ← Defect.check (m.addAll 21 block)
    have hb : Behind start (next + 512) := ⟨Nat.lt_add_right 512 h.1, hn⟩
    if (block.drop 504).headD 0 = 1 then addBlocks start (next + 512) hb m
    else return (m, ⟨next + 512, hb⟩)
  else throw Defect.sizeOverflow.fault
termination_by limit - next
decreasing_by omega

end SparseMap

/-- The entry with the stretches of its map for content, if the map is all there is. -/
def Entry.withMap {start : Nat} (e : Entry) (m : SparseMap)
    (next : { next : Nat // Behind start next }) :
    Except Defect { e : Entry // Behind start e.next } := do
  let realSize ← e.header.number .realSize fun _ =>
    .realSize (Utf8.decodeLossy (e.header.get .group).untilZero ++ ":"
      ++ Utf8.decodeLossy (e.header.get .owner).untilZero)
  if m.covered ≠ realSize then .error .sparseSizeMismatch
  else if m.remaining ≠ 0 then .error .sparseEntrySizeMismatch
  else return ⟨{ e with size := m.covered, next := next.1, content := m.segments.reverse }, next.2⟩

/-- Replaces the content of a sparse entry by the stretches of its map. -/
def readSparse (start : Nat) (e : { e : Entry // Behind start e.next }) :
    Tape { e : Entry // Behind start e.next } :=
  let h := e.1.header
  if h.kind ≠ .sparse then return e
  else if h.dialect ≠ .gnu then throw Defect.sparseWithoutGnu.fault
  else do
    let m ← Defect.check
      (({ stored := e.1.size, remaining := e.1.size } : SparseMap).addAll 4 (h.get .sparseParts))
    let (m, next) ←
      if (h.get .sparseMore).headD 0 = 1 then m.addBlocks start e.1.next e.2
      else pure (m, Entry.behind e)
    Defect.check (e.1.withMap m next)

/-! ## Entries -/

/-- What stood in front of an entry. -/
structure Preface where
  longName : Option Bytes := none
  longLink : Option Bytes := none
  extensions : Option Bytes := none

/-- How many more members can belong in front of the entry. -/
def Preface.room (p : Preface) : Nat :=
  (if p.longName.isNone then 1 else 0) + (if p.longLink.isNone then 1 else 0)
    + (if p.extensions.isNone then 1 else 0)

/-- Did anything stand in front of the entry? -/
def Preface.isEmpty (p : Preface) : Bool :=
  p.longName.isNone && p.longLink.isNone && p.extensions.isNone

/-- Reads the entry whose members start at `start`, with `p` in front of it already. -/
def readEntryAfter (p : Preface) (start : Nat) :
    Tape (Option { e : Entry // Behind start e.next }) := do
  match ← readMember start p.extensions with
  | none => if p.isEmpty then return none else throw Defect.noMember.fault
  | some ⟨m, hm⟩ =>
    let known := m.header.dialect ≠ .old
    if known && m.header.kind = .longName then
      if _hp : p.longName.isSome then throw Defect.twoLongNames.fault
      else
        let b ← Tape.gather m.size true
        let r ← readEntryAfter { p with longName := some b } m.next
        return r.map fun e => ⟨e.1, hm.trans e.2⟩
    else if known && m.header.kind = .longLink then
      if _hp : p.longLink.isSome then throw Defect.twoLongNames.fault
      else
        let b ← Tape.gather m.size true
        let r ← readEntryAfter { p with longLink := some b } m.next
        return r.map fun e => ⟨e.1, hm.trans e.2⟩
    else if known && m.header.kind = .extension then
      if _hp : p.extensions.isSome then throw Defect.twoExtensions.fault
      else
        let b ← Tape.gather m.size true
        let r ← readEntryAfter { p with extensions := some b } m.next
        return r.map fun e => ⟨e.1, hm.trans e.2⟩
    else
      let e : Entry := {
        header := m.header, size := m.size, next := m.next, longName := p.longName,
        longLink := p.longLink, extensions := p.extensions, content := [.stored m.size] }
      return some (← readSparse start ⟨e, hm⟩)
termination_by p.room
decreasing_by
  all_goals
    simp only [Preface.room, Option.isNone_some]
    simp only [Bool.not_eq_true, Option.isSome_eq_false_iff] at _hp
    simp [_hp]

/-- Reads the entry whose members start at `start`, up to its content. -/
def readEntry (start : Nat) : Tape (Option { e : Entry // Behind start e.next }) :=
  readEntryAfter {} start

namespace Entry

/-- A long name without the zero byte that may end it. -/
def withoutZero (b : Bytes) : Bytes := if b.getLast? = some 0 then b.dropLast else b

/-- The path of the entry: from a long name, else from the extension records, else from
the header. -/
def path (e : Entry) : Bytes :=
  match e.longName with
  | some b => withoutZero b
  | none => ((e.extensions.bind (Pax.value? Pax.pathKey))).getD e.header.path

/-- The link name of the entry, in the same order of precedence. -/
def linkName (e : Entry) : Option Bytes :=
  match e.longLink with
  | some b => some (withoutZero b)
  | none => (e.extensions.bind (Pax.value? Pax.linkPathKey)).or e.header.linkName

end Entry
end Tar
end ContainerLayer
