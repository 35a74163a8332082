import ContainerLayer.Tar.Number

/-
Tar headers: blocks of 512 bytes with fields at fixed places.

A header is kept as its raw block.  Setting a field replaces its bytes and
leaves every other byte as it was, so whatever else a header holds survives.
-/

namespace ContainerLayer
namespace Tar

structure Field where
  offset : Nat
  width : Nat
  fits : offset + width ≤ 512 := by decide

namespace Field

def name : Field := ⟨0, 100, by decide⟩
def mode : Field := ⟨100, 8, by decide⟩
def uid : Field := ⟨108, 8, by decide⟩
def gid : Field := ⟨116, 8, by decide⟩
def size : Field := ⟨124, 12, by decide⟩
def mtime : Field := ⟨136, 12, by decide⟩
def checksum : Field := ⟨148, 8, by decide⟩
def kind : Field := ⟨156, 1, by decide⟩
def linkName : Field := ⟨157, 100, by decide⟩
/-- The magic and the version, which tell the formats apart. -/
def magic : Field := ⟨257, 8, by decide⟩
def owner : Field := ⟨265, 32, by decide⟩
def group : Field := ⟨297, 32, by decide⟩
/-- The front of a path that is too long for the name field. -/
def front : Field := ⟨345, 155, by decide⟩
/-- The four parts of a sparse file that a header has room for. -/
def sparseParts : Field := ⟨386, 96, by decide⟩
/-- Whether blocks with further parts follow. -/
def sparseMore : Field := ⟨482, 1, by decide⟩
/-- The length of a sparse file with its gaps. -/
def realSize : Field := ⟨483, 12, by decide⟩

end Field

inductive EntryKind where
  | regular
  | hardLink
  | symlink
  | charDevice
  | blockDevice
  | directory
  | fifo
  | continuous
  /-- Names and numbers for the next entry. -/
  | extension
  /-- Names and numbers for all entries from here on. -/
  | globalExtension
  | longName
  | longLink
  | sparse
  | unknown (code : UInt8)
  deriving DecidableEq

namespace EntryKind

/-- The kind that a type byte stands for. -/
def ofCode (c : UInt8) : EntryKind :=
  if c = 0 || c = 48 then regular
  else if c = 49 then hardLink
  else if c = 50 then symlink
  else if c = 51 then charDevice
  else if c = 52 then blockDevice
  else if c = 53 then directory
  else if c = 54 then fifo
  else if c = 55 then continuous
  else if c = 120 then extension
  else if c = 103 then globalExtension
  else if c = 76 then longName
  else if c = 75 then longLink
  else if c = 83 then sparse
  else unknown c

def code : EntryKind → UInt8
  | regular => 48
  | hardLink => 49
  | symlink => 50
  | charDevice => 51
  | blockDevice => 52
  | directory => 53
  | fifo => 54
  | continuous => 55
  | extension => 120
  | globalExtension => 103
  | longName => 76
  | longLink => 75
  | sparse => 83
  | unknown c => c

def isLink (k : EntryKind) : Bool := k == hardLink || k == symlink

end EntryKind

inductive Dialect where
  | gnu
  | ustar
  /-- Anything without a known magic. -/
  | old
  deriving DecidableEq

structure Header where
  bytes : Bytes
  length_eq : bytes.length = 512
  deriving DecidableEq

namespace Header

def get (h : Header) (f : Field) : Bytes := (h.bytes.drop f.offset).take f.width

/-- Puts `b`, cut to the field's width, at the start of a field. -/
def put (h : Header) (f : Field) (b : Bytes) : Header :=
  let c := b.take f.width
  ⟨h.bytes.take f.offset ++ c ++ h.bytes.drop (f.offset + c.length), by
    have := f.fits
    have := h.length_eq
    simp [c, List.length_take]; omega⟩

def blank : Header := ⟨List.replicate 512 0, List.length_replicate⟩

def gnuMagic : Bytes := [117, 115, 116, 97, 114, 32, 32, 0]

def ustarMagic : Bytes := [117, 115, 116, 97, 114, 0, 48, 48]

def dialect (h : Header) : Dialect :=
  if h.get .magic = gnuMagic then .gnu
  else if h.get .magic = ustarMagic then .ustar
  else .old

def kind (h : Header) : EntryKind := .ofCode ((h.get .kind).headD 0)

def isZero (h : Header) : Bool := h.bytes.all (· == 0)

def path (h : Header) : Bytes :=
  let name := (h.get .name).untilZero
  let front := (h.get .front).untilZero
  if h.dialect = .ustar && front != [] then front ++ 47 :: name else name

/-- The link name that the field of the header gives, if it is not empty. -/
def linkName (h : Header) : Option Bytes :=
  let name := (h.get .linkName).untilZero
  if name = [] then none else some name

def lossyPath (h : Header) : String := Utf8.decodeLossy h.path

/-- The sum of all bytes, with the checksum field taken as blanks. -/
def sum (h : Header) : Nat :=
  let total (b : Bytes) : Nat := b.foldl (fun n x => n + x.toNat) 0
  total (h.bytes.take Field.checksum.offset) + 8 * 32
    + total (h.bytes.drop (Field.checksum.offset + Field.checksum.width))

def putOctal (h : Header) (f : Field) (n : Nat) : Header := h.put f (Number.toOctal f.width n)

def putNumber (h : Header) (f : Field) (n : Nat) : Header := h.put f (Number.toField f.width n)

def setMode (h : Header) (n : Nat) : Header := h.putOctal .mode n

def setUid (h : Header) (n : Nat) : Header := h.putNumber .uid n

def setGid (h : Header) (n : Nat) : Header := h.putNumber .gid n

def setSize (h : Header) (n : Nat) : Header := h.putNumber .size n

def setMtime (h : Header) (n : Nat) : Header := h.putNumber .mtime n

def setKind (h : Header) (k : EntryKind) : Header := h.put .kind [k.code]

def setChecksum (h : Header) : Header := h.putOctal .checksum h.sum

def newUstar : Header := (blank.put .magic ustarMagic).setMtime 0

def newGnu : Header := (blank.put .magic gnuMagic).setMtime 0

end Header
end Tar
end ContainerLayer
