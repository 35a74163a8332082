import ContainerLayer.Fault
import ContainerLayer.Tar.Number

/-
What can be wrong with an archive, and with a name that is to go into one.
-/

namespace ContainerLayer
namespace Tar

inductive NumberPlace where
  | checksum (path : String)
  | size (path : String)
  /-- The length of a sparse file, known by the names of its group and owner. -/
  | realSize (path : String)
  | sparseOffset
  | sparseLength

def NumberPlace.suffix : NumberPlace → String
  | checksum p => " when getting cksum for " ++ p
  | size p => " when getting size for " ++ p
  | realSize p => " when getting real_size for " ++ p
  | sparseOffset => " when getting offset from sparse header"
  | sparseLength => " when getting length from sparse header"

inductive Defect where
  | endInSkip
  | endInBlock
  | checksumMismatch
  | sizeOverflow
  | badNumber (flaw : NumberFlaw) (place : NumberPlace)
  | twoLongNames
  | twoExtensions
  /-- Names or extensions for an entry that does not come. -/
  | noMember
  | malformedExtension
  | sparseWithoutGnu
  | noSparseBlock
  | sparseUnaligned
  | sparseOrder
  | sparseOverflow
  | sparseTooLong
  | sparseSizeMismatch
  | sparseEntrySizeMismatch

def Defect.message : Defect → String
  | endInSkip => "unexpected EOF during skip"
  | endInBlock => "failed to read entire block"
  | checksumMismatch => "archive header checksum mismatch"
  | sizeOverflow => "size overflow"
  | badNumber flaw place => flaw.message ++ place.suffix
  | twoLongNames => "two long name entries describing the same member"
  | twoExtensions => "two pax extensions entries describing the same member"
  | noMember => "members found describing a future member but no future member found"
  | malformedExtension => "malformed pax extension"
  | sparseWithoutGnu => "sparse entry type listed but not GNU header"
  | noSparseBlock => "failed to read extension"
  | sparseUnaligned => "previous block in sparse file was not aligned to 512-byte boundary"
  | sparseOrder => "out of order or overlapping sparse blocks"
  | sparseOverflow => "more bytes listed in sparse file than u64 can hold"
  | sparseTooLong => "sparse file consumed more data than the header listed"
  | sparseSizeMismatch => "mismatch in sparse file chunks and size in header"
  | sparseEntrySizeMismatch => "mismatch in sparse file chunks and entry size in header"

def Defect.fault (d : Defect) : Fault := .other d.message

inductive NameFlaw where
  | absolute
  | upward
  | empty
  | tooLong
  | zeroByte
  deriving DecidableEq

def NameFlaw.message : NameFlaw → String
  | absolute => "paths in archives must be relative"
  | upward => "paths in archives must not have `..`"
  | empty => "paths in archives must have at least one component"
  | tooLong => "provided value is too long"
  | zeroByte => "provided value contains a nul byte"

inductive NamingDefect where
  /-- `path` is the path that the header gives afterwards. -/
  | path (flaw : NameFlaw) (path : String)
  | linkName (flaw : NameFlaw) (path : String)
  | unsplittable (path : String)

def NamingDefect.message : NamingDefect → String
  | path flaw p => flaw.message ++ " when setting path for " ++ p
  | linkName flaw p => flaw.message ++ " when setting link name for " ++ p
  | unsplittable p => "path cannot be split to be inserted into archive: " ++ p

def NamingDefect.fault (d : NamingDefect) : Fault := .other d.message

end Tar
end ContainerLayer
