/-
Faults: what can go wrong when bytes are read, written or unpacked.

A fault has a kind, which callers branch on, and a text, which people read.  A
fault that several parties have to report (the producer of a stream, its
consumer, whoever canceled it) is handed out as `Fault.shared`.  A shared fault
never has the kind `interrupted`, since reading loops try again on that kind
and a stream that is broken for good would make them try for ever.
-/

namespace ContainerLayer

inductive FaultKind where
  | notFound
  | permissionDenied
  | connectionRefused
  | connectionReset
  | hostUnreachable
  | networkUnreachable
  | connectionAborted
  | notConnected
  | addrInUse
  | addrNotAvailable
  | networkDown
  | brokenPipe
  | alreadyExists
  | wouldBlock
  | notADirectory
  | isADirectory
  | directoryNotEmpty
  | readOnlyFilesystem
  | filesystemLoop
  | staleNetworkFileHandle
  | invalidInput
  | invalidData
  | timedOut
  | writeZero
  | storageFull
  | notSeekable
  | quotaExceeded
  | fileTooLarge
  | resourceBusy
  | executableFileBusy
  | deadlock
  | crossesDevices
  | tooManyLinks
  | invalidFilename
  | argumentListTooLong
  | interrupted
  | unsupported
  | unexpectedEof
  | outOfMemory
  | inProgress
  | other
  | uncategorized
  deriving DecidableEq, Repr

namespace FaultKind

/-- The words for a fault of which only the kind is known. -/
def text : FaultKind → String
  | notFound => "entity not found"
  | permissionDenied => "permission denied"
  | connectionRefused => "connection refused"
  | connectionReset => "connection reset"
  | hostUnreachable => "host unreachable"
  | networkUnreachable => "network unreachable"
  | connectionAborted => "connection aborted"
  | notConnected => "not connected"
  | addrInUse => "address in use"
  | addrNotAvailable => "address not available"
  | networkDown => "network down"
  | brokenPipe => "broken pipe"
  | alreadyExists => "entity already exists"
  | wouldBlock => "operation would block"
  | notADirectory => "not a directory"
  | isADirectory => "is a directory"
  | directoryNotEmpty => "directory not empty"
  | readOnlyFilesystem => "read-only filesystem or storage medium"
  | filesystemLoop => "filesystem loop or indirection limit (e.g. symlink loop)"
  | staleNetworkFileHandle => "stale network file handle"
  | invalidInput => "invalid input parameter"
  | invalidData => "invalid data"
  | timedOut => "timed out"
  | writeZero => "write zero"
  | storageFull => "no storage space"
  | notSeekable => "seek on unseekable file"
  | quotaExceeded => "quota exceeded"
  | fileTooLarge => "file too large"
  | resourceBusy => "resource busy"
  | executableFileBusy => "executable file busy"
  | deadlock => "deadlock"
  | crossesDevices => "cross-device link or rename"
  | tooManyLinks => "too many links"
  | invalidFilename => "invalid filename"
  | argumentListTooLong => "argument list too long"
  | interrupted => "operation interrupted"
  | unsupported => "unsupported"
  | unexpectedEof => "unexpected end of file"
  | outOfMemory => "out of memory"
  | inProgress => "in progress"
  | other => "other error"
  | uncategorized => "uncategorized error"

/-- The kind under which a fault of this kind is handed out once it is shared. -/
def lasting : FaultKind → FaultKind
  | interrupted => other
  | k => k

theorem lasting_ne_interrupted (k : FaultKind) : k.lasting ≠ interrupted := by
  cases k <;> decide

theorem lasting_lasting (k : FaultKind) : k.lasting.lasting = k.lasting := by
  cases k <;> rfl

end FaultKind

inductive Fault where
  /-- A fault with its own kind and text. -/
  | raised (kind : FaultKind) (text : String)
  /-- A fault handed out by one of the parties that know of `cause`. -/
  | shared (cause : Fault)
  deriving DecidableEq

namespace Fault

def kind : Fault → FaultKind
  | raised k _ => k
  | shared f => f.kind.lasting

def text : Fault → String
  | raised _ t => t
  | shared f => f.text

def ofKind (k : FaultKind) : Fault := raised k k.text

def other (text : String) : Fault := raised .other text

/-- Is it worth trying the same read again? -/
def isInterrupted (f : Fault) : Bool := f.kind == .interrupted

@[simp] theorem kind_shared (f : Fault) : (shared f).kind = f.kind.lasting := rfl

@[simp] theorem text_shared (f : Fault) : (shared f).text = f.text := rfl

@[simp] theorem isInterrupted_shared (f : Fault) : (shared f).isInterrupted = false := by
  simp [isInterrupted, FaultKind.lasting_ne_interrupted]

end Fault
/-- Two steps, of which each may fail, succeed if both do. -/
theorem bind_eq_ok {ε α β : Type} {r : Except ε α} {f : α → Except ε β} {b : β} :
    (r >>= f) = .ok b ↔ ∃ a, r = .ok a ∧ f a = .ok b := by
  constructor
  · intro h
    cases r with
    | error e => cases h
    | ok a => exact ⟨a, rfl, h⟩
  · intro h
    obtain ⟨a, rfl, h⟩ := h
    exact h

end ContainerLayer
