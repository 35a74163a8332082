import ContainerLayer.Stream.Relay

/-
Relays that read front to back, know where they are, and stop at a fault.

The position is the number of bytes read so far.  Faults of reads and writes end
the program, unless it asks for the outcome with `Tape.attempt`.
-/

namespace ContainerLayer

/-- A relay with a position that ends with a fault or a result. -/
abbrev Tape (α : Type) := StateT Nat (ExceptT Fault Relay) α

namespace Tape

/-- One read of at most `n` bytes, whatever comes of it. -/
def attempt (n : Nat) (patient : Bool) : Tape (Except Fault Bytes) := fun position =>
  ExceptT.mk <| .read n patient fun
    | .ok b => .done (.ok (.ok b, position + b.length))
    | .error f => .done (.ok (.error f, position))

def read (n : Nat) (patient : Bool) : Tape Bytes := do
  match ← attempt n patient with
  | .ok b => pure b
  | .error f => throw f

def write (b : Bytes) : Tape Unit := fun position =>
  ExceptT.mk <| .write b fun
    | .ok () => .done (.ok ((), position))
    | .error f => .done (.error f)

/-- Reads until there are `n` bytes or a read finds the end. -/
def gather (n : Nat) (patient : Bool) : Tape Bytes := do
  if _ : n = 0 then return []
  else
    let b ← read n patient
    if _ : b = [] then return []
    else
      let more ← gather (n - b.length) patient
      return b ++ more
termination_by n
decreasing_by
  rename_i hn hb
  have : 0 < b.length := List.length_pos_iff.mpr hb
  omega

/-- Reads `n` bytes and forgets them; an end in front of the last one is the fault `early`. -/
def skip (n : Nat) (early : Fault) : Tape Unit := do
  if _ : n = 0 then return ()
  else
    let b ← read (min n 32768) false
    if _ : b = [] then throw early
    else skip (n - b.length) early
termination_by n
decreasing_by
  rename_i hn hb
  have : 0 < b.length := List.length_pos_iff.mpr hb
  omega

def position : Tape Nat := get

end Tape
end ContainerLayer
