import ContainerLayer.Bytes
import ContainerLayer.Fault

/-
Reading an exact number of bytes.

`Exact` counts down the bytes that are still to come.  It never asks for more
than those, and takes an end in front of the last one for a fault.
-/

namespace ContainerLayer

structure Exact where
  remaining : Nat
  deriving DecidableEq

namespace Exact

def short (x : Exact) : Fault :=
  .raised .unexpectedEof s!"entry content is short by {x.remaining} bytes"

/-- How many bytes to ask for if there is room for `n`. -/
def want (n : Nat) (x : Exact) : Nat := min n x.remaining

/-- Counts down by the bytes that came; nothing at all is an end. -/
def accept (b : Bytes) (x : Exact) : Except Fault Exact :=
  if b = [] then .error x.short else .ok ⟨x.remaining - b.length⟩

def finish (x : Exact) : Except Fault Unit := if x.remaining = 0 then .ok () else .error x.short

theorem accept_lt {b : Bytes} {x y : Exact} (h : x.accept b = .ok y) (hx : x.remaining ≠ 0) :
    y.remaining < x.remaining := by
  unfold accept at h
  split at h
  · cases h
  · rename_i hb
    cases h
    have : 0 < b.length := List.length_pos_iff.mpr hb
    show x.remaining - b.length < x.remaining
    omega

variable {m : Type → Type} [Monad m] [MonadExceptOf Fault m]

/-- One read with room for `n` bytes, by way of the reads of `inner`. -/
def read (inner : Nat → m Bytes) (n : Nat) (x : Exact) : m (Bytes × Exact) :=
  if x.remaining = 0 then pure ([], x)
  else do
    let b ← inner (x.want n)
    let y ← liftExcept (x.accept b)
    pure (b, y)
where
  /-- A fault of the countdown is a fault of the read. -/
  liftExcept (r : Except Fault Exact) : m Exact :=
    match r with
    | .ok y => pure y
    | .error f => throw f

/-- Reads all bytes that are still to come, with room for `n` of them at a time, and
passes each chunk on. -/
def forEach (inner : Nat → m Bytes) (n : Nat) (sink : Bytes → m Unit) (x : Exact) : m Unit :=
  if hx : x.remaining = 0 then pure ()
  else do
    let b ← inner (x.want n)
    match h : x.accept b with
    | .error f => throw f
    | .ok y =>
      sink b
      have := accept_lt h hx
      forEach inner n sink y
termination_by x.remaining

end Exact
end ContainerLayer
