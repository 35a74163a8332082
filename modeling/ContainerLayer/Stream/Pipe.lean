import ContainerLayer.Bytes
import ContainerLayer.Fault

/-
A pipe that holds one chunk.

The writer puts a chunk into the pipe and waits until all of it was read, so a
producer is never more than one chunk ahead of its consumer.  Either side can
close the pipe.  A close by the writer counts only if nothing closed the pipe
before; a close by the reader replaces whatever there was.  A clean end leaves
the chunk to the reader, a fault throws it away.
-/

namespace ContainerLayer

inductive Pipe.Closing where
  /-- There is nothing to come but what the pipe holds. -/
  | clean
  | failed (f : Fault)
  deriving DecidableEq

/-- The state that both ends of a pipe share. -/
structure Pipe where
  /-- The chunk that the writer put in last. -/
  chunk : Bytes := []
  /-- How much of it was read. -/
  taken : Nat := 0
  closing : Option Pipe.Closing := none
  deriving DecidableEq

namespace Pipe

def capacity : Nat := 32768

/-- The part of the chunk that has not been read. -/
def pending (p : Pipe) : Bytes := p.chunk.drop p.taken

def hasPending (p : Pipe) : Bool := p.taken < p.chunk.length

def isClosed (p : Pipe) : Bool := p.closing.isSome

def Closing.writeFault : Closing → Fault
  | clean => .raised .brokenPipe "write on closed pipe"
  | failed f => .shared f

/-- Closes the pipe with `f` for both sides, whatever closed it before. -/
def fail (f : Fault) (_ : Pipe) : Pipe := ⟨[], 0, some (.failed f)⟩

def close (outcome : Except Fault Unit) (p : Pipe) : Pipe :=
  match p.closing, outcome with
  | some _, _ => p
  | none, .ok () => { p with closing := some .clean }
  | none, .error f => p.fail f

def dropReader (p : Pipe) : Pipe := p.close (.error (.raised .brokenPipe "pipe reader dropped"))

def dropWriter (p : Pipe) : Pipe := p.close (.error (.raised .brokenPipe "pipe writer dropped"))

/-- One read of at most `n` bytes; `none` if the reader has to wait. -/
def read (n : Nat) (p : Pipe) : Option (Except Fault Bytes) × Pipe :=
  if n = 0 then (some (.ok []), p)
  else
    match p.closing with
    | some (.failed f) => (some (.error (.shared f)), p)
    | c =>
      if p.hasPending then
        let b := p.pending.take n
        (some (.ok b), { p with taken := p.taken + b.length })
      else if c = some .clean then (some (.ok []), p)
      else (none, p)

/-- A write that has begun. -/
inductive Call where
  /-- It waits for room for the front of `data`. -/
  | entering (data : Bytes)
  /-- It put `n` bytes into the pipe and waits until they have been read. -/
  | sent (n : Nat)
  deriving DecidableEq

/-- What a write comes to when it looks at the pipe. -/
inductive Progress where
  | waits (c : Call)
  | returns (r : Except Fault Nat)

/-- What a write that has sent `n` bytes finds. -/
def lookBack (n : Nat) (p : Pipe) : Progress :=
  match p.closing with
  | some (.failed f) => .returns (.error (.shared f))
  | some .clean => .returns (.ok n)
  | none => if p.hasPending then .waits (.sent n) else .returns (.ok n)

/-- A write looks at the pipe and does what it can. -/
def advance (c : Call) (p : Pipe) : Progress × Pipe :=
  match c with
  | .sent n => (p.lookBack n, p)
  | .entering data =>
    if data = [] then (.returns (.ok 0), p)
    else
      match p.closing with
      | some c => (.returns (.error c.writeFault), p)
      | none =>
        if p.hasPending then (.waits (.entering data), p)
        else
          let chunk := data.take capacity
          let p' : Pipe := { p with chunk, taken := 0 }
          (p'.lookBack chunk.length, p')

/-- What several writes in a row come to. -/
inductive Progress.All where
  /-- `left` is not accepted yet, and `c` is the write of its front. -/
  | waits (left : Bytes) (c : Call)
  | returns (r : Except Fault Unit)

/-- Goes on with writing all of `left`, the front of which `c` is writing. -/
def advanceAll (left : Bytes) (c : Call) (p : Pipe) : Progress.All × Pipe :=
  match advance c p with
  | (.waits c, p) => (.waits left c, p)
  | (.returns (.error f), p) => (.returns (.error f), p)
  | (.returns (.ok n), p) =>
    if _ : n = 0 then (.returns (.error (.raised .writeZero "failed to write whole buffer")), p)
    else if _ : left.length ≤ n then (.returns (.ok ()), p)
    else advanceAll (left.drop n) (.entering (left.drop n)) p
termination_by left.length
decreasing_by simp only [List.length_drop]; omega

def writeAll (data : Bytes) (p : Pipe) : Progress.All × Pipe :=
  if data = [] then (.returns (.ok ()), p) else advanceAll data (.entering data) p

@[simp] theorem closing_fail (f : Fault) (p : Pipe) : (p.fail f).closing = some (.failed f) := rfl

@[simp] theorem hasPending_fail (f : Fault) (p : Pipe) : (p.fail f).hasPending = false := rfl

theorem close_of_isClosed {p : Pipe} (h : p.isClosed = true) (o : Except Fault Unit) :
    p.close o = p := by
  unfold close
  cases hc : p.closing with
  | none => simp [isClosed, hc] at h
  | some c => rfl

end Pipe
end ContainerLayer
