import ContainerLayer.Stream.Pipe

/-
A pipe together with the two parties that use it.

The writer has at most one write under way; `Channel.settle` lets that write go
on until it returns or has to wait for the reader.  `Channel.step` is one event
followed by settling, so that a list of events has one outcome.
-/

namespace ContainerLayer

inductive Channel.Sending where
  | single (c : Pipe.Call)
  /-- Writing all of `left`, the front of which `c` is writing. -/
  | whole (left : Bytes) (c : Pipe.Call)

inductive Channel.Sent where
  | part (n : Nat)
  | all
  | failed (f : Fault)

/-- A pipe, the write under way, and which ends are still held. -/
structure Channel where
  pipe : Pipe := {}
  sending : Option Channel.Sending := none
  readerGone : Bool := false
  writerGone : Bool := false

namespace Channel

/-- What can happen to a pipe. -/
inductive Event where
  | write (data : Bytes)
  | writeAll (data : Bytes)
  | flush
  | read (n : Nat)
  /-- The writer says that it is done, or why it cannot be. -/
  | close (outcome : Except Fault Unit)
  | readerFail (f : Fault)
  /-- Somebody else closes the pipe for the reader. -/
  | outsideFail (f : Fault)
  | dropReader
  | dropWriter

inductive Answer where
  | ok
  | started
  /-- Nothing happened: a write is under way. -/
  | busy
  /-- Nothing happened: that end is gone. -/
  | gone
  /-- Nothing happened: the reader would have to wait. -/
  | blocked
  | received (r : Except Fault Bytes)

/-- Starts a write, which has not looked at the pipe yet. -/
def start (s : Sending) (ch : Channel) : Answer × Channel :=
  if ch.writerGone then (.gone, ch)
  else if ch.sending.isSome then (.busy, ch)
  else (.started, { ch with sending := some s })

/-- The event itself, without what the writer makes of it. -/
def act (e : Event) (ch : Channel) : Answer × Channel :=
  match e with
  | .write data => ch.start (.single (.entering data))
  | .writeAll data => ch.start (.whole data (.entering data))
  | .flush => if ch.writerGone then (.gone, ch) else (.ok, ch)
  | .read n =>
    if ch.readerGone then (.gone, ch)
    else
      match ch.pipe.read n with
      | (some r, pipe) => (.received r, { ch with pipe })
      | (none, _) => (.blocked, ch)
  | .close outcome =>
    if ch.writerGone then (.gone, ch) else (.ok, { ch with pipe := ch.pipe.close outcome })
  | .readerFail f =>
    if ch.readerGone then (.gone, ch) else (.ok, { ch with pipe := ch.pipe.fail f })
  | .outsideFail f => (.ok, { ch with pipe := ch.pipe.fail f })
  | .dropReader =>
    if ch.readerGone then (.gone, ch)
    else (.ok, { ch with pipe := ch.pipe.dropReader, readerGone := true })
  | .dropWriter =>
    if ch.writerGone then (.gone, ch)
    else if ch.sending.isSome then (.busy, ch)
    else (.ok, { ch with pipe := ch.pipe.dropWriter, writerGone := true })

/-- Lets the write under way go on as far as it can. -/
def settle (ch : Channel) : Option Sent × Channel :=
  match ch.sending with
  | none => (none, ch)
  | some (.single c) =>
    match Pipe.advance c ch.pipe with
    | (.waits c, pipe) => (none, { ch with pipe, sending := some (.single c) })
    | (.returns (.ok n), pipe) => (some (.part n), { ch with pipe, sending := none })
    | (.returns (.error f), pipe) => (some (.failed f), { ch with pipe, sending := none })
  | some (.whole left c) =>
    let outcome :=
      if left = [] then (Pipe.Progress.All.returns (.ok ()), ch.pipe)
      else Pipe.advanceAll left c ch.pipe
    match outcome with
    | (.waits left c, pipe) => (none, { ch with pipe, sending := some (.whole left c) })
    | (.returns (.ok ()), pipe) => (some .all, { ch with pipe, sending := none })
    | (.returns (.error f), pipe) => (some (.failed f), { ch with pipe, sending := none })

/-- One event, and how a write came out if one returned because of it. -/
def step (e : Event) (ch : Channel) : (Answer × Option Sent) × Channel :=
  let (answer, ch) := ch.act e
  let (sent, ch) := ch.settle
  ((answer, sent), ch)

def run (es : List Event) (ch : Channel) : List (Answer × Option Sent) :=
  match es with
  | [] => []
  | e :: es =>
    let (r, ch) := ch.step e
    r :: run es ch

end Channel
end ContainerLayer
