import ContainerLayer.Filter
import ContainerLayer.Stream.Cancelable
import ContainerLayer.Stream.Pipe

/-
A filter at work: the producer of the new archive on one end of a pipe, its
consumer on the other.

The producer is a relay that is held up whenever it waits for the consumer.
`settle` lets it go on until it waits again or ends, and reads settle first, so
what a consumer sees does not depend on when the producer gets to run.
-/

namespace ContainerLayer

/-- How far a producer has come. -/
inductive Producer (δ : Type) where
  | running (p : Relay (Except Fault FilterStats × δ))
  /-- It is writing all of `left`, the front of which `c` is writing. -/
  | writing (left : Bytes) (c : Pipe.Call) (next : Except Fault Unit → Relay (Except Fault FilterStats × δ))
  | ended (outcome : Except Fault FilterStats) (decision : δ)

/-- A filter that reads from `σ` and decides with a state of type `δ`. -/
structure Filtered (σ δ : Type) where
  source : Cancelable σ
  pipe : Pipe := {}
  producer : Producer δ

namespace Filtered

variable {σ δ : Type} [Reader σ]

omit [Reader σ] in
def start (source : σ) (decide : Decision δ) (d : δ) : Filtered σ δ :=
  { source := { inner := source }, producer := .running (Filter.produce decide d) }

/-- Lets a producer run until it waits for the reader of the pipe or ends. -/
def run (p : Relay (Except Fault FilterStats × δ)) (source : Cancelable σ) (pipe : Pipe) :
    Filtered σ δ :=
  match p with
  | .done (outcome, d) =>
    { source, pipe := pipe.close (outcome.map fun _ => ()), producer := .ended outcome d }
  | .read n patient next =>
    let (r, source) := Relay.answer n patient source
    run (next r) source pipe
  | .write b next =>
    match pipe.writeAll b with
    | (.waits left c, pipe) => { source, pipe, producer := .writing left c next }
    | (.returns r, pipe) => run (next r) source pipe

/-- Lets the producer go on as far as it can. -/
def settle (s : Filtered σ δ) : Filtered σ δ :=
  match s.producer with
  | .ended _ _ => s
  | .running p => run p s.source s.pipe
  | .writing left c next =>
    match Pipe.advanceAll left c s.pipe with
    | (.waits left c, pipe) => { s with pipe, producer := .writing left c next }
    | (.returns r, pipe) => run (next r) s.source pipe

/-- One read of at most `n` bytes by the consumer, once the producer has done what it can. -/
def read (n : Nat) (s : Filtered σ δ) : Except Fault Bytes × Filtered σ δ :=
  let s := s.settle
  match s.pipe.read n with
  | (some r, pipe) => (r, { s with pipe })
  | (none, _) => (.ok [], s)

omit [Reader σ] in
/-- Makes all further reads of the source fail. -/
def poison (f : Fault) (s : Filtered σ δ) : Filtered σ δ :=
  { s with source := s.source.cancel f }

omit [Reader σ] in
/-- Cancels the filter: neither the source nor the output can be read from now on. -/
def cancel (f : Fault) (s : Filtered σ δ) : Filtered σ δ :=
  let s := s.poison f
  { s with pipe := s.pipe.fail f }

/-- The fault of a filter whose consumer goes away. -/
def dropped : Fault := .raised .brokenPipe "filtered tar stream dropped"

omit [Reader σ] in
/-- What became of the filter, with the source; `none` if it is not at its end. -/
def finish? (s : Filtered σ δ) : Option (Except Fault FilterStats × σ) :=
  match s.producer with
  | .ended (.ok stats) _ => some (.ok stats, s.source.inner)
  | .ended (.error f) _ => some (.error (.shared f), s.source.inner)
  | _ => none

theorem read_not_interrupted {n : Nat} {s : Filtered σ δ} {f : Fault}
    (h : (s.read n).1 = .error f) : f.isInterrupted = false := by
  unfold read Pipe.read at h
  simp only at h
  split at h
  · rename_i r pipe e
    split at e
    · cases e; cases h
    · split at e
      · cases e; cases h; exact Fault.isInterrupted_shared _
      · split at e
        · cases e; cases h
        · split at e
          · cases e; cases h
          · cases e
  · cases h

instance : Reader (Filtered σ δ) where
  read := read
  patience _ := 0
  patience_lt n s f h hf := by rw [read_not_interrupted h] at hf; cases hf

/-- What a consumer gets that reads the output to its end. -/
structure Drained (σ δ : Type) where
  /-- The output, chunk by chunk, last first. -/
  chunks : List Bytes
  /-- The fault that the output ends with, if it does not end cleanly. -/
  fault : Option Fault
  rest : Filtered σ δ

omit [Reader σ] in
def Drained.data (d : Drained σ δ) : Bytes := d.chunks.reverse.flatten

omit [Reader σ] in
/-- Reads what is in a pipe that the producer has left. -/
def drainEnd (acc : List Bytes) (s : Filtered σ δ) : Drained σ δ :=
  match s.pipe.closing with
  | some (.failed f) => ⟨acc, some (.shared f), s⟩
  | _ => ⟨s.pipe.pending :: acc, none, { s with pipe := { s.pipe with chunk := [], taken := 0 } }⟩

def drainRun (acc : List Bytes) (p : Relay (Except Fault FilterStats × δ))
    (source : Cancelable σ) (pipe : Pipe) : Drained σ δ :=
  match p with
  | .done (outcome, d) =>
    drainEnd acc
      { source, pipe := pipe.close (outcome.map fun _ => ()), producer := .ended outcome d }
  | .read n patient next =>
    let (r, source) := Relay.answer n patient source
    drainRun acc (next r) source pipe
  | .write b next =>
    match pipe.writeAll b with
    | (.returns r, pipe) => drainRun acc (next r) source pipe
    | (.waits left _, pipe) =>
      drainRun (left :: acc) (next (.ok ())) source { pipe with chunk := [], taken := 0 }

def drain (s : Filtered σ δ) : Drained σ δ :=
  match s.settle with
  | { source, pipe, producer } =>
    match producer with
    | .running p => drainRun [] p source pipe
    | .ended outcome d => drainEnd [] { source, pipe, producer := .ended outcome d }
    | .writing left _ next =>
      drainRun [left.drop pipe.chunk.length, pipe.pending] (next (.ok ())) source
        { pipe with chunk := [], taken := 0 }

omit [Reader σ] in
theorem isSome_finish?_of_ended {s : Filtered σ δ} {outcome : Except Fault FilterStats} {d : δ}
    (h : s.producer = .ended outcome d) : s.finish?.isSome = true := by
  unfold finish?
  cases outcome <;> simp [h]

omit [Reader σ] in
theorem producer_drainEnd (acc : List Bytes) (s : Filtered σ δ) :
    (drainEnd acc s).rest.producer = s.producer := by
  unfold drainEnd; split <;> rfl

theorem isSome_finish?_drainRun (acc : List Bytes) (p : Relay (Except Fault FilterStats × δ))
    (source : Cancelable σ) (pipe : Pipe) :
    (drainRun acc p source pipe).rest.finish?.isSome = true := by
  induction p generalizing acc source pipe with
  | done result =>
    obtain ⟨outcome, d⟩ := result
    exact isSome_finish?_of_ended (producer_drainEnd _ _)
  | read n patient next ih => simp only [drainRun]; exact ih _ _ _ _
  | write b next ih =>
    simp only [drainRun]
    split <;> exact ih _ _ _ _

/-- A filter whose output was drained is at its end. -/
theorem isSome_finish?_drain (s : Filtered σ δ) : s.drain.rest.finish?.isSome = true := by
  unfold drain
  split; split
  · exact isSome_finish?_drainRun _ _ _ _
  · exact isSome_finish?_of_ended (producer_drainEnd _ _)
  · exact isSome_finish?_drainRun _ _ _ _

/-- What became of a filter whose output was drained, with the source. -/
def finish (s : Filtered σ δ) : Except Fault FilterStats × σ :=
  s.drain.rest.finish?.get (isSome_finish?_drain s)

def readUpTo (n : Nat) (s : Filtered σ δ) : Drained σ δ := go [] n s
where
  go (acc : List Bytes) (n : Nat) (s : Filtered σ δ) : Drained σ δ :=
    if n = 0 then ⟨acc, none, s⟩
    else
      match s.read n with
      | (.error f, s) => ⟨acc, some f, s⟩
      | (.ok b, s) => if b = [] then ⟨acc, none, s⟩ else go (b :: acc) (n - b.length) s
  termination_by n
  decreasing_by
    rename_i hb
    have : 0 < b.length := List.length_pos_iff.mpr hb
    omega

end Filtered
end ContainerLayer
