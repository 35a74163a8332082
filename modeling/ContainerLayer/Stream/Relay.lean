import ContainerLayer.Stream.Reader

/-
Relays: programs that read from one stream and write to another.

A relay is data: it is either done, or it asks for a read or a write and says
how it goes on from the outcome.  So one relay can be run to its end against a
reader (`Relay.run`), or held up between any two steps while somebody else
reads what it wrote, and both runs are about the same program.
-/

namespace ContainerLayer

/-- A program that ends with a result of type `α`. -/
inductive Relay (α : Type) where
  | done (result : α)
  /-- Asks for at most `most` bytes.  A patient read is tried again for as long
  as it is interrupted; any other outcome goes to `next`. -/
  | read (most : Nat) (patient : Bool) (next : Except Fault Bytes → Relay α)
  | write (bytes : Bytes) (next : Except Fault Unit → Relay α)

namespace Relay

variable {α β σ : Type}

def bind (p : Relay α) (f : α → Relay β) : Relay β :=
  match p with
  | done a => f a
  | read n w k => read n w fun r => (k r).bind f
  | write b k => write b fun r => (k r).bind f

instance : Monad Relay where
  pure := done
  bind := bind

def answer [Reader σ] (n : Nat) (patient : Bool) (s : σ) : Except Fault Bytes × σ :=
  if patient then Reader.readPatiently n s else Reader.read n s

structure Outcome (α σ : Type) where
  result : α
  /-- The bytes written, write by write, last first. -/
  writes : List Bytes
  rest : σ

def Outcome.written (o : Outcome α σ) : Bytes := o.writes.reverse.flatten

/-- Runs a relay whose writes all succeed, with `acc` written already. -/
def runOnto [Reader σ] (acc : List Bytes) (p : Relay α) (s : σ) : Outcome α σ :=
  match p with
  | done a => ⟨a, acc, s⟩
  | read n w k =>
    let (r, s') := answer n w s
    runOnto acc (k r) s'
  | write b k => runOnto (b :: acc) (k (.ok ())) s

/-- Runs a relay on a reader; all its writes succeed. -/
def run [Reader σ] (p : Relay α) (s : σ) : Outcome α σ := runOnto [] p s

@[simp] theorem done_bind (a : α) (f : α → Relay β) : (done a).bind f = f a := rfl

theorem bind_done (p : Relay α) : p.bind done = p := by
  induction p with
  | done => rfl
  | read n w k ih => simp [bind, ih]
  | write b k ih => simp [bind, ih]

theorem bind_assoc {γ : Type} (p : Relay α) (f : α → Relay β) (g : β → Relay γ) :
    (p.bind f).bind g = p.bind fun a => (f a).bind g := by
  induction p with
  | done => rfl
  | read n w k ih => simp [bind, ih]
  | write b k ih => simp [bind, ih]

instance : LawfulMonad Relay :=
  LawfulMonad.mk' Relay bind_done (fun _ _ => rfl) bind_assoc

theorem runOnto_bind [Reader σ] (p : Relay α) (f : α → Relay β) (acc : List Bytes) (s : σ) :
    runOnto acc (p.bind f) s =
      let o := runOnto acc p s
      runOnto o.writes (f o.result) o.rest := by
  induction p generalizing acc s with
  | done => rfl
  | read n w k ih => simp only [bind, runOnto]; exact ih _ _ _
  | write b k ih => simp only [bind, runOnto]; exact ih _ _ _

end Relay
end ContainerLayer
