import ContainerLayer.Bytes
import ContainerLayer.Fault

/-
Readers: states from which bytes can be read a few at a time.

`Reader.read n` asks for at most `n` bytes; nothing read stands for the end.
A reader may report that a read was interrupted, and the reading loops then
read again.  `patience` bounds how often that can happen, so these loops end;
a reader is `Finite` if the same measure also bounds how often it gives data.
-/

namespace ContainerLayer

class Reader (σ : Type) where
  read : Nat → σ → Except Fault Bytes × σ
  /-- Goes down with every interrupted read. -/
  patience : σ → Nat
  patience_lt : ∀ n s f, (read n s).1 = .error f → f.isInterrupted = true →
    patience (read n s).2 < patience s

/-- A reader that ends: its patience goes down with all data it gives, too. -/
class Finite (σ : Type) [Reader σ] : Prop where
  patience_lt_of_data : ∀ n (s : σ) b, (Reader.read n s).1 = .ok b → b ≠ [] →
    Reader.patience (Reader.read n s).2 < Reader.patience s

namespace Reader

variable {σ : Type} [Reader σ]

/-- One read, tried again as long as it is interrupted. -/
def readPatiently (n : Nat) (s : σ) : Except Fault Bytes × σ :=
  match h : read n s with
  | (.ok b, s') => (.ok b, s')
  | (.error f, s') =>
    if hf : f.isInterrupted then
      have : patience s' < patience s := by
        have := patience_lt n s f (by rw [h]) hf; rwa [h] at this
      readPatiently n s'
    else (.error f, s')
termination_by patience s

/-- What reading to the end gives: all data up to the end or the first fault. -/
structure Drained (σ : Type) where
  /-- The data, chunk by chunk, last first. -/
  chunks : List Bytes
  /-- The fault that stopped the reading, if it did not reach the end. -/
  fault : Option Fault
  rest : σ

def Drained.data (d : Drained σ) : Bytes := d.chunks.reverse.flatten

/-- Reads chunks of at most `n` bytes until the end or a fault, and puts them on `acc`. -/
def drainOnto [Finite σ] (n : Nat) (acc : List Bytes) (s : σ) : Drained σ :=
  match h : read n s with
  | (.ok b, s') =>
    if hb : b = [] then ⟨acc, none, s'⟩
    else
      have : patience s' < patience s := by
        have := Finite.patience_lt_of_data n s b (by rw [h]) hb; rwa [h] at this
      drainOnto n (b :: acc) s'
  | (.error f, s') =>
    if hf : f.isInterrupted then
      have : patience s' < patience s := by
        have := patience_lt n s f (by rw [h]) hf; rwa [h] at this
      drainOnto n acc s'
    else ⟨acc, some f, s'⟩
termination_by patience s

/-- Reads to the end in small pieces. -/
def drain [Finite σ] (s : σ) : Drained σ := drainOnto 32 [] s

end Reader
end ContainerLayer
