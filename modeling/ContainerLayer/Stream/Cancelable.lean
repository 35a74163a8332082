import ContainerLayer.Stream.Reader

/-
A reader that can be canceled: from then on every read fails, and the reader
inside is left alone.
-/

namespace ContainerLayer

structure Cancelable (σ : Type) where
  inner : σ
  canceled : Option Fault := none

namespace Cancelable

variable {σ : Type}

/-- Makes all reads from now on fail with `f`, whatever canceled the reader before. -/
def cancel (f : Fault) (s : Cancelable σ) : Cancelable σ := { s with canceled := some f }

def read [Reader σ] (n : Nat) (s : Cancelable σ) : Except Fault Bytes × Cancelable σ :=
  match s.canceled with
  | some f => (.error (.shared f), s)
  | none =>
    let (r, inner) := Reader.read n s.inner
    (r, { s with inner })

theorem read_of_canceled [Reader σ] {s : Cancelable σ} {f : Fault} (h : s.canceled = some f)
    (n : Nat) : s.read n = (.error (.shared f), s) := by simp [read, h]

theorem read_of_open [Reader σ] {s : Cancelable σ} (h : s.canceled = none) (n : Nat) :
    s.read n = ((Reader.read n s.inner).1, ⟨(Reader.read n s.inner).2, none⟩) := by
  simp [read, h]

instance [Reader σ] : Reader (Cancelable σ) where
  read := read
  patience s := Reader.patience s.inner
  patience_lt n s f h hf := by
    cases hc : s.canceled with
    | some g => rw [read_of_canceled hc] at h; cases h; simp at hf
    | none =>
      rw [read_of_open hc] at h ⊢
      exact Reader.patience_lt n s.inner f h hf

instance [Reader σ] [Finite σ] : Finite (Cancelable σ) where
  patience_lt_of_data n s b h hb := by
    rw [show Reader.read n s = s.read n from rfl] at h ⊢
    cases hc : s.canceled with
    | some g => rw [read_of_canceled hc] at h; cases h
    | none =>
      rw [read_of_open hc] at h ⊢
      exact Finite.patience_lt_of_data n s.inner b h hb

end Cancelable
end ContainerLayer
