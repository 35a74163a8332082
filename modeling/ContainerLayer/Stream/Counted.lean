import ContainerLayer.Stream.Reader

/-
A reader that counts the bytes it hands out.
-/

namespace ContainerLayer

structure Counted (σ : Type) where
  inner : σ
  count : Nat := 0

namespace Counted

variable {σ : Type} [Reader σ]

/-- One read; only bytes that are handed out count. -/
def read (n : Nat) (s : Counted σ) : Except Fault Bytes × Counted σ :=
  match Reader.read n s.inner with
  | (.ok b, inner) => (.ok b, ⟨inner, s.count + b.length⟩)
  | (.error f, inner) => (.error f, ⟨inner, s.count⟩)

theorem read_fst (n : Nat) (s : Counted σ) : (s.read n).1 = (Reader.read n s.inner).1 := by
  unfold read; split <;> simp_all

theorem read_inner (n : Nat) (s : Counted σ) :
    (s.read n).2.inner = (Reader.read n s.inner).2 := by
  unfold read; split <;> simp_all

instance : Reader (Counted σ) where
  read := read
  patience s := Reader.patience s.inner
  patience_lt n s f h hf := by
    rw [read_fst] at h; rw [read_inner]; exact Reader.patience_lt n s.inner f h hf

instance [Finite σ] : Finite (Counted σ) where
  patience_lt_of_data n s b h hb := by
    rw [show Reader.read n s = s.read n from rfl, read_fst] at h
    have := Finite.patience_lt_of_data n s.inner b h hb
    simpa only [Reader.patience, show Reader.read n s = s.read n from rfl, read_inner] using this

end Counted
end ContainerLayer
