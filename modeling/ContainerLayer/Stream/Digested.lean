import ContainerLayer.Digest
import ContainerLayer.Stream.Reader

/-
A reader that digests the bytes it hands out.
-/

namespace ContainerLayer

/-- A reader with the hasher that all bytes read through it went into. -/
structure Digested (σ : Type) where
  inner : σ
  hasher : Sha256 := Sha256.start

namespace Digested

variable {σ : Type} [Reader σ]

/-- One read; only bytes that are handed out are hashed. -/
def read (n : Nat) (s : Digested σ) : Except Fault Bytes × Digested σ :=
  match Reader.read n s.inner with
  | (.ok b, inner) => (.ok b, ⟨inner, s.hasher.update b⟩)
  | (.error f, inner) => (.error f, ⟨inner, s.hasher⟩)

omit [Reader σ] in
def digest (s : Digested σ) : Except Digest.Flaw Digest := Digest.ofSha256 s.hasher.finish

theorem read_fst (n : Nat) (s : Digested σ) : (s.read n).1 = (Reader.read n s.inner).1 := by
  unfold read; split <;> simp_all

theorem read_inner (n : Nat) (s : Digested σ) :
    (s.read n).2.inner = (Reader.read n s.inner).2 := by
  unfold read; split <;> simp_all

instance : Reader (Digested σ) where
  read := read
  patience s := Reader.patience s.inner
  patience_lt n s f h hf := by
    rw [read_fst] at h; rw [read_inner]; exact Reader.patience_lt n s.inner f h hf

instance [Finite σ] : Finite (Digested σ) where
  patience_lt_of_data n s b h hb := by
    rw [show Reader.read n s = s.read n from rfl, read_fst] at h
    have := Finite.patience_lt_of_data n s.inner b h hb
    simpa only [Reader.patience, show Reader.read n s = s.read n from rfl, read_inner] using this

end Digested
end ContainerLayer
