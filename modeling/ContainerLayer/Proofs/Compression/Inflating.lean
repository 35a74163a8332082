import ContainerLayer.Compression.Deflate

/-
Inflating and the loads of its input.

How the input is loaded decides how much of the output is handed out before damage shows, and
nothing else.  States that agree on the rest are alike, and whatever inflating does, it does alike
in such states (`Blind`).
-/

namespace ContainerLayer
namespace Deflate

/-- The states agree, but for what has been loaded and handed out. -/
structure State.Alike (s s' : State) : Prop where
  input : s.input = s'.input
  place : s.place = s'.place
  output : s.output = s'.output

/-- A program that comes to the same in states that are alike, and leaves them alike. -/
def Blind {α : Type} (w : Inflate α) : Prop :=
  ∀ s s', s.Alike s' →
    ∃ result t t', w.run s = (result, t) ∧ w.run s' = (result, t') ∧ t.Alike t'

section Programs

variable {α β : Type}

theorem run_bind (w : Inflate α) (k : α → Inflate β) (s : State) :
    (w >>= k).run s =
      match w.run s with
      | (.ok a, s') => (k a).run s'
      | (.error stop, s') => (.error stop, s') := by
  show (ExceptT.bindCont k (w.run s).1).run (w.run s).2 = _
  split <;> rename_i e <;> rw [e] <;> rfl

theorem Blind.bind {w : Inflate α} {k : α → Inflate β} (hw : Blind w) (hk : ∀ a, Blind (k a)) :
    Blind (w >>= k) := by
  intro s s' h
  obtain ⟨result, t, t', e, e', ht⟩ := hw s s' h
  rw [run_bind, run_bind, e, e']
  cases result with
  | ok a => exact hk a t t' ht
  | error stop => exact ⟨.error stop, t, t', rfl, rfl, ht⟩

end Programs

/-! ## Bits and output -/

end Deflate
end ContainerLayer
