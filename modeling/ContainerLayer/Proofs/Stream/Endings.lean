import ContainerLayer.Stream.Tape

/-
How relays end.

A run of a relay that is put together from two is a run of the first and then one of
the second, from what the first left (`result_run_bind`).  And what holds of a relay
for any outcomes of its reads and writes (`Relay.Ends`) holds of every run, on
whatever reader.
-/

namespace ContainerLayer
namespace Relay

variable {α β σ : Type}

/-- Every result that the relay can end with has `Q`. -/
def Ends (Q : α → Prop) : Relay α → Prop
  | done a => Q a
  | read _ _ next => ∀ r, Ends Q (next r)
  | write _ next => ∀ r, Ends Q (next r)

theorem Ends.bind {Q : α → Prop} {R : β → Prop} {p : Relay α} {f : α → Relay β}
    (hp : Ends Q p) (hf : ∀ a, Q a → Ends R (f a)) : Ends R (p.bind f) := by
  induction p with
  | done a => exact hf a hp
  | read n w next ih => exact fun r => ih r (hp r)
  | write b next ih => exact fun r => ih r (hp r)

theorem Ends.runOnto [Reader σ] {Q : α → Prop} {p : Relay α} (h : Ends Q p) (acc : List Bytes)
    (s : σ) : Q (runOnto acc p s).result := by
  induction p generalizing acc s with
  | done a => exact h
  | read n w next ih => exact ih _ (h _) _ _
  | write b next ih => exact ih _ (h _) _ _

theorem Ends.run [Reader σ] {Q : α → Prop} {p : Relay α} (h : Ends Q p) (s : σ) :
    Q (p.run s).result := h.runOnto [] s

/-- What was written before makes no difference to a run. -/
theorem runOnto_eq [Reader σ] (acc : List Bytes) (p : Relay α) (s : σ) :
    runOnto acc p s = ⟨(run p s).result, (run p s).writes ++ acc, (run p s).rest⟩ := by
  have h : ∀ (front back : List Bytes) (s : σ), runOnto (front ++ back) p s
      = ⟨(runOnto front p s).result, (runOnto front p s).writes ++ back,
        (runOnto front p s).rest⟩ := by
    induction p with
    | done a => exact fun _ _ _ => rfl
    | read n w next ih => exact fun front back s => ih _ front back _
    | write b next ih => exact fun front back s => ih _ (b :: front) back _
  exact h [] acc s

/-- Where `p` ends, `f` takes over. -/
theorem run_bind [Reader σ] (p : Relay α) (f : α → Relay β) (s : σ) :
    run (p.bind f) s
      = ⟨(run (f (run p s).result) (run p s).rest).result,
        (run (f (run p s).result) (run p s).rest).writes ++ (run p s).writes,
        (run (f (run p s).result) (run p s).rest).rest⟩ := by
  rw [run, runOnto_bind]
  exact runOnto_eq _ _ _

theorem result_run_bind [Reader σ] (p : Relay α) (f : α → Relay β) (s : σ) :
    (run (p.bind f) s).result = (run (f (run p s).result) (run p s).rest).result := by
  rw [run_bind]

theorem rest_run_bind [Reader σ] (p : Relay α) (f : α → Relay β) (s : σ) :
    ((p.bind f).run s).rest = ((f (p.run s).result).run (p.run s).rest).rest := by
  rw [run_bind]

end Relay

namespace Tape

variable {α β : Type}

theorem run_bind (w : Tape α) (f : α → Tape β) (position : Nat) :
    (w >>= f).run position = Relay.bind (w.run position) fun
      | .ok (a, position) => (f a).run position
      | .error k => .done (.error k) := by
  refine congrArg (Relay.bind _) (funext fun r => ?_)
  cases r <;> rfl

/-- The work on the tape never ends with a fault, and each of its results has `Q`. -/
def Returns (Q : α → Prop) (w : Tape α) : Prop :=
  ∀ position, Relay.Ends (fun r => ∃ a position, r = .ok (a, position) ∧ Q a) (w.run position)

variable {Q : α → Prop} {R : β → Prop}

theorem returns_pure {a : α} (h : Q a) : Returns Q (pure a) := fun position => ⟨a, position, rfl, h⟩

theorem Returns.bind {w : Tape α} {f : α → Tape β} (hw : Returns Q w)
    (hf : ∀ a, Q a → Returns R (f a)) : Returns R (w >>= f) := by
  intro position
  rw [run_bind]
  refine (hw position).bind ?_
  intro _ h
  obtain ⟨a, position', rfl, ha⟩ := h
  exact hf a ha position'

theorem returns_attempt (n : Nat) (patient : Bool) :
    Returns (fun _ => True) (attempt n patient) := by
  intro position r
  cases r with
  | error f => exact ⟨_, _, rfl, trivial⟩
  | ok b => exact ⟨_, _, rfl, trivial⟩

end Tape
end ContainerLayer
