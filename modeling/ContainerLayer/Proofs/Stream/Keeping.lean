import ContainerLayer.Filter.Session

/-
What every read keeps.

If each single read of a reader keeps a property, so does everything that is done
with the reader: reading patiently, reading to the end, running a relay on it, and
reading the output of a filter that is at work on it.
-/

namespace ContainerLayer
namespace Reader

variable {σ : Type} [Reader σ]

/-- One read keeps `I`. -/
def Keeps (I : σ → Prop) : Prop := ∀ n s, I s → I (read n s).2

variable {I : σ → Prop} (hI : Keeps I)

include hI in
theorem Keeps.readPatiently {n : Nat} {s : σ} (hs : I s) : I (Reader.readPatiently n s).2 := by
  fun_induction Reader.readPatiently n s with
  | case1 s b s' h =>
    have := hI n s hs
    rwa [h] at this
  | case2 s f s' h hf _ ih =>
    have := hI n s hs
    rw [h] at this
    exact ih this
  | case3 s f s' h hf =>
    have := hI n s hs
    rwa [h] at this

include hI in
theorem Keeps.answer {n : Nat} {patient : Bool} {s : σ} (hs : I s) :
    I (Relay.answer n patient s).2 := by
  unfold Relay.answer
  split
  · exact hI.readPatiently hs
  · exact hI n s hs

include hI in
theorem Keeps.runOnto {α : Type} (acc : List Bytes) (p : Relay α) {s : σ} (hs : I s) :
    I (Relay.runOnto acc p s).rest := by
  induction p generalizing acc s with
  | done a => exact hs
  | read n w next ih => exact ih _ _ (hI.answer hs)
  | write b next ih => exact ih _ _ hs

include hI in
theorem Keeps.run {α : Type} (p : Relay α) {s : σ} (hs : I s) : I (Relay.run p s).rest :=
  hI.runOnto [] p hs

include hI in
/-- Reading to the end keeps `I`.  If no fault is in the way, the last read found the end. -/
theorem Keeps.drainOnto [Finite σ] (n : Nat) (acc : List Bytes) {s : σ} (hs : I s) :
    I (Reader.drainOnto n acc s).rest ∧
      ((Reader.drainOnto n acc s).fault = none →
        ∃ s', I s' ∧ read n s' = (.ok [], (Reader.drainOnto n acc s).rest)) := by
  fun_induction Reader.drainOnto n acc s with
  | case1 acc s s' h =>
    have hs' := hI n s hs
    rw [h] at hs'
    exact ⟨hs', fun _ => ⟨s, hs, h⟩⟩
  | case2 acc s b s' h hb _ ih =>
    have hs' := hI n s hs
    rw [h] at hs'
    exact ih hs'
  | case3 acc s f s' h hf _ ih =>
    have hs' := hI n s hs
    rw [h] at hs'
    exact ih hs'
  | case4 acc s f s' h hf =>
    have hs' := hI n s hs
    rw [h] at hs'
    exact ⟨hs', fun h => by cases h⟩

include hI in
/-- Being canceled or not makes no difference to what the reader inside keeps. -/
theorem Keeps.cancelable : Keeps fun s : Cancelable σ => I s.inner := by
  intro n s hs
  show I (s.read n).2.inner
  cases hc : s.canceled with
  | some f =>
    rw [Cancelable.read_of_canceled hc]
    exact hs
  | none =>
    rw [Cancelable.read_of_open hc]
    exact hI n s.inner hs

end Reader

namespace Filtered

variable {σ δ : Type} [Reader σ] {I : σ → Prop} (hI : Reader.Keeps I)

include hI in
theorem inner_run (p : Relay (Except Fault FilterStats × δ)) {source : Cancelable σ}
    (pipe : Pipe) (hs : I source.inner) : I (run p source pipe).source.inner := by
  induction p generalizing source pipe with
  | done result => exact hs
  | read n patient next ih => exact ih _ _ (hI.cancelable.answer hs)
  | write b next ih =>
    unfold run
    split
    · exact hs
    · exact ih _ _ hs

include hI in
theorem inner_settle {s : Filtered σ δ} (hs : I s.source.inner) : I s.settle.source.inner := by
  unfold settle
  split
  · exact hs
  · exact inner_run hI _ _ hs
  · split
    · exact hs
    · exact inner_run hI _ _ hs

include hI in
theorem keeps : Reader.Keeps fun s : Filtered σ δ => I s.source.inner := by
  intro n s hs
  show I (s.read n).2.source.inner
  unfold read
  dsimp only
  split
  · exact inner_settle hI hs
  · exact inner_settle hI hs

omit [Reader σ] in
theorem source_drainEnd (acc : List Bytes) (s : Filtered σ δ) :
    (drainEnd acc s).rest.source = s.source := by
  unfold drainEnd
  split <;> rfl

include hI in
theorem inner_drainRun (acc : List Bytes) (p : Relay (Except Fault FilterStats × δ))
    {source : Cancelable σ} (pipe : Pipe) (hs : I source.inner) :
    I (drainRun acc p source pipe).rest.source.inner := by
  induction p generalizing acc source pipe with
  | done result =>
    unfold drainRun
    rw [source_drainEnd]
    exact hs
  | read n patient next ih => exact ih _ _ _ (hI.cancelable.answer hs)
  | write b next ih =>
    unfold drainRun
    split
    · exact ih _ _ _ hs
    · exact ih _ _ _ hs

include hI in
theorem inner_drain {s : Filtered σ δ} (hs : I s.source.inner) :
    I s.drain.rest.source.inner := by
  have h := inner_settle hI hs
  unfold drain
  split
  rename_i source pipe producer e
  rw [e] at h
  split
  · exact inner_drainRun hI _ _ _ h
  · rw [source_drainEnd]
    exact h
  · exact inner_drainRun hI _ _ _ h

include hI in
/-- The source that a filter hands back has what it had when the filter started. -/
theorem keeps_finish {s : Filtered σ δ} (hs : I s.source.inner) : I s.finish.2 := by
  have h := inner_drain hI hs
  have hfinish : s.drain.rest.finish? = some s.finish := by
    unfold finish
    exact (Option.some_get _).symm
  unfold finish? at hfinish
  split at hfinish
  · rw [← Option.some.inj hfinish]
    exact h
  · rw [← Option.some.inj hfinish]
    exact h
  · cases hfinish

end Filtered
end ContainerLayer
