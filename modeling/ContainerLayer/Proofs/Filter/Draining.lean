import ContainerLayer.Filter.Session
import ContainerLayer.Proofs.Stream.Playing

/-
What a consumer gets that reads all output of a filter.

The pipe between them neither loses nor adds anything: what the consumer gets is what the
producer writes if all its writes succeed, and the producer ends as it does then.
-/

namespace ContainerLayer

namespace Pipe

/-- A write to a pipe that is open and empty waits until its chunk has been read. -/
theorem writeAll_empty {b : Bytes} (hb : b ≠ []) :
    ({} : Pipe).writeAll b
      = (.waits b (.sent (b.take capacity).length), { chunk := b.take capacity }) := by
  have htake : b.take capacity ≠ [] := by
    simp only [ne_eq, List.take_eq_nil_iff, hb, or_false]
    decide
  have hlen := List.length_pos_iff.mpr htake
  have hadvance : advance (.entering b) {}
      = (.waits (.sent (b.take capacity).length), { chunk := b.take capacity }) := by
    unfold advance
    dsimp only
    rw [if_neg hb, if_neg (by decide), lookBack]
    dsimp only
    have hpending : ({ chunk := b.take capacity } : Pipe).hasPending = true := decide_eq_true hlen
    rw [if_pos hpending]
  unfold writeAll advanceAll
  rw [if_neg hb, hadvance]

end Pipe

namespace Filter

variable {σ δ : Type} [Reader σ]

/-- What a producer writes is what it copies, with a trailer behind it if all was copied. -/
theorem run_produce (decide : Decision δ) (d : δ) (s : σ) :
    let copied := (copyEntries decide 0 0 {} d).run s
    (produce decide d).run s = match copied.result.1 with
      | .ok _ => ⟨copied.result, Tar.trailer :: copied.writes, copied.rest⟩
      | .error _ => copied := by
  intro copied
  have hcopied : (copyEntries decide 0 0 {} d).run s = copied := rfl
  show ((copyEntries decide 0 0 {} d).bind _).run s = _
  rw [Relay.run_bind, hcopied]
  obtain ⟨⟨r, d'⟩, writes, rest⟩ := copied
  cases r <;> rfl

theorem result_produce (decide : Decision δ) (d : δ) (s : σ) :
    ((produce decide d).run s).result = ((copyEntries decide 0 0 {} d).run s).result := by
  rw [run_produce]
  generalize (copyEntries decide 0 0 {} d).run s = copied
  obtain ⟨⟨r, d'⟩, writes, rest⟩ := copied
  cases r <;> rfl

theorem written_produce (decide : Decision δ) (d : δ) (s : σ) :
    let copied := (copyEntries decide 0 0 {} d).run s
    let o := (produce decide d).run s
    (∀ stats, o.result.1 = .ok stats → o.written = copied.written ++ Tar.trailer)
      ∧ ∀ f, o.result.1 = .error f → o.written = copied.written := by
  intro copied o
  have ho : o = match copied.result.1 with
      | .ok _ => ⟨copied.result, Tar.trailer :: copied.writes, copied.rest⟩
      | .error _ => copied := run_produce decide d s
  cases hc : copied.result.1 with
  | ok stats =>
    rw [hc] at ho
    have ho : o = ⟨copied.result, Tar.trailer :: copied.writes, copied.rest⟩ := ho
    refine ⟨fun _ _ => ?_, fun f hf => ?_⟩
    · rw [ho, Relay.Outcome.written, Relay.Outcome.written, List.reverse_cons, List.flatten_append]
      simp
    · rw [ho] at hf
      cases hc.symm.trans hf
  | error f =>
    rw [hc] at ho
    have ho : o = copied := ho
    refine ⟨fun stats hs => ?_, fun _ _ => by rw [ho]⟩
    rw [ho] at hs
    cases hc.symm.trans hs

end Filter

namespace Filtered

variable {σ δ : Type} [Reader σ]

theorem run_write {α : Type} (b : Bytes) (next : Except Fault Unit → Relay α) (s : σ) :
    (Relay.run (.write b next) s).result = (Relay.run (next (.ok ())) s).result
      ∧ (Relay.run (.write b next) s).written = b ++ (Relay.run (next (.ok ())) s).written := by
  have e : Relay.run (.write b next) s = Relay.runOnto [b] (next (.ok ())) s := rfl
  rw [e, Tape.written_runOnto, Relay.runOnto_eq]
  exact ⟨rfl, by simp⟩

omit [Reader σ] in
theorem drainEnd_close (acc : List Bytes) (source : Cancelable σ)
    (outcome : Except Fault FilterStats) (d : δ) :
    (drainEnd acc (⟨source, ({} : Pipe).close (outcome.map fun _ => ()), .ended outcome d⟩ :
      Filtered σ δ)).data = acc.reverse.flatten := by
  cases outcome with
  | error f => rfl
  | ok stats =>
    show ([] :: acc).reverse.flatten = _
    simp

/-- Draining a producer that goes on with `p` gives what `p` writes. -/
theorem drainRun_spec (acc : List Bytes) (p : Relay (Except Fault FilterStats × δ))
    (source : Cancelable σ) :
    (drainRun acc p source {}).data = acc.reverse.flatten ++ (Relay.run p source).written
      ∧ (drainRun acc p source {}).rest.producer
        = .ended (Relay.run p source).result.1 (Relay.run p source).result.2 := by
  induction p generalizing acc source with
  | done result => exact ⟨(drainEnd_close acc source _ _).trans (List.append_nil _).symm,
      producer_drainEnd _ _⟩
  | read n patient next ih => exact ih _ acc _
  | write b next ih =>
    rw [(run_write b next source).1, (run_write b next source).2]
    unfold drainRun
    by_cases hb : b = []
    · subst hb
      exact ih (.ok ()) acc source
    · rw [Pipe.writeAll_empty hb]
      obtain ⟨hdata, hproducer⟩ := ih (.ok ()) (b :: acc) source
      refine ⟨hdata.trans ?_, hproducer⟩
      simp

/-- Draining a filter whose producer is to write something drains what it goes on with. -/
theorem drain_of_write {b : Bytes} (hb : b ≠ [])
    (next : Except Fault Unit → Relay (Except Fault FilterStats × δ)) (source : Cancelable σ) :
    drain { source, producer := .running (.write b next) }
      = drainRun [b.drop (b.take Pipe.capacity).length, b.take Pipe.capacity] (next (.ok ()))
        source {} := by
  have hsettle : settle ⟨source, {}, .running (.write b next)⟩
      = ⟨source, { chunk := b.take Pipe.capacity },
        .writing b (.sent (b.take Pipe.capacity).length) next⟩ := by
    show run (.write b next) source {} = _
    unfold run
    rw [Pipe.writeAll_empty hb]
  unfold drain
  rw [hsettle]
  rfl

/-- Draining a filter whose producer has not started gives what the producer writes. -/
theorem drain_spec (p : Relay (Except Fault FilterStats × δ)) (source : Cancelable σ) :
    (drain { source, producer := .running p }).data = (Relay.run p source).written
      ∧ (drain { source, producer := .running p }).rest.producer
        = .ended (Relay.run p source).result.1 (Relay.run p source).result.2 := by
  induction p generalizing source with
  | done result => exact ⟨drainEnd_close [] source _ _, producer_drainEnd _ _⟩
  | read n patient next ih => exact ih _ _
  | write b next ih =>
    rw [(run_write b next source).1, (run_write b next source).2]
    by_cases hb : b = []
    · subst hb
      exact ih (.ok ()) source
    · rw [drain_of_write hb]
      obtain ⟨hdata, hproducer⟩ := drainRun_spec
        [b.drop (b.take Pipe.capacity).length, b.take Pipe.capacity] (next (.ok ())) source
      refine ⟨hdata.trans ?_, hproducer⟩
      have hb : b.take Pipe.capacity ++ b.drop (b.take Pipe.capacity).length = b := by
        rw [List.length_take, Nat.min_def]
        split
        · exact List.take_append_drop _ _
        · rw [List.take_of_length_le (by omega), List.drop_length, List.append_nil]
      simp only [List.reverse_cons, List.reverse_nil, List.nil_append, List.flatten_append,
        List.flatten_cons, List.flatten_nil, List.append_nil, hb]

/-! ## How the output ends -/

/-- The fault that the output of a producer ends with. -/
def endFault : Except Fault FilterStats → Option Fault
  | .ok _ => none
  | .error f => some (.shared f)

omit [Reader σ] in
theorem fault_drainEnd_close (acc : List Bytes) (source : Cancelable σ)
    (outcome : Except Fault FilterStats) (d : δ) :
    (drainEnd acc (⟨source, ({} : Pipe).close (outcome.map fun _ => ()), .ended outcome d⟩ :
      Filtered σ δ)).fault = endFault outcome := by
  cases outcome <;> rfl

theorem rest_run_write {α : Type} (b : Bytes) (next : Except Fault Unit → Relay α) (s : σ) :
    (Relay.run (.write b next) s).rest = (Relay.run (next (.ok ())) s).rest := by
  show (Relay.runOnto [b] (next (.ok ())) s).rest = _
  rw [Relay.runOnto_eq]

theorem drainRun_end (acc : List Bytes) (p : Relay (Except Fault FilterStats × δ))
    (source : Cancelable σ) :
    (drainRun acc p source {}).fault = endFault (Relay.run p source).result.1
      ∧ (drainRun acc p source {}).rest.source = (Relay.run p source).rest := by
  induction p generalizing acc source with
  | done result => exact ⟨fault_drainEnd_close acc source _ _, source_drainEnd acc _⟩
  | read n patient next ih => exact ih _ acc _
  | write b next ih =>
    rw [(run_write b next source).1, rest_run_write]
    unfold drainRun
    by_cases hb : b = []
    · subst hb
      exact ih (.ok ()) acc source
    · rw [Pipe.writeAll_empty hb]
      exact ih (.ok ()) (b :: acc) source

/-- The output ends as the producer does, which leaves its source where it has come to. -/
theorem drain_end (p : Relay (Except Fault FilterStats × δ)) (source : Cancelable σ) :
    (drain { source, producer := .running p }).fault = endFault (Relay.run p source).result.1
      ∧ (drain { source, producer := .running p }).rest.source = (Relay.run p source).rest := by
  induction p generalizing source with
  | done result => exact ⟨fault_drainEnd_close [] source _ _, source_drainEnd [] _⟩
  | read n patient next ih => exact ih _ _
  | write b next ih =>
    rw [(run_write b next source).1, rest_run_write]
    by_cases hb : b = []
    · subst hb
      exact ih (.ok ()) source
    · rw [drain_of_write hb]
      exact drainRun_end _ _ _

omit [Reader σ] in
/-- What became of a producer at its end. -/
theorem finish?_of_ended {s : Filtered σ δ} {outcome : Except Fault FilterStats} {d : δ}
    (h : s.producer = .ended outcome d) :
    s.finish? = some (outcome.mapError .shared, s.source.inner) := by
  unfold finish?
  rw [h]
  cases outcome <;> rfl

/-- What became of a filter that has not started yet is what becomes of its producer. -/
theorem finish_spec (p : Relay (Except Fault FilterStats × δ)) (source : Cancelable σ) :
    finish { source, producer := .running p }
      = ((Relay.run p source).result.1.mapError .shared, (Relay.run p source).rest.inner) := by
  have h := finish?_of_ended (drain_spec p source).2
  rw [(drain_end p source).2] at h
  unfold finish
  exact Option.get_of_eq_some _ h

end Filtered
end ContainerLayer
