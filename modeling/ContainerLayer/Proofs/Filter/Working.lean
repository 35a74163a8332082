import ContainerLayer.Proofs.Filter.Schedule

/-
A filter with the party that works for it.

When a producer is done, its archive writer goes away, and the party that ran it is gone after
that.  A writer that has not come to the end of its archive tries to write a trailer before it
goes.  `Working.produce` is one turn of that party.  It ends after finitely many turns unless it
has to wait for the reader of the pipe (`Working.Sane.acc`).
-/

namespace ContainerLayer

/-- A filter, and how far the party that works for it has come with going away. -/
structure Working (σ δ : Type) where
  filtered : Filtered σ δ
  /-- What is left of the trailer that the archive writer tries to write, and the write of its
  front. -/
  trailing : Option (Bytes × Pipe.Call) := none
  gone : Bool := false

namespace Working

variable {σ δ : Type} [Reader σ]

/-- One turn of the party that works for the filter. -/
def produce (w : Working σ δ) : Working σ δ :=
  if w.gone then w
  else
    match w.filtered.producer with
    | .ended (.ok _) _ => { w with gone := true }
    | .ended (.error _) _ =>
      let (left, c) := w.trailing.getD (Tar.trailer, .entering Tar.trailer)
      match Pipe.lookAll left c w.filtered.pipe with
      | (.waits left c, pipe) =>
        { w with filtered := { w.filtered with pipe }, trailing := some (left, c) }
      | (.returns _, pipe) => { w with filtered := { w.filtered with pipe }, gone := true }
    | _ => { w with filtered := w.filtered.turn }

omit [Reader σ] in
/-- What the party hands back once it is gone. -/
def finish? (w : Working σ δ) : Option (Except Fault FilterStats × σ) :=
  if w.gone then w.filtered.finish? else none

/-- A producer at its end has closed the pipe, so nothing is written after that. -/
structure Sane (w : Working σ δ) : Prop where
  isClosed : ∀ outcome d, w.filtered.producer = .ended outcome d → w.filtered.pipe.isClosed = true
  trailing : w.trailing = none
  gone : w.gone = true → ∃ outcome d, w.filtered.producer = .ended outcome d

/-- There is nothing to do, or nothing before the pipe has been read. -/
def Waits (w : Working σ δ) : Prop :=
  w.gone = true ∨ ∃ left c next, w.filtered.producer = .writing left c next
    ∧ Pipe.advance c w.filtered.pipe = (.waits c, w.filtered.pipe)

theorem produce_of_not_ended {w : Working σ δ} (hg : w.gone = false)
    (h : ∀ outcome d, w.filtered.producer ≠ .ended outcome d) :
    w.produce = { w with filtered := w.filtered.turn } := by
  obtain ⟨⟨source, pipe, producer⟩, trailing, gone⟩ := w
  dsimp only at hg h
  subst hg
  cases producer with
  | ended outcome d => exact absurd rfl (h outcome d)
  | running p => rfl
  | writing left c next => rfl

theorem produce_of_waits {w : Working σ δ} (h : w.Waits) : w.produce = w := by
  rcases h with hgone | ⟨left, c, next, hproducer, ha⟩
  · exact if_pos hgone
  · obtain ⟨⟨source, pipe, producer⟩, trailing, gone⟩ := w
    dsimp only at hproducer ha
    subst hproducer
    cases gone with
    | true => rfl
    | false =>
      have hturn : Filtered.turn ⟨source, pipe, .writing left c next⟩
          = (⟨source, pipe, .writing left c next⟩ : Filtered σ δ) :=
        Filtered.turn_waits (Pipe.lookAll_waits ha)
      exact congrArg (fun s : Filtered σ δ => (⟨s, trailing, false⟩ : Working σ δ)) hturn

omit [Reader σ] in
/-- Whoever waits though it is not gone waits for bytes to be read. -/
theorem pending_of_waits {w : Working σ δ} (h : w.Waits) (hg : w.gone = false) :
    w.filtered.pipe.pending ≠ [] := by
  rcases h with hgone | ⟨left, c, next, -, ha⟩
  · cases hg.symm.trans hgone
  · cases Pipe.looks_of_eq ha with
    | waits hopen hp hc => exact hp

omit [Reader σ] in
/-- The party is there as long as its producer is. -/
theorem Sane.gone_eq_false {w : Working σ δ} (h : w.Sane)
    (hne : ∀ outcome d, w.filtered.producer ≠ .ended outcome d) : w.gone = false := by
  rw [Bool.eq_false_iff]
  intro hgone
  obtain ⟨outcome, d, he⟩ := h.gone hgone
  exact hne outcome d he

omit [Reader σ] in
theorem Sane.exists_closing {w : Working σ δ} (h : w.Sane) (hgone : w.gone = true) :
    ∃ k, w.filtered.pipe.closing = some k := by
  obtain ⟨outcome, d, he⟩ := h.gone hgone
  exact Option.isSome_iff_exists.mp (h.isClosed outcome d he)

omit [Reader σ] in
/-- There is nothing to hand back before the party is gone. -/
theorem gone_of_finish? {w : Working σ δ} {r : Except Fault FilterStats × σ}
    (hr : w.finish? = some r) : w.gone = true := by
  unfold finish? at hr
  split at hr
  · assumption
  · cases hr

omit [Reader σ] in
theorem Sane.isSome_finish? {w : Working σ δ} (h : w.Sane) (hgone : w.gone = true) :
    w.finish?.isSome = true := by
  obtain ⟨outcome, d, he⟩ := h.gone hgone
  rw [finish?, if_pos hgone]
  exact Filtered.isSome_finish?_of_ended he

theorem Sane.produce_ended {w : Working σ δ} (h : w.Sane) {outcome : Except Fault FilterStats}
    {d : δ} (he : w.filtered.producer = .ended outcome d) :
    w.produce = { w with gone := true } := by
  have hclosed := h.isClosed outcome d he
  have htrailing := h.trailing
  obtain ⟨⟨source, pipe, producer⟩, trailing, gone⟩ := w
  dsimp only at he hclosed htrailing
  subst he
  subst htrailing
  cases gone with
  | true => rfl
  | false =>
    cases outcome with
    | ok stats => rfl
    | error f =>
      obtain ⟨k, hk⟩ := Option.isSome_iff_exists.mp hclosed
      have hlook : Pipe.lookAll Tar.trailer (.entering Tar.trailer) pipe
          = (.returns (.error k.writeFault), pipe) :=
        Pipe.lookAll_error (Pipe.advance_entering_closed (by decide) hk)
      have hproduce : produce (⟨⟨source, pipe, .ended (.error f) d⟩, none, false⟩ : Working σ δ)
          = match Pipe.lookAll Tar.trailer (.entering Tar.trailer) pipe with
            | (.waits left c, pipe) =>
              ⟨⟨source, pipe, .ended (.error f) d⟩, some (left, c), false⟩
            | (.returns _, pipe) => ⟨⟨source, pipe, .ended (.error f) d⟩, none, true⟩ := rfl
      rw [hproduce, hlook]

/-- A turn of the producer that brings it to its end closes the pipe. -/
theorem isClosed_turn {s : Filtered σ δ} (h : ∀ outcome d, s.producer ≠ .ended outcome d)
    {outcome : Except Fault FilterStats} {d : δ} (he : s.turn.producer = .ended outcome d) :
    s.turn.pipe.isClosed = true := by
  obtain ⟨source, pipe, producer⟩ := s
  revert he
  refine Filtered.of_turned
    (P := fun s' => s'.producer = .ended outcome d → s'.pipe.isClosed = true) fun s' ht he => ?_
  cases ht with
  | stays => exact absurd rfl (h _ _)
  | ends => exact Pipe.isClosed_close _ _
  | _ => cases he

theorem Sane.produce {w : Working σ δ} (h : w.Sane) : w.produce.Sane := by
  cases hg : w.gone with
  | true => rwa [produce_of_waits (.inl hg)]
  | false =>
    by_cases he : ∃ outcome d, w.filtered.producer = .ended outcome d
    · obtain ⟨outcome, d, he⟩ := he
      rw [h.produce_ended he]
      exact ⟨h.isClosed, h.trailing, fun _ => ⟨outcome, d, he⟩⟩
    · have hne : ∀ outcome d, w.filtered.producer ≠ .ended outcome d :=
        fun outcome d e => he ⟨outcome, d, e⟩
      rw [produce_of_not_ended hg hne]
      exact ⟨fun _ _ e => isClosed_turn hne e, h.trailing, fun e => nomatch hg.symm.trans e⟩

omit [Reader σ] in
theorem sane_start (source : Cancelable σ) (p : Relay (Except Fault FilterStats × δ)) :
    Sane (⟨⟨source, {}, .running p⟩, none, false⟩ : Working σ δ) where
  isClosed _ _ e := nomatch e
  trailing := rfl
  gone e := nomatch e

omit [Reader σ] in
/-- The pipe may be closed at any time. -/
theorem Sane.of_pipe {w : Working σ δ} (h : w.Sane) {source : Cancelable σ} {pipe : Pipe}
    (hc : w.filtered.pipe.isClosed = true → pipe.isClosed = true) :
    Sane { w with filtered := { w.filtered with source, pipe } } where
  isClosed outcome d e := hc (h.isClosed outcome d e)
  trailing := h.trailing
  gone := h.gone

/-- A turn of the party is one of the producer, or leaves the filter as it is. -/
theorem Sane.filtered_produce {w : Working σ δ} (h : w.Sane) :
    w.produce.filtered = w.filtered ∨ w.produce = { w with filtered := w.filtered.turn } := by
  by_cases hg : w.gone = true
  · exact .inl (congrArg filtered (produce_of_waits (.inl hg)))
  · by_cases he : ∃ outcome d, w.filtered.producer = .ended outcome d
    · obtain ⟨outcome, d, he⟩ := he
      exact .inl (by rw [h.produce_ended he])
    · exact .inr (produce_of_not_ended (Bool.eq_false_iff.mpr hg)
        fun outcome d e => he ⟨outcome, d, e⟩)

/-! ## Turns of a producer on its own -/

/-- The first is what a turn makes of the second, which does not wait. -/
def Moves (w' w : Working σ δ) : Prop := ¬ w.Waits ∧ w' = w.produce

theorem acc_of_waits {w : Working σ δ} (h : w.Waits) : Acc Moves w :=
  ⟨w, fun _ hm => absurd h hm.1⟩

theorem acc_of_produce {w : Working σ δ} (h : Acc Moves w.produce) : Acc Moves w :=
  ⟨w, fun _ hm => hm.2 ▸ h⟩

theorem acc_writing {next : Except Fault Unit → Relay (Except Fault FilterStats × δ)}
    (hnext : ∀ r (source : Cancelable σ) pipe,
      Acc Moves (⟨⟨source, pipe, .running (next r)⟩, none, false⟩ : Working σ δ))
    (left : Bytes) (c : Pipe.Call) (source : Cancelable σ) (pipe : Pipe) :
    Acc Moves (⟨⟨source, pipe, .writing left c next⟩, none, false⟩ : Working σ δ) := by
  induction hk : left.length using Nat.strongRecOn generalizing left c pipe with
  | ind k ih =>
    refine acc_of_produce ?_
    have hproduce : produce (⟨⟨source, pipe, .writing left c next⟩, none, false⟩ : Working σ δ)
        = ⟨match Pipe.lookAll left c pipe with
          | (.waits left c, pipe) => ⟨source, pipe, .writing left c next⟩
          | (.returns r, pipe) => ⟨source, pipe, .running (next r)⟩, none, false⟩ := rfl
    rw [hproduce, Pipe.lookAll]
    cases ha : Pipe.advance c pipe with
    | mk g p =>
      cases g with
      | waits c' => exact acc_of_waits (.inr ⟨left, c', next, rfl, (Pipe.advance_of_waits ha).1⟩)
      | returns r =>
        cases r with
        | error f => exact hnext _ source p
        | ok n =>
          dsimp only
          by_cases hn : n = 0
          · rw [if_pos hn]
            exact hnext _ source p
          rw [if_neg hn]
          by_cases hle : left.length ≤ n
          · rw [if_pos hle]
            exact hnext _ source p
          · rw [if_neg hle]
            exact ih _ (by rw [← hk, List.length_drop]; omega) _ _ p rfl

theorem acc_ended (source : Cancelable σ) {pipe : Pipe} (hc : pipe.isClosed = true)
    (outcome : Except Fault FilterStats) (d : δ) :
    Acc Moves (⟨⟨source, pipe, .ended outcome d⟩, none, false⟩ : Working σ δ) := by
  have h : Sane (⟨⟨source, pipe, .ended outcome d⟩, none, false⟩ : Working σ δ) :=
    ⟨fun _ _ _ => hc, rfl, fun e => nomatch e⟩
  refine acc_of_produce ?_
  rw [h.produce_ended rfl]
  exact acc_of_waits (.inl rfl)

theorem acc_running (p : Relay (Except Fault FilterStats × δ)) (source : Cancelable σ)
    (pipe : Pipe) :
    Acc Moves (⟨⟨source, pipe, .running p⟩, none, false⟩ : Working σ δ) := by
  induction p generalizing source pipe with
  | done o => exact acc_of_produce (acc_ended source (Pipe.isClosed_close _ _) o.1 o.2)
  | read n patient next ih =>
    induction hk : Reader.patience source using Nat.strongRecOn generalizing source with
    | ind k ihk =>
      refine acc_of_produce ?_
      have hproduce : produce (⟨⟨source, pipe, .running (.read n patient next)⟩, none, false⟩ :
          Working σ δ)
            = ⟨Filtered.turn ⟨source, pipe, .running (.read n patient next)⟩, none, false⟩ :=
        rfl
      rcases Filtered.turn_read_cases n patient next source pipe with
        ⟨r, source', -, hturn⟩ | ⟨source', hlt, -, hturn⟩
      · rw [hproduce, hturn]
        exact ih r source' pipe
      · rw [hproduce, hturn]
        exact ihk _ (hk ▸ hlt) source' rfl
  | write b next ih =>
    refine acc_of_produce ?_
    have hproduce : produce (⟨⟨source, pipe, .running (.write b next)⟩, none, false⟩ :
        Working σ δ) = ⟨Filtered.turn ⟨source, pipe, .running (.write b next)⟩, none, false⟩ := rfl
    rw [hproduce, Filtered.turn]
    dsimp only
    split
    · exact ih (.ok ()) source pipe
    · exact acc_writing ih b _ source pipe

/-- After finitely many turns, a producer waits. -/
theorem Sane.acc {w : Working σ δ} (h : w.Sane) : Acc Moves w := by
  cases hg : w.gone with
  | true => exact acc_of_waits (.inl hg)
  | false =>
    have hclosed := h.isClosed
    have htrailing := h.trailing
    obtain ⟨⟨source, pipe, producer⟩, trailing, gone⟩ := w
    dsimp only at hg hclosed htrailing
    subst hg
    subst htrailing
    cases producer with
    | ended outcome d => exact acc_ended source (hclosed outcome d rfl) outcome d
    | running p => exact acc_running p source pipe
    | writing left c next => exact acc_writing (fun r => acc_running (next r)) left c source pipe

end Working
end ContainerLayer
