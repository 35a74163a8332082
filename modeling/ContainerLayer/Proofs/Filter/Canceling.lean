import ContainerLayer.Proofs.Filter.Delivery
import ContainerLayer.Proofs.Filter.Heeding

/-
A filter that is canceled while its two parties are at work.

To cancel a filter is to cancel its source and then to fail its pipe, and other turns may come
in between.  A read of the source takes two turns here: once it has begun, it comes to what it
comes to even if the source is canceled meanwhile.

A producer is on course if nothing that was canceled has reached it: what it has still to do is
what it would do if it were left alone.  Otherwise it is doomed, and ends with the fault of a
cancel.  Every turn keeps that it is one or the other (`Canceling.Sound.turn`).
-/

namespace ContainerLayer

namespace Cancelable

variable {σ : Type} [Reader σ]

/-- Reads do not cancel a reader. -/
theorem canceled_read (n : Nat) (s : Cancelable σ) : (Reader.read n s).2.canceled = s.canceled := by
  show (s.read n).2.canceled = s.canceled
  unfold read
  split
  · rfl
  · rename_i h
    exact h.symm ▸ rfl

end Cancelable

/-- Does the producer want to read from its source? -/
def Producer.asks {δ : Type} : Producer δ → Bool
  | .running (.read _ _ _) => true
  | _ => false

/-- The producer ends with the first fault that it is told of. -/
def Producer.Heeds {δ : Type} : Producer δ → Prop
  | .running p => p.Heeds Filter.Reports
  | .writing _ _ next => Relay.Stops Filter.Reports next ∧ (next (.ok ())).Heeds Filter.Reports
  | .ended _ _ => True

namespace Filtered

variable {σ δ : Type}

/-- The same filter, whatever canceled its source. -/
def marked (canceled : Option Fault) (s : Filtered σ δ) : Filtered σ δ :=
  { s with source := ⟨s.source.inner, canceled⟩ }

variable [Reader σ]

/-- A read of the source that has begun comes to what it does, whether the source was canceled
meanwhile or not. -/
def resume (s : Filtered σ δ) : Filtered σ δ := ((s.marked none).turn).marked s.source.canceled

theorem asks_iff {p : Producer δ} :
    p.asks = true ↔ ∃ n patient next, p = .running (.read n patient next) := by
  constructor
  · intro h
    cases p with
    | running p =>
      cases p with
      | read n patient next => exact ⟨n, patient, next, rfl⟩
      | _ => cases h
    | _ => cases h
  · rintro ⟨n, patient, next, rfl⟩
    rfl

theorem canceled_turn (s : Filtered σ δ) : s.turn.source.canceled = s.source.canceled := by
  obtain ⟨source, pipe, producer⟩ := s
  refine of_turned (P := fun s' => s'.source.canceled = source.canceled) fun s' ht => ?_
  cases ht with
  | @reads n _ _ _ _ hr =>
    have hread := Cancelable.canceled_read n source
    rwa [hr] at hread
  | @retries n _ _ _ hr =>
    have hread := Cancelable.canceled_read n source
    rwa [hr] at hread
  | _ => rfl

/-- A turn in which nothing is read does not look at the source. -/
theorem turn_marked {s : Filtered σ δ} (h : s.producer.asks = false) (canceled : Option Fault) :
    (s.marked canceled).turn = s.turn.marked canceled := by
  obtain ⟨source, pipe, producer⟩ := s
  cases producer with
  | ended outcome d => rfl
  | running p =>
    cases p with
    | done o => rfl
    | read n patient next => cases h
    | write b next =>
      unfold turn marked
      dsimp only
      split <;> rfl
  | writing left c next =>
    unfold turn marked
    dsimp only
    split <;> rfl

theorem heeds_turn {s : Filtered σ δ} (h : s.producer.Heeds) : s.turn.producer.Heeds := by
  obtain ⟨source, pipe, producer⟩ := s
  refine of_turned (P := fun s' => s'.producer.Heeds) fun s' ht => ?_
  cases ht with
  | stays => trivial
  | ends => trivial
  | @reads _ _ r _ _ _ =>
    cases r with
    | ok b => exact h.2 b
    | error f => exact h.1.heeds f
  | retries => exact h
  | passes => exact h.2
  | begins => exact h
  | waits => exact h
  | @returns _ _ r _ _ _ =>
    cases r with
    | ok u => exact h.2
    | error f => exact h.1.heeds f

end Filtered

namespace Pipe

/-- The pipe was failed with a fault that has `F`, and nothing is left of what it held. -/
def FailedBy (F : Fault → Prop) (p : Pipe) : Prop := ∃ f, F f ∧ p = ⟨[], 0, some (.failed f)⟩

variable {F : Fault → Prop} {p : Pipe}

theorem FailedBy.pending (h : p.FailedBy F) : p.pending = [] := by
  obtain ⟨f, -, rfl⟩ := h
  rfl

/-- A write of at least one byte fails, whatever has come of it. -/
theorem FailedBy.lookAll (h : p.FailedBy F) {c : Call} (hc : c ≠ .entering []) (left : Bytes) :
    ∃ f, F f ∧ lookAll left c p = (.returns (.error (.shared f)), p) := by
  obtain ⟨f, hf, rfl⟩ := h
  exact ⟨f, hf, lookAll_error (advance_failed hc rfl)⟩

theorem pending_close (h : p.pending = []) (o : Except Fault Unit) : (p.close o).pending = [] := by
  unfold Pipe.close
  split
  · exact h
  · exact h
  · rfl

end Pipe

namespace Filtered

variable {σ δ : Type} [Reader σ] {F : Fault → Prop}
  {result : Except Fault FilterStats × δ} {rest : Cancelable σ} {written received : Bytes}
  {s : Filtered σ δ}

/-- What was canceled makes no difference yet: with its source as it would be if nobody had
canceled it, the producer has the rest of `written` still to hand out and comes to `result` and
`rest`.  The pipe may have been failed, but then the producer has yet to find that out. -/
def OnCourse (F : Fault → Prop) (result : Except Fault FilterStats × δ) (rest : Cancelable σ)
    (written received : Bytes) (s : Filtered σ δ) : Prop :=
  match s.producer with
  | .running p =>
    (s.pipe.closing = none ∧ s.pipe.pending = [] ∨ s.pipe.FailedBy F)
      ∧ ∃ more, Goes p ⟨s.source.inner, none⟩ result rest more ∧ received ++ more = written
  | .writing _ c _ =>
    (∃ more, (s.marked none).Due result rest more ∧ received ++ more = written)
      ∨ c ≠ .entering [] ∧ s.pipe.FailedBy F
  | .ended outcome d =>
    result = (outcome, d) ∧ ⟨s.source.inner, none⟩ = rest ∧ received = written
      ∧ s.pipe.pending = []

/-- The producer ends, or has ended, with a fault that it was told of by a cancel. -/
def Doomed (F : Fault → Prop) (s : Filtered σ δ) : Prop :=
  ∃ f d, F f ∧ (s.producer = .running (.done (.error (.shared f), d))
    ∨ s.producer = .ended (.error (.shared f)) d)

omit [Reader σ] in
theorem Doomed.of_stops {γ : Type} {next : Except Fault γ → Relay (Except Fault FilterStats × δ)}
    (h : Relay.Stops Filter.Reports next) {f : Fault} (hf : F f)
    (hs : s.producer = .running (next (.error (.shared f)))) : s.Doomed F := by
  obtain ⟨⟨outcome, d⟩, ha, rfl⟩ := h (.shared f)
  exact ⟨f, d, hf, .inl (by rw [hs, ha])⟩

theorem Doomed.turn (h : s.Doomed F) : s.turn.Doomed F := by
  obtain ⟨f, d, hf, h⟩ := h
  obtain ⟨source, pipe, producer⟩ := s
  dsimp only at h
  rcases h with rfl | rfl
  · exact ⟨f, d, hf, .inr rfl⟩
  · exact ⟨f, d, hf, .inr rfl⟩

theorem onCourse_start (source : σ) (decide : Decision δ) (d : δ) :
    let o := (Filter.produce decide d).run source
    OnCourse F o.result ⟨o.rest, none⟩ o.written [] (start source decide d) := by
  intro o
  have hrun := Relay.run_cancelable (Filter.produce decide d) source
  exact ⟨.inl ⟨rfl, rfl⟩, o.written, ⟨congrArg Relay.Outcome.result hrun,
    congrArg Relay.Outcome.rest hrun, congrArg Relay.Outcome.written hrun⟩, rfl⟩

/-- Where the producer has not come to its end, and the pipe was not failed. -/
theorem OnCourse.of_due {more : Bytes} (h : (s.marked none).Due result rest more)
    (hmore : received ++ more = written) (hended : ∀ outcome d, s.producer ≠ .ended outcome d) :
    OnCourse F result rest written received s := by
  obtain ⟨source, pipe, producer⟩ := s
  cases producer with
  | running p => exact ⟨.inl ⟨h.1, h.2.1⟩, more, h.2.2, hmore⟩
  | writing left c next => exact .inl ⟨more, h, hmore⟩
  | ended outcome d => exact absurd rfl (hended outcome d)

theorem OnCourse.turn_done {o : Except Fault FilterStats × δ} {source : Cancelable σ} {pipe : Pipe}
    (h : OnCourse F result rest written received ⟨source, pipe, .running (.done o)⟩) :
    OnCourse F result rest written received (turn ⟨source, pipe, .running (.done o)⟩) := by
  obtain ⟨hpipe, more, ⟨rfl, rfl, rfl⟩, hmore⟩ := h
  have hp : pipe.pending = [] := hpipe.elim And.right Pipe.FailedBy.pending
  exact ⟨rfl, rfl, (List.append_nil _).symm.trans hmore, Pipe.pending_close hp _⟩

theorem OnCourse.turn_read {n : Nat} {patient : Bool}
    {next : Except Fault Bytes → Relay (Except Fault FilterStats × δ)} {source : Cancelable σ}
    {pipe : Pipe} (hopen : source.canceled = none)
    (h : OnCourse F result rest written received ⟨source, pipe, .running (.read n patient next)⟩) :
    OnCourse F result rest written received
      (turn ⟨source, pipe, .running (.read n patient next)⟩) := by
  obtain ⟨hpipe, more, hgoes, hmore⟩ := h
  have hcanceled := canceled_turn (⟨source, pipe, .running (.read n patient next)⟩ : Filtered σ δ)
  obtain ⟨inner, canceled⟩ := source
  dsimp only at hopen
  subst hopen
  rcases turn_read_cases n patient next ⟨inner, none⟩ pipe with
    ⟨r, ⟨inner', canceled⟩, hanswer, hturn⟩ | ⟨⟨inner', canceled⟩, -, hanswer, hturn⟩
  · rw [hturn] at hcanceled ⊢
    cases hcanceled
    exact ⟨hpipe, more, hgoes.of_answer hanswer, hmore⟩
  · rw [hturn] at hcanceled ⊢
    cases hcanceled
    exact ⟨hpipe, more, hgoes.of_retry hanswer, hmore⟩

theorem OnCourse.turn_write {b : Bytes}
    {next : Except Fault Unit → Relay (Except Fault FilterStats × δ)} {source : Cancelable σ}
    {pipe : Pipe}
    (h : OnCourse F result rest written received ⟨source, pipe, .running (.write b next)⟩) :
    OnCourse F result rest written received (turn ⟨source, pipe, .running (.write b next)⟩) := by
  obtain ⟨hpipe, more, hgoes, hmore⟩ := h
  obtain ⟨later, rfl, hlater⟩ := hgoes.of_write
  by_cases hb : b = []
  · rw [Filtered.turn_write_nil hb]
    subst hb
    exact ⟨hpipe, later, hlater, hmore⟩
  · rw [Filtered.turn_write hb]
    rcases hpipe with ⟨hopen, hp⟩ | hfailed
    · exact .inl ⟨_, ⟨hopen, hb, later, hlater, rfl, hp, rfl⟩, hmore⟩
    · exact .inr ⟨fun e => hb (Pipe.Call.entering.inj e), hfailed⟩

/-- A write goes on, unless the pipe has been failed. -/
theorem OnCourse.turn_writing {left : Bytes} {c : Pipe.Call}
    {next : Except Fault Unit → Relay (Except Fault FilterStats × δ)} {source : Cancelable σ}
    {pipe : Pipe} (hstops : Relay.Stops Filter.Reports next)
    (h : OnCourse F result rest written received ⟨source, pipe, .writing left c next⟩) :
    OnCourse F result rest written received (turn ⟨source, pipe, .writing left c next⟩)
      ∨ (turn ⟨source, pipe, .writing left c next⟩).Doomed F := by
  rcases h with ⟨more, hdue, hmore⟩ | ⟨hc, hfailed⟩
  · have hdue := hdue.turn
    rw [turn_marked rfl] at hdue
    refine .inl (.of_due hdue hmore fun outcome d => ?_)
    refine of_turned (P := fun s' => s'.producer ≠ .ended outcome d) fun s' ht => ?_
    cases ht with
    | waits => exact fun e => by cases e
    | returns => exact fun e => by cases e
  · obtain ⟨f, hf, hlook⟩ := hfailed.lookAll hc left
    refine .inr (of_turned (P := fun s' => s'.Doomed F) fun s' ht => ?_)
    cases ht with
    | waits hl => cases hl.symm.trans hlook
    | returns hl =>
      cases hl.symm.trans hlook
      exact .of_stops hstops hf rfl

theorem OnCourse.turn (h : OnCourse F result rest written received s) (hheeds : s.producer.Heeds)
    (hasks : s.producer.asks = true → s.source.canceled = none) :
    OnCourse F result rest written received s.turn ∨ s.turn.Doomed F := by
  obtain ⟨source, pipe, producer⟩ := s
  cases producer with
  | ended outcome d => exact .inl h
  | running p =>
    cases p with
    | done o => exact .inl h.turn_done
    | read n patient next => exact .inl (h.turn_read (hasks rfl))
    | write b next => exact .inl h.turn_write
  | writing left c next => exact h.turn_writing hheeds.1

theorem OnCourse.marked (h : OnCourse F result rest written received s) (canceled : Option Fault) :
    OnCourse F result rest written received (s.marked canceled) := by
  obtain ⟨source, pipe, producer⟩ := s
  cases producer <;> exact h

/-- Only a producer that is writing to a pipe that was not failed has put something there. -/
theorem OnCourse.read (h : OnCourse F result rest written received s) {n : Nat} {b : Bytes}
    {pipe : Pipe} (hb : b ≠ []) (hr : s.pipe.read n = (some (.ok b), pipe)) :
    OnCourse F result rest written (received ++ b) { s with pipe } := by
  have hp : s.pipe.pending ≠ [] := by
    rw [(Pipe.of_read_ok hr).1]
    exact fun e => hb (List.append_eq_nil_iff.mp e).1
  obtain ⟨source, pipe₀, producer⟩ := s
  cases producer with
  | running p => exact absurd (h.1.elim And.right Pipe.FailedBy.pending) hp
  | ended outcome d => exact absurd h.2.2.2 hp
  | writing left c next =>
    rcases h with ⟨more, hdue, hmore⟩ | ⟨-, hfailed⟩
    · obtain ⟨later, rfl, hlater⟩ := hdue.read hr
      exact .inl ⟨later, hlater, by rw [List.append_assoc, hmore]⟩
    · exact absurd hfailed.pending hp

theorem OnCourse.fail (h : OnCourse F result rest written received s) {f : Fault} (hf : F f) :
    OnCourse F result rest written received { s with pipe := s.pipe.fail f } := by
  have hfailed : (s.pipe.fail f).FailedBy F := ⟨f, hf, rfl⟩
  obtain ⟨source, pipe, producer⟩ := s
  cases producer with
  | running p => exact ⟨.inr hfailed, h.2⟩
  | ended outcome d => exact ⟨h.1, h.2.1, h.2.2.1, rfl⟩
  | writing left c next =>
    refine .inr ⟨?_, hfailed⟩
    rcases h with ⟨more, ⟨-, hleft, later, -, hc⟩, -⟩ | ⟨hc, -⟩
    · cases c with
      | entering data => exact fun e => hleft (hc.1.symm.trans (Pipe.Call.entering.inj e))
      | sent n => nofun
    · exact hc

/-- A read of a source that was canceled is the end of a producer. -/
theorem doomed_of_canceled (hheeds : s.producer.Heeds) (hasks : s.producer.asks = true) {f : Fault}
    (hf : F f) (hc : s.source.canceled = some f) : s.turn.Doomed F := by
  obtain ⟨n, patient, next, hp⟩ := asks_iff.mp hasks
  obtain ⟨source, pipe, producer⟩ := s
  dsimp only at hp hc
  subst hp
  refine .of_stops hheeds.1 hf ?_
  unfold turn
  dsimp only
  rw [show Reader.read n source = _ from Cancelable.read_of_canceled hc n]
  dsimp only
  rw [Fault.isInterrupted_shared, Bool.and_false, if_neg Bool.false_ne_true]

/-- What is true at any time of a filter that is only canceled with faults that have `F`. -/
structure Sound (F : Fault → Prop) (result : Except Fault FilterStats × δ) (rest : Cancelable σ)
    (written received : Bytes) (s : Filtered σ δ) : Prop where
  heeds : s.producer.Heeds
  canceled : ∀ f, s.source.canceled = some f → F f
  course : s.OnCourse F result rest written received ∨ s.Doomed F

theorem sound_start (source : σ) (decide : Decision δ) (d : δ) :
    let o := (Filter.produce decide d).run source
    Sound F o.result ⟨o.rest, none⟩ o.written [] (start source decide d) where
  heeds := Filter.heeds_produce decide d
  canceled _ e := nomatch e
  course := .inl (onCourse_start source decide d)

/-- A turn of the producer in which no read of the source begins that is let through. -/
theorem Sound.turn (h : Sound F result rest written received s)
    (hasks : s.producer.asks = true → ∃ f, s.source.canceled = some f) :
    Sound F result rest written received s.turn where
  heeds := heeds_turn h.heeds
  canceled := by
    rw [canceled_turn]
    exact h.canceled
  course := by
    cases ha : s.producer.asks with
    | true =>
      obtain ⟨f, hf⟩ := hasks ha
      exact .inr (doomed_of_canceled h.heeds ha (h.canceled f hf) hf)
    | false =>
      exact h.course.elim (fun hc => hc.turn h.heeds fun e => nomatch ha.symm.trans e)
        fun hd => .inr hd.turn

/-- A read of the source that was let through comes back. -/
theorem Sound.resume (h : Sound F result rest written received s) :
    Sound F result rest written received s.resume where
  heeds := heeds_turn (s := s.marked none) h.heeds
  canceled := h.canceled
  course := by
    rcases h.course with hc | hd
    · exact ((hc.marked none).turn h.heeds fun _ => rfl).imp (fun hc => hc.marked _) id
    · exact .inr (Doomed.turn (s := s.marked none) hd)

theorem Sound.read (h : Sound F result rest written received s) {n : Nat} {b : Bytes} {pipe : Pipe}
    (hb : b ≠ []) (hr : s.pipe.read n = (some (.ok b), pipe)) :
    Sound F result rest written (received ++ b) { s with pipe } where
  heeds := h.heeds
  canceled := h.canceled
  course := h.course.imp (fun hc => hc.read hb hr) id

theorem Sound.poison (h : Sound F result rest written received s) {f : Fault} (hf : F f) :
    Sound F result rest written received (s.poison f) where
  heeds := h.heeds
  canceled _ e := Option.some.inj e ▸ hf
  course := h.course.imp (fun hc => hc.marked (some f)) id

theorem Sound.fail (h : Sound F result rest written received s) {f : Fault} (hf : F f) :
    Sound F result rest written received { s with pipe := s.pipe.fail f } where
  heeds := h.heeds
  canceled := h.canceled
  course := h.course.imp (fun hc => hc.fail hf) id

end Filtered

/-! ## Turns -/

namespace Filter

/-- A turn of the producer, a read of at most `n` bytes by the consumer, or half of a cancel. -/
inductive Canceling.Turn where
  | produce
  | read (n : Nat)
  /-- From now on no read of the source begins. -/
  | poison (f : Fault)
  | fail (f : Fault)

/-- What the filter is canceled with. -/
def Canceling.Turn.fault? : Canceling.Turn → Option Fault
  | .poison f => some f
  | .fail f => some f
  | _ => none

/-- A filter at work that somebody may cancel. -/
structure Canceling (σ δ : Type) extends Delivery σ δ where
  /-- The producer has begun to read from its source, and the read has not come back. -/
  reading : Bool := false

namespace Canceling

variable {σ δ : Type}

/-- The filter without the parties that work on it. -/
abbrev filtered (s : Canceling σ δ) : Filtered σ δ := s.working.filtered

/-- The same with other ends of the filter. -/
def withFiltered (s : Canceling σ δ) (filtered : Filtered σ δ) : Canceling σ δ :=
  { s with working := { s.working with filtered } }

def start (source : σ) (decide : Decision δ) (d : δ) : Canceling σ δ :=
  { Delivery.start source decide d with }

variable [Reader σ]

def produce (s : Canceling σ δ) : Canceling σ δ :=
  if s.reading then { s.withFiltered s.filtered.resume with reading := false }
  else if s.filtered.producer.asks && s.filtered.source.canceled.isNone then
    { s with reading := true }
  else { s with toDelivery := s.toDelivery.turn .produce }

def turn (s : Canceling σ δ) : Turn → Canceling σ δ
  | .produce => s.produce
  | .read n => { s with toDelivery := s.toDelivery.turn (.read n) }
  | .poison f => s.withFiltered (s.filtered.poison f)
  | .fail f => s.withFiltered { s.filtered with pipe := s.filtered.pipe.fail f }

/-- What is true of it at any time, if it is only canceled with faults that have `F`. -/
structure Sound (F : Fault → Prop) (result : Except Fault FilterStats × δ) (rest : Cancelable σ)
    (written : Bytes) (s : Canceling σ δ) : Prop where
  sane : s.working.Sane
  asks : s.reading = true → s.filtered.producer.asks = true
  filtered : s.filtered.Sound F result rest written s.received

variable {F : Fault → Prop} {result : Except Fault FilterStats × δ} {rest : Cancelable σ}
  {written : Bytes} {s : Canceling σ δ}

theorem sound_start (source : σ) (decide : Decision δ) (d : δ) :
    let o := (Filter.produce decide d).run source
    Sound F o.result ⟨o.rest, none⟩ o.written (start source decide d) where
  sane := Working.sane_start _ _
  asks e := nomatch e
  filtered := Filtered.sound_start source decide d

theorem not_ended_of_asks {p : Producer δ} (h : p.asks = true) (outcome : Except Fault FilterStats)
    (d : δ) : p ≠ .ended outcome d := by
  rintro rfl
  cases h

/-- The read of the source that has begun comes back. -/
theorem Sound.resume (h : Sound F result rest written s) (hreading : s.reading = true) :
    Sound F result rest written { s.withFiltered s.filtered.resume with reading := false } where
  sane := by
    have hne := not_ended_of_asks (h.asks hreading)
    have hsane : Working.Sane { s.working with filtered := s.filtered.marked none } :=
      h.sane.of_pipe id
    have hturn := hsane.produce
    rw [Working.produce_of_not_ended
      (w := { s.working with filtered := s.filtered.marked none }) (h.sane.gone_eq_false hne) hne]
      at hturn
    exact hturn.of_pipe id
  asks e := nomatch e
  filtered := h.filtered.resume

/-- A turn of the producer in which no read of the source begins that is let through. -/
theorem Sound.work (h : Sound F result rest written s) (hreading : s.reading = false)
    (hasks : s.filtered.producer.asks = true → ∃ f, s.filtered.source.canceled = some f) :
    Sound F result rest written { s with toDelivery := s.toDelivery.turn .produce } where
  sane := h.sane.produce
  asks e := nomatch hreading.symm.trans e
  filtered := by
    show s.working.produce.filtered.Sound F result rest written s.received
    rcases h.sane.filtered_produce with e | e
    · rw [e]
      exact h.filtered
    · rw [e]
      exact h.filtered.turn hasks

theorem Sound.produce (h : Sound F result rest written s) :
    Sound F result rest written (s.turn .produce) := by
  show Sound F result rest written s.produce
  unfold Canceling.produce
  split
  · rename_i hreading
    exact h.resume hreading
  rename_i hreading
  split
  · rename_i hasks
    exact ⟨h.sane, fun _ => ((Bool.and_eq_true _ _).mp hasks).1, h.filtered⟩
  · rename_i hasks
    refine h.work (Bool.eq_false_iff.mpr hreading) fun ha => ?_
    rw [ha, Bool.true_and, Option.isNone_iff_eq_none] at hasks
    exact Option.ne_none_iff_exists'.mp hasks

/-- A read by the consumer returns bytes, or changes nothing. -/
theorem turn_read_cases (s : Canceling σ δ) (n : Nat) :
    s.turn (.read n) = s ∨ ∃ b pipe, b ≠ [] ∧ s.filtered.pipe.read n = (some (.ok b), pipe)
      ∧ s.turn (.read n) = { s.withFiltered { s.filtered with pipe } with
        received := s.received ++ b } := by
  rcases Delivery.turn_read_cases s.toDelivery n with e | ⟨b, pipe, hb, hr⟩
  · exact .inl (congrArg (fun d => { s with toDelivery := d }) e)
  · exact .inr ⟨b, pipe, hb, hr,
      congrArg (fun d => { s with toDelivery := d }) (Delivery.turn_read_of_ok hr)⟩

theorem Sound.read (h : Sound F result rest written s) (n : Nat) :
    Sound F result rest written (s.turn (.read n)) := by
  rcases turn_read_cases s n with e | ⟨b, pipe, hb, hr, e⟩
  · rwa [e]
  · rw [e]
    refine ⟨h.sane.of_pipe fun hc => ?_, h.asks, h.filtered.read hb hr⟩
    have hclosing := (Pipe.of_read_ok hr).2.1
    unfold Pipe.isClosed at hc ⊢
    rwa [hclosing]

theorem Sound.poison (h : Sound F result rest written s) {f : Fault} (hf : F f) :
    Sound F result rest written (s.turn (.poison f)) :=
  ⟨h.sane.of_pipe id, h.asks, h.filtered.poison hf⟩

theorem Sound.fail (h : Sound F result rest written s) {f : Fault} (hf : F f) :
    Sound F result rest written (s.turn (.fail f)) :=
  ⟨h.sane.of_pipe fun _ => rfl, h.asks, h.filtered.fail hf⟩

theorem Sound.turn (h : Sound F result rest written s) (t : Turn)
    (hF : ∀ f, t.fault? = some f → F f) : Sound F result rest written (s.turn t) := by
  cases t with
  | produce => exact h.produce
  | read n => exact h.read n
  | poison f => exact h.poison (hF f rfl)
  | fail f => exact h.fail (hF f rfl)

theorem Sound.turns (h : Sound F result rest written s) (ts : List Turn)
    (hF : ∀ t ∈ ts, ∀ f, t.fault? = some f → F f) :
    Sound F result rest written (ts.foldl Canceling.turn s) :=
  List.foldlRecOn ts Canceling.turn h fun _ h t ht => h.turn t (hF t ht)

end Canceling
end Filter
end ContainerLayer
