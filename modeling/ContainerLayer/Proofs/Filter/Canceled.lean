import ContainerLayer.Proofs.Filter.Canceling
import ContainerLayer.Proofs.Stream.Changes

/-
What is left of a filter that was canceled.

Once both halves of a cancel are over, the consumer reads nothing but its fault.  The producer
reads no more of its source, none of its writes goes through, and it is gone after finitely many
turns.  What it hands back is the fault of the cancel, unless there was nothing left to read or
to write for it before (`canceling_outcome`).
-/

namespace ContainerLayer

namespace Pipe

/-- A write leaves a closed pipe as it is. -/
theorem snd_advance_of_closed {p : Pipe} {k : Closing} (hk : p.closing = some k) (c : Call) :
    (advance c p).2 = p := by
  have h := looks c p
  revert h
  generalize (advance c p).1 = g
  generalize (advance c p).2 = p'
  intro h
  cases h with
  | puts hd hopen hp => cases hopen.symm.trans hk
  | _ => rfl

end Pipe

namespace Filtered

variable {σ δ : Type} [Reader σ] {s : Filtered σ δ} {f : Fault}

/-- A source that was canceled stays as it is. -/
theorem source_turn_of_canceled (hc : s.source.canceled = some f) : s.turn.source = s.source := by
  obtain ⟨source, pipe, producer⟩ := s
  refine of_turned (P := fun s' => s'.source = source) fun s' ht => ?_
  cases ht with
  | @reads n _ _ _ _ hr =>
    cases hr.symm.trans (Cancelable.read_of_canceled hc n)
    rfl
  | @retries n _ _ _ hr =>
    cases hr.symm.trans (Cancelable.read_of_canceled hc n)
    rfl
  | _ => rfl

/-- What a read that had begun leaves of the source. -/
theorem inner_resume {n : Nat} {patient : Bool}
    {next : Except Fault Bytes → Relay (Except Fault FilterStats × δ)}
    (hp : s.producer = .running (.read n patient next)) :
    s.resume.source.inner = (Reader.read n s.source.inner).2 := by
  obtain ⟨⟨inner, canceled⟩, pipe, producer⟩ := s
  dsimp only at hp
  subst hp
  have hread : Reader.read n (⟨inner, none⟩ : Cancelable σ)
      = ((Reader.read n inner).1, ⟨(Reader.read n inner).2, none⟩) := Cancelable.read_of_open rfl n
  unfold resume turn marked
  dsimp only
  rw [hread]
  cases (Reader.read n inner).1 with
  | ok b => rfl
  | error g =>
    dsimp only
    split <;> rfl

/-- The producer can do nothing about a pipe that was failed. -/
theorem pipe_turn_of_failed (hp : s.pipe = ⟨[], 0, some (.failed f)⟩) : s.turn.pipe = s.pipe := by
  obtain ⟨source, pipe, producer⟩ := s
  dsimp only at hp
  subst hp
  have hlook {left : Bytes} {c : Pipe.Call} {g : Pipe.Progress.All} {pipe : Pipe}
      (hl : Pipe.lookAll left c ⟨[], 0, some (.failed f)⟩ = (g, pipe)) :
      pipe = ⟨[], 0, some (.failed f)⟩ := by
    have hsnd := Pipe.lookAll_snd left c ⟨[], 0, some (.failed f)⟩
    rwa [hl, Pipe.snd_advance_of_closed rfl c] at hsnd
  refine of_turned (P := fun s' => s'.pipe = ⟨[], 0, some (.failed f)⟩) fun s' ht => ?_
  cases ht with
  | waits hl => exact hlook hl
  | returns hl => exact hlook hl
  | _ => rfl

end Filtered

namespace Filter.Canceling

variable {σ δ : Type} [Reader σ] {F : Fault → Prop} {result : Except Fault FilterStats × δ}
  {rest : Cancelable σ} {written : Bytes} {s s₁ : Canceling σ δ} {f : Fault}

/-- No read of a source that was canceled begins. -/
theorem produce_of_canceled (hreading : s.reading = false)
    (hc : s.filtered.source.canceled = some f) :
    s.turn .produce = { s with toDelivery := s.toDelivery.turn .produce } := by
  show s.produce = _
  unfold produce
  rw [hreading, hc, Option.isNone_some, Bool.and_false]
  rfl

theorem Sound.filtered_produce (h : Sound F result rest written s) (hreading : s.reading = false)
    (hc : s.filtered.source.canceled = some f) :
    (s.turn .produce).filtered = s.filtered ∨ (s.turn .produce).filtered = s.filtered.turn := by
  rw [produce_of_canceled hreading hc]
  exact h.sane.filtered_produce.imp id (congrArg Working.filtered)

theorem Sound.source_produce (h : Sound F result rest written s) (hreading : s.reading = false)
    (hc : s.filtered.source.canceled = some f) :
    (s.turn .produce).filtered.source = s.filtered.source := by
  rcases h.filtered_produce hreading hc with e | e
  · rw [e]
  · rw [e, Filtered.source_turn_of_canceled hc]

theorem received_produce (s : Canceling σ δ) : (s.turn .produce).received = s.received := by
  show s.produce.received = s.received
  unfold produce
  split
  · rfl
  split <;> rfl

/-! ## The source -/

/-- Since its source was canceled in `s₁`, no read of it has begun. -/
structure Held (s₁ s : Canceling σ δ) : Prop where
  canceled : ∃ g, s.filtered.source.canceled = some g
  source : s.reading = s₁.reading ∧ s.filtered.source.inner = s₁.filtered.source.inner
      ∧ (s.reading = true → s.filtered.producer = s₁.filtered.producer)
    ∨ s.reading = false ∧ ∃ n patient next, s₁.reading = true
      ∧ s₁.filtered.producer = .running (.read n patient next)
      ∧ s.filtered.source.inner = (Reader.read n s₁.filtered.source.inner).2

omit [Reader σ] in
theorem held_poison [Reader σ] (s : Canceling σ δ) (f : Fault) : Held s (s.turn (.poison f)) :=
  ⟨⟨f, rfl⟩, .inl ⟨rfl, rfl, fun _ => rfl⟩⟩

/-- Where nothing changes for the producer, and its source is not touched. -/
theorem Held.of_eq {s' : Canceling σ δ} (h : Held s₁ s)
    (hc : ∃ g, s'.filtered.source.canceled = some g) (hreading : s'.reading = s.reading)
    (hinner : s'.filtered.source.inner = s.filtered.source.inner)
    (hproducer : s.reading = true → s'.filtered.producer = s.filtered.producer) : Held s₁ s' := by
  refine ⟨hc, h.source.imp ?_ ?_⟩
  · rintro ⟨h₁, h₂, h₃⟩
    exact ⟨hreading.trans h₁, hinner.trans h₂, fun e =>
      (hproducer (hreading.symm.trans e)).trans (h₃ (hreading.symm.trans e))⟩
  · rintro ⟨h₁, n, patient, next, h₂, h₃, h₄⟩
    exact ⟨hreading.trans h₁, n, patient, next, h₂, h₃, hinner.trans h₄⟩

/-- The read that had begun comes back. -/
theorem Held.resume (h : Held s₁ s) (hreading : s.reading = true)
    (hasks : s.filtered.producer.asks = true) :
    Held s₁ { s.withFiltered s.filtered.resume with reading := false } := by
  refine ⟨h.canceled, .inr ⟨rfl, ?_⟩⟩
  obtain ⟨n, patient, next, hp⟩ := Filtered.asks_iff.mp hasks
  rcases h.source with ⟨hsame, hinner, hproducer⟩ | ⟨hnot, -⟩
  · refine ⟨n, patient, next, hsame.symm.trans hreading, (hproducer hreading).symm.trans hp, ?_⟩
    rw [← hinner]
    exact Filtered.inner_resume hp
  · cases hreading.symm.trans hnot

theorem Sound.held_produce (h : Sound F result rest written s) (hheld : Held s₁ s) :
    Held s₁ (s.turn .produce) := by
  cases hreading : s.reading with
  | true =>
    rw [show s.turn .produce = _ from if_pos hreading]
    exact hheld.resume hreading (h.asks hreading)
  | false =>
    obtain ⟨g, hg⟩ := hheld.canceled
    have hsource := h.source_produce hreading hg
    refine hheld.of_eq ⟨g, by rw [hsource, hg]⟩ ?_ (by rw [hsource])
      fun e => nomatch hreading.symm.trans e
    rw [produce_of_canceled hreading hg]

theorem Sound.held_turn (h : Sound F result rest written s) (hheld : Held s₁ s) (t : Turn) :
    Held s₁ (s.turn t) := by
  cases t with
  | produce => exact h.held_produce hheld
  | poison f => exact hheld.of_eq ⟨f, rfl⟩ rfl rfl fun _ => rfl
  | fail f => exact hheld.of_eq hheld.canceled rfl rfl fun _ => rfl
  | read n =>
    rcases turn_read_cases s n with e | ⟨b, pipe, -, -, e⟩
    · rwa [e]
    · rw [e]
      exact hheld.of_eq hheld.canceled rfl rfl fun _ => rfl

theorem Sound.held_turns (h : Sound F result rest written s) (hheld : Held s₁ s) (ts : List Turn)
    (hF : ∀ t ∈ ts, ∀ f, t.fault? = some f → F f) : Held s₁ (ts.foldl Canceling.turn s) :=
  (List.foldlRecOn ts Canceling.turn
    (motive := fun s' => Sound F result rest written s' ∧ Held s₁ s') ⟨h, hheld⟩
    fun _ hs t ht => ⟨hs.1.turn t (hF t ht), hs.1.held_turn hs.2 t⟩).2

/-! ## The pipe -/

/-- Both halves of a cancel are over, and the pipe was failed with `f` last. -/
structure Over (f : Fault) (s : Canceling σ δ) : Prop where
  source : ∃ g, s.filtered.source.canceled = some g
  pipe : s.filtered.pipe = ⟨[], 0, some (.failed f)⟩

theorem Over.read (h : s.Over f) (n : Nat) : s.turn (.read n) = s := by
  rcases turn_read_cases s n with e | ⟨b, pipe, hb, hr, -⟩
  · exact e
  · exact absurd ((Pipe.of_read_ok hr).2.2.2.1 f (by rw [h.pipe])) hb

theorem Sound.over_produce (h : Sound F result rest written s) (ho : s.Over f) :
    (s.turn .produce).Over f := by
  obtain ⟨g, hg⟩ := ho.source
  cases hreading : s.reading with
  | true =>
    rw [show s.turn .produce = _ from if_pos hreading]
    exact ⟨ho.source,
      (Filtered.pipe_turn_of_failed (s := s.filtered.marked none) ho.pipe).trans ho.pipe⟩
  | false =>
    refine ⟨⟨g, by rw [h.source_produce hreading hg, hg]⟩, ?_⟩
    rcases h.filtered_produce hreading hg with e | e
    · rw [e, ho.pipe]
    · rw [e, Filtered.pipe_turn_of_failed ho.pipe, ho.pipe]

/-- Until the pipe is failed again, nothing is received any more. -/
theorem Sound.over_turn (h : Sound F result rest written s) (ho : s.Over f) {t : Turn}
    (ht : ∀ g, t ≠ .fail g) : (s.turn t).Over f ∧ (s.turn t).received = s.received := by
  cases t with
  | produce => exact ⟨h.over_produce ho, received_produce s⟩
  | poison g => exact ⟨⟨⟨g, rfl⟩, ho.pipe⟩, rfl⟩
  | fail g => exact absurd rfl (ht g)
  | read n =>
    rw [ho.read]
    exact ⟨ho, rfl⟩

theorem Sound.over_turns (h : Sound F result rest written s) (ho : s.Over f) (ts : List Turn)
    (hF : ∀ t ∈ ts, ∀ g, t.fault? = some g → F g) (hts : ∀ t ∈ ts, ∀ g, t ≠ .fail g) :
    (ts.foldl Canceling.turn s).Over f ∧ (ts.foldl Canceling.turn s).received = s.received := by
  refine (List.foldlRecOn ts Canceling.turn (motive := fun s' =>
    Sound F result rest written s' ∧ s'.Over f ∧ s'.received = s.received) ⟨h, ho, rfl⟩ ?_).2
  rintro s' ⟨h', ho', hsame⟩ t ht
  obtain ⟨hover, hreceived⟩ := h'.over_turn ho' (hts t ht)
  exact ⟨h'.turn t (hF t ht), hover, hreceived.trans hsame⟩

omit [Reader σ] in
/-- The consumer finds the fault. -/
theorem Over.read_error (h : s.Over f) {n : Nat} (hn : n ≠ 0) :
    (s.working.read n).1 = some (.error (.shared f)) := by
  show (s.filtered.pipe.read n).1 = _
  rw [Pipe.read_failed hn (by rw [h.pipe])]

theorem Sound.ne_nothing (h : Sound F result rest written s) (ho : s.Over f) {left : Bytes}
    {c : Pipe.Call} {next : Except Fault Unit → Relay (Except Fault FilterStats × δ)}
    (hp : s.filtered.producer = .writing left c next) : c ≠ .entering [] := by
  rcases h.filtered.course with hc | ⟨g, d, -, hd⟩
  · unfold Filtered.OnCourse at hc
    rw [hp] at hc
    rcases hc with ⟨more, hdue, -⟩ | ⟨hc, -⟩
    · have hk : (s.filtered.marked none).pipe.closing = some (.failed f) := by
        show s.filtered.pipe.closing = _
        rw [ho.pipe]
      cases hp.symm.trans (hdue.of_closed hk).1
    · exact hc
  · rcases hd with e | e
    · cases hp.symm.trans e
    · cases hp.symm.trans e

/-- So does the producer when it looks at the pipe. -/
theorem Sound.writing_fails (h : Sound F result rest written s) (ho : s.Over f) {left : Bytes}
    {c : Pipe.Call} {next : Except Fault Unit → Relay (Except Fault FilterStats × δ)}
    (hp : s.filtered.producer = .writing left c next) :
    (s.turn .produce).filtered.producer = .running (next (.error (.shared f))) := by
  obtain ⟨g, hg⟩ := ho.source
  have hreading : s.reading = false := by
    rw [Bool.eq_false_iff]
    intro hr
    have hasks := h.asks hr
    rw [hp] at hasks
    cases hasks
  have hne : ∀ outcome d, s.filtered.producer ≠ .ended outcome d := by
    intro outcome d e
    cases hp.symm.trans e
  have hlook : Pipe.lookAll left c s.filtered.pipe
      = (.returns (.error (.shared f)), s.filtered.pipe) :=
    Pipe.lookAll_error (Pipe.advance_failed (h.ne_nothing ho hp) (by rw [ho.pipe]))
  rw [produce_of_canceled hreading hg]
  show s.working.produce.filtered.producer = _
  rw [Working.produce_of_not_ended (h.sane.gone_eq_false hne) hne]
  show s.filtered.turn.producer = _
  unfold Filtered.turn
  rw [hp]
  dsimp only
  rw [hlook]

/-! ## The end -/

/-- What is handed back by the time that the producer is gone. -/
theorem Sound.finish (h : Sound F result rest written s) {r : Except Fault FilterStats × σ}
    (hr : s.working.finish? = some r) :
    r = (result.1.mapError .shared, rest.inner) ∧ s.received = written
      ∨ ∃ g, F g ∧ r.1 = .error (.shared (.shared g)) := by
  have hgone := Working.gone_of_finish? hr
  obtain ⟨outcome, d, he⟩ := h.sane.gone hgone
  rw [Working.finish?, if_pos hgone, Filtered.finish?_of_ended he] at hr
  cases hr
  rcases h.filtered.course with hc | ⟨g, d', hg, hd⟩
  · unfold Filtered.OnCourse at hc
    rw [he] at hc
    obtain ⟨rfl, rfl, hreceived, -⟩ := hc
    exact .inl ⟨rfl, hreceived⟩
  · rcases hd with e | e
    · cases he.symm.trans e
    · cases he.symm.trans e
      exact .inr ⟨g, hg, rfl⟩

theorem gone_turn (hg : s.working.gone = true) (t : Turn) : (s.turn t).working.gone = true := by
  cases t with
  | poison f => exact hg
  | fail f => exact hg
  | read n =>
    rcases turn_read_cases s n with e | ⟨b, pipe, -, -, e⟩
    · rwa [e]
    · rw [e]
      exact hg
  | produce =>
    show s.produce.working.gone = true
    unfold produce
    split
    · exact hg
    split
    · exact hg
    · show s.working.produce.gone = true
      rw [Working.produce_of_waits (.inl hg)]
      exact hg

def Turn.isProduce : Turn → Bool
  | .produce => true
  | _ => false

/-- With `m` turns of the producer it is gone, unless the filter is canceled again. -/
def Ends (m : Nat) (s : Canceling σ δ) : Prop :=
  ∀ ts : List Turn, (∀ t ∈ ts, t.fault? = none) → m ≤ ts.countP Turn.isProduce →
    (ts.foldl Canceling.turn s).working.gone = true

theorem ends_of_gone (hg : s.working.gone = true) : s.Ends 0 := by
  intro ts hquiet _
  induction ts generalizing s with
  | nil => exact hg
  | cons t ts ih =>
    exact ih (gone_turn hg t) (fun t' ht => hquiet t' (List.mem_cons_of_mem t ht)) (Nat.zero_le _)

/-- Only turns of the producer count. -/
theorem Over.ends_succ (ho : s.Over f) {m : Nat} (h : (s.turn .produce).Ends m) :
    s.Ends (m + 1) := by
  intro ts hquiet hm
  induction ts with
  | nil => exact absurd hm (Nat.not_succ_le_zero m)
  | cons t ts ih =>
    have hrest : ∀ t ∈ ts, t.fault? = none := fun t' ht => hquiet t' (List.mem_cons_of_mem t ht)
    cases t with
    | produce =>
      rw [List.countP_cons_of_pos rfl] at hm
      exact h ts hrest (Nat.le_of_succ_le_succ hm)
    | read n =>
      rw [List.countP_cons_of_neg Bool.false_ne_true] at hm
      rw [List.foldl_cons, ho.read]
      exact ih hrest hm
    | poison g => cases hquiet _ List.mem_cons_self
    | fail g => cases hquiet _ List.mem_cons_self

theorem Sound.exists_ends_of_not_reading (h : Sound F result rest written s) (ho : s.Over f)
    (hreading : s.reading = false) : ∃ m, s.Ends m := by
  have hacc := h.sane.acc
  generalize hw : s.working = w at hacc
  induction hacc generalizing s with
  | intro w _ ih =>
    subst hw
    cases hgone : s.working.gone with
    | true => exact ⟨0, ends_of_gone hgone⟩
    | false =>
      obtain ⟨g, hg⟩ := ho.source
      have hwaits : ¬ s.working.Waits := by
        intro hwaits
        refine Working.pending_of_waits hwaits hgone ?_
        rw [show s.working.filtered.pipe = _ from ho.pipe]
        rfl
      have hproduce : (s.turn .produce).working = s.working.produce := by
        rw [produce_of_canceled hreading hg]
        rfl
      have hafter : (s.turn .produce).reading = false := by
        rw [produce_of_canceled hreading hg]
        exact hreading
      obtain ⟨m, hm⟩ := ih _ ⟨hwaits, hproduce⟩ h.produce (h.over_produce ho) hafter rfl
      exact ⟨m + 1, ho.ends_succ hm⟩

/-- The producer comes to its end. -/
theorem Sound.exists_ends (h : Sound F result rest written s) (ho : s.Over f) :
    ∃ m, s.Ends m := by
  cases hreading : s.reading with
  | false => exact h.exists_ends_of_not_reading ho hreading
  | true =>
    have hafter : (s.turn .produce).reading = false := by
      rw [show s.turn .produce = _ from if_pos hreading]
    obtain ⟨m, hm⟩ := h.produce.exists_ends_of_not_reading (h.over_produce ho) hafter
    exact ⟨m + 1, ho.ends_succ hm⟩

/-- What is true once a cancel is over, whatever turns come between its halves and after it. -/
theorem Sound.cancel (h : Sound F result rest written s₁) (hf : F f) (between after : List Turn)
    (hF : ∀ t ∈ between ++ after, ∀ g, t.fault? = some g → F g)
    (hafter : ∀ t ∈ after, ∀ g, t ≠ .fail g) :
    let s₂ := between.foldl Canceling.turn (s₁.turn (.poison f))
    let s := after.foldl Canceling.turn (s₂.turn (.fail f))
    Sound F result rest written s ∧ Held s₁ s ∧ s.Over f ∧ s.received = s₂.received := by
  intro s₂ s
  have hbetween : ∀ t ∈ between, ∀ g, t.fault? = some g → F g :=
    fun t ht => hF t (List.mem_append_left _ ht)
  have hrest : ∀ t ∈ after, ∀ g, t.fault? = some g → F g :=
    fun t ht => hF t (List.mem_append_right _ ht)
  have hpoisoned := h.poison hf
  have h₂ : Sound F result rest written s₂ := hpoisoned.turns between hbetween
  have hheld : Held s₁ s₂ := hpoisoned.held_turns (held_poison s₁ f) between hbetween
  have hfailed := h₂.fail hf
  obtain ⟨hover, hreceived⟩ :=
    hfailed.over_turns (f := f) ⟨hheld.canceled, rfl⟩ after hrest hafter
  exact ⟨hfailed.turns after hrest,
    hfailed.held_turns (h₂.held_turn hheld (.fail f)) after hrest, hover, hreceived⟩

end Canceling

variable {σ δ : Type} [Reader σ]

/-- Whatever turns come before a cancel, between its two halves and after it: as long as the pipe
is not failed again, all reads of the output come to the fault, no read of the input begins, and
the write that is under way fails.  The filter succeeds only if all of its output, down to the
trailer, had been read before.  Otherwise it comes to a fault that it was canceled with, or to
one that was all that it had still to come to.  And it does come to its end. -/
theorem canceling_outcome (source : σ) (decide : Decision δ) (d : δ) (f : Fault)
    (before between after : List Canceling.Turn) (hafter : ∀ t ∈ after, ∀ g, t ≠ .fail g) :
    let copied := (copyEntries decide 0 0 {} d).run source
    let o := (produce decide d).run source
    let s₁ := before.foldl Canceling.turn (Canceling.start source decide d)
    let s₂ := between.foldl Canceling.turn (s₁.turn (.poison f))
    let s := after.foldl Canceling.turn (s₂.turn (.fail f))
    (∀ n, n ≠ 0 → ∃ g, (s.working.read n).1 = some (.error g)
        ∧ g.text = f.text ∧ g.kind = f.kind.lasting)
      ∧ (s.filtered.source.inner = s₁.filtered.source.inner
        ∨ ∃ n patient next, s₁.reading = true
          ∧ s₁.filtered.producer = .running (.read n patient next)
          ∧ s.filtered.source.inner = (Reader.read n s₁.filtered.source.inner).2)
      ∧ (∀ left c next, s.filtered.producer = .writing left c next →
          ∃ g, (s.turn .produce).filtered.producer = .running (next (.error g))
            ∧ g.text = f.text ∧ g.kind = f.kind.lasting)
      ∧ (∀ r, s.working.finish? = some r →
          (r = (o.result.1.mapError .shared, o.rest) ∧ s₂.received = o.written
            ∧ ∀ stats, o.result.1 = .ok stats → s₂.received = copied.written ++ Tar.trailer)
          ∨ ∃ g ∈ f :: (before ++ between ++ after).filterMap Canceling.Turn.fault?,
            ∃ e, r.1 = .error e ∧ e.text = g.text ∧ e.kind = g.kind.lasting)
      ∧ ∃ m, ∀ more : List Canceling.Turn, (∀ t ∈ more, t.fault? = none) →
          m ≤ more.countP Canceling.Turn.isProduce →
          (more.foldl Canceling.turn s).working.finish?.isSome = true := by
  intro copied o s₁ s₂ s
  have hF {ts : List Canceling.Turn} (hts : ∀ t ∈ ts, t ∈ before ++ between ++ after) :
      ∀ t ∈ ts, ∀ g, t.fault? = some g →
        g ∈ f :: (before ++ between ++ after).filterMap Canceling.Turn.fault? :=
    fun t ht g hg => List.mem_cons_of_mem f (List.mem_filterMap.mpr ⟨t, hts t ht, hg⟩)
  have h₁ : s₁.Sound _ o.result ⟨o.rest, none⟩ o.written :=
    (Canceling.sound_start source decide d).turns before
      (hF fun t ht => List.mem_append_left _ (List.mem_append_left _ ht))
  obtain ⟨h, hheld, hover, hreceived⟩ := h₁.cancel List.mem_cons_self between after
    (hF fun t ht => by rw [List.append_assoc]; exact List.mem_append_right _ ht) hafter
  refine ⟨fun n hn => ⟨_, hover.read_error hn, rfl, rfl⟩, ?_,
    fun left c next hp => ⟨_, h.writing_fails hover hp, rfl, rfl⟩, fun r hr => ?_, ?_⟩
  · exact hheld.source.imp (fun hsame => hsame.2.1) And.right
  · rcases h.finish hr with ⟨rfl, hwritten⟩ | ⟨g, hg, he⟩
    · have hall : s₂.received = o.written := hreceived.symm.trans hwritten
      exact .inl ⟨rfl, hall, fun stats hstats =>
        hall.trans ((written_produce decide d source).1 stats hstats)⟩
    · exact .inr ⟨g, hg, _, he, rfl, FaultKind.lasting_lasting g.kind⟩
  · obtain ⟨m, hm⟩ := h.exists_ends hover
    refine ⟨m, fun more hmore hcount => ?_⟩
    have hsound := h.turns more fun t ht g hg => nomatch (hmore t ht).symm.trans hg
    exact hsound.sane.isSome_finish? (hm more hmore hcount)

/-- While the first read of an archive is under way, the filter is canceled with a fault that
reading loops would try again on.  Reads come to it with a kind on which they do not, and it is
what the filter ends with, since nothing had been handed out. -/
theorem canceling_outcome_deadline :
    let f : Fault := .raised .interrupted "deadline"
    let s₁ := (Canceling.start (Source.ofBytes shortArchive) keepAll ()).turn .produce
    let s := (s₁.turn (.poison f)).turn (.fail f)
    (∃ g, (s.working.read 1).1 = some (.error g) ∧ g.text = "deadline" ∧ g.kind = .other)
      ∧ ∃ m r e, ((List.replicate m Canceling.Turn.produce).foldl Canceling.turn s).working.finish?
          = some r ∧ r.1 = .error e ∧ e.text = "deadline" ∧ e.kind = .other := by
  intro f s₁ s
  obtain ⟨hread, -, -, -, m, hm⟩ := canceling_outcome (Source.ofBytes shortArchive) keepAll () f
    [.produce] [] [] fun t ht => absurd ht List.not_mem_nil
  have hall : ∀ t ∈ Canceling.Turn.produce :: List.replicate m Canceling.Turn.produce,
      t = .produce := by
    intro t ht
    rcases List.mem_cons.mp ht with rfl | ht
    · rfl
    · exact List.eq_of_mem_replicate ht
  have hsome := hm (List.replicate m .produce)
    (fun t ht => by rw [hall t (List.mem_cons_of_mem _ ht)]; rfl)
    (by rw [List.countP_replicate]; exact Nat.le_refl m)
  obtain ⟨r, hr⟩ := Option.isSome_iff_exists.mp hsome
  obtain ⟨-, -, -, hfinish, -⟩ := canceling_outcome (Source.ofBytes shortArchive) keepAll () f
    [.produce] [] (List.replicate m .produce)
    fun t ht g e => nomatch (hall t (List.mem_cons_of_mem _ ht)).symm.trans e
  refine ⟨hread 1 (by decide), m, r, ?_⟩
  rcases hfinish r hr with ⟨-, hreceived, -⟩ | ⟨g, hg, e, he, htext, hkind⟩
  · have hnone := Canceling.received_produce
      (Canceling.start (Source.ofBytes shortArchive) keepAll ())
    have hlength := produce_shortArchive.1
    rw [← hnone.symm.trans hreceived] at hlength
    cases hlength
  · have hgf : g = f := by
      rcases List.mem_cons.mp hg with hgf | hg
      · exact hgf
      · obtain ⟨t, ht, hfault⟩ := List.mem_filterMap.mp hg
        rw [hall t ht] at hfault
        cases hfault
    subst hgf
    exact ⟨e, hr, he, htext, hkind⟩

end Filter
end ContainerLayer
