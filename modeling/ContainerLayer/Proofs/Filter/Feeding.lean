import ContainerLayer.Proofs.Filter.Working
import ContainerLayer.Proofs.Stream.Seamless

/-
A program that reads the output of a filter.

What such a program comes to is known once it is known for every batch of what the producer
still has to hand out (`Relay.Yields`): a read from the pipe takes a piece from the front of
that, and leaves a program about which as much is known.  Only this is needed of the program, so
it makes no difference when the producer gets to run.
-/

namespace ContainerLayer

namespace Relay

variable {α : Type}

/-- In whatever pieces `more` is handed out, with `fault` behind it, the relay comes to `a`. -/
def Yields (p : Relay α) (fault : Option Fault) (more : Bytes) (a : α) : Prop :=
  ∀ pieces : List Bytes, (∀ x ∈ pieces, x ≠ []) → pieces.flatten = more →
    (p.run (⟨pieces, fault⟩ : Batch)).result = a

variable {fault : Option Fault} {more later : Bytes} {a b : α} {n : Nat} {patient : Bool}

theorem exists_pieces (more : Bytes) :
    ∃ pieces : List Bytes, (∀ x ∈ pieces, x ≠ []) ∧ pieces.flatten = more := by
  by_cases hm : more = []
  · exact ⟨[], by simp, hm.symm⟩
  · exact ⟨[more], by simpa using hm, by simp⟩

theorem Yields.done (h : Yields (.done b) fault more a) : b = a := by
  obtain ⟨pieces, hne, hflat⟩ := exists_pieces more
  exact h pieces hne hflat

theorem result_run_read_batch (next : Except Fault Bytes → Relay α) (s : Batch) :
    (run (.read n patient next) s).result = (run (next (s.read n).1) (s.read n).2).result := by
  show (runOnto [] (.read n patient next) s).result = _
  rw [runOnto, Batch.answer_eq]
  rfl

theorem Yields.write {x : Bytes} {next : Except Fault Unit → Relay α}
    (h : Yields (.write x next) fault more a) : Yields (next (.ok ())) fault more a :=
  fun pieces hne hflat =>
    (Filtered.run_write x next (⟨pieces, fault⟩ : Batch)).1.symm.trans (h pieces hne hflat)

variable {next : Except Fault Bytes → Relay α}

theorem Yields.read_zero (h : Yields (.read 0 patient next) fault more a) :
    Yields (next (.ok [])) fault more a :=
  fun pieces hne hflat =>
    (result_run_read_batch next ⟨pieces, fault⟩).symm.trans (h pieces hne hflat)

/-- A read takes a piece. -/
theorem Yields.read_piece {x : Bytes} (hx : x ≠ []) (hlen : x.length ≤ n)
    (h : Yields (.read n patient next) fault (x ++ later) a) :
    Yields (next (.ok x)) fault later a := by
  intro pieces hne hflat
  have hn : n ≠ 0 := by
    have := List.length_pos_iff.mpr hx
    omega
  have hread : (⟨x :: pieces, fault⟩ : Batch).read n = (.ok x, ⟨pieces, fault⟩) := by
    rw [Batch.read, if_neg hn, Batch.readPieces, if_neg hx, if_pos hlen,
      List.take_of_length_le hlen]
  have hrun := h (x :: pieces) (by simpa [hx] using hne) (by rw [List.flatten_cons, hflat])
  rwa [result_run_read_batch, hread] at hrun

/-- A read finds what is behind the bytes. -/
theorem Yields.read_end (hn : n ≠ 0) (h : Yields (.read n patient next) fault [] a) :
    Yields (next (⟨[], fault⟩ : Batch).ending) fault [] a := by
  intro pieces hne hflat
  have hpieces : pieces = [] := by
    refine List.eq_nil_iff_forall_not_mem.mpr fun x hx => hne x hx ?_
    exact List.flatten_eq_nil_iff.mp hflat x hx
  subst hpieces
  have hread : (⟨[], fault⟩ : Batch).read n = ((⟨[], fault⟩ : Batch).ending, ⟨[], fault⟩) := by
    rw [Batch.read, if_neg hn]
    rfl
  have hrun := h [] hne rfl
  rwa [result_run_read_batch, hread] at hrun

end Relay

namespace Filtered

/-- The fault that a producer came to, if it did. -/
def faultOf : Except Fault FilterStats → Option Fault
  | .ok _ => none
  | .error f => some f

variable {σ δ : Type} [Reader σ] {s : Filtered σ δ} {result : Except Fault FilterStats × δ}
  {rest : Cancelable σ} {more : Bytes}

/-- What a read of the pipe returns is what a batch of all that is due would return. -/
theorem Due.feeds {α : Type} {n : Nat} {patient : Bool} {next : Except Fault Bytes → Relay α}
    {a : α} {r : Except Fault Bytes} {pipe : Pipe} (h : s.Due result rest more)
    (hy : (Relay.read n patient next).Yields (faultOf result.1) more a)
    (hr : s.pipe.read n = (some r, pipe)) :
    ∃ later, Due { s with pipe } result rest later
      ∧ (next r).Yields (faultOf result.1) later a := by
  cases r with
  | error f =>
    obtain ⟨rfl, rfl, g, hresult, rfl⟩ := h.fault hr
    have hn : n ≠ 0 := by
      rintro rfl
      cases hr
    have hend := hy.read_end hn
    rw [hresult] at hend
    rw [hresult]
    exact ⟨[], h, hend⟩
  | ok x =>
    obtain ⟨later, hmore, hdue⟩ := h.read hr
    refine ⟨later, hdue, ?_⟩
    by_cases hx : x = []
    · subst hx
      rw [List.nil_append] at hmore
      subst hmore
      by_cases hn : n = 0
      · subst hn
        exact hy.read_zero
      · obtain ⟨rfl, stats, hresult⟩ := h.end hn hr
        have hend := hy.read_end hn
        rw [hresult] at hend
        rw [hresult]
        exact hend
    · rw [hmore] at hy
      exact hy.read_piece hx (Pipe.of_read_ok hr).2.2.1

/-! ## Reads that let the producer go on first -/

end Filtered

theorem Pipe.advance_of_advanceAll {left left' : Bytes} {c c' : Pipe.Call} {p p' : Pipe}
    (h : Pipe.advanceAll left c p = (.waits left' c', p')) :
    Pipe.advance c' p' = (.waits c', p') := by
  fun_induction Pipe.advanceAll left c p with
  | case1 left c p c₁ p₁ ha =>
    cases h
    exact (Pipe.advance_of_waits ha).1
  | case2 => cases h
  | case3 => cases h
  | case4 => cases h
  | case5 left c p n p₁ ha hn hlen ih => exact ih h

namespace Filtered

variable {σ δ : Type} [Reader σ] {s : Filtered σ δ} {result : Except Fault FilterStats × δ}
  {rest : Cancelable σ} {more : Bytes}

/-- The producer is at its end, or waits for the reader of the pipe. -/
def Settled (s : Filtered σ δ) : Prop :=
  (∃ outcome d, s.producer = .ended outcome d)
    ∨ ∃ left c next, s.producer = .writing left c next
      ∧ Pipe.advance c s.pipe = (.waits c, s.pipe)

theorem settled_run (p : Relay (Except Fault FilterStats × δ)) (source : Cancelable σ)
    (pipe : Pipe) : Settled (run p source pipe) := by
  induction p generalizing source pipe with
  | done o => exact .inl ⟨_, _, rfl⟩
  | read n patient next ih =>
    rw [run]
    exact ih _ _ _
  | write b next ih =>
    rw [run]
    cases hw : pipe.writeAll b with
    | mk g p' =>
      cases g with
      | returns r => exact ih r source p'
      | waits left c =>
        refine .inr ⟨left, c, next, rfl, ?_⟩
        unfold Pipe.writeAll at hw
        split at hw
        · cases hw
        · exact Pipe.advance_of_advanceAll hw

theorem settled_settle (s : Filtered σ δ) : Settled s.settle := by
  obtain ⟨source, pipe, producer⟩ := s
  cases producer with
  | ended outcome d => exact .inl ⟨outcome, d, rfl⟩
  | running p => exact settled_run p source pipe
  | writing left c next =>
    unfold settle
    dsimp only
    cases ha : Pipe.advanceAll left c pipe with
    | mk g p' =>
      cases g with
      | waits left' c' => exact .inr ⟨left', c', next, rfl, Pipe.advance_of_advanceAll ha⟩
      | returns r => exact settled_run (next r) source p'

theorem Due.settle (h : s.Due result rest more) : s.settle.Due result rest more := by
  have hturns := turns_settle s
  revert hturns
  generalize s.settle = s'
  intro hturns
  induction hturns with
  | refl => exact h
  | turn _ ih => exact ih h.turn

/-- A read that lets the producer go on first never has to wait. -/
theorem Due.answer (h : s.Due result rest more) (n : Nat) (patient : Bool) :
    ∃ r pipe, s.settle.pipe.read n = (some r, pipe)
      ∧ Relay.answer n patient s = (r, { s.settle with pipe }) := by
  cases hr : s.settle.pipe.read n with
  | mk r pipe =>
    cases r with
    | none =>
      obtain ⟨-, hopen, hp⟩ := Pipe.eq_of_read_none hr
      rcases settled_settle s with ⟨outcome, d, he⟩ | ⟨left, c, next, -, ha⟩
      · have hdue := h.settle
        unfold Due at hdue
        rw [he] at hdue
        obtain ⟨-, -, -, houtcome⟩ := hdue
        split at houtcome
        · cases hopen.symm.trans houtcome
        · cases hopen.symm.trans houtcome.1
      · cases Pipe.looks_of_eq ha with
        | waits _ hpending _ => exact absurd hp hpending
    | some r =>
      refine ⟨r, pipe, rfl, Relay.answer_of_read ?_ fun f hf _ => ?_⟩
      · show s.read n = _
        unfold Filtered.read
        dsimp only
        rw [hr]
      · have hread : (s.read n).1 = .error f := by
          unfold Filtered.read
          dsimp only
          rw [hr]
          exact hf
        exact read_not_interrupted hread

/-- What a program comes to on the output of a filter, and what is then still due. -/
theorem Due.run {α : Type} {p : Relay α} {a : α} (h : s.Due result rest more)
    (hy : p.Yields (faultOf result.1) more a) :
    (p.run s).result = a ∧ ∃ later, (p.run s).rest.Due result rest later := by
  induction p generalizing s more with
  | done b => exact ⟨hy.done, more, h⟩
  | read n patient next ih =>
    obtain ⟨r, pipe, hr, hanswer⟩ := h.answer n patient
    obtain ⟨later, hdue, hy⟩ := h.settle.feeds hy hr
    have hrun : (Relay.read n patient next).run s = (next r).run { s.settle with pipe } := by
      unfold Relay.run
      rw [Relay.runOnto, hanswer]
    rw [hrun]
    exact ih r hdue hy
  | write b next ih =>
    rw [(run_write b next s).1, rest_run_write]
    exact ih (.ok ()) h hy.write

/-- What is due of the output is read to its end, and the filter comes to what its producer
comes to. -/
theorem Due.drain (h : s.Due result rest more) :
    s.drain.fault = endFault result.1 ∧ s.finish = (result.1.mapError .shared, rest.inner) := by
  have hend : s.drain.fault = endFault result.1 ∧ s.drain.rest.source = rest
      ∧ s.drain.rest.producer = .ended result.1 result.2 := by
    have hdue := h.settle
    have hsettled := settled_settle s
    unfold Filtered.drain
    revert hdue hsettled
    generalize s.settle = s'
    intro hdue hsettled
    obtain ⟨source, pipe, producer⟩ := s'
    cases producer with
    | running p =>
      rcases hsettled with ⟨_, _, e⟩ | ⟨_, _, _, e, -⟩
      · cases e
      · cases e
    | ended outcome d =>
      obtain ⟨rfl, rfl, -, houtcome⟩ := hdue
      refine ⟨?_, source_drainEnd [] _, producer_drainEnd [] _⟩
      dsimp only at houtcome
      cases outcome with
      | ok stats =>
        dsimp only at houtcome ⊢
        unfold drainEnd
        dsimp only
        rw [houtcome]
        rfl
      | error f =>
        dsimp only at houtcome ⊢
        unfold drainEnd
        dsimp only
        rw [houtcome.1]
        rfl
    | writing left c next =>
      obtain ⟨hopen, -, later, ⟨hresult, hrest, -⟩, -⟩ := hdue
      have hpipe : ({ pipe with chunk := [], taken := 0 } : Pipe) = {} := by
        rw [show pipe.closing = none from hopen]
      dsimp only
      rw [hpipe]
      obtain ⟨hfault, hsource⟩ := drainRun_end [left.drop pipe.chunk.length, pipe.pending]
        (next (.ok ())) source
      obtain ⟨-, hproducer⟩ := drainRun_spec [left.drop pipe.chunk.length, pipe.pending]
        (next (.ok ())) source
      rw [hresult] at hfault hproducer
      rw [hrest] at hsource
      exact ⟨hfault, hsource, hproducer⟩
  obtain ⟨hfault, hsource, hproducer⟩ := hend
  refine ⟨hfault, ?_⟩
  have hfinish := finish?_of_ended hproducer
  rw [hsource] at hfinish
  exact Option.get_of_eq_some _ hfinish

end Filtered
end ContainerLayer
