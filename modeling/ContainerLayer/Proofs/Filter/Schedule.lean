import ContainerLayer.Proofs.Filter.Draining
import ContainerLayer.Proofs.Stream.Looking

/-
A producer that takes turns with its consumer.

In one turn the producer asks its source once, or has one look at the pipe, or ends.  To let
it go on as far as it can (`Filtered.settle`) is to give it turns until one changes nothing.

`Filtered.Due` says what a producer that is not disturbed has still to hand out, and what it
comes to: what its relay writes if all writes succeed, and how its relay ends.  Turns of the
producer keep that, and reads take the bytes they return from the front of it.
-/

namespace ContainerLayer

namespace Relay

variable {σ : Type} [Reader σ]

/-- A patient read that is interrupted is tried again; any other outcome is the answer. -/
theorem answer_of_interrupted {n : Nat} {s s' : σ} {f : Fault} (h : Reader.read n s = (.error f, s'))
    (hf : f.isInterrupted = true) : answer n true s = answer n true s' := by
  show Reader.readPatiently n s = Reader.readPatiently n s'
  rw [Reader.readPatiently]
  split
  · rename_i h'
    cases h.symm.trans h'
  · rename_i h'
    cases h.symm.trans h'
    rw [dif_pos hf]

theorem answer_of_read {n : Nat} {patient : Bool} {s s' : σ} {r : Except Fault Bytes}
    (h : Reader.read n s = (r, s'))
    (hr : ∀ f, r = .error f → patient = true → f.isInterrupted = false) :
    answer n patient s = (r, s') := by
  cases patient with
  | false => exact h
  | true =>
    show Reader.readPatiently n s = _
    rw [Reader.readPatiently]
    split
    · rename_i h'
      exact h'.symm.trans h
    · rename_i f s'' h'
      cases h.symm.trans h'
      rw [dif_neg (by rw [hr f rfl rfl]; decide)]

end Relay

namespace Filtered

variable {σ δ : Type} [Reader σ]

/-- One turn of the producer. -/
def turn (s : Filtered σ δ) : Filtered σ δ :=
  match s.producer with
  | .ended _ _ => s
  | .running (.done (outcome, d)) =>
    { s with pipe := s.pipe.close (outcome.map fun _ => ()), producer := .ended outcome d }
  | .running (.read n patient next) =>
    match Reader.read n s.source with
    | (.ok b, source) => { s with source, producer := .running (next (.ok b)) }
    | (.error f, source) =>
      if patient && f.isInterrupted then { s with source }
      else { s with source, producer := .running (next (.error f)) }
  | .running (.write b next) =>
    if b = [] then { s with producer := .running (next (.ok ())) }
    else { s with producer := .writing b (.entering b) next }
  | .writing left c next =>
    match Pipe.lookAll left c s.pipe with
    | (.waits left c, pipe) => { s with pipe, producer := .writing left c next }
    | (.returns r, pipe) => { s with pipe, producer := .running (next r) }

/-- The first state comes to the second if the producer has turns. -/
inductive Turns : Filtered σ δ → Filtered σ δ → Prop
  | refl (s : Filtered σ δ) : Turns s s
  | turn {s s' : Filtered σ δ} (h : Turns s.turn s') : Turns s s'

/-- What a read of the source comes to: an answer, or a state from which to ask again. -/
theorem turn_read_cases (n : Nat) (patient : Bool)
    (next : Except Fault Bytes → Relay (Except Fault FilterStats × δ)) (source : Cancelable σ)
    (pipe : Pipe) :
    (∃ r source', Relay.answer n patient source = (r, source')
        ∧ turn ⟨source, pipe, .running (.read n patient next)⟩
          = (⟨source', pipe, .running (next r)⟩ : Filtered σ δ))
      ∨ ∃ source', Reader.patience source' < Reader.patience source
        ∧ Relay.answer n patient source = Relay.answer n patient source'
        ∧ turn ⟨source, pipe, .running (.read n patient next)⟩
          = (⟨source', pipe, .running (.read n patient next)⟩ : Filtered σ δ) := by
  unfold turn
  dsimp only
  cases hr : Reader.read n source with
  | mk r source' =>
    cases r with
    | ok b => exact .inl ⟨.ok b, source', Relay.answer_of_read hr (fun _ e => nomatch e), rfl⟩
    | error f =>
      dsimp only
      by_cases hf : (patient && f.isInterrupted) = true
      · rw [if_pos hf]
        obtain ⟨rfl, hf⟩ := (Bool.and_eq_true _ _).mp hf
        have hlt := Reader.patience_lt n source f (by rw [hr]) hf
        rw [hr] at hlt
        exact .inr ⟨source', hlt, Relay.answer_of_interrupted hr hf, rfl⟩
      · rw [if_neg hf]
        refine .inl ⟨.error f, source', Relay.answer_of_read hr ?_, rfl⟩
        intro f' e hpatient
        cases e
        cases hi : f.isInterrupted with
        | false => rfl
        | true => exact absurd (by rw [hpatient, hi]; rfl) hf

/-- What a turn of a producer comes to. -/
inductive Turned (source : Cancelable σ) (pipe : Pipe) : Producer δ → Filtered σ δ → Prop
  | stays {outcome : Except Fault FilterStats} {d : δ} :
    Turned source pipe (.ended outcome d) ⟨source, pipe, .ended outcome d⟩
  | ends {outcome : Except Fault FilterStats} {d : δ} :
    Turned source pipe (.running (.done (outcome, d)))
      ⟨source, pipe.close (outcome.map fun _ => ()), .ended outcome d⟩
  | reads {n : Nat} {patient : Bool} {r : Except Fault Bytes} {source' : Cancelable σ}
    {next : Except Fault Bytes → Relay (Except Fault FilterStats × δ)}
    (h : Reader.read n source = (r, source')) :
    Turned source pipe (.running (.read n patient next)) ⟨source', pipe, .running (next r)⟩
  | retries {n : Nat} {f : Fault} {source' : Cancelable σ}
    {next : Except Fault Bytes → Relay (Except Fault FilterStats × δ)}
    (h : Reader.read n source = (.error f, source')) (hf : f.isInterrupted = true) :
    Turned source pipe (.running (.read n true next)) ⟨source', pipe, .running (.read n true next)⟩
  | passes {next : Except Fault Unit → Relay (Except Fault FilterStats × δ)} :
    Turned source pipe (.running (.write [] next)) ⟨source, pipe, .running (next (.ok ()))⟩
  | begins {b : Bytes} {next : Except Fault Unit → Relay (Except Fault FilterStats × δ)}
    (hb : b ≠ []) :
    Turned source pipe (.running (.write b next)) ⟨source, pipe, .writing b (.entering b) next⟩
  | waits {left left' : Bytes} {c c' : Pipe.Call} {pipe' : Pipe}
    {next : Except Fault Unit → Relay (Except Fault FilterStats × δ)}
    (h : Pipe.lookAll left c pipe = (.waits left' c', pipe')) :
    Turned source pipe (.writing left c next) ⟨source, pipe', .writing left' c' next⟩
  | returns {left : Bytes} {c : Pipe.Call} {r : Except Fault Unit} {pipe' : Pipe}
    {next : Except Fault Unit → Relay (Except Fault FilterStats × δ)}
    (h : Pipe.lookAll left c pipe = (.returns r, pipe')) :
    Turned source pipe (.writing left c next) ⟨source, pipe', .running (next r)⟩

theorem turned (source : Cancelable σ) (pipe : Pipe) (producer : Producer δ) :
    Turned source pipe producer (turn ⟨source, pipe, producer⟩) := by
  unfold turn
  cases producer with
  | ended outcome d => exact .stays
  | running p =>
    cases p with
    | done o => exact .ends
    | read n patient next =>
      dsimp only
      split
      · rename_i h
        exact .reads h
      · rename_i h
        split
        · rename_i hf
          obtain ⟨rfl, hf⟩ := (Bool.and_eq_true _ _).mp hf
          exact .retries h hf
        · exact .reads h
    | write b next =>
      dsimp only
      split
      · rename_i hb
        subst hb
        exact .passes
      · rename_i hb
        exact .begins hb
  | writing left c next =>
    dsimp only
    split
    · rename_i h
      exact .waits h
    · rename_i h
      exact .returns h

theorem of_turned {s : Filtered σ δ} {P : Filtered σ δ → Prop}
    (h : ∀ s', Turned s.source s.pipe s.producer s' → P s') : P s.turn :=
  h s.turn (turned s.source s.pipe s.producer)

section Writing

variable {source : Cancelable σ} {pipe pipe' : Pipe} {b left left' : Bytes} {c c' : Pipe.Call}
variable {next : Except Fault Unit → Relay (Except Fault FilterStats × δ)}

theorem turn_write_nil (hb : b = []) :
    turn ⟨source, pipe, .running (.write b next)⟩
      = (⟨source, pipe, .running (next (.ok ()))⟩ : Filtered σ δ) := if_pos hb

theorem turn_write (hb : b ≠ []) :
    turn ⟨source, pipe, .running (.write b next)⟩
      = (⟨source, pipe, .writing b (.entering b) next⟩ : Filtered σ δ) := if_neg hb

theorem turn_waits (h : Pipe.lookAll left c pipe = (.waits left' c', pipe')) :
    turn ⟨source, pipe, .writing left c next⟩
      = (⟨source, pipe', .writing left' c' next⟩ : Filtered σ δ) := by
  unfold turn
  dsimp only
  rw [h]

theorem turn_returns {r : Except Fault Unit}
    (h : Pipe.lookAll left c pipe = (.returns r, pipe')) :
    turn ⟨source, pipe, .writing left c next⟩
      = (⟨source, pipe', .running (next r)⟩ : Filtered σ δ) := by
  unfold turn
  dsimp only
  rw [h]

end Writing

/-- The producer leaves a pipe closed. -/
theorem isClosed_turn_of_closed {s : Filtered σ δ} (h : s.pipe.isClosed = true) :
    s.turn.pipe.isClosed = true := by
  obtain ⟨source, pipe, producer⟩ := s
  have hlook {left : Bytes} {c : Pipe.Call} {g : Pipe.Progress.All} {pipe' : Pipe}
      (hl : Pipe.lookAll left c pipe = (g, pipe')) : pipe'.isClosed = true := by
    have hclosing := Pipe.closing_lookAll left c pipe
    rw [hl] at hclosing
    rw [Pipe.isClosed, hclosing]
    exact h
  refine of_turned (P := fun s' => s'.pipe.isClosed = true) fun s' ht => ?_
  cases ht with
  | ends => exact Pipe.isClosed_close _ _
  | waits hl => exact hlook hl
  | returns hl => exact hlook hl
  | _ => exact h

/-! ## Going on as far as possible -/

theorem turns_writing {left : Bytes} {c : Pipe.Call}
    {next : Except Fault Unit → Relay (Except Fault FilterStats × δ)}
    (hnext : ∀ r (source : Cancelable σ) pipe,
      Turns ⟨source, pipe, .running (next r)⟩ (run (next r) source pipe))
    (source : Cancelable σ) (pipe : Pipe) :
    Turns ⟨source, pipe, .writing left c next⟩ (settle ⟨source, pipe, .writing left c next⟩) := by
  induction hk : left.length using Nat.strongRecOn generalizing left c pipe with
  | ind k ih =>
    have hsettle : settle (⟨source, pipe, .writing left c next⟩ : Filtered σ δ)
        = match Pipe.advanceAll left c pipe with
          | (.waits left c, pipe) => ⟨source, pipe, .writing left c next⟩
          | (.returns r, pipe) => run (next r) source pipe := rfl
    rcases Pipe.advanceAll_cases left c pipe with e | ⟨n, p, hn, hlt, hlook, hall⟩
    · rw [e] at hsettle
      rw [hsettle]
      refine .turn ?_
      cases hlook : Pipe.lookAll left c pipe with
      | mk o p =>
        cases o with
        | waits left c =>
          rw [turn_waits hlook]
          exact .refl _
        | returns r =>
          rw [turn_returns hlook]
          exact hnext r source p
    · rw [hall] at hsettle
      rw [hsettle]
      refine .turn ?_
      rw [turn_waits hlook]
      exact ih (left.drop n).length (by rw [List.length_drop]; omega) p rfl

theorem turns_run (p : Relay (Except Fault FilterStats × δ)) (source : Cancelable σ)
    (pipe : Pipe) : Turns ⟨source, pipe, .running p⟩ (run p source pipe) := by
  induction p generalizing source pipe with
  | done result => exact .turn (.refl _)
  | read n patient next ih =>
    induction hk : Reader.patience source using Nat.strongRecOn generalizing source with
    | ind k ihk =>
      rcases turn_read_cases n patient next source pipe with
        ⟨r, source', hanswer, hturn⟩ | ⟨source', hlt, hanswer, hturn⟩
      · refine .turn ?_
        rw [hturn, run, hanswer]
        exact ih r source' pipe
      · have hrun : run (.read n patient next) source pipe
            = run (.read n patient next) source' pipe := by rw [run, run, hanswer]
        refine .turn ?_
        rw [hturn, hrun]
        exact ihk _ (hk ▸ hlt) source' rfl
  | write b next ih =>
    refine .turn ?_
    by_cases hb : b = []
    · subst hb
      exact ih (.ok ()) source pipe
    · have hrun : run (.write b next) source pipe
          = settle ⟨source, pipe, .writing b (.entering b) next⟩ := by
        rw [run, Pipe.writeAll, if_neg hb]
        rfl
      rw [turn_write hb, hrun]
      exact turns_writing ih source pipe

/-- Letting the producer go on as far as it can is to give it turns. -/
theorem turns_settle (s : Filtered σ δ) : Turns s s.settle := by
  obtain ⟨source, pipe, producer⟩ := s
  cases producer with
  | ended outcome d => exact .refl _
  | running p => exact turns_run p source pipe
  | writing left c next => exact turns_writing (fun r => turns_run (next r)) source pipe

/-! ## What is still due -/

/-- Running the relay on the source writes `more`, and ends with `result` and `rest`. -/
def Goes (p : Relay (Except Fault FilterStats × δ)) (source : Cancelable σ)
    (result : Except Fault FilterStats × δ) (rest : Cancelable σ) (more : Bytes) : Prop :=
  (p.run source).result = result ∧ (p.run source).rest = rest ∧ (p.run source).written = more

section Goes

variable {n : Nat} {patient : Bool} {next : Except Fault Bytes → Relay (Except Fault FilterStats × δ)}
variable {source source' rest : Cancelable σ} {result : Except Fault FilterStats × δ}
variable {b more : Bytes}

theorem Goes.of_answer {r : Except Fault Bytes}
    (h : Goes (.read n patient next) source result rest more)
    (ha : Relay.answer n patient source = (r, source')) : Goes (next r) source' result rest more := by
  unfold Goes Relay.run at h
  rw [Relay.runOnto, ha] at h
  exact h

theorem Goes.of_retry (h : Goes (.read n patient next) source result rest more)
    (ha : Relay.answer n patient source = Relay.answer n patient source') :
    Goes (.read n patient next) source' result rest more := by
  unfold Goes Relay.run at h ⊢
  rw [Relay.runOnto, ha] at h
  exact h

theorem Goes.of_write {next : Except Fault Unit → Relay (Except Fault FilterStats × δ)}
    (h : Goes (.write b next) source result rest more) :
    ∃ later, more = b ++ later ∧ Goes (next (.ok ())) source result rest later := by
  obtain ⟨hresult, hrest, hwritten⟩ := h
  rw [(run_write b next source).1] at hresult
  rw [rest_run_write] at hrest
  rw [(run_write b next source).2] at hwritten
  exact ⟨_, hwritten.symm, hresult, hrest, rfl⟩

end Goes

/-- A producer that is not disturbed has still `more` to hand out, and ends with `result` and
its source with `rest`. -/
def Due (s : Filtered σ δ) (result : Except Fault FilterStats × δ) (rest : Cancelable σ)
    (more : Bytes) : Prop :=
  match s.producer with
  | .running p =>
    s.pipe.closing = none ∧ s.pipe.pending = [] ∧ Goes p s.source result rest more
  | .writing left c next =>
    s.pipe.closing = none ∧ left ≠ [] ∧ ∃ later, Goes (next (.ok ())) s.source result rest later
      ∧ match c with
        | .entering data => data = left ∧ s.pipe.pending = [] ∧ more = left ++ later
        | .sent n => n = (left.take Pipe.capacity).length
          ∧ more = s.pipe.pending ++ left.drop Pipe.capacity ++ later
  | .ended outcome d =>
    result = (outcome, d) ∧ s.source = rest ∧ more = s.pipe.pending
      ∧ match outcome with
        | .ok _ => s.pipe.closing = some .clean
        | .error f => s.pipe.closing = some (.failed f) ∧ s.pipe.pending = []

variable {s : Filtered σ δ} {result : Except Fault FilterStats × δ} {rest : Cancelable σ}
  {more : Bytes}

theorem due_start {source : Cancelable σ} {p : Relay (Except Fault FilterStats × δ)} :
    Due ⟨source, {}, .running p⟩ (p.run source).result (p.run source).rest (p.run source).written :=
  ⟨rfl, rfl, rfl, rfl, rfl⟩

theorem Due.turn_running {p : Relay (Except Fault FilterStats × δ)} {source : Cancelable σ}
    {pipe : Pipe} (hopen : pipe.closing = none) (hp : pipe.pending = [])
    (hgoes : Goes p source result rest more) :
    (turn ⟨source, pipe, .running p⟩).Due result rest more := by
  cases p with
  | done o =>
    obtain ⟨rfl, rfl, rfl⟩ := hgoes
    obtain ⟨outcome, d⟩ := o
    obtain ⟨chunk, taken, closing⟩ := pipe
    dsimp only at hopen
    subst hopen
    cases outcome with
    | ok stats => exact ⟨rfl, rfl, hp.symm, rfl⟩
    | error f => exact ⟨rfl, rfl, rfl, rfl, rfl⟩
  | read n patient next =>
    rcases turn_read_cases n patient next source pipe with
      ⟨r, source', hanswer, hturn⟩ | ⟨source', -, hanswer, hturn⟩
    · rw [hturn]
      exact ⟨hopen, hp, hgoes.of_answer hanswer⟩
    · rw [hturn]
      exact ⟨hopen, hp, hgoes.of_retry hanswer⟩
  | write b next =>
    obtain ⟨later, hmore, hgoes⟩ := hgoes.of_write
    by_cases hb : b = []
    · rw [turn_write_nil hb, hmore, hb]
      exact ⟨hopen, hp, hgoes⟩
    · rw [turn_write hb]
      exact ⟨hopen, hb, later, hgoes, rfl, hp, hmore⟩

theorem Due.turn_writing {left : Bytes} {c : Pipe.Call}
    {next : Except Fault Unit → Relay (Except Fault FilterStats × δ)} {source : Cancelable σ}
    {pipe : Pipe} (h : Due ⟨source, pipe, .writing left c next⟩ result rest more) :
    (turn ⟨source, pipe, .writing left c next⟩).Due result rest more := by
  obtain ⟨hopen, hleft, later, hgoes, hc⟩ := h
  dsimp only at hopen hc
  cases c with
  | entering data =>
    obtain ⟨rfl, hp, hmore⟩ := hc
    rw [turn_waits (Pipe.lookAll_waits (Pipe.advance_entering_room hleft hopen hp))]
    refine ⟨hopen, hleft, later, hgoes, rfl, ?_⟩
    rw [hmore]
    show _ = data.take Pipe.capacity ++ data.drop Pipe.capacity ++ later
    rw [List.take_append_drop]
  | sent n =>
    obtain ⟨hn, hmore⟩ := hc
    by_cases hp : pipe.pending = []
    · have hpos : n ≠ 0 := by
        rw [hn]
        exact fun e => Pipe.take_capacity_ne_nil hleft (List.eq_nil_of_length_eq_zero e)
      rw [hp, List.nil_append] at hmore
      have hdrop : left.drop n = left.drop Pipe.capacity := by rw [hn, Pipe.drop_length_take]
      have ha := Pipe.advance_sent_read (n := n) hopen hp
      by_cases hle : left.length ≤ n
      · rw [turn_returns (Pipe.lookAll_done ha hpos hle)]
        refine ⟨hopen, hp, ?_⟩
        rw [hmore, ← hdrop, List.drop_of_length_le hle]
        exact hgoes
      · rw [turn_waits (Pipe.lookAll_next ha hpos hle)]
        refine ⟨hopen, fun e => hle (List.drop_eq_nil_iff.mp e), later, hgoes, rfl, hp, ?_⟩
        rw [hmore, hdrop]
    · rw [turn_waits (Pipe.lookAll_waits (Pipe.advance_sent_waits hopen hp))]
      exact ⟨hopen, hleft, later, hgoes, hn, hmore⟩

theorem Due.turn (h : s.Due result rest more) : s.turn.Due result rest more := by
  obtain ⟨source, pipe, producer⟩ := s
  cases producer with
  | ended outcome d => exact h
  | running p => exact Due.turn_running h.1 h.2.1 h.2.2
  | writing left c next => exact Due.turn_writing h

/-- A read takes what it returns from the front of what is due. -/
theorem Due.read (h : s.Due result rest more) {n : Nat} {b : Bytes} {pipe : Pipe}
    (hr : s.pipe.read n = (some (.ok b), pipe)) :
    ∃ later, more = b ++ later ∧ Due { s with pipe } result rest later := by
  obtain ⟨hpending, hclosing, -⟩ := Pipe.of_read_ok hr
  obtain ⟨source, pipe₀, producer⟩ := s
  dsimp only at hpending hclosing
  have hnil : pipe₀.pending = [] → b = [] ∧ pipe.pending = [] :=
    fun e => List.append_eq_nil_iff.mp (hpending.symm.trans e)
  cases producer with
  | running p =>
    obtain ⟨hopen, hp, hgoes⟩ := h
    obtain ⟨rfl, hp⟩ := hnil hp
    exact ⟨more, rfl, hclosing.trans hopen, hp, hgoes⟩
  | writing left c next =>
    obtain ⟨hopen, hleft, later, hgoes, hc⟩ := h
    cases c with
    | entering data =>
      obtain ⟨hdata, hp, hmore⟩ := hc
      obtain ⟨rfl, hp⟩ := hnil hp
      exact ⟨more, rfl, hclosing.trans hopen, hleft, later, hgoes, hdata, hp, hmore⟩
    | sent n =>
      obtain ⟨hn, hmore⟩ := hc
      refine ⟨pipe.pending ++ left.drop Pipe.capacity ++ later, ?_, hclosing.trans hopen, hleft,
        later, hgoes, hn, rfl⟩
      rw [hmore]
      dsimp only
      rw [hpending]
      simp only [List.append_assoc]
  | ended outcome d =>
    obtain ⟨hresult, hsource, hmore, houtcome⟩ := h
    refine ⟨pipe.pending, hmore.trans hpending, hresult, hsource, rfl, ?_⟩
    cases outcome with
    | ok stats => exact hclosing.trans houtcome
    | error f =>
      obtain ⟨hfailed, hp⟩ := houtcome
      exact ⟨hclosing.trans hfailed, (hnil hp).2⟩

/-- Only a producer at its end has closed the pipe, and it has closed it for what it came to. -/
theorem Due.of_closed (h : s.Due result rest more) {k : Pipe.Closing} (hk : s.pipe.closing = some k) :
    s.producer = .ended result.1 result.2 ∧ s.source = rest ∧ more = s.pipe.pending
      ∧ match result.1 with
        | .ok _ => k = .clean
        | .error f => k = .failed f ∧ s.pipe.pending = [] := by
  obtain ⟨source, pipe, producer⟩ := s
  dsimp only at hk
  cases producer with
  | running p => cases hk.symm.trans h.1
  | writing left c next => cases hk.symm.trans h.1
  | ended outcome d =>
    obtain ⟨rfl, hsource, hmore, houtcome⟩ := h
    refine ⟨rfl, hsource, hmore, ?_⟩
    cases outcome with
    | ok stats => exact Option.some.inj (hk.symm.trans houtcome)
    | error f => exact ⟨Option.some.inj (hk.symm.trans houtcome.1), houtcome.2⟩

/-- Only a producer that has succeeded and has nothing left to hand out looks like the end. -/
theorem Due.end (h : s.Due result rest more) {n : Nat} (hn : n ≠ 0) {pipe : Pipe}
    (hr : s.pipe.read n = (some (.ok []), pipe)) : more = [] ∧ ∃ stats, result.1 = .ok stats := by
  obtain ⟨-, -, -, -, hend⟩ := Pipe.of_read_ok hr
  obtain ⟨hclean, hp⟩ := hend hn rfl
  obtain ⟨-, -, hmore, houtcome⟩ := h.of_closed hclean
  refine ⟨hmore.trans hp, ?_⟩
  split at houtcome
  · exact ⟨_, by assumption⟩
  · cases houtcome.1

/-- Reads fail only once the producer has failed and all that it had handed out was read, and
they report its fault. -/
theorem Due.fault (h : s.Due result rest more) {n : Nat} {f : Fault} {pipe : Pipe}
    (hr : s.pipe.read n = (some (.error f), pipe)) :
    more = [] ∧ pipe = s.pipe ∧ ∃ g, result.1 = .error g ∧ f = .shared g := by
  obtain ⟨hpipe, g, hfailed, hf⟩ := Pipe.of_read_error hr
  obtain ⟨-, -, hmore, houtcome⟩ := h.of_closed hfailed
  split at houtcome
  · cases houtcome
  · rename_i g' hresult
    obtain ⟨hg, hp⟩ := houtcome
    cases hg
    exact ⟨hmore.trans hp, hpipe, _, hresult, hf⟩

end Filtered
end ContainerLayer
