import ContainerLayer.Proofs.Filter.Working
import ContainerLayer.Proofs.Stream.Fair
import ContainerLayer.Proofs.Stream.Mirroring

/-
What a consumer gets of a filter, whoever has which turn.

Let a producer and a consumer take turns on one filter.  What the consumer has read is the
front of what the producer writes on its own, and only a producer that has succeeded comes to a
clean end.  A producer that fails leaves its fault to every read behind what it wrote before.
-/

namespace ContainerLayer

/-- A reader that is never canceled reads as the one inside. -/
theorem Cancelable.mirrors {σ : Type} [Reader σ] :
    Reader.Mirrors fun (s : σ) (t : Cancelable σ) => t = ⟨s, none⟩ := by
  intro n s t h
  subst h
  have hr : Reader.read n (⟨s, none⟩ : Cancelable σ)
      = ((Reader.read n s).1, ⟨(Reader.read n s).2, none⟩) :=
    Cancelable.read_of_open (s := ⟨s, none⟩) rfl n
  exact ⟨congrArg Prod.fst hr, congrArg Prod.snd hr⟩

theorem Relay.run_cancelable {α σ : Type} [Reader σ] (p : Relay α) (s : σ) :
    run p (⟨s, none⟩ : Cancelable σ)
      = ⟨(run p s).result, (run p s).writes, ⟨(run p s).rest, none⟩⟩ := by
  obtain ⟨hresult, hwrites, hrest⟩ := Cancelable.mirrors.run p (rfl : (⟨s, none⟩ : Cancelable σ) = _)
  rw [← hresult, ← hwrites, ← hrest]

/-- What becomes of a filter is what becomes of its producer, run to its end. -/
theorem Filtered.finish_start {σ δ : Type} [Reader σ] (s : σ) (decide : Decision δ) (d : δ) :
    (start s decide d).finish
      = ((Relay.run (Filter.produce decide d) s).result.1.mapError .shared,
        (Relay.run (Filter.produce decide d) s).rest) := by
  have h := finish_spec (Filter.produce decide d) ⟨s, none⟩
  rwa [Relay.run_cancelable] at h

/-- What a filter gives is what its producer writes. -/
theorem Filtered.data_start {σ δ : Type} [Reader σ] (s : σ) (decide : Decision δ) (d : δ) :
    (start s decide d).drain.data = (Relay.run (Filter.produce decide d) s).written := by
  have h := (drain_spec (Filter.produce decide d) ⟨s, none⟩).1
  rwa [Relay.run_cancelable] at h

theorem Filtered.finish_eq_ok_iff {σ δ : Type} [Reader σ] {s rest : σ} {decide : Decision δ} {d : δ}
    {stats : FilterStats} :
    (start s decide d).finish = (.ok stats, rest)
      ↔ (Relay.run (Filter.produce decide d) s).result.1 = .ok stats
        ∧ (Relay.run (Filter.produce decide d) s).rest = rest := by
  rw [finish_start, Prod.mk.injEq]
  refine and_congr_left fun _ => ?_
  cases (Relay.run (Filter.produce decide d) s).result.1 with
  | error f => exact ⟨nofun, nofun⟩
  | ok stats' => exact Iff.rfl

namespace Filter

/-- The two parties of a filter at work. -/
inductive Side where
  | producer
  | consumer

/-- A turn of the producer, or a read of at most `n` bytes by the consumer. -/
inductive Turn where
  | produce
  | read (n : Nat)

/-- Whose turn it is; to ask for no bytes at all counts for nothing. -/
def Turn.side : Turn → Option Side
  | produce => some .producer
  | read n => if n = 0 then none else some .consumer

theorem Turn.eq_of_producer {t : Turn} (h : t.side = some .producer) : t = .produce := by
  cases t with
  | produce => rfl
  | read n => by_cases hn : n = 0 <;> simp [side, hn] at h

theorem Turn.eq_of_consumer {t : Turn} (h : t.side = some .consumer) :
    ∃ n, n ≠ 0 ∧ t = .read n := by
  cases t with
  | produce => cases h
  | read n =>
    refine ⟨n, ?_, rfl⟩
    rintro rfl
    cases h

/-- A filter at work, and all that its consumer has read. -/
structure Delivery (σ δ : Type) where
  working : Working σ δ
  received : Bytes := []

end Filter

namespace Working

variable {σ δ : Type}

/-- One read of at most `n` bytes, which may have to wait. -/
def read (n : Nat) (w : Working σ δ) : Option (Except Fault Bytes) × Working σ δ :=
  let (r, pipe) := w.filtered.pipe.read n
  (r, { w with filtered := { w.filtered with pipe } })

theorem exists_read {n : Nat} {w w' : Working σ δ} {r : Option (Except Fault Bytes)}
    (h : w.read n = (r, w')) : ∃ pipe, w.filtered.pipe.read n = (r, pipe) := by
  have hr : (w.filtered.pipe.read n).1 = r := congrArg Prod.fst h
  exact ⟨_, Prod.ext hr rfl⟩

end Working

namespace Filter.Delivery

variable {σ δ : Type} [Reader σ]

def turn (s : Delivery σ δ) : Turn → Delivery σ δ
  | .produce => { s with working := s.working.produce }
  | .read n =>
    match s.working.read n with
    | (some (.ok b), working) => { working, received := s.received ++ b }
    | (_, working) => { s with working }

omit [Reader σ] in
/-- A filter at the start, of which nothing has been read. -/
def start (source : σ) (decide : Decision δ) (d : δ) : Delivery σ δ :=
  { working := { filtered := Filtered.start source decide d } }

/-- The consumer has read the front of `written`, and the producer has the rest of it still to
hand out and comes to `result` and `rest`. -/
structure Sound (result : Except Fault FilterStats × δ) (rest : Cancelable σ) (written : Bytes)
    (s : Delivery σ δ) : Prop where
  sane : s.working.Sane
  due : ∃ more, s.working.filtered.Due result rest more ∧ s.received ++ more = written

variable {result : Except Fault FilterStats × δ} {rest : Cancelable σ} {written : Bytes}
  {s : Delivery σ δ}

theorem sound_start (source : σ) (decide : Decision δ) (d : δ) :
    let o := (produce decide d).run source
    Sound o.result ⟨o.rest, none⟩ o.written (start source decide d) := by
  have h : (Filtered.start source decide d).Due _ _ _ := Filtered.due_start
  rw [Relay.run_cancelable] at h
  exact ⟨Working.sane_start _ _, _, h, rfl⟩

theorem Sound.produce (h : Sound result rest written s) :
    Sound result rest written (s.turn .produce) := by
  obtain ⟨more, hdue, hmore⟩ := h.due
  refine ⟨h.sane.produce, more, ?_, hmore⟩
  show s.working.produce.filtered.Due result rest more
  rcases h.sane.filtered_produce with e | e
  · rw [e]
    exact hdue
  · rw [e]
    exact hdue.turn

theorem turn_read_of_ok {n : Nat} {b : Bytes} {pipe : Pipe}
    (hr : s.working.filtered.pipe.read n = (some (.ok b), pipe)) :
    s.turn (.read n) = {
      working := { s.working with filtered := { s.working.filtered with pipe } },
      received := s.received ++ b } := by
  unfold turn Working.read
  dsimp only
  rw [hr]

/-- A read returns bytes, or changes nothing. -/
theorem turn_read_cases (s : Delivery σ δ) (n : Nat) :
    s.turn (.read n) = s
      ∨ ∃ b pipe, b ≠ [] ∧ s.working.filtered.pipe.read n = (some (.ok b), pipe) := by
  obtain ⟨⟨⟨source, pipe, producer⟩, trailing, gone⟩, received⟩ := s
  cases hr : pipe.read n with
  | mk r pipe' =>
    unfold turn Working.read
    dsimp only
    rw [hr]
    cases r with
    | none =>
      obtain ⟨rfl, -⟩ := Pipe.eq_of_read_none hr
      exact .inl rfl
    | some r =>
      cases r with
      | error f =>
        obtain ⟨rfl, -⟩ := Pipe.of_read_error hr
        exact .inl rfl
      | ok b =>
        by_cases hb : b = []
        · subst hb
          obtain rfl := Pipe.eq_of_read_nil hr
          refine .inl ?_
          dsimp only
          rw [List.append_nil]
        · exact .inr ⟨b, pipe', hb, rfl⟩

theorem Sound.read (h : Sound result rest written s) (n : Nat) :
    Sound result rest written (s.turn (.read n)) := by
  rcases turn_read_cases s n with e | ⟨b, pipe, -, hr⟩
  · rwa [e]
  · rw [turn_read_of_ok hr]
    obtain ⟨more, hdue, hmore⟩ := h.due
    obtain ⟨later, hb, hlater⟩ := hdue.read hr
    refine ⟨h.sane.of_pipe fun hc => ?_, later, hlater, ?_⟩
    · have hclosing := (Pipe.of_read_ok hr).2.1
      unfold Pipe.isClosed at hc ⊢
      rwa [hclosing]
    · rw [List.append_assoc, ← hb]
      exact hmore

theorem Sound.turn (h : Sound result rest written s) (t : Turn) :
    Sound result rest written (s.turn t) := by
  cases t with
  | produce => exact h.produce
  | read n => exact h.read n

theorem Sound.turns (h : Sound result rest written s) (ts : List Turn) :
    Sound result rest written (ts.foldl Delivery.turn s) := by
  induction ts generalizing s with
  | nil => exact h
  | cons t ts ih => exact ih (h.turn t)

theorem Sound.isPrefix (h : Sound result rest written s) : s.received <+: written := by
  obtain ⟨more, -, hmore⟩ := h.due
  exact ⟨more, hmore⟩

/-! ## Deliveries come to their end -/

/-- The producer is gone, and everything has been read. -/
def Done (written : Bytes) (s : Delivery σ δ) : Prop :=
  s.working.gone = true ∧ s.received = written

/-- If the producer waits and this is not the end, there is something to read. -/
theorem Sound.exists_read (h : Sound result rest written s) (hw : s.working.Waits)
    (hd : ¬ s.Done written) {n : Nat} (hn : n ≠ 0) :
    ∃ b pipe, b ≠ [] ∧ s.working.filtered.pipe.read n = (some (.ok b), pipe) := by
  obtain ⟨more, hdue, hmore⟩ := h.due
  have hp : s.working.filtered.pipe.pending ≠ [] := by
    cases hg : s.working.gone with
    | false => exact Working.pending_of_waits hw hg
    | true =>
      obtain ⟨k, hk⟩ := h.sane.exists_closing hg
      obtain ⟨-, -, hpending, -⟩ := hdue.of_closed hk
      intro hp
      rw [hpending, hp, List.append_nil] at hmore
      exact hd ⟨hg, hmore⟩
  refine Pipe.exists_read_of_pending hn hp fun f hf => ?_
  obtain ⟨-, -, -, houtcome⟩ := hdue.of_closed hf
  split at houtcome
  · cases houtcome
  · exact hp houtcome.2

theorem Sound.inevitable (h : Sound result rest written s) :
    Inevitable Delivery.turn Turn.side (Done written) s := by
  induction hk : written.length - s.received.length using Nat.strongRecOn generalizing s with
  | ind k ihread =>
    -- between two reads that return bytes, the producer has finitely many turns that count
    have hacc := h.sane.acc
    generalize hw : s.working = w at hacc
    induction hacc generalizing s with
    | intro w _ ihproduce =>
      subst hw
      have hread : ∀ n, s.turn (.read n) ≠ s → Inevitable Delivery.turn Turn.side (Done written)
          (s.turn (.read n)) := by
        intro n hne
        rcases turn_read_cases s n with e | ⟨b, pipe, hb, hr⟩
        · exact absurd e hne
        · have e := turn_read_of_ok hr
          have hlt : 0 < b.length := List.length_pos_iff.mpr hb
          have hle := (h.read n).isPrefix.length_le
          rw [e] at hle
          refine ihread _ ?_ (h.read n) rfl
          rw [e]
          simp only [List.length_append] at hle ⊢
          omega
      by_cases hwaits : s.working.Waits
      · by_cases hd : s.Done written
        · exact .reached hd
        · refine .closer .consumer (fun t hne => ?_) fun t ht => ?_
          · cases t with
            | produce =>
              refine absurd ?_ hne
              show { s with working := s.working.produce } = s
              rw [Working.produce_of_waits hwaits]
            | read n => exact hread n hne
          · obtain ⟨n, hn, rfl⟩ := Turn.eq_of_consumer ht
            obtain ⟨b, pipe, hb, hr⟩ := h.exists_read hwaits hd hn
            refine hread n fun e => hb ?_
            rw [turn_read_of_ok hr] at e
            exact List.append_right_eq_self.mp (congrArg received e)
      · have hproduce : Inevitable Delivery.turn Turn.side (Done written) (s.turn .produce) :=
          ihproduce _ ⟨hwaits, rfl⟩ h.produce hk rfl
        refine .closer .producer (fun t hne => ?_) fun t ht => ?_
        · cases t with
          | produce => exact hproduce
          | read n => exact hread n hne
        · obtain rfl := Turn.eq_of_producer ht
          exact hproduce

/-! ## How deliveries end -/

theorem ended_turn (h : s.working.Sane)
    (he : ∃ outcome d, s.working.filtered.producer = .ended outcome d)
    (t : Turn) : ∃ outcome d, (s.turn t).working.filtered.producer = .ended outcome d := by
  cases t with
  | produce =>
    obtain ⟨outcome, d, he⟩ := he
    refine ⟨outcome, d, ?_⟩
    show s.working.produce.filtered.producer = _
    rw [h.produce_ended he]
    exact he
  | read n =>
    rcases turn_read_cases s n with e | ⟨b, pipe, -, hr⟩
    · rwa [e]
    · rwa [turn_read_of_ok hr]

/-- Once the producer has failed, all reads fail. -/
theorem Sound.read_failed (h : Sound result rest written s)
    (he : ∃ outcome d, s.working.filtered.producer = .ended outcome d) {f : Fault}
    (hf : result.1 = .error f) (ts : List Turn) {n : Nat} (hn : n ≠ 0) :
    ((ts.foldl Delivery.turn s).working.read n).1 = some (.error (.shared f)) := by
  induction ts generalizing s with
  | nil =>
    obtain ⟨more, hdue, -⟩ := h.due
    obtain ⟨outcome, d, he⟩ := he
    obtain ⟨k, hk⟩ := Option.isSome_iff_exists.mp (h.sane.isClosed outcome d he)
    obtain ⟨-, -, -, houtcome⟩ := hdue.of_closed hk
    rw [hf] at houtcome
    obtain ⟨rfl, -⟩ := houtcome
    show (s.working.filtered.pipe.read n).1 = _
    rw [Pipe.read_failed hn hk]
  | cons t ts ih => exact ih (h.turn t) (ended_turn h.sane he t)

/-- A producer that is gone has closed the pipe and hands back what it came to. -/
theorem Sound.finish (h : Sound result rest written s) (hg : s.working.gone = true) :
    s.working.finish? = some (result.1.mapError .shared, rest.inner) := by
  obtain ⟨more, hdue, -⟩ := h.due
  obtain ⟨k, hk⟩ := h.sane.exists_closing hg
  obtain ⟨hproducer, hsource, -⟩ := hdue.of_closed hk
  rw [Working.finish?, if_pos hg, Filtered.finish?_of_ended hproducer, hsource]

/-- Nothing else is ever handed back. -/
theorem Sound.finish_of_finish? (h : Sound result rest written s)
    {r : Except Fault FilterStats × σ} (hr : s.working.finish? = some r) :
    r = (result.1.mapError .shared, rest.inner) :=
  Option.some.inj (hr.symm.trans (h.finish (Working.gone_of_finish? hr)))

/-- When everything has been read and the producer is gone, reads say how it ended. -/
theorem Sound.read_done (h : Sound result rest written s) (hd : s.Done written) {n : Nat}
    (hn : n ≠ 0) :
    (s.working.read n).1 = some (match result.1 with
      | .ok _ => .ok []
      | .error f => .error (.shared f)) := by
  obtain ⟨more, hdue, hmore⟩ := h.due
  obtain ⟨k, hk⟩ := h.sane.exists_closing hd.1
  obtain ⟨-, -, hpending, houtcome⟩ := hdue.of_closed hk
  have hp : s.working.filtered.pipe.pending = [] := by
    rw [hd.2, hpending] at hmore
    exact List.append_right_eq_self.mp hmore
  show (s.working.filtered.pipe.read n).1 = _
  cases hr : result.1 with
  | ok stats =>
    rw [hr] at houtcome
    subst houtcome
    rw [Pipe.read_clean hn hk hp]
  | error f =>
    rw [hr] at houtcome
    obtain ⟨rfl, -⟩ := houtcome
    rw [Pipe.read_failed hn hk]

end Filter.Delivery

namespace Filter

variable {σ δ : Type} [Reader σ]

theorem exists_finish {s : σ} {decide : Decision δ} {d : δ} (stats : FilterStats)
    (h : (Relay.run (produce decide d) s).result.1.toOption = some stats) :
    ∃ rest, (Filtered.start s decide d).finish = (.ok stats, rest) := by
  refine ⟨_, Filtered.finish_eq_ok_iff.mpr ⟨?_, rfl⟩⟩
  cases hr : (Relay.run (produce decide d) s).result.1 with
  | error f =>
    rw [hr] at h
    cases h
  | ok stats' =>
    rw [hr] at h
    exact congrArg Except.ok (Option.some.inj h)

/-! ## An archive that ends too early -/

/-- A file of three bytes of which there is one. -/
def shortArchive : Bytes :=
  ((((Tar.Header.newGnu.put .name (ascii "a")).setSize 3).setKind .regular)).setChecksum.bytes
    ++ ascii "x"

def keepAll : Decision Unit := fun d e => ((true, e), d)

theorem produce_shortArchive :
    ((produce keepAll ()).run (Source.ofBytes shortArchive)).written.length = 513
      ∧ ∃ f, ((produce keepAll ()).run (Source.ofBytes shortArchive)).result.1 = .error f
        ∧ f.text = "entry content is short by 2 bytes" := by
  refine ⟨by decide +kernel, ?_⟩
  have h : (match ((produce keepAll ()).run (Source.ofBytes shortArchive)).result.1 with
      | .ok _ => none
      | .error f => some f.text) = some "entry content is short by 2 bytes" := by decide +kernel
  split at h
  · cases h
  · rename_i f hf
    exact ⟨f, hf, Option.some.inj h⟩

end Filter
end ContainerLayer
