import ContainerLayer.Proofs.Stream.Integrity

/-
What one turn can do to a pipe.

`Pipe.Change` lists the ways in which a pipe changes, with the bytes that go in and those that
come out.  Every turn of a watched channel is one of them, so what is to hold of a pipe
whenever its parties use it is shown for each way to change and then for any turns.
-/

namespace ContainerLayer

/-- A way for a pipe to become `p'`, while `put` goes in and `got` comes out. -/
inductive Pipe.Change (p : Pipe) : (put got : Bytes) → (p' : Pipe) → Prop
  | stays : Change p [] [] p
  | puts {data : Bytes} (hd : data ≠ []) (hopen : p.closing = none) (hp : p.pending = []) :
    Change p (data.take capacity) [] { p with chunk := data.take capacity, taken := 0 }
  | reads {n : Nat} {b : Bytes} {p' : Pipe} (h : p.read n = (some (.ok b), p')) : Change p [] b p'
  | closes (o : Except Fault Unit) : Change p [] [] (p.close o)
  | fails (f : Fault) : Change p [] [] (p.fail f)

namespace Pipe

variable {p p' : Pipe} {put got : Bytes}

/-- A look of a write changes the pipe if it has room for the front of the slice. -/
theorem Looks.change {c : Call} {g : Progress} (h : p.Looks c g p') :
    p.Change (takes c p) [] p' := by
  cases h with
  | waits hopen hp hc =>
    rw [takes_eq_nil fun e => hp e.2]
    exact .stays
  | puts hd hopen hp =>
    rw [takes, if_pos ⟨hopen, hp⟩]
    exact .puts hd hopen hp
  | nothing =>
    rw [takes_entering_nil]
    exact .stays
  | accepted => exact .stays
  | fails f hk hc =>
    rw [takes_eq_nil fun e => Option.some_ne_none _ (hk.symm.trans e.1)]
    exact .stays

/-- A write has something to do unless its slice is empty. -/
theorem Call.Fits.ne_nothing_iff {c : Call} {slice front accepted : Bytes}
    (h : c.Fits slice front accepted) : c ≠ .entering [] ↔ slice ≠ [] := by
  cases c with
  | sent n => exact ⟨fun _ => h.1, fun _ => nofun⟩
  | entering data =>
    obtain ⟨rfl, -⟩ := h
    rw [ne_eq, Call.entering.injEq]

/-- A pipe that was closed with a fault stays closed with one, and nothing moves. -/
theorem Change.of_failed {f : Fault} (h : p.Change put got p')
    (hf : p.closing = some (.failed f)) :
    put = [] ∧ got = [] ∧ ∃ g, p'.closing = some (.failed g) := by
  cases h with
  | stays => exact ⟨rfl, rfl, f, hf⟩
  | puts hd hopen hp => cases hopen.symm.trans hf
  | reads hr =>
    obtain ⟨-, hclosing, -, hnil, -⟩ := of_read_ok hr
    exact ⟨rfl, hnil f hf, f, hclosing.trans hf⟩
  | closes o =>
    rw [close_of_isClosed (by rw [isClosed, hf]; rfl)]
    exact ⟨rfl, rfl, f, hf⟩
  | fails g => exact ⟨rfl, rfl, g, rfl⟩

end Pipe

namespace Channel

/-- The bytes that an event has brought out of the pipe. -/
def Answer.bytes : Answer → Bytes
  | .received (.ok b) => b
  | _ => []

/-- The write that the event begins. -/
def Event.call? : Event → Option Sending
  | .write data => some (.single (.entering data))
  | .writeAll data => some (.whole data (.entering data))
  | _ => none

/-- What the event makes of the pipe if it neither begins a write nor reads. -/
def Event.ends (e : Event) (p : Pipe) : Pipe :=
  match e with
  | .close o => p.close o
  | .readerFail f => p.fail f
  | .outsideFail f => p.fail f
  | .dropReader => p.dropReader
  | .dropWriter => p.dropWriter
  | _ => p

/-- What an event can come to. -/
inductive Acts (ch : Channel) (e : Event) : Answer → Channel → Prop
  | refused {a : Answer} (h : a = .gone ∨ a = .busy) : Acts ch e a ch
  | starts {s : Sending} (he : e.call? = some s) (hs : ch.sending = none) :
    Acts ch e .started { ch with sending := some s }
  | waits {n : Nat} (he : e = .read n) : Acts ch e .blocked ch
  | reads {n : Nat} {r : Except Fault Bytes} {pipe : Pipe} (he : e = .read n)
    (hr : ch.pipe.read n = (some r, pipe)) : Acts ch e (.received r) { ch with pipe }
  | ends {ch' : Channel} (hp : ch'.pipe = e.ends ch.pipe) (hs : ch'.sending = ch.sending) :
    Acts ch e .ok ch'

theorem acts_start {e : Event} {s : Sending} {ch : Channel} (he : e.call? = some s) :
    Acts ch e (ch.start s).1 (ch.start s).2 := by
  rcases start_cases s ch with h | h | ⟨hs, h⟩
  · rw [h]
    exact .refused (.inl rfl)
  · rw [h]
    exact .refused (.inr rfl)
  · rw [h]
    exact .starts he hs

theorem acts_read (n : Nat) (ch : Channel) :
    Acts ch (.read n) (ch.act (.read n)).1 (ch.act (.read n)).2 := by
  rcases act_read_cases n ch with h | h | ⟨r, pipe, hr, h⟩
  · rw [h]
    exact .refused (.inl rfl)
  · rw [h]
    exact .waits rfl
  · rw [h]
    exact .reads rfl hr

/-- An event that neither begins a write nor reads, and for which an end must still be held. -/
theorem acts_end {e : Event} {ch ch' : Channel} {gone : Bool}
    (hact : ch.act e = if gone then (.gone, ch) else (.ok, ch'))
    (hp : ch'.pipe = e.ends ch.pipe) (hs : ch'.sending = ch.sending) :
    Acts ch e (ch.act e).1 (ch.act e).2 := by
  rw [hact]
  cases gone with
  | true => exact .refused (.inl rfl)
  | false => exact .ends hp hs

theorem acts (e : Event) (ch : Channel) : Acts ch e (ch.act e).1 (ch.act e).2 := by
  cases e with
  | write data => exact acts_start rfl
  | writeAll data => exact acts_start rfl
  | flush => exact acts_end rfl rfl rfl
  | read n => exact acts_read n ch
  | close o => exact acts_end rfl rfl rfl
  | readerFail f => exact acts_end rfl rfl rfl
  | outsideFail f => exact .ends rfl rfl
  | dropReader => exact acts_end rfl rfl rfl
  | dropWriter =>
    unfold act
    dsimp only
    split
    · exact .refused (.inl rfl)
    split
    · exact .refused (.inr rfl)
    · exact .ends rfl rfl

theorem acts_of_eq {e : Event} {a : Answer} {ch ch' : Channel} (h : ch.act e = (a, ch')) :
    Acts ch e a ch' := by
  have := acts e ch
  rwa [h] at this

theorem change_ends (e : Event) (p : Pipe) : p.Change [] [] (e.ends p) := by
  cases e with
  | close o => exact .closes o
  | readerFail f => exact .fails f
  | outsideFail f => exact .fails f
  | dropReader => exact .closes _
  | dropWriter => exact .closes _
  | _ => exact .stays

/-- Events put nothing into the pipe. -/
theorem Acts.change {ch ch' : Channel} {e : Event} {a : Answer} (h : Acts ch e a ch') :
    ch.pipe.Change [] a.bytes ch'.pipe := by
  cases h with
  | refused h =>
    rcases h with rfl | rfl
    · exact .stays
    · exact .stays
  | starts => exact .stays
  | waits => exact .stays
  | @reads n r pipe he hr =>
    cases r with
    | ok b => exact .reads hr
    | error f =>
      obtain ⟨rfl, -⟩ := Pipe.of_read_error hr
      exact .stays
  | ends hp =>
    rw [hp]
    exact change_ends e ch.pipe

theorem pipe_afterAll (ch : Channel) (outcome : Pipe.Progress.All × Pipe) :
    (ch.afterAll outcome).2.pipe = outcome.2 := by
  rcases outcome with ⟨c | r, p⟩
  · rfl
  cases r <;> rfl

theorem pipe_look_single {ch : Channel} {c : Pipe.Call} (hs : ch.sending = some (.single c)) :
    ch.look.2.pipe = (Pipe.advance c ch.pipe).2 := by
  unfold look
  rw [hs]
  dsimp only
  rcases Pipe.advance c ch.pipe with ⟨c' | r, p⟩
  · rfl
  cases r <;> rfl

namespace Watched

theorem accepted_turn_look (w : Watched) :
    (w.turn .look).accepted = w.accepted ++ w.channel.accepts := by
  unfold turn
  dsimp only
  split <;> rfl

theorem received_turn_look (w : Watched) : (w.turn .look).received = w.received := by
  unfold turn
  dsimp only
  split <;> rfl

theorem accepted_turn_event (w : Watched) (e : Event) :
    (w.turn (.event e)).accepted = w.accepted := by
  unfold turn
  dsimp only
  split <;> rfl

theorem received_turn_event (w : Watched) (e : Event) :
    (w.turn (.event e)).received = w.received ++ (w.channel.act e).1.bytes := by
  unfold turn
  dsimp only
  rcases w.channel.act e with ⟨a, channel⟩
  cases a with
  | received r =>
    cases r with
    | ok b => rfl
    | error f => exact (List.append_nil _).symm
  | _ => exact (List.append_nil _).symm

/-- What is left of writing as a whole is written by a write of its front. -/
theorem Sound.nil_of_whole_nil {w : Watched} (h : w.Sound) {c : Pipe.Call}
    (hs : w.channel.sending = some (.whole [] c)) : c = .entering [] := by
  have hsends := h.sends
  rw [Sends, hs] at hsends
  obtain ⟨done, -, hfits⟩ := hsends
  by_cases hc : c = .entering []
  · exact hc
  · exact absurd rfl (hfits.ne_nothing_iff.mp hc)

theorem Sound.change_look {w : Watched} (h : w.Sound) :
    w.channel.pipe.Change w.channel.accepts [] w.channel.look.2.pipe := by
  cases hs : w.channel.sending with
  | none =>
    rw [accepts, Channel.look, hs]
    exact .stays
  | some s =>
    cases s with
    | single c =>
      rw [accepts, hs, pipe_look_single hs]
      exact (Pipe.looks c w.channel.pipe).change
    | whole left c =>
      rw [accepts, hs]
      by_cases hleft : left = []
      · subst hleft
        rw [Channel.look_whole_nil hs, h.nil_of_whole_nil hs]
        dsimp only
        rw [Pipe.takes_entering_nil]
        exact .stays
      · rw [Channel.look_whole hs hleft, pipe_afterAll, Pipe.lookAll_snd]
        exact (Pipe.looks c w.channel.pipe).change

/-- Every turn changes the pipe in one of the ways there are. -/
theorem Sound.change {w : Watched} (h : w.Sound) (t : Turn) :
    ∃ put got, w.channel.pipe.Change put got (w.turn t).channel.pipe
      ∧ (w.turn t).accepted = w.accepted ++ put ∧ (w.turn t).received = w.received ++ got := by
  cases t with
  | event e =>
    refine ⟨[], (w.channel.act e).1.bytes, ?_, ?_, w.received_turn_event e⟩
    · rw [channel_turn_event]
      exact (acts e w.channel).change
    · rw [accepted_turn_event, List.append_nil]
  | look =>
    refine ⟨w.channel.accepts, [], ?_, w.accepted_turn_look, ?_⟩
    · rw [channel_turn_look]
      exact h.change_look
    · rw [received_turn_look, List.append_nil]

end Watched
end Channel
end ContainerLayer
