import ContainerLayer.Proofs.Stream.Looking
import ContainerLayer.Stream.Channel

/-
A pipe that its two parties use in turns.

A turn is an event of a channel or one look of the write under way, so a list of turns is one
way in which the steps of the writer, the reader and whoever else closes the pipe can follow
each other.  `Watched` keeps, beside the channel, what was put into the pipe and what was read
from it so far.  `Watched.Sound` says how these agree with the state of the pipe and with what
the writer was called with; every turn keeps it.
-/

namespace ContainerLayer

namespace Pipe.Call

/-- What the writing of `slice` has come to, where `front` is what was put into the pipe
before it. -/
def Fits (c : Call) (slice front accepted : Bytes) : Prop :=
  match c with
  | .entering data => data = slice ∧ accepted = front
  | .sent n => slice ≠ [] ∧ n = (slice.take capacity).length
      ∧ accepted = front ++ slice.take capacity

/-- What the write has still to put into the pipe. -/
def todo : Call → Bytes
  | .entering data => data.take capacity
  | .sent _ => []

variable {c c' : Call} {slice front accepted : Bytes} {p p' : Pipe} {n : Nat} {f : Fault}

/-- A write that waits looks at an open pipe. -/
theorem Fits.of_waits (h : c.Fits slice front accepted) (hl : p.Looks c (.waits c') p') :
    p.closing = none ∧ c'.Fits slice front (accepted ++ takes c p)
      ∧ takes c p ++ c'.todo = c.todo := by
  cases hl with
  | waits hopen hp hc =>
    have ht : takes c p = [] := takes_eq_nil fun e => hp e.2
    rw [ht, List.append_nil]
    exact ⟨hopen, h, rfl⟩
  | puts hd hopen hp =>
    obtain ⟨rfl, rfl⟩ := h
    rw [takes, if_pos ⟨hopen, hp⟩]
    exact ⟨hopen, ⟨hd, rfl, rfl⟩, List.append_nil _⟩

/-- A write that returns has put its chunk into the pipe before, and the pipe is empty or was
closed cleanly. -/
theorem Fits.of_returns (h : c.Fits slice front accepted)
    (hl : p.Looks c (.returns (.ok n)) p') :
    p' = p ∧ takes c p = [] ∧ c.todo = [] ∧ n = (slice.take capacity).length
      ∧ accepted = front ++ slice.take capacity
      ∧ (slice ≠ [] → p.closing = some .clean ∨ p.closing = none ∧ p.pending = []) := by
  cases hl with
  | nothing =>
    obtain ⟨rfl, rfl⟩ := h
    exact ⟨rfl, takes_entering_nil p, rfl, rfl, (List.append_nil _).symm, fun hne => absurd rfl hne⟩
  | accepted hn =>
    obtain ⟨-, rfl, rfl⟩ := h
    exact ⟨rfl, rfl, rfl, rfl, rfl, fun _ => hn⟩

theorem takes_of_fails (hl : p.Looks c (.returns (.error f)) p') :
    p' = p ∧ takes c p = [] ∧ p.isClosed = true := by
  cases hl with
  | fails f hk hc =>
    have ht : takes c p = [] := takes_eq_nil fun e => nomatch hk.symm.trans e.1
    refine ⟨rfl, ht, ?_⟩
    rw [isClosed, hk]
    rfl

end Pipe.Call

namespace Channel

/-- The channel once writes in a row have come to `outcome`. -/
def afterAll (ch : Channel) (outcome : Pipe.Progress.All × Pipe) : Option Sent × Channel :=
  match outcome with
  | (.waits left c, pipe) => (none, { ch with pipe, sending := some (.whole left c) })
  | (.returns (.ok ()), pipe) => (some .all, { ch with pipe, sending := none })
  | (.returns (.error f), pipe) => (some (.failed f), { ch with pipe, sending := none })

/-- The write under way looks at the pipe once. -/
def look (ch : Channel) : Option Sent × Channel :=
  match ch.sending with
  | none => (none, ch)
  | some (.single c) =>
    match Pipe.advance c ch.pipe with
    | (.waits c, pipe) => (none, { ch with pipe, sending := some (.single c) })
    | (.returns (.ok n), pipe) => (some (.part n), { ch with pipe, sending := none })
    | (.returns (.error f), pipe) => (some (.failed f), { ch with pipe, sending := none })
  | some (.whole left c) =>
    if left = [] then ch.afterAll (.returns (.ok ()), ch.pipe)
    else ch.afterAll (Pipe.lookAll left c ch.pipe)

theorem look_whole {ch : Channel} {left : Bytes} {c : Pipe.Call}
    (hs : ch.sending = some (.whole left c)) (hleft : left ≠ []) :
    ch.look = ch.afterAll (Pipe.lookAll left c ch.pipe) := by
  unfold look
  rw [hs]
  exact if_neg hleft

theorem look_whole_nil {ch : Channel} {c : Pipe.Call} (hs : ch.sending = some (.whole [] c)) :
    ch.look = (some .all, { ch with sending := none }) := by
  unfold look
  rw [hs]
  rfl

/-- What the pipe takes if the write under way looks at it. -/
def accepts (ch : Channel) : Bytes :=
  match ch.sending with
  | none => []
  | some (.single c) => Pipe.takes c ch.pipe
  | some (.whole _ c) => Pipe.takes c ch.pipe

inductive Turn where
  | event (e : Event)
  | look

/-- The bytes that the writer is called with. -/
def Event.slice : Event → Bytes
  | .write data => data
  | .writeAll data => data
  | _ => []

/-- How much of them the call puts into the pipe if it does not fail. -/
def Event.carried : Event → Bytes
  | .write data => data.take Pipe.capacity
  | .writeAll data => data
  | _ => []

/-- A channel with what has happened to it. -/
structure Watched where
  channel : Channel := {}
  /-- The calls of the writer that have begun. -/
  calls : List Event := []
  /-- Has one of them failed? -/
  failed : Bool := false
  /-- What the last one of them is to write. -/
  slice : Bytes := []
  /-- What had been put into the pipe when it began. -/
  front : Bytes := []
  /-- All that was ever put into the pipe. -/
  accepted : Bytes := []
  /-- All that reads have returned. -/
  received : Bytes := []

namespace Watched

def turn (w : Watched) : Turn → Watched
  | .event e =>
    match w.channel.act e with
    | (.started, channel) =>
      { w with channel, calls := w.calls ++ [e], slice := e.slice, front := w.accepted }
    | (.received (.ok b), channel) => { w with channel, received := w.received ++ b }
    | (_, channel) => { w with channel }
  | .look =>
    let w' : Watched := { w with accepted := w.accepted ++ w.channel.accepts }
    match w.channel.look with
    | (some (.failed _), channel) => { w' with channel, failed := true }
    | (_, channel) => { w' with channel }

/-- The slice of the single write under way, and what has come of it. -/
def writing (w : Watched) : Option (Bytes × Pipe.Call) :=
  match w.channel.sending with
  | none => none
  | some (.single c) => some (w.slice, c)
  | some (.whole left c) => some (left, c)

/-- What all calls so far put into the pipe if none of them fails. -/
def carried (w : Watched) : Bytes := w.calls.flatMap Event.carried

/-- How much of that is still to come. -/
def outstanding (w : Watched) : Bytes :=
  match w.channel.sending with
  | none => []
  | some (.single c) => c.todo
  | some (.whole left c) => c.todo ++ left.drop Pipe.capacity

/-- What the write under way has come to, going by what was put into the pipe. -/
def Sends (w : Watched) : Prop :=
  match w.channel.sending with
  | none => True
  | some (.single c) => c.Fits w.slice w.front w.accepted
  | some (.whole left c) =>
    ∃ done, w.slice = done ++ left ∧ c.Fits left (w.front ++ done) w.accepted

end Watched
end Channel

namespace Pipe

/-- What went in and what came out, given what the pipe holds now.  A fault may have thrown
away a part of it. -/
structure Flows (received accepted : Bytes) (p : Pipe) : Prop where
  isPrefix : received <+: accepted
  pending : (∀ f, p.closing ≠ some (.failed f)) → accepted = received ++ p.pending

variable {received accepted : Bytes} {p p' : Pipe}

theorem Flows.look {c : Call} {g : Progress} (h : Flows received accepted p)
    (hl : p.Looks c g p') : Flows received (accepted ++ takes c p) p' := by
  cases hl with
  | waits hopen hp hc =>
    have ht : takes c p = [] := takes_eq_nil fun e => hp e.2
    rwa [ht, List.append_nil]
  | puts hd hopen hp =>
    have hall := h.pending fun f e => nomatch hopen.symm.trans e
    rw [hp, List.append_nil] at hall
    rw [takes, if_pos ⟨hopen, hp⟩, hall]
    exact ⟨List.prefix_append _ _, fun _ => rfl⟩
  | nothing => rwa [takes_entering_nil, List.append_nil]
  | accepted hn => rwa [takes_sent, List.append_nil]
  | fails f hk hc =>
    have ht : takes c p = [] := takes_eq_nil fun e => nomatch hk.symm.trans e.1
    rwa [ht, List.append_nil]

/-- Reading from the pipe moves bytes from what it holds to what was read. -/
theorem Flows.read {n : Nat} {b : Bytes} (h : Flows received accepted p)
    (hr : p.read n = (some (.ok b), p')) : Flows (received ++ b) accepted p' := by
  obtain ⟨hp, hclosing, -, hfail, -⟩ := of_read_ok hr
  by_cases hf : ∃ f, p.closing = some (.failed f)
  · obtain ⟨f, hf⟩ := hf
    rw [hfail f hf, List.append_nil]
    exact ⟨h.isPrefix, fun hne => absurd (hclosing.trans hf) (hne f)⟩
  · have hall := h.pending fun f e => hf ⟨f, e⟩
    rw [hp, ← List.append_assoc] at hall
    exact ⟨⟨_, hall.symm⟩, fun _ => hall⟩

theorem Flows.fail (h : Flows received accepted p) (f : Fault) :
    Flows received accepted (p.fail f) :=
  ⟨h.isPrefix, fun hne => absurd rfl (hne f)⟩

theorem Flows.close (h : Flows received accepted p) (o : Except Fault Unit) :
    Flows received accepted (p.close o) := by
  unfold Pipe.close
  split
  · exact h
  · rename_i hc
    exact ⟨h.isPrefix, fun _ => h.pending fun f e => nomatch hc.symm.trans e⟩
  · exact h.fail _

end Pipe

namespace Channel

/-- What a read can come to. -/
theorem act_read_cases (n : Nat) (ch : Channel) :
    ch.act (.read n) = (.gone, ch) ∨ ch.act (.read n) = (.blocked, ch)
      ∨ ∃ r pipe, ch.pipe.read n = (some r, pipe)
        ∧ ch.act (.read n) = (.received r, { ch with pipe }) := by
  unfold act
  dsimp only
  split
  · exact .inl rfl
  split
  · rename_i r pipe h
    exact .inr (.inr ⟨r, pipe, h, rfl⟩)
  · exact .inr (.inl rfl)

theorem start_cases (s : Sending) (ch : Channel) :
    ch.start s = (.gone, ch) ∨ ch.start s = (.busy, ch)
      ∨ ch.sending = none ∧ ch.start s = (.started, { ch with sending := some s }) := by
  unfold start
  split
  · exact .inl rfl
  split
  · exact .inr (.inl rfl)
  · rename_i hs
    exact .inr (.inr ⟨Option.not_isSome_iff_eq_none.mp hs, rfl⟩)

namespace Watched

/-- What is true of a watched channel at any time. -/
structure Sound (w : Watched) : Prop where
  flows : w.channel.pipe.Flows w.received w.accepted
  sends : w.Sends
  isClosed : w.failed = true → w.channel.pipe.isClosed = true
  isPrefix : w.accepted <+: w.carried
  balance : w.failed = false → w.accepted ++ w.outstanding = w.carried

theorem sound_empty : Sound {} where
  flows := ⟨List.nil_prefix, fun _ => rfl⟩
  sends := trivial
  isClosed := nofun
  isPrefix := List.nil_prefix
  balance _ := rfl

/-- Only what goes on in the pipe changes. -/
theorem Sound.of_pipe {w : Watched} (h : w.Sound) {channel : Channel} {received : Bytes}
    (hs : channel.sending = w.channel.sending) (hf : channel.pipe.Flows received w.accepted)
    (hc : w.channel.pipe.isClosed = true → channel.pipe.isClosed = true) :
    Sound { w with channel, received } where
  flows := hf
  sends := by
    have := h.sends
    unfold Sends at this ⊢
    rwa [hs]
  isClosed e := hc (h.isClosed e)
  isPrefix := h.isPrefix
  balance e := by
    refine Eq.trans (congrArg (w.accepted ++ ·) ?_) (h.balance e)
    unfold outstanding
    dsimp only
    rw [hs]

/-- A call of the writer begins. -/
theorem Sound.of_start {w : Watched} (h : w.Sound) {e : Event} {s : Sending}
    (hnone : w.channel.sending = none)
    (hsends : Sends { w with
      channel := { w.channel with sending := some s }, slice := e.slice, front := w.accepted })
    (hout : outstanding { w with channel := { w.channel with sending := some s } } = e.carried) :
    Sound { w with
      channel := { w.channel with sending := some s }, calls := w.calls ++ [e], slice := e.slice,
      front := w.accepted } := by
  have hcarried : (w.calls ++ [e]).flatMap Event.carried = w.carried ++ e.carried := by
    rw [List.flatMap_append, List.flatMap_singleton]
    rfl
  refine ⟨h.flows, hsends, h.isClosed, ?_, fun hf => ?_⟩
  · unfold carried
    rw [hcarried]
    exact h.isPrefix.trans (List.prefix_append _ _)
  · have hw := h.balance hf
    rw [outstanding, hnone, List.append_nil] at hw
    unfold carried
    rw [hcarried, ← hw]
    exact congrArg (w.accepted ++ ·) hout

/-- The write under way looks at the pipe: the pipe takes `b`, and what is still to come
gets shorter by that. -/
theorem Sound.of_look {w : Watched} (h : w.Sound) {channel : Channel} {b : Bytes} {failed : Bool}
    (hflows : channel.pipe.Flows w.received (w.accepted ++ b))
    (hsends : Sends { w with channel, accepted := w.accepted ++ b })
    (hclosed : failed = true → channel.pipe.isClosed = true)
    (hfailed : failed = false → w.failed = false)
    (hb : b = [] ∨ failed = false)
    (hout : failed = false → b ++ outstanding { w with channel } = w.outstanding) :
    Sound { w with channel, accepted := w.accepted ++ b, failed } := by
  have hbalance : failed = false →
      w.accepted ++ b ++ outstanding { w with channel } = w.carried := by
    intro hf
    rw [List.append_assoc, hout hf]
    exact h.balance (hfailed hf)
  refine ⟨hflows, hsends, hclosed, ?_, hbalance⟩
  rcases hb with rfl | hf
  · exact (List.append_nil w.accepted).symm ▸ h.isPrefix
  · exact ⟨_, hbalance hf⟩

/-- Events that neither begin a write nor read leave the write under way alone, and close the
pipe or leave it alone. -/
theorem Sound.of_end {w : Watched} (h : w.Sound) {pipe : Pipe} {readerGone writerGone : Bool}
    (hp : pipe = w.channel.pipe ∨ (∃ f, pipe = w.channel.pipe.fail f)
      ∨ ∃ o, pipe = w.channel.pipe.close o) :
    Sound { w with channel := { w.channel with pipe, readerGone, writerGone } } := by
  rcases hp with rfl | ⟨f, rfl⟩ | ⟨o, rfl⟩
  · exact h.of_pipe rfl h.flows id
  · exact h.of_pipe rfl (h.flows.fail f) fun _ => rfl
  · exact h.of_pipe rfl (h.flows.close o) fun _ => Pipe.isClosed_close o _

/-- An event that begins a write if none is under way. -/
theorem Sound.event_start {w : Watched} (h : w.Sound) {e : Event} {s : Sending}
    (hact : w.channel.act e = w.channel.start s)
    (hnew : w.channel.sending = none → Sound { w with
      channel := { w.channel with sending := some s }, calls := w.calls ++ [e],
      slice := e.slice, front := w.accepted }) : (w.turn (.event e)).Sound := by
  unfold turn
  dsimp only
  rw [hact]
  rcases start_cases s w.channel with hs | hs | ⟨hnone, hs⟩
  · rw [hs]
    exact h
  · rw [hs]
    exact h
  · rw [hs]
    exact hnew hnone

theorem Sound.event_read {w : Watched} (h : w.Sound) (n : Nat) :
    (w.turn (.event (.read n))).Sound := by
  unfold turn
  dsimp only
  rcases act_read_cases n w.channel with ha | ha | ⟨r, pipe, hr, ha⟩
  · rw [ha]
    exact h
  · rw [ha]
    exact h
  · rw [ha]
    cases r with
    | ok b =>
      have hclosing := (Pipe.of_read_ok hr).2.1
      refine h.of_pipe rfl (h.flows.read hr) fun hc => ?_
      unfold Pipe.isClosed at hc ⊢
      rwa [hclosing]
    | error f =>
      obtain ⟨rfl, -⟩ := Pipe.of_read_error hr
      exact h

/-- An event that moves no bytes and begins nothing. -/
theorem Sound.event_quiet {w : Watched} {e : Event} {a : Answer} {channel : Channel}
    (ha : a = .gone ∨ a = .busy ∨ a = .ok) (hact : w.channel.act e = (a, channel))
    (hnew : Sound { w with channel }) : (w.turn (.event e)).Sound := by
  unfold turn
  dsimp only
  rw [hact]
  rcases ha with rfl | rfl | rfl <;> exact hnew

theorem Sound.event {w : Watched} (h : w.Sound) (e : Event) : (w.turn (.event e)).Sound := by
  cases e with
  | write data => exact h.event_start rfl fun hnone => h.of_start hnone ⟨rfl, rfl⟩ rfl
  | writeAll data =>
    exact h.event_start rfl fun hnone =>
      h.of_start hnone ⟨[], rfl, rfl, (List.append_nil _).symm⟩ (List.take_append_drop _ _)
  | read n => exact h.event_read n
  | flush =>
    by_cases hg : w.channel.writerGone
    · exact event_quiet (.inl rfl) (if_pos hg) h
    · exact event_quiet (.inr (.inr rfl)) (if_neg hg) h
  | close o =>
    by_cases hg : w.channel.writerGone
    · exact event_quiet (.inl rfl) (if_pos hg) h
    · exact event_quiet (.inr (.inr rfl)) (if_neg hg) (h.of_end (.inr (.inr ⟨o, rfl⟩)))
  | readerFail f =>
    by_cases hg : w.channel.readerGone
    · exact event_quiet (.inl rfl) (if_pos hg) h
    · exact event_quiet (.inr (.inr rfl)) (if_neg hg) (h.of_end (.inr (.inl ⟨f, rfl⟩)))
  | outsideFail f => exact event_quiet (.inr (.inr rfl)) rfl (h.of_end (.inr (.inl ⟨f, rfl⟩)))
  | dropReader =>
    by_cases hg : w.channel.readerGone
    · exact event_quiet (.inl rfl) (if_pos hg) h
    · exact event_quiet (.inr (.inr rfl)) (if_neg hg) (h.of_end (.inr (.inr ⟨_, rfl⟩)))
  | dropWriter =>
    by_cases hg : w.channel.writerGone
    · exact event_quiet (.inl rfl) (if_pos hg) h
    by_cases hs : w.channel.sending.isSome
    · exact event_quiet (.inr (.inl rfl)) ((if_neg hg).trans (if_pos hs)) h
    · exact event_quiet (.inr (.inr rfl)) ((if_neg hg).trans (if_neg hs))
        (h.of_end (.inr (.inr ⟨_, rfl⟩)))

/-! ## Looks -/

theorem turn_look_of_failed {w : Watched} {f : Fault} {channel : Channel}
    (h : w.channel.look = (some (.failed f), channel)) :
    w.turn .look
      = { w with channel, accepted := w.accepted ++ w.channel.accepts, failed := true } := by
  unfold turn
  dsimp only
  rw [h]

theorem turn_look_of_ne_failed {w : Watched} {sent : Option Sent} {channel : Channel}
    (h : w.channel.look = (sent, channel)) (hs : ∀ f, sent ≠ some (.failed f)) :
    w.turn .look = { w with channel, accepted := w.accepted ++ w.channel.accepts } := by
  unfold turn
  dsimp only
  rw [h]
  cases sent with
  | none => rfl
  | some s =>
    cases s with
    | part n => rfl
    | all => rfl
    | failed f => exact absurd rfl (hs f)

theorem Sound.failed_of_open {w : Watched} (h : w.Sound) (hopen : w.channel.pipe.closing = none) :
    w.failed = false := by
  rw [Bool.eq_false_iff]
  intro hf
  have := h.isClosed hf
  rw [Pipe.isClosed, hopen] at this
  cases this

/-- One look of a single write. -/
theorem Sound.look_single {w : Watched} (h : w.Sound) {c : Pipe.Call}
    (hs : w.channel.sending = some (.single c)) : (w.turn .look).Sound := by
  have hsends := h.sends
  rw [Sends, hs] at hsends
  have haccepts : w.channel.accepts = Pipe.takes c w.channel.pipe := by rw [accepts, hs]
  have hout : w.outstanding = c.todo := by rw [outstanding, hs]
  have hlook := Pipe.looks c w.channel.pipe
  have hflows := h.flows.look hlook
  cases ha : Pipe.advance c w.channel.pipe with
  | mk g pipe =>
    rw [ha] at hlook hflows
    cases g with
    | waits c' =>
      have e : w.channel.look
          = (none, { w.channel with pipe, sending := some (.single c') }) := by
        rw [look, hs]
        dsimp only
        rw [ha]
      obtain ⟨hopen, hfits, htodo⟩ := Pipe.Call.Fits.of_waits hsends hlook
      have hf := h.failed_of_open hopen
      rw [turn_look_of_ne_failed e (by simp), haccepts]
      exact h.of_look hflows hfits (by simp [hf]) id (.inr hf)
        fun _ => htodo.trans hout.symm
    | returns r =>
      cases r with
      | ok n =>
        have e : w.channel.look
            = (some (.part n), { w.channel with pipe, sending := none }) := by
          rw [look, hs]
          dsimp only
          rw [ha]
        obtain ⟨rfl, htakes, htodo, -⟩ := Pipe.Call.Fits.of_returns hsends hlook
        rw [turn_look_of_ne_failed e (by simp), haccepts]
        exact h.of_look hflows trivial h.isClosed id (.inl htakes)
          fun _ => by rw [htakes, hout, htodo]; rfl
      | error f =>
        have e : w.channel.look
            = (some (.failed f), { w.channel with pipe, sending := none }) := by
          rw [look, hs]
          dsimp only
          rw [ha]
        obtain ⟨rfl, htakes, hclosed⟩ := Pipe.Call.takes_of_fails hlook
        rw [turn_look_of_failed e, haccepts]
        exact h.of_look hflows trivial (fun _ => hclosed) (by simp) (.inl htakes) (by simp)

/-- The front of `left` is written, and the rest of it comes next. -/
theorem Sound.look_whole_ok {w : Watched} (h : w.Sound) {left : Bytes} {c : Pipe.Call} {n : Nat}
    {pipe : Pipe} (hs : w.channel.sending = some (.whole left c)) (hleft : left ≠ [])
    (ha : Pipe.advance c w.channel.pipe = (.returns (.ok n), pipe)) : (w.turn .look).Sound := by
  have hsends := h.sends
  rw [Sends, hs] at hsends
  obtain ⟨done, hslice, hsends⟩ := hsends
  have haccepts : w.channel.accepts = Pipe.takes c w.channel.pipe := by rw [accepts, hs]
  have hout : w.outstanding = c.todo ++ left.drop Pipe.capacity := by rw [outstanding, hs]
  have hlook := Pipe.looks_of_eq ha
  have hflows := h.flows.look hlook
  obtain ⟨rfl, htakes, htodo, hn, haccepted, -⟩ := Pipe.Call.Fits.of_returns hsends hlook
  have hpos : n ≠ 0 := by
    rw [hn]
    exact fun e => Pipe.take_capacity_ne_nil hleft (List.eq_nil_of_length_eq_zero e)
  have hdrop : left.drop n = left.drop Pipe.capacity := by rw [hn, Pipe.drop_length_take]
  have htake : left.take n = left.take Pipe.capacity := by rw [hn, Pipe.take_length_take]
  by_cases hle : left.length ≤ n
  · have e : w.channel.look
        = (some .all, { w.channel with pipe := w.channel.pipe, sending := none }) := by
      rw [Channel.look_whole hs hleft, Pipe.lookAll_done ha hpos hle]
      rfl
    rw [turn_look_of_ne_failed e (by simp), haccepts]
    refine h.of_look hflows trivial h.isClosed id (.inl htakes) fun _ => ?_
    rw [htakes, hout, htodo, ← hdrop, List.drop_of_length_le hle]
    rfl
  · have e : w.channel.look
        = (none, { w.channel with
          pipe := w.channel.pipe,
          sending := some (.whole (left.drop n) (.entering (left.drop n))) }) := by
      rw [Channel.look_whole hs hleft, Pipe.lookAll_next ha hpos hle]
      rfl
    rw [turn_look_of_ne_failed e (by simp), haccepts]
    refine h.of_look hflows ⟨done ++ left.take n, ?_, rfl, ?_⟩ h.isClosed id (.inl htakes)
      fun _ => ?_
    · rw [List.append_assoc, List.take_append_drop]
      exact hslice
    · rw [htakes, List.append_nil, haccepted, htake, List.append_assoc]
    · rw [htakes, hout, htodo, ← hdrop]
      exact List.take_append_drop _ _

/-- One look of the write of the front of `left`. -/
theorem Sound.look_whole {w : Watched} (h : w.Sound) {left : Bytes} {c : Pipe.Call}
    (hs : w.channel.sending = some (.whole left c)) (hleft : left ≠ []) :
    (w.turn .look).Sound := by
  have hsends := h.sends
  rw [Sends, hs] at hsends
  obtain ⟨done, hslice, hsends⟩ := hsends
  have haccepts : w.channel.accepts = Pipe.takes c w.channel.pipe := by rw [accepts, hs]
  have hout : w.outstanding = c.todo ++ left.drop Pipe.capacity := by rw [outstanding, hs]
  cases ha : Pipe.advance c w.channel.pipe with
  | mk g pipe =>
    have hlook := Pipe.looks_of_eq ha
    have hflows := h.flows.look hlook
    cases g with
    | waits c' =>
      have e : w.channel.look
          = (none, { w.channel with pipe, sending := some (.whole left c') }) := by
        rw [Channel.look_whole hs hleft, Pipe.lookAll_waits ha]
        rfl
      obtain ⟨hopen, hfits, htodo⟩ := Pipe.Call.Fits.of_waits hsends hlook
      have hf := h.failed_of_open hopen
      rw [turn_look_of_ne_failed e (by simp), haccepts]
      refine h.of_look hflows ⟨done, hslice, hfits⟩ (by simp [hf]) id (.inr hf)
        fun _ => ?_
      rw [hout, ← htodo, List.append_assoc]
      rfl
    | returns r =>
      cases r with
      | ok n => exact h.look_whole_ok hs hleft ha
      | error f =>
        have e : w.channel.look
            = (some (.failed f), { w.channel with pipe, sending := none }) := by
          rw [Channel.look_whole hs hleft, Pipe.lookAll_error ha]
          rfl
        obtain ⟨rfl, htakes, hclosed⟩ := Pipe.Call.takes_of_fails hlook
        rw [turn_look_of_failed e, haccepts]
        exact h.of_look hflows trivial (fun _ => hclosed) (by simp) (.inl htakes) (by simp)

/-- Nothing is left to write. -/
theorem Sound.look_whole_nil {w : Watched} (h : w.Sound) {c : Pipe.Call}
    (hs : w.channel.sending = some (.whole [] c)) : (w.turn .look).Sound := by
  have hsends := h.sends
  rw [Sends, hs] at hsends
  obtain ⟨done, -, hsends⟩ := hsends
  have haccepts : w.channel.accepts = Pipe.takes c w.channel.pipe := by rw [accepts, hs]
  have hout : w.outstanding = c.todo ++ [] := by rw [outstanding, hs]; rfl
  have e := Channel.look_whole_nil hs
  cases c with
  | sent n => exact absurd rfl hsends.1
  | entering data =>
    obtain ⟨rfl, -⟩ := hsends
    rw [Pipe.takes_entering_nil] at haccepts
    rw [turn_look_of_ne_failed e (by simp), haccepts]
    exact h.of_look ((List.append_nil w.accepted).symm ▸ h.flows) trivial h.isClosed id (.inl rfl)
      fun _ => hout.symm

theorem Sound.look {w : Watched} (h : w.Sound) : (w.turn .look).Sound := by
  cases hs : w.channel.sending with
  | none =>
    have e : w.channel.look = (none, w.channel) := by rw [Channel.look, hs]
    have haccepts : w.channel.accepts = [] := by rw [accepts, hs]
    rw [turn_look_of_ne_failed e (by simp), haccepts, List.append_nil]
    exact h
  | some s =>
    cases s with
    | single c => exact h.look_single hs
    | whole left c =>
      by_cases hleft : left = []
      · subst hleft
        exact h.look_whole_nil hs
      · exact h.look_whole hs hleft

theorem Sound.turn {w : Watched} (h : w.Sound) (t : Turn) : (w.turn t).Sound := by
  cases t with
  | event e => exact h.event e
  | look => exact h.look

end Watched
end Channel
end ContainerLayer
