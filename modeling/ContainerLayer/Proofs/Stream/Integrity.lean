import ContainerLayer.Proofs.Stream.Turns

/-
What a pipe guarantees, whoever has which turn.

An order of turns also says what comes of a list of events if the write under way goes on as
far as it can after each of them (`exists_watch_steps`), so what holds for every order of turns
holds for the events, too.
-/

namespace ContainerLayer
namespace Channel

/-! ## Events that are settled at once -/

theorem settle_whole {ch : Channel} {left : Bytes} {c : Pipe.Call}
    (hs : ch.sending = some (.whole left c)) (hleft : left ≠ []) :
    ch.settle = ch.afterAll (Pipe.advanceAll left c ch.pipe) := by
  unfold settle
  rw [hs]
  dsimp only
  rw [if_neg hleft]
  rfl

namespace Watched

/-- A channel that is watched from the start. -/
def watch (ts : List Turn) : Watched := ts.foldl Watched.turn {}

theorem sound_watch (ts : List Turn) : (watch ts).Sound := by
  have h : ∀ {w : Watched}, w.Sound → (ts.foldl Watched.turn w).Sound := by
    induction ts with
    | nil => exact id
    | cons t ts ih => exact fun h => ih (h.turn t)
  exact h sound_empty

theorem channel_turn_look (w : Watched) : (w.turn .look).channel = w.channel.look.2 := by
  unfold turn
  dsimp only
  split
  · rename_i h
    rw [h]
  · rename_i h
    rw [h]

theorem channel_turn_event (w : Watched) (e : Event) :
    (w.turn (.event e)).channel = (w.channel.act e).2 := by
  unfold turn
  dsimp only
  split
  · rename_i h
    rw [h]
  · rename_i h
    rw [h]
  · rename_i h
    rw [h]

/-- Letting writes in a row go on as far as they can is to have turns of looks. -/
theorem exists_turns_whole {left : Bytes} {c : Pipe.Call} {w : Watched}
    (hs : w.channel.sending = some (.whole left c)) (hleft : left ≠ []) :
    ∃ ts : List Turn, (ts.foldl turn w).channel = w.channel.settle.2 := by
  induction hk : left.length using Nat.strongRecOn generalizing left c w with
  | ind k ih =>
    have hsettle := settle_whole hs hleft
    have hturn := w.channel_turn_look
    rw [look_whole hs hleft] at hturn
    rcases Pipe.advanceAll_cases left c w.channel.pipe with e | ⟨n, p, hn, hlt, hlook, hall⟩
    · exact ⟨[.look], by rw [hsettle, e]; exact hturn⟩
    · rw [hlook] at hturn
      have hs' : (w.turn .look).channel.sending
          = some (.whole (left.drop n) (.entering (left.drop n))) := by rw [hturn]; rfl
      have hp : (w.turn .look).channel.pipe = p := by rw [hturn]; rfl
      have hleft' : left.drop n ≠ [] := fun e => Nat.not_le.mpr hlt (List.drop_eq_nil_iff.mp e)
      obtain ⟨ts, hts⟩ := ih (left.drop n).length (by rw [List.length_drop]; omega) hs' hleft' rfl
      refine ⟨.look :: ts, hts.trans ?_⟩
      rw [settle_whole hs' hleft', hsettle, hp, hall, hturn]
      rfl

theorem settle_single {ch : Channel} {c : Pipe.Call} (hs : ch.sending = some (.single c)) :
    ch.settle.2 = ch.look.2 := by
  obtain ⟨pipe, sending⟩ := ch
  cases hs
  rfl

/-- Letting the write under way go on as far as it can is to have turns of looks. -/
theorem exists_turns_settle (w : Watched) :
    ∃ ts : List Turn, (ts.foldl turn w).channel = w.channel.settle.2 := by
  cases hs : w.channel.sending with
  | none => exact ⟨[], by rw [settle, hs]; rfl⟩
  | some s =>
    cases s with
    | single c =>
      exact ⟨[.look], w.channel_turn_look.trans (settle_single hs).symm⟩
    | whole left c =>
      by_cases hleft : left = []
      · subst hleft
        refine ⟨[.look], w.channel_turn_look.trans ?_⟩
        rw [look_whole_nil hs, settle, hs]
        rfl
      · exact exists_turns_whole hs hleft

/-- What a channel comes to if every event is settled at once is what it comes to in some order
of turns. -/
theorem exists_watch_steps (es : List Event) :
    ∃ ts, (watch ts).channel = es.foldl (fun ch e => (ch.step e).2) {} := by
  have h : ∀ w : Watched, ∃ ts : List Turn,
      (ts.foldl turn w).channel = es.foldl (fun ch e => (ch.step e).2) w.channel := by
    induction es with
    | nil => exact fun w => ⟨[], rfl⟩
    | cons e es ih =>
      intro w
      obtain ⟨ts, hts⟩ := exists_turns_settle (w.turn (.event e))
      obtain ⟨ts', hts'⟩ := ih (ts.foldl turn (w.turn (.event e)))
      refine ⟨.event e :: (ts ++ ts'), ?_⟩
      rw [List.foldl_cons, List.foldl_append, hts', hts, channel_turn_event]
      rfl
  exact h {}

/-! ## What every order of turns keeps -/

/-- No call has failed, none is under way, and the reader has come to a clean end. -/
structure Over (w : Watched) : Prop where
  failed : w.failed = false
  sending : w.channel.sending = none
  closing : w.channel.pipe.closing = some .clean
  pending : w.channel.pipe.pending = []

theorem Sound.received_of_clean {w : Watched} (h : w.Sound)
    (hc : w.channel.pipe.closing = some .clean) (hp : w.channel.pipe.pending = []) :
    w.received = w.accepted := by
  have hall := h.flows.pending fun f e => nomatch hc.symm.trans e
  rw [hall, hp, List.append_nil]

/-- A reader at the end has got what the calls of the writer carry. -/
theorem Sound.received_of_over {w : Watched} (h : w.Sound) (ho : w.Over) :
    w.received = w.carried := by
  have hall := h.balance ho.failed
  rw [outstanding, ho.sending, List.append_nil] at hall
  exact (h.received_of_clean ho.closing ho.pending).trans hall

/-- The write under way has come as far as what was put into the pipe says. -/
theorem Sound.fits {w : Watched} (h : w.Sound) {slice : Bytes} {c : Pipe.Call}
    (hw : w.writing = some (slice, c)) : ∃ front, c.Fits slice front w.accepted := by
  have hsends := h.sends
  unfold Sends at hsends
  unfold writing at hw
  split at hw
  · cases hw
  · rename_i hs
    cases hw
    rw [hs] at hsends
    exact ⟨_, hsends⟩
  · rename_i hs
    cases hw
    rw [hs] at hsends
    obtain ⟨done, -, hsends⟩ := hsends
    exact ⟨_, hsends⟩

/-- A write that is about to return has put the front of its slice into the pipe, and it has
been read from there if the pipe is open. -/
theorem Sound.returns {w : Watched} (h : w.Sound) {slice : Bytes} {c : Pipe.Call} {n : Nat}
    {p : Pipe} (hw : w.writing = some (slice, c)) (hne : slice ≠ [])
    (ha : Pipe.advance c w.channel.pipe = (.returns (.ok n), p)) :
    n = min slice.length Pipe.capacity ∧ slice.take n <:+ w.accepted
      ∧ (w.received = w.accepted ∨ w.channel.pipe.closing = some .clean) := by
  obtain ⟨front, hfits⟩ := h.fits hw
  obtain ⟨-, -, -, hn, haccepted, hread⟩ := hfits.of_returns (Pipe.looks_of_eq ha)
  refine ⟨by rw [hn, List.length_take, Nat.min_comm], ?_, ?_⟩
  · rw [hn, Pipe.take_length_take]
    exact ⟨front, haccepted.symm⟩
  · rcases hread hne with hclean | ⟨hopen, hp⟩
    · exact .inr hclean
    · have hall := h.flows.pending fun f e => nomatch hopen.symm.trans e
      rw [hp, List.append_nil] at hall
      exact .inl hall.symm

/-- Writing all of a slice returns only once all of it was put into the pipe. -/
theorem Sound.all {w : Watched} (h : w.Sound) {channel : Channel}
    (hl : w.channel.look = (some .all, channel)) : w.accepted = w.front ++ w.slice := by
  have hsends := h.sends
  unfold Sends at hsends
  cases hs : w.channel.sending with
  | none =>
    rw [Channel.look, hs] at hl
    cases hl
  | some s =>
    rw [hs] at hsends
    cases s with
    | single c =>
      rw [Channel.look, hs] at hl
      dsimp only at hl
      split at hl <;> cases hl
    | whole left c =>
      obtain ⟨done, hslice, hfits⟩ := hsends
      by_cases hleft : left = []
      · subst hleft
        cases c with
        | sent n => exact absurd rfl hfits.1
        | entering data => rw [hfits.2, hslice, List.append_nil]
      · rw [Channel.look_whole hs hleft] at hl
        unfold afterAll at hl
        split at hl
        · cases hl
        · rename_i p hlookAll
          obtain ⟨n, ha, hle⟩ := Pipe.advance_of_lookAll hlookAll
          obtain ⟨-, -, -, hn, haccepted, -⟩ := hfits.of_returns (Pipe.looks_of_eq ha)
          have hcapacity : left.take Pipe.capacity = left := by
            rw [← Pipe.take_length_take, ← hn, List.take_of_length_le hle]
          rw [haccepted, hcapacity, hslice, List.append_assoc]
        · cases hl

end Watched

/-- Whatever the turns are in which a writer, a reader and others use a pipe: the bytes that
were read are the front of those that were put in, and the pipe holds the rest unless it was
closed with a fault.  A write returns once its chunk has been read or the pipe was closed
cleanly, only a clean end with nothing left looks like the end, and writing a slice as a whole
returns only if all of it went in.  So the bytes that reach the reader are those that the calls
of the writer carry, however the reads are cut. -/
theorem watch_integrity (ts : List Turn) :
    let w := Watched.watch ts
    let p := w.channel.pipe
    w.received <+: w.accepted
      ∧ ((∀ f, p.closing ≠ some (.failed f)) → w.accepted = w.received ++ p.pending)
      ∧ (∀ slice c n p', w.writing = some (slice, c) → slice ≠ [] →
          Pipe.advance c p = (.returns (.ok n), p') →
          n = min slice.length 32768 ∧ slice.take n <:+ w.accepted
            ∧ (w.received = w.accepted ∨ p.closing = some .clean))
      ∧ (∀ n channel, n ≠ 0 → w.channel.act (.read n) = (.received (.ok []), channel) →
          p.closing = some .clean ∧ w.received = w.accepted)
      ∧ (∀ channel, w.channel.look = (some .all, channel) → w.accepted = w.front ++ w.slice)
      ∧ w.accepted <+: w.carried
      ∧ (∀ ts', (Watched.watch ts').calls = w.calls → w.Over → (Watched.watch ts').Over →
          (Watched.watch ts').received = w.received) := by
  intro w p
  have h : w.Sound := Watched.sound_watch ts
  refine ⟨h.flows.isPrefix, h.flows.pending, fun _ _ _ _ => h.returns, ?_, fun _ => h.all,
    h.isPrefix, ?_⟩
  · intro n channel hn hread
    rcases act_read_cases n w.channel with ha | ha | ⟨r, pipe, hr, ha⟩
    · cases ha.symm.trans hread
    · cases ha.symm.trans hread
    · cases ha.symm.trans hread
      obtain ⟨hc, hp⟩ := (Pipe.of_read_ok hr).2.2.2.2 hn rfl
      exact ⟨hc, h.received_of_clean hc hp⟩
  · intro ts' hcalls hover hover'
    rw [(Watched.sound_watch ts').received_of_over hover', h.received_of_over hover,
      Watched.carried, Watched.carried, hcalls]

/-- The writer writes four bytes, which are read in two pieces, and says that it is done. -/
def pingPong : List Turn :=
  [.event (.write [112, 105, 110, 103]), .look, .event (.read 2), .event (.read 2), .look,
    .event (.close (.ok ()))]

/-- The next read finds the end, and all four bytes have been read by then. -/
theorem watch_integrity_pingPong :
    (Watched.watch pingPong).channel.act (.read 1)
        = (.received (.ok []), (Watched.watch pingPong).channel)
      ∧ (Watched.watch pingPong).received = (Watched.watch pingPong).accepted
      ∧ (Watched.watch pingPong).accepted = [112, 105, 110, 103] := by
  obtain ⟨-, -, -, hend, -⟩ := watch_integrity pingPong
  have hread : (Watched.watch pingPong).channel.act (.read 1)
      = (.received (.ok []), (Watched.watch pingPong).channel) := rfl
  exact ⟨hread, (hend 1 _ (by decide) hread).2, rfl⟩

end Channel
end ContainerLayer
