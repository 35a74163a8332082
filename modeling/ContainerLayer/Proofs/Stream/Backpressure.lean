import ContainerLayer.Proofs.Stream.Changes

/-
How far a writer gets ahead of its reader, and who has to wait.

A pipe holds one chunk, and the next one goes in only when that one has been read.  So the
bytes that were put in and not read are at most a chunk.  The reader waits only at an open
pipe with nothing in it and the writer only at an open pipe with something in it, so there is
always one of them who can go on.
-/

namespace ContainerLayer
namespace Pipe

/-- The pipe holds at most a chunk, and no more of it was read than there is. -/
structure Bounded (p : Pipe) : Prop where
  taken : p.taken ≤ p.chunk.length
  chunk : p.chunk.length ≤ capacity

variable {p p' : Pipe} {put got : Bytes}

theorem Bounded.read {n : Nat} {b : Bytes} (h : p.Bounded)
    (hr : p.read n = (some (.ok b), p')) : p'.Bounded := by
  unfold Pipe.read at hr
  split at hr
  · cases hr
    exact h
  split at hr
  · cases hr
  split at hr
  · cases hr
    refine ⟨?_, h.chunk⟩
    show p.taken + (p.pending.take n).length ≤ p.chunk.length
    have hpending : p.pending.length = p.chunk.length - p.taken := List.length_drop
    have htake : (p.pending.take n).length ≤ p.pending.length := List.length_take_le' ..
    have htaken := h.taken
    omega
  split at hr
  · cases hr
    exact h
  · cases hr

theorem bounded_fail (f : Fault) (p : Pipe) : (p.fail f).Bounded :=
  ⟨Nat.le_refl 0, Nat.zero_le _⟩

theorem Bounded.change (h : p.Bounded) (hc : p.Change put got p') : p'.Bounded := by
  cases hc with
  | stays => exact h
  | puts => exact ⟨Nat.zero_le _, List.length_take_le _ _⟩
  | reads hr => exact h.read hr
  | closes o =>
    unfold Pipe.close
    split
    · exact h
    · exact ⟨h.taken, h.chunk⟩
    · exact bounded_fail _ p
  | fails f => exact bounded_fail f p

/-- Only into an open pipe with nothing in it bytes are put, and at most a chunk of them. -/
theorem Change.of_put (h : p.Change put got p') :
    put = [] ∨ put.length ≤ capacity ∧ p.closing = none ∧ p.pending = [] := by
  cases h with
  | puts hd hopen hp => exact .inr ⟨List.length_take_le _ _, hopen, hp⟩
  | _ => exact .inl rfl

/-- At an open pipe with nothing in it a read of at least one byte has to wait. -/
theorem read_none {n : Nat} (hn : n ≠ 0) (h : p.closing = none) (hp : p.pending = []) :
    p.read n = (none, p) := by
  unfold read
  rw [if_neg hn, h]
  dsimp only
  rw [if_neg (by rw [(hasPending_eq_false_iff p).mpr hp]; decide), if_neg (by decide)]

/-- At an open pipe with something in it a write of at least one byte has to wait. -/
theorem advance_waits {c : Call} (hc : c ≠ .entering []) (h : p.closing = none)
    (hp : p.pending ≠ []) : advance c p = (.waits c, p) := by
  cases c with
  | sent n => exact advance_sent_waits h hp
  | entering data => exact advance_entering_full (fun e => hc (e ▸ rfl)) h hp

/-- A write that goes on waiting has found the chunk of another one, or its own. -/
theorem Looks.of_waits {c : Call} (h : p.Looks c (.waits c) p') :
    p.closing = none ∧ p.pending ≠ [] ∧ c ≠ .entering [] := by
  cases h with
  | waits hopen hp hc => exact ⟨hopen, hp, hc⟩

/-- So it is with writes in a row, as one that goes on to the next write has less left. -/
theorem advance_of_lookAll_waits {left : Bytes} {c : Call}
    (h : lookAll left c p = (.waits left c, p')) : advance c p = (.waits c, p') := by
  unfold lookAll at h
  split at h
  · rename_i c' p₁ ha
    cases h
    exact ha
  · cases h
  · rename_i n p₁ ha
    split at h
    · cases h
    split at h
    · cases h
    · rename_i hn hlt
      have hleft : left.drop n = left := (Progress.All.waits.inj (Prod.mk.inj h).1).1
      have hlength := congrArg List.length hleft
      rw [List.length_drop] at hlength
      omega

end Pipe

namespace Channel

/-- A read of at least one byte would have to wait. -/
def ReaderWaits (ch : Channel) : Prop := ∃ n, n ≠ 0 ∧ (ch.act (.read n)).1 = .blocked

/-- There is a write under way, and it finds nothing to do. -/
def WriterWaits (ch : Channel) : Prop := ch.sending ≠ none ∧ ch.look = (none, ch)

/-- The reader waits for bytes, or for an end of the pipe. -/
theorem readerWaits_iff (ch : Channel) :
    ch.ReaderWaits ↔ ch.readerGone = false ∧ ch.pipe.closing = none ∧ ch.pipe.pending = [] := by
  constructor
  · rintro ⟨n, hn, h⟩
    unfold act at h
    dsimp only at h
    split at h
    · cases h
    rename_i hgone
    split at h
    · cases h
    · rename_i hr
      exact ⟨Bool.not_eq_true _ ▸ hgone, (Pipe.eq_of_read_none hr).2⟩
  · rintro ⟨hgone, hopen, hp⟩
    refine ⟨1, Nat.one_ne_zero, ?_⟩
    unfold act
    dsimp only
    rw [hgone, Pipe.read_none Nat.one_ne_zero hopen hp]
    rfl

theorem looks_of_waits_single {ch : Channel} {c : Pipe.Call} (hs : ch.sending = some (.single c))
    (h : ch.look = (none, ch)) : ch.pipe.Looks c (.waits c) ch.pipe := by
  rw [Channel.look, hs] at h
  dsimp only at h
  cases ha : Pipe.advance c ch.pipe with
  | mk g p =>
    rw [ha] at h
    cases g with
    | waits c' =>
      have hch := (Prod.mk.inj h).2
      have hpipe : p = ch.pipe := congrArg Channel.pipe hch
      have hc : some (Sending.single c') = some (.single c) :=
        (congrArg Channel.sending hch).trans hs
      cases hc
      rw [hpipe] at ha
      exact Pipe.looks_of_eq ha
    | returns r => cases r <;> cases h

theorem looks_of_waits_whole {ch : Channel} {left : Bytes} {c : Pipe.Call}
    (hs : ch.sending = some (.whole left c)) (h : ch.look = (none, ch)) :
    ch.pipe.Looks c (.waits c) ch.pipe := by
  by_cases hleft : left = []
  · subst hleft
    rw [look_whole_nil hs] at h
    cases h
  rw [look_whole hs hleft] at h
  cases hl : Pipe.lookAll left c ch.pipe with
  | mk g p =>
    rw [hl] at h
    cases g with
    | waits left' c' =>
      have hch := (Prod.mk.inj h).2
      have hpipe : p = ch.pipe := congrArg Channel.pipe hch
      have hc : some (Sending.whole left' c') = some (.whole left c) :=
        (congrArg Channel.sending hch).trans hs
      cases hc
      rw [hpipe] at hl
      exact Pipe.looks_of_eq (Pipe.advance_of_lookAll_waits hl)
    | returns r => cases r <;> cases h

namespace Watched

/-- A look that changes nothing is one of a write that goes on waiting. -/
theorem exists_looks_of_waits {w : Watched} (h : w.channel.WriterWaits) :
    ∃ slice c, w.writing = some (slice, c)
      ∧ w.channel.pipe.Looks c (.waits c) w.channel.pipe := by
  obtain ⟨hsome, hlook⟩ := h
  cases hs : w.channel.sending with
  | none => exact absurd hs hsome
  | some s =>
    cases s with
    | single c => exact ⟨w.slice, c, by rw [writing, hs], looks_of_waits_single hs hlook⟩
    | whole left c => exact ⟨left, c, by rw [writing, hs], looks_of_waits_whole hs hlook⟩

/-- A write that has to wait leaves everything as it is. -/
theorem writerWaits_of_advance {w : Watched} {slice : Bytes} {c : Pipe.Call}
    (hw : w.writing = some (slice, c)) (hne : slice ≠ [])
    (ha : Pipe.advance c w.channel.pipe = (.waits c, w.channel.pipe)) :
    w.channel.WriterWaits := by
  unfold writing at hw
  split at hw
  · cases hw
  · rename_i hs
    cases hw
    refine ⟨fun e => Option.some_ne_none _ (hs.symm.trans e), ?_⟩
    rw [Channel.look, hs]
    dsimp only
    rw [ha]
    dsimp only
    rw [← hs]
  · rename_i hs
    cases hw
    refine ⟨fun e => Option.some_ne_none _ (hs.symm.trans e), ?_⟩
    rw [look_whole hs hne, Pipe.lookAll_waits ha]
    unfold afterAll
    dsimp only
    rw [← hs]

/-- The writer waits for room, or for an end of the pipe. -/
theorem Sound.writerWaits_iff {w : Watched} (h : w.Sound) :
    w.channel.WriterWaits ↔ (∃ slice c, w.writing = some (slice, c) ∧ slice ≠ [])
      ∧ w.channel.pipe.closing = none ∧ w.channel.pipe.pending ≠ [] := by
  constructor
  · intro hwaits
    obtain ⟨slice, c, hs, hlooks⟩ := exists_looks_of_waits hwaits
    obtain ⟨hopen, hp, hc⟩ := hlooks.of_waits
    obtain ⟨front, hfits⟩ := h.fits hs
    exact ⟨⟨slice, c, hs, hfits.ne_nothing_iff.mp hc⟩, hopen, hp⟩
  · rintro ⟨⟨slice, c, hs, hne⟩, hopen, hp⟩
    obtain ⟨front, hfits⟩ := h.fits hs
    exact writerWaits_of_advance hs hne (Pipe.advance_waits (hfits.ne_nothing_iff.mpr hne) hopen hp)

/-- The pipe is in bounds, and so is what was put in and not read. -/
structure Bounded (w : Watched) : Prop where
  pipe : w.channel.pipe.Bounded
  ahead : w.accepted.length ≤ w.received.length + Pipe.capacity

/-- When a chunk goes in, all that went in before has been read. -/
theorem Bounded.turn {w : Watched} (h : w.Bounded) (hw : w.Sound) (t : Turn) :
    (w.turn t).Bounded := by
  obtain ⟨put, got, hchange, haccepted, hreceived⟩ := hw.change t
  refine ⟨h.pipe.change hchange, ?_⟩
  have hahead := h.ahead
  rw [haccepted, hreceived, List.length_append, List.length_append]
  rcases hchange.of_put with rfl | ⟨hput, hopen, hp⟩
  · rw [List.length_nil]
    omega
  · have hall := hw.flows.pending fun f e => Option.some_ne_none _ (e.symm.trans hopen)
    rw [hp, List.append_nil] at hall
    rw [hall]
    omega

theorem bounded_watch (ts : List Turn) : (watch ts).Bounded :=
  (List.foldlRecOn ts Watched.turn (motive := fun w => w.Sound ∧ w.Bounded)
    ⟨sound_empty, ⟨Nat.le_refl 0, Nat.zero_le _⟩, Nat.zero_le _⟩
    fun _ h t _ => ⟨h.1.turn t, h.2.turn h.1 t⟩).2

end Watched

/-- Whatever the turns are in which a pipe is used: it never holds more than a chunk, and the
writer is never more than a chunk ahead of what was read.  The reader waits at an open pipe
with nothing in it and the writer at an open pipe with something in it, so they never wait for
each other, and nobody waits at a closed pipe.  A write returns once its chunk has been read
or the pipe has been closed. -/
theorem watch_backpressure (ts : List Turn) :
    let w := Watched.watch ts
    let p := w.channel.pipe
    p.taken ≤ p.chunk.length ∧ p.chunk.length ≤ 32768
      ∧ w.accepted.length ≤ w.received.length + 32768
      ∧ (w.channel.ReaderWaits ↔
          w.channel.readerGone = false ∧ p.closing = none ∧ p.pending = [])
      ∧ (w.channel.WriterWaits ↔ (∃ slice c, w.writing = some (slice, c) ∧ slice ≠ [])
          ∧ p.closing = none ∧ p.pending ≠ [])
      ∧ ¬ (w.channel.ReaderWaits ∧ w.channel.WriterWaits)
      ∧ (p.closing ≠ none → ¬ w.channel.ReaderWaits ∧ ¬ w.channel.WriterWaits)
      ∧ (∀ slice c r p', w.writing = some (slice, c) → slice ≠ [] →
          Pipe.advance c p = (.returns r, p') →
          p.closing ≠ none ∨ r = .ok (min slice.length 32768) ∧ w.received = w.accepted
            ∧ slice.take 32768 <:+ w.received) := by
  intro w p
  have h : w.Sound := Watched.sound_watch ts
  have hbounded := Watched.bounded_watch ts
  have hreader := w.channel.readerWaits_iff
  have hwriter := h.writerWaits_iff
  refine ⟨hbounded.pipe.taken, hbounded.pipe.chunk, hbounded.ahead, hreader, hwriter, ?_, ?_, ?_⟩
  · rintro ⟨hr, hw⟩
    exact (hwriter.mp hw).2.2 (hreader.mp hr).2.2
  · intro hclosed
    exact ⟨fun hr => hclosed (hreader.mp hr).2.1, fun hw => hclosed (hwriter.mp hw).2.1⟩
  · intro slice c r p' hs hne ha
    by_cases hopen : p.closing = none
    · cases r with
      | error f =>
        have hclosed := (Pipe.Call.takes_of_fails (Pipe.looks_of_eq ha)).2.2
        rw [Pipe.isClosed, hopen] at hclosed
        cases hclosed
      | ok n =>
        obtain ⟨hn, hchunk, hread⟩ := h.returns hs hne ha
        have hread := hread.resolve_right fun hclean =>
          Option.some_ne_none _ (hclean.symm.trans hopen)
        refine .inr ⟨by rw [hn]; rfl, hread, ?_⟩
        rw [hn, Nat.min_comm, ← List.take_eq_take_min] at hchunk
        rw [hread]
        exact hchunk
    · exact .inl hopen

/-- Three bytes are written, and two of them are read. -/
def halfRead : List Turn := [.event (.write [1, 2, 3]), .look, .event (.read 2)]

/-- The writer waits and the reader does not.  With the third byte read the write returns, and
then it is the reader who would have to wait. -/
theorem watch_backpressure_halfRead :
    (Watched.watch halfRead).channel.WriterWaits
      ∧ ¬ (Watched.watch halfRead).channel.ReaderWaits
      ∧ (Watched.watch (halfRead ++ [.event (.read 2)])).channel.ReaderWaits
      ∧ [1, 2, 3] <:+ (Watched.watch (halfRead ++ [.event (.read 2)])).received := by
  obtain ⟨-, -, -, -, hwriter, hnever, -⟩ := watch_backpressure halfRead
  obtain ⟨-, -, -, hreader, -, -, -, hreturns⟩ :=
    watch_backpressure (halfRead ++ [.event (.read 2)])
  have hwaits := hwriter.mpr ⟨⟨[1, 2, 3], .sent 3, rfl, by decide⟩, rfl, by decide⟩
  refine ⟨hwaits, fun h => hnever ⟨h, hwaits⟩, hreader.mpr ⟨rfl, rfl, rfl⟩, ?_⟩
  rcases hreturns [1, 2, 3] (.sent 3) (.ok 3) _ rfl (by decide) rfl with hclosed | ⟨-, -, hread⟩
  · exact absurd rfl hclosed
  · exact hread

end Channel
end ContainerLayer
