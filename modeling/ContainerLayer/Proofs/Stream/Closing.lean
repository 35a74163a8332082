import ContainerLayer.Proofs.Stream.Changes

/-
Which close of a pipe counts.

A pipe can be closed again and again, from either side and from outside.  Closes for the
reader replace whatever there was, so the last one of them counts; if there is none, the first
of the other closes and drops does.  `Channel.closedBy` says so for the events that took
place, and the state of the pipe is what it says after any turns.
-/

namespace ContainerLayer
namespace Channel

/-! ## Closes that take place -/

/-- The fault with which the event closes the pipe in any case. -/
def Event.override? : Event → Option Fault
  | .readerFail f => some f
  | .outsideFail f => some f
  | _ => none

/-- How the event closes a pipe that is open. -/
def Event.ending? : Event → Option Pipe.Closing
  | .close (.ok ()) => some .clean
  | .close (.error f) => some (.failed f)
  | .dropReader => some (.failed (.raised .brokenPipe "pipe reader dropped"))
  | .dropWriter => some (.failed (.raised .brokenPipe "pipe writer dropped"))
  | _ => none

/-- What the event makes of a pipe that was closed with `c`, or is open. -/
def Event.closes (e : Event) (c : Option Pipe.Closing) : Option Pipe.Closing :=
  match e.override? with
  | some f => some (.failed f)
  | none => c.or e.ending?

/-- An event does not take place while its end is gone or busy. -/
def Answer.tookPlace : Answer → Bool
  | .busy => false
  | .gone => false
  | _ => true

/-- The last close for the reader counts, or else the first of all the others. -/
def closedBy (es : List Event) : Option Pipe.Closing :=
  ((es.filterMap Event.override?).getLast?.map .failed).or (es.filterMap Event.ending?).head?

/-- Going along the events, a pipe that was closed with `c` before stays so unless a close for
the reader is among them. -/
theorem foldl_closes (es : List Event) (c : Option Pipe.Closing) :
    es.foldl (fun c e => e.closes c) c
      = ((es.filterMap Event.override?).getLast?.map .failed).or
          (c.or (es.filterMap Event.ending?).head?) := by
  induction es generalizing c with
  | nil =>
    rw [List.foldl_nil, List.filterMap_nil, List.filterMap_nil, List.head?_nil, Option.or_none]
    rfl
  | cons e es ih =>
    rw [List.foldl_cons, ih]
    cases ho : e.override? with
    | some f =>
      have hcloses : e.closes c = some (.failed f) := by rw [Event.closes, ho]
      rw [hcloses, List.filterMap_cons_some ho, List.getLast?_cons, Option.map_some]
      cases (es.filterMap Event.override?).getLast? <;> rfl
    | none =>
      have hcloses : e.closes c = c.or e.ending? := by rw [Event.closes, ho]
      rw [hcloses, List.filterMap_cons_none ho, Option.or_assoc]
      cases he : e.ending? with
      | none => rw [List.filterMap_cons_none he, Option.none_or]
      | some k => rw [List.filterMap_cons_some he, Option.some_or, List.head?_cons]

theorem closing_close (o : Except Fault Unit) (p : Pipe) :
    (p.close o).closing = p.closing.or (Event.ending? (.close o)) := by
  unfold Pipe.close
  cases hc : p.closing with
  | some k => exact hc
  | none =>
    cases o with
    | ok u => rfl
    | error f => rfl

theorem closing_ends (e : Event) (p : Pipe) : (e.ends p).closing = e.closes p.closing := by
  cases e with
  | close o => exact closing_close o p
  | readerFail f => rfl
  | outsideFail f => rfl
  | dropReader => exact closing_close _ p
  | dropWriter => exact closing_close _ p
  | _ => exact (Option.or_none).symm

/-- An event closes the pipe as it says if it takes place. -/
theorem Acts.closing {ch ch' : Channel} {e : Event} {a : Answer} (h : Acts ch e a ch') :
    ch'.pipe.closing
      = if a.tookPlace then e.closes ch.pipe.closing else ch.pipe.closing := by
  cases h with
  | refused h =>
    rcases h with rfl | rfl
    · rfl
    · rfl
  | starts he =>
    cases e with
    | write data => exact (Option.or_none).symm
    | writeAll data => exact (Option.or_none).symm
    | _ => cases he
  | waits he =>
    subst he
    exact (Option.or_none).symm
  | reads he hr =>
    subst he
    exact (Pipe.closing_read hr).trans (Option.or_none).symm
  | ends hp =>
    rw [hp]
    exact closing_ends e ch.pipe

theorem closing_look (ch : Channel) : ch.look.2.pipe.closing = ch.pipe.closing := by
  cases hs : ch.sending with
  | none => rw [look, hs]
  | some s =>
    cases s with
    | single c =>
      rw [pipe_look_single hs]
      exact Pipe.closing_advance c ch.pipe
    | whole left c =>
      by_cases hleft : left = []
      · subst hleft
        rw [look_whole_nil hs]
      · rw [look_whole hs hleft, pipe_afterAll]
        exact Pipe.closing_lookAll left c ch.pipe

theorem act_read_of_eq {ch : Channel} {n : Nat} {r : Except Fault Bytes} {pipe : Pipe}
    (hgone : ch.readerGone = false) (hr : ch.pipe.read n = (some r, pipe)) :
    ch.act (.read n) = (.received r, { ch with pipe }) := by
  unfold act
  dsimp only
  rw [hgone, hr]
  rfl

/-- Once a write is under way, no event begins another one or ends it. -/
theorem Acts.sending {ch ch' : Channel} {e : Event} {a : Answer} (h : Acts ch e a ch')
    (hs : ch.sending ≠ none) : ch'.sending = ch.sending ∧ a ≠ .started := by
  cases h with
  | refused h => exact ⟨rfl, by rcases h with rfl | rfl <;> nofun⟩
  | starts he hnone => exact absurd hnone hs
  | waits => exact ⟨rfl, nofun⟩
  | reads => exact ⟨rfl, nofun⟩
  | ends hp hsending => exact ⟨hsending, nofun⟩

namespace Watched

/-- The event that takes place in a turn, if one does. -/
def happened (w : Watched) : Turn → List Event
  | .event e => if (w.channel.act e).1.tookPlace then [e] else []
  | .look => []

/-- The events that take place in turns. -/
def history (w : Watched) : List Turn → List Event
  | [] => []
  | t :: ts => w.happened t ++ (w.turn t).history ts

theorem closing_turn (w : Watched) (t : Turn) :
    (w.turn t).channel.pipe.closing
      = (w.happened t).foldl (fun c e => e.closes c) w.channel.pipe.closing := by
  cases t with
  | look =>
    rw [channel_turn_look]
    exact closing_look w.channel
  | event e =>
    rw [channel_turn_event, (acts e w.channel).closing, happened]
    by_cases ht : (w.channel.act e).1.tookPlace
    · rw [if_pos ht, if_pos ht]
      rfl
    · rw [if_neg ht, if_neg ht]
      rfl

theorem closing_turns (ts : List Turn) (w : Watched) :
    (ts.foldl Watched.turn w).channel.pipe.closing
      = (w.history ts).foldl (fun c e => e.closes c) w.channel.pipe.closing := by
  induction ts generalizing w with
  | nil => rfl
  | cons t ts ih => rw [List.foldl_cons, ih, closing_turn, history, List.foldl_append]

/-- A pipe that was closed with a fault stays closed with one, and no more is read from it. -/
theorem Sound.of_failed {w : Watched} (h : w.Sound) {f : Fault}
    (hf : w.channel.pipe.closing = some (.failed f)) (ts : List Turn) :
    ∃ g, (ts.foldl Watched.turn w).channel.pipe.closing = some (.failed g)
      ∧ (ts.foldl Watched.turn w).received = w.received := by
  induction ts generalizing w f with
  | nil => exact ⟨f, hf, rfl⟩
  | cons t ts ih =>
    obtain ⟨put, got, hchange, -, hreceived⟩ := h.change t
    obtain ⟨-, rfl, g, hg⟩ := hchange.of_failed hf
    obtain ⟨g', hg', hall⟩ := ih (h.turn t) hg
    exact ⟨g', hg', hall.trans (hreceived.trans (List.append_nil _))⟩

/-! ## What writes and reads come to -/

theorem look_of_fails {w : Watched} {slice : Bytes} {c : Pipe.Call} {f : Fault} {p : Pipe}
    (hw : w.writing = some (slice, c)) (hne : slice ≠ [])
    (ha : Pipe.advance c w.channel.pipe = (.returns (.error f), p)) :
    w.channel.look = (some (.failed f), { w.channel with pipe := p, sending := none }) := by
  unfold writing at hw
  split at hw
  · cases hw
  · rename_i hs
    cases hw
    rw [Channel.look, hs]
    dsimp only
    rw [ha]
  · rename_i hs
    cases hw
    rw [look_whole hs hne, Pipe.lookAll_error ha]
    rfl

/-- The write under way fails on a pipe that was closed with a fault. -/
theorem Sound.look_failed {w : Watched} (h : w.Sound) {slice : Bytes} {c : Pipe.Call} {f : Fault}
    (hw : w.writing = some (slice, c)) (hne : slice ≠ [])
    (hf : w.channel.pipe.closing = some (.failed f)) :
    w.channel.look = (some (.failed (.shared f)), { w.channel with sending := none }) := by
  obtain ⟨front, hfits⟩ := h.fits hw
  exact look_of_fails hw hne (Pipe.advance_failed (hfits.ne_nothing_iff.mpr hne) hf)

/-- A write that has begun has yet to look at the pipe. -/
theorem writing_started {w : Watched} {e : Event} (h : (w.channel.act e).1 = .started) :
    (w.turn (.event e)).writing = some (e.slice, .entering e.slice) := by
  cases hact : w.channel.act e with
  | mk a channel =>
    rw [hact] at h
    subst h
    unfold turn
    dsimp only
    rw [hact]
    cases acts_of_eq hact with
    | refused h => rcases h with h | h <;> cases h
    | starts he =>
      cases e with
      | write data =>
        cases he
        rfl
      | writeAll data =>
        cases he
        rfl
      | _ => cases he

/-- Whatever events take place, the write under way is the same. -/
theorem writing_event {w : Watched} {x : Bytes × Pipe.Call} (h : w.writing = some x) (e : Event) :
    (w.turn (.event e)).writing = some x := by
  have hsome : w.channel.sending ≠ none := by
    intro hs
    rw [writing, hs] at h
    cases h
  cases hact : w.channel.act e with
  | mk a channel =>
    have hacts := acts_of_eq hact
    obtain ⟨hsending, hstarted⟩ := hacts.sending hsome
    have hturn : (w.turn (.event e)).writing = writing { w with channel } := by
      unfold turn
      dsimp only
      rw [hact]
      cases a with
      | started => exact absurd rfl hstarted
      | received r => cases r <;> rfl
      | _ => rfl
    rw [hturn, ← h, writing, hsending]
    rfl

theorem writing_events {w : Watched} {x : Bytes × Pipe.Call} (h : w.writing = some x)
    (es : List Event) : ((es.map .event).foldl Watched.turn w).writing = some x := by
  induction es generalizing w with
  | nil => exact h
  | cons e es ih => exact ih (writing_event h e)

end Watched

/-- Whatever the turns are in which a pipe is used: what closed it is the last close for the
reader that took place, or else the first of the other closes and drops.  A fault is there to
stay, though another one can take its place: no more is read, and it is what reads of at least
one byte and writes of at least one byte come to.  A write that begins after a clean end fails,
too. -/
theorem watch_closing (ts : List Turn) :
    let w := Watched.watch ts
    let p := w.channel.pipe
    p.closing = closedBy (Watched.history {} ts)
      ∧ (∀ f, p.closing = some (.failed f) →
          (∀ ts', ∃ g, (Watched.watch (ts ++ ts')).channel.pipe.closing = some (.failed g)
              ∧ (Watched.watch (ts ++ ts')).received = w.received)
            ∧ (∀ n, n ≠ 0 → w.channel.readerGone = false →
              ∃ g, (w.channel.act (.read n)).1 = .received (.error g)
                ∧ g.text = f.text ∧ g.kind = f.kind.lasting)
            ∧ (∀ slice c, w.writing = some (slice, c) → slice ≠ [] →
              ∃ g, w.channel.look.1 = some (.failed g)
                ∧ g.text = f.text ∧ g.kind = f.kind.lasting))
      ∧ (p.closing = some .clean → ∀ e (es : List Event), e.slice ≠ [] →
          (w.channel.act e).1 = .started →
          let w' := Watched.watch (ts ++ .event e :: es.map .event)
          w'.channel.pipe.closing = some .clean →
          ∃ g, w'.channel.look.1 = some (.failed g)
            ∧ g.text = "write on closed pipe" ∧ g.kind = .brokenPipe) := by
  intro w p
  have hw : w.Sound := Watched.sound_watch ts
  have hon (ts' : List Turn) : Watched.watch (ts ++ ts') = ts'.foldl Watched.turn w :=
    List.foldl_append
  refine ⟨?_, fun f hf => ⟨fun ts' => ?_, fun n hn hgone => ?_, fun slice c hs hne => ?_⟩, ?_⟩
  · exact (Watched.closing_turns ts {}).trans (foldl_closes _ none)
  · rw [hon]
    exact hw.of_failed hf ts'
  · exact ⟨.shared f, by rw [act_read_of_eq hgone (Pipe.read_failed hn hf)], rfl, rfl⟩
  · exact ⟨.shared f, by rw [hw.look_failed hs hne hf], rfl, rfl⟩
  · intro _ e es hne hstarted w' hclean
    have hs : w'.writing = some (e.slice, .entering e.slice) := by
      rw [show w' = _ from hon _]
      exact Watched.writing_events (Watched.writing_started hstarted) es
    exact ⟨_, by rw [Watched.look_of_fails hs hne (Pipe.advance_entering_closed hne hclean)],
      rfl, rfl⟩

/-- While three bytes wait to be read, the writer says why there are no more, and the reader
then does not want any. -/
def overtaken : List Turn :=
  [.event (.write [1, 2, 3]), .look, .event (.close (.error (.other "lost"))),
    .event (.readerFail (.raised .interrupted "enough"))]

/-- Both find the fault of the reader; and a write after a clean end finds that it is too
late. -/
theorem watch_closing_overtaken :
    (Watched.watch overtaken).channel.pipe.closing
        = some (.failed (.raised .interrupted "enough"))
      ∧ (∃ g, ((Watched.watch overtaken).channel.act (.read 2)).1 = .received (.error g)
          ∧ g.text = "enough" ∧ g.kind = .other)
      ∧ (∃ g, (Watched.watch overtaken).channel.look.1 = some (.failed g)
          ∧ g.text = "enough" ∧ g.kind = .other)
      ∧ ∃ g, (Watched.watch [.event (.close (.ok ())), .event (.write [1])]).channel.look.1
            = some (.failed g)
          ∧ g.text = "write on closed pipe" ∧ g.kind = .brokenPipe := by
  obtain ⟨hclosing, hfailed, -⟩ := watch_closing overtaken
  obtain ⟨-, -, hended⟩ := watch_closing [.event (.close (.ok ()))]
  obtain ⟨-, hreads, hwrites⟩ := hfailed (.raised .interrupted "enough") hclosing
  exact ⟨hclosing, hreads 2 (by decide) rfl, hwrites [1, 2, 3] (.sent 3) rfl (by decide),
    hended rfl (.write [1]) [] (by decide) rfl rfl⟩

end Channel
end ContainerLayer
