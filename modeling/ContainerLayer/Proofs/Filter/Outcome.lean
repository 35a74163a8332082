import ContainerLayer.Proofs.Filter.Stopping

/-
What comes of a filter, whoever has which turn.

What the consumer has read is the front of what the producer writes on its own.  A clean end says
that this is all there is, and that all of the archive was read for it; a fault of the producer
stays behind what it wrote before.
-/

namespace ContainerLayer

open Tar

namespace Filter

variable {σ δ : Type} [Reader σ]

/-- Whatever turns a producer and a consumer take: the consumer reads the front of what the
producer writes on its own.  It comes to a clean end only if the producer has succeeded and all
of its output was read, down to the trailer; then all of the archive was read, too, up to the end
of the first block of zeros in the place of a header, if there is one.  A fault of the producer
shows in every read behind what the producer wrote before it, and nothing is written after that; it
shows in the end, too.  If both have turns again and again, it comes to that. -/
theorem delivery_outcome (source : σ) (decide : Decision δ) (d : δ) :
    let copied := (copyEntries decide 0 0 {} d).run source
    let o := (produce decide d).run source
    let s₀ := Delivery.start source decide d
    let f₀ := Filtered.start source decide d
    (∀ stats, o.result.1 = .ok stats → o.written = copied.written ++ Tar.trailer)
      ∧ (∀ f, o.result.1 = .error f → o.written = copied.written)
      ∧ (f₀.drain.data = o.written ∧ f₀.drain.fault = Filtered.endFault o.result.1
        ∧ f₀.finish = (o.result.1.mapError .shared, o.rest))
      ∧ (∀ ts : List Turn, let s := ts.foldl Delivery.turn s₀
        s.received <+: o.written
          ∧ (∀ n w, n ≠ 0 → s.working.read n = (some (.ok []), w) →
            (∃ stats, o.result.1 = .ok stats) ∧ s.received = o.written
              ∧ ∀ (I : σ → Prop) (output : σ → Bytes), Reader.Hands I output → I source →
                output source = consumed (output source) ++ output o.rest
                  ∧ (endBlock? (output source) = none →
                    (output source).length ∈ headerPlaces (output source)))
          ∧ (∀ n g w, s.working.read n = (some (.error g), w) →
            ∃ f, o.result.1 = .error f ∧ g.text = f.text ∧ g.kind = f.kind.lasting
              ∧ s.received = o.written
              ∧ ∀ (ts' : List Turn) n', n' ≠ 0 →
                ((ts'.foldl Delivery.turn s).working.read n').1 = some (.error g))
          ∧ ∀ r, s.working.finish? = some r → r = (o.result.1.mapError .shared, o.rest))
      ∧ ∀ schedule, Fair Turn.side schedule → ∃ m, let s := along Delivery.turn schedule s₀ m
        s.received = o.written
          ∧ s.working.finish? = some (o.result.1.mapError .shared, o.rest)
          ∧ ∀ n, n ≠ 0 → (s.working.read n).1 = some (match o.result.1 with
            | .ok _ => .ok []
            | .error f => .error (.shared f)) := by
  intro copied o s₀ f₀
  have hrun := Relay.run_cancelable (produce decide d) source
  have hdata := (Filtered.drain_spec (produce decide d) ⟨source, none⟩).1
  have hfault := (Filtered.drain_end (produce decide d) ⟨source, none⟩).1
  have hfinish := Filtered.finish_spec (produce decide d) ⟨source, none⟩
  rw [hrun] at hdata hfault hfinish
  have hsound : s₀.Sound o.result ⟨o.rest, none⟩ o.written := Delivery.sound_start source decide d
  obtain ⟨hok, herror⟩ := written_produce decide d source
  refine ⟨hok, herror, ⟨hdata, hfault, hfinish⟩, fun ts => ?_, fun schedule hfair => ?_⟩
  · intro s
    have h : s.Sound o.result ⟨o.rest, none⟩ o.written := hsound.turns ts
    obtain ⟨more, hdue, hmore⟩ := h.due
    refine ⟨h.isPrefix, ?_, ?_, ?_⟩
    · intro n w hn hread
      obtain ⟨pipe, hr⟩ := Working.exists_read hread
      obtain ⟨hnil, stats, hstats⟩ := hdue.end hn hr
      rw [hnil, List.append_nil] at hmore
      refine ⟨⟨stats, hstats⟩, hmore, fun I output hhands hs => ?_⟩
      obtain ⟨-, hsplit, hend, -⟩ := finish_tallies hhands .none hs trivial
        (Filtered.finish_eq_ok_iff.mpr ⟨hstats, rfl⟩)
      exact ⟨hsplit, hend⟩
    · intro n g w hread
      obtain ⟨pipe, hr⟩ := Working.exists_read hread
      obtain ⟨hnil, -, f, hf, rfl⟩ := hdue.fault hr
      obtain ⟨-, g, hg, -⟩ := Pipe.of_read_error hr
      rw [hnil, List.append_nil] at hmore
      exact ⟨f, hf, rfl, rfl, hmore, fun ts' n' hn' =>
        h.read_failed ⟨_, _, (hdue.of_closed hg).1⟩ hf ts' hn'⟩
    · intro r hr
      have hg : s.working.gone = true := by
        cases hg : s.working.gone with
        | true => rfl
        | false =>
          rw [Working.finish?, hg] at hr
          cases hr
      exact Option.some.inj (hr.symm.trans (h.finish hg))
  · obtain ⟨m, -, hdone⟩ := hsound.inevitable.exists_along hfair
      (show along Delivery.turn schedule s₀ 0 = s₀ from rfl)
    have h : (along Delivery.turn schedule s₀ m).Sound o.result ⟨o.rest, none⟩ o.written :=
      hsound.turns _
    exact ⟨m, hdone.2, h.finish hdone.1, fun n hn => h.read_done hdone hn⟩

/-- The producer and the consumer have every other turn. -/
def alternately (n : Nat) : Turn := if n % 2 = 0 then .produce else .read 100

theorem fair_alternately : Fair Turn.side alternately := by
  intro who n
  cases who with
  | producer => exact ⟨2 * n, by omega, by rw [alternately, if_pos (by omega)]; rfl⟩
  | consumer => exact ⟨2 * n + 1, by omega, by rw [alternately, if_neg (by omega)]; rfl⟩

/-- The header and the one byte come through, and the fault behind them. -/
theorem delivery_outcome_shortArchive :
    Fair Turn.side alternately ∧ ∃ f m,
      let s := along Delivery.turn alternately
        (Delivery.start (Source.ofBytes shortArchive) keepAll ()) m
      f.text = "entry content is short by 2 bytes" ∧ s.received.length = 513
        ∧ (s.working.read 1).1 = some (.error (.shared f)) := by
  obtain ⟨-, -, -, -, hfair⟩ := delivery_outcome (Source.ofBytes shortArchive) keepAll ()
  obtain ⟨hlength, f, hf, htext⟩ := produce_shortArchive
  obtain ⟨m, hreceived, -, hread⟩ := hfair alternately fair_alternately
  have hread := hread 1 (by decide)
  rw [hf] at hread
  exact ⟨fair_alternately, f, m, htext, by rw [hreceived, hlength], hread⟩

end Filter
end ContainerLayer
