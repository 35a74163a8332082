import ContainerLayer.Proofs.Filter.Delivery
import ContainerLayer.Proofs.Filter.Transcript
import ContainerLayer.Proofs.Tar.Entries

/-
Archives that are cut off.

A filter goes from entry to entry, and where the entries are depends on the archive alone: not
on the decision, and not on what stands behind the entries (`Tar.Leads`).  A filter that succeeds
has come to a place where the archive ends, or to a block of zeros.  So if an archive is cut
anywhere in front of that, but not at the end of an entry, no filter succeeds on what is left.
-/

namespace ContainerLayer

open Tar Tape

namespace Filter

/-! ## A filter goes from entry to entry -/

section Hands

variable {δ σ : Type} [Reader σ] {I : σ → Prop} {output : σ → Bytes}
variable (h : Reader.Hands I output) {archive : Bytes}

theorem nextEntry_plays_none {start : Nat} {c c' : Spot σ} {out : Bytes}
    (hp : (nextEntry start).Plays c none c' out) :
    ∃ o, (Tar.readEntry start).Plays c none c' o := by
  obtain ⟨r, c₁, o₁, o₂, h₁, h₂, -⟩ := plays_bind_iff.mp hp
  cases r with
  | none =>
    obtain ⟨-, rfl, -⟩ := plays_pure_iff.mp h₂
    exact ⟨o₁, h₁⟩
  | some e =>
    obtain ⟨_, _, _, _, -, h₃, -⟩ := plays_bind_iff.mp h₂
    cases (plays_pure_iff.mp h₃).1

theorem nextEntry_plays_some {start : Nat} {c c' : Spot σ} {header : EntryHeader}
    {content : Content} {next : { next : Nat // Behind start next }} {out : Bytes}
    (hp : (nextEntry start).Plays c (some (header, content, next)) c' out) :
    ∃ e c₁ o₁ o₂, (Tar.readEntry start).Plays c (some e) c₁ o₁
      ∧ (EntryHeader.ofEntry e.1).Plays c₁ (header, content) c' o₂ ∧ next.1 = e.1.next := by
  obtain ⟨r, c₁, o₁, o₂, h₁, h₂, -⟩ := plays_bind_iff.mp hp
  cases r with
  | none => cases (plays_pure_iff.mp h₂).1
  | some e =>
    obtain ⟨_, c₂, o₃, o₄, h₃, h₄, -⟩ := plays_bind_iff.mp h₂
    obtain ⟨hr, rfl, -⟩ := plays_pure_iff.mp h₄
    cases hr
    exact ⟨e, c₁, o₁, o₃, h₁, h₃, rfl⟩

include h in
/-- Whatever becomes of an entry, the next one lies ahead afterwards. -/
theorem entry_on {start : Nat} {c c₁ c₂ : Spot σ} {header header' : EntryHeader}
    {content : Content} {next : { next : Nat // Behind start next }} {keep : Bool} {u : Unit}
    {o₁ o₂ : Bytes} (hc : I c.reader) (hon : (c.whole output).On archive)
    (hpos : c.position ≤ start)
    (hn : (nextEntry start).Plays c (some (header, content, next)) c₁ o₁)
    (hh : (handle keep header' content).Plays c₁ u c₂ o₂) :
    I c₂.reader ∧ (c₂.whole output).On archive ∧ c₂.position ≤ next.1
      ∧ ∃ (e : { e : Entry // Behind start e.next }) (d : Spot Whole),
        (Tar.readEntry start).Plays (⟨start, ⟨archive.drop start⟩⟩ : Spot Whole) (some e) d []
          ∧ next.1 = e.1.next := by
  obtain ⟨e, c₀, o₃, o₄, he, hof, hnext⟩ := nextEntry_plays_some hn
  obtain ⟨-, rfl, hc₀, hentry⟩ := (reads_readEntry start).plays h hc he
  obtain ⟨hplays, hentry⟩ := readEntry_on hon hpos hentry
  obtain ⟨hon₀, hcontent⟩ := hentry e rfl
  obtain ⟨hc₁, b₁, hleft₁, hpos₁, hm₁⟩ := EntryHeader.moves_ofEntry h e.1 c₀ c₁ _ _ hc₀ hof
  obtain ⟨hc₂, b₂, hleft₂, hpos₂, hm₂⟩ := moves_handle h keep header' content c₁ c₂ _ _ hc₁ hh
  have hon₁ : (c₁.whole output).On archive := hon₀.take hleft₁ hpos₁
  refine ⟨hc₂, hon₁.take hleft₂ hpos₂, ?_, e, _, hplays, hnext⟩
  have hcontent : c₀.position + Content.onTape e.1.content ≤ e.1.next := hcontent
  dsimp only at hm₁
  omega

/-- A filter that succeeds has come to `stop`, where there is no entry, and has taken no more
than one block from there. -/
structure Reaches (archive : Bytes) (start stop left : Nat) : Prop where
  leads : Leads archive start stop
  stops : Stops archive stop
  length : archive.length = stop ∨ stop + 512 ≤ archive.length
  left : left = archive.length - (stop + 512)

include h in
theorem none_reaches {start : Nat} {c c' : Spot σ} {out : Bytes} (hc : I c.reader)
    (hon : (c.whole output).On archive) (hpos : c.position ≤ start)
    (hp : (nextEntry start).Plays c none c' out) :
    Reaches archive start start (output c'.reader).length := by
  obtain ⟨o, hnone⟩ := nextEntry_plays_none hp
  obtain ⟨-, rfl, -, hentry⟩ := (reads_readEntry start).plays h hc hnone
  obtain ⟨b, hahead, hcases⟩ := readEntry_takes (c := c.whole output) hpos hentry
  obtain ⟨hb, hlength⟩ := hon.ahead hahead
  have hplays := (readEntryAfter_from hahead).mp hentry
  rw [hb] at hplays
  rcases hcases with ⟨-, hnil, hend⟩ | ⟨seen, hseen, -, -, hblock, -⟩
  · rw [hnil, List.length_nil] at hlength
    have hleft : output c'.reader = [] := congrArg (fun d => d.reader.left) hend
    refine ⟨.here start, ⟨_, hplays⟩, .inl hlength, ?_⟩
    rw [hleft, List.length_nil]
    omega
  · have hleft : b.length = 512 + (output c'.reader).length := by
      rw [hseen, List.length_append, hblock rfl]
      rfl
    refine ⟨.here start, ⟨_, hplays⟩, .inr ?_, ?_⟩
    · rw [hlength, hleft]
      omega
    · rw [hlength, hleft]
      omega

include h in
theorem copyEntries_reaches {decide : Decision δ} {start : Nat} {c : Spot σ}
    {stats stats' : FilterStats} {d d' : δ} (hc : I c.reader)
    (hon : (c.whole output).On archive) (hpos : c.position ≤ start)
    (he : (Relay.run (copyEntries decide start c.position stats d) c.reader).result
      = (.ok stats', d')) :
    ∃ stop, Reaches archive start stop
      (output (Relay.run (copyEntries decide start c.position stats d) c.reader).rest).length := by
  induction hd : Tar.limit - start using Nat.strongRecOn generalizing start c stats d with
  | ind m ih =>
    rcases copyEntries_step he with ⟨c₁, rfl, rfl, hn, hrest⟩ |
      ⟨header, content, next, c₁, c₂, o₁, o₂, hn, hh, hresult, -, hrest⟩
    · rw [hrest]
      exact ⟨start, none_reaches h hc hon hpos hn⟩
    · obtain ⟨hc₂, hon₂, hpos₂, e, d₀, hentry, hnext⟩ := entry_on h hc hon hpos hn hh
      have h₁ := next.2.1
      have h₂ := next.2.2
      obtain ⟨stop, hstop⟩ := ih _ (by omega) hc₂ hon₂ hpos₂ hresult rfl
      have hleads := hstop.leads
      rw [hnext] at hleads
      rw [hrest]
      exact ⟨stop, .entry hentry hleads, hstop.stops, hstop.length, hstop.left⟩

include h in
theorem produce_reaches {decide : Decision δ} {d : δ} {s : σ} {stats : FilterStats} (hs : I s)
    (he : (Relay.run (produce decide d) s).result.1 = .ok stats) :
    ∃ stop, Reaches (output s) 0 stop (output (Relay.run (produce decide d) s).rest).length := by
  have hrun : (produce decide d).run s = _ := run_produce decide d s
  rw [hrun] at he ⊢
  cases hcopied : (Relay.run (copyEntries decide 0 0 {} d) s).result.1 with
  | error f =>
    rw [hcopied] at he
    cases hcopied.symm.trans he
  | ok stats =>
    exact copyEntries_reaches h (c := ⟨0, s⟩) hs ⟨[], rfl, rfl⟩ (Nat.le_refl 0)
      (Prod.ext hcopied rfl)

end Hands

/-- Two filters that succeed, one on an archive and one on the front of it: the second ends
with an entry, or has taken as much as the first. -/
theorem Reaches.of_take {archive : Bytes} {cut stop stop' left left' : Nat}
    (h : Reaches archive 0 stop left) (h' : Reaches (archive.take cut) 0 stop' left')
    (hcut : cut < archive.length - left) : cut = 0 ∨ cut ∈ entryEnds archive 0 := by
  have hlength : (archive.take cut).length = cut := List.length_take_of_le (by omega)
  have hleads : Leads archive 0 stop' := by
    have := h'.leads.append (archive.drop cut)
    rwa [List.take_append_drop] at this
  rcases h'.length with hend | hblock
  · rw [hlength] at hend
    rw [hend]
    exact hleads.mem_entryEnds
  · -- a block of zeros in the front is one in the archive, and there the first one has stopped
    have hstops : Stops archive stop' := by
      have := h'.stops.append (by omega) (archive.drop cut)
      rwa [List.take_append_drop] at this
    have hstop := h.leads.stop_eq h.stops hleads hstops
    have hleft := h.left
    omega

/-! ## What a consumer sees -/

section Delivery

variable {σ δ : Type} [Reader σ] {result : Except Fault FilterStats × δ} {rest : Cancelable σ}
  {written : Bytes} {s : Delivery σ δ} {f : Fault}

/-- If the producer comes to a fault, no read finds the end, and the fault is what becomes of
the filter. -/
theorem Delivery.Sound.not_clean (h : s.Sound result rest written) (hf : result.1 = .error f) :
    (∀ n, n ≠ 0 → (s.working.read n).1 ≠ some (.ok []))
      ∧ ∀ r, s.working.finish? = some r → r.1 = .error (.shared f) := by
  obtain ⟨more, hdue, -⟩ := h.due
  constructor
  · intro n hn hread
    obtain ⟨pipe, hr⟩ := Working.exists_read (Prod.ext hread rfl)
    obtain ⟨-, stats, hstats⟩ := hdue.end hn hr
    cases hf.symm.trans hstats
  · intro r hr
    cases hg : s.working.gone with
    | true =>
      have hfinish := hr.symm.trans (h.finish hg)
      rw [hf] at hfinish
      cases hfinish
      rfl
    | false =>
      rw [Working.finish?, hg] at hr
      cases hr

end Delivery

variable {σ τ δ ε : Type} [Reader σ] [Reader τ]
variable {I : σ → Prop} {output : σ → Bytes} {J : τ → Prop} {output' : τ → Bytes}

/-- Let a filter succeed on an archive, and cut the archive anywhere in what it has read of it
but at the start or the end of an entry.  Then every filter fails on what is left, whatever it
decides: the output ends with a fault, however the two parties take turns, no read finds a clean
end, and what becomes of the filter is that fault. -/
theorem truncation_fails (h : Reader.Hands I output) (h' : Reader.Hands J output') {s : σ} {t : τ}
    (hs : I s) (ht : J t) {decide : Decision δ} {d : δ} {stats : FilterStats}
    (hfinish : (Filtered.start s decide d).finish.1 = .ok stats) {cut : Nat}
    (hcut : cut < (output s).length - (output (Filtered.start s decide d).finish.2).length)
    (hzero : cut ≠ 0) (hend : cut ∉ entryEnds (output s) 0)
    (htake : output' t = (output s).take cut) (decide' : Decision ε) (d' : ε) :
    ∃ f : Fault,
      (Filtered.start t decide' d').drain.fault = some (.shared f)
        ∧ (Filtered.start t decide' d').finish.1 = .error (.shared f)
        ∧ (∀ ts : List Turn, let x := ts.foldl Delivery.turn (Delivery.start t decide' d')
          (∀ n, n ≠ 0 → (x.working.read n).1 ≠ some (.ok []))
            ∧ ∀ r, x.working.finish? = some r → r.1 = .error (.shared f))
        ∧ ∀ schedule, Fair Turn.side schedule →
          ∃ m, let x := along Delivery.turn schedule (Delivery.start t decide' d') m
            (∃ r, x.working.finish? = some r)
              ∧ ∀ n, n ≠ 0 → (x.working.read n).1 = some (.error (.shared f)) := by
  have hspec := Filtered.finish_spec (produce decide d) ⟨s, none⟩
  rw [Relay.run_cancelable] at hspec
  have hspec : (Filtered.start s decide d).finish
      = ((Relay.run (produce decide d) s).result.1.mapError .shared,
        (Relay.run (produce decide d) s).rest) := hspec
  rw [hspec] at hfinish hcut
  obtain ⟨f, hf⟩ : ∃ f, (Relay.run (produce decide' d') t).result.1 = .error f := by
    cases hr : (Relay.run (produce decide' d') t).result.1 with
    | error f => exact ⟨f, rfl⟩
    | ok stats' =>
      cases hok : (Relay.run (produce decide d) s).result.1 with
      | error f =>
        rw [hok] at hfinish
        cases hfinish
      | ok stats =>
        obtain ⟨stop, hreaches⟩ := produce_reaches h hs hok
        obtain ⟨stop', hreaches'⟩ := produce_reaches h' ht hr
        rw [htake] at hreaches'
        rcases hreaches.of_take hreaches' hcut with e | e
        · exact absurd e hzero
        · exact absurd e hend
  have hfault := (Filtered.drain_end (produce decide' d') ⟨t, none⟩).1
  have hspec' := Filtered.finish_spec (produce decide' d') ⟨t, none⟩
  rw [Relay.run_cancelable] at hfault hspec'
  rw [hf] at hfault hspec'
  have hsound := Delivery.sound_start t decide' d'
  refine ⟨f, hfault, congrArg Prod.fst hspec', fun ts => (hsound.turns ts).not_clean hf,
    fun schedule hfair => ?_⟩
  obtain ⟨m, -, hdone⟩ := hsound.inevitable.exists_along hfair
    (show along Delivery.turn schedule (Delivery.start t decide' d') 0 = _ from rfl)
  have hm := hsound.turns ((List.range m).map schedule)
  refine ⟨m, ⟨_, hm.finish hdone.1⟩, fun n hn => ?_⟩
  have hread := hm.read_done hdone hn
  rw [hf] at hread
  exact hread

/-! ## A file that is cut in two -/

/-- An archive with one file of three bytes. -/
def fileArchive : Bytes :=
  ((((Tar.Header.newGnu.put .name (ascii "a")).setSize 3).setKind .regular)).setChecksum.bytes
    ++ (ascii "xyz" ++ Bytes.padding 3) ++ trailer

def dropAll : Decision Unit := fun d e => ((false, e), d)

theorem finish_fileArchive :
    (∃ stats, (Filtered.start (Source.ofBytes fileArchive) keepAll ()).finish.1 = .ok stats)
      ∧ (Filtered.start (Source.ofBytes fileArchive) keepAll ()).finish.2.remaining.length = 512 := by
  constructor
  · obtain ⟨rest, hfinish⟩ := exists_finish ⟨1, 0⟩
      (show (Relay.run (produce keepAll ()) (Source.ofBytes fileArchive)).result.1.toOption = _ by
        decide +kernel)
    exact ⟨_, congrArg Prod.fst hfinish⟩
  · rw [Filtered.finish_start]
    decide +kernel

/-- The file is cut behind its second byte, and would be dropped. -/
theorem truncation_fails_inside_file :
    514 < fileArchive.length
        - (Filtered.start (Source.ofBytes fileArchive) keepAll ()).finish.2.remaining.length
      ∧ 514 ∉ entryEnds fileArchive 0
      ∧ ∃ f, (Filtered.start (Source.ofBytes (fileArchive.take 514)) dropAll ()).finish.1
        = .error (.shared f) := by
  obtain ⟨⟨stats, hfinish⟩, hleft⟩ := finish_fileArchive
  have hwhole : (Source.ofBytes fileArchive).remaining = fileArchive := List.append_nil _
  have hcut : 514 < fileArchive.length
      - (Filtered.start (Source.ofBytes fileArchive) keepAll ()).finish.2.remaining.length := by
    rw [hleft]
    decide +kernel
  have hend : 514 ∉ entryEnds fileArchive 0 := by decide +kernel
  obtain ⟨f, -, hf, -⟩ := truncation_fails Source.hands Source.hands
    (Source.onlyData_ofBytes fileArchive).steady
    (Source.onlyData_ofBytes (fileArchive.take 514)).steady hfinish
    (by rw [hwhole]; exact hcut) (by decide) (by rw [hwhole]; exact hend)
    (by rw [hwhole]; exact List.append_nil _) dropAll ()
  exact ⟨hcut, hend, f, hf⟩

end Filter
end ContainerLayer
