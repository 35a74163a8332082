import ContainerLayer.Proofs.Extract.Overwriting
import ContainerLayer.Proofs.Tar.Entries

/-
How a run follows the entries of an archive.

The entries are those of the archive (`Tar.entriesFrom`), each with the content that is behind it,
and every one that is applied to its end makes of the progress what is said by `Done`.  A run is a
row of such steps (`Follows`) and what it comes to behind them (`Ends`).  Whatever reader hands the
archive out, a run on it is of this form (`exists_follows`).  And where there is such a row, every
run that reads the same bytes as far as it goes through it (`Follows.run`).
-/

namespace ContainerLayer

namespace Extract

open Tar Tape Unpack ContainerLayer.Tree

/-! ## One entry -/

/-- What an entry makes of the progress before it if it is applied to its end, with `b` on the
tape behind its header. -/
inductive Done (root : PathParts) (e : Entry) (b : Bytes) (p : Progress) : Progress → Prop
  | removed {w t} (hw : whiteout? e.path = some w)
      (h : remove p.applied root e.path w p.tree = (none, t)) :
      Done root e b p { p with tree := t, count := p.count + 1 }
  | placed {t} (hw : whiteout? e.path = none) (hup : Path.hasUp e.path = false)
      (h : (prepare root e).run p.tree = (.ok none, t)) : Done root e b p (p.unpacked e t)
  | filled {l t} (hw : whiteout? e.path = none) (hup : Path.hasUp e.path = false)
      (h : (prepare root e).run p.tree = (.ok (some l), t)) (hs : Content.Supplied e.content b) :
      Done root e b p (p.unpacked e (fill e.header l (e.content.expand b).1 true t))

theorem Done.congr {root : PathParts} {e : Entry} {b b' : Bytes} {p p' : Progress}
    (h : Done root e b p p') (he : Content.onTape e.content ≤ b.length →
      b'.take (Content.onTape e.content) = b.take (Content.onTape e.content)) :
    Done root e b' p p' := by
  cases h with
  | removed hw h => exact .removed hw h
  | placed hw hup h => exact .placed hw hup h
  | filled hw hup h hs =>
    obtain ⟨hs', hexpand⟩ := hs.congr (he hs.onTape_le)
    rw [← hexpand]
    exact .filled hw hup h hs'

theorem Done.count {root : PathParts} {e : Entry} {b : Bytes} {p p' : Progress}
    (h : Done root e b p p') : p'.count = p.count + 1 := by
  cases h <;> rfl

theorem Done.applies {root : PathParts} {e : Entry} {b : Bytes} {p p' : Progress}
    (h : Done root e b p p') : Applies root e p none p' := by
  cases h with
  | removed hw h => exact .removed hw h
  | placed hw hup h => exact .unpacked hw hup (.placed h)
  | filled hw hup h _ => exact .unpacked hw hup (.filled h _ none)

section Entry

variable {σ : Type} [Reader σ] {I : σ → Prop} {output : σ → Bytes} {root : PathParts} {e : Entry}
variable {p p' : Progress} {c c' : Spot σ} {out : Bytes}

/-- Unpacking that comes to its end has prepared for the entry, and has taken what is stored of its
content if there is a file to fill. -/
theorem of_entry_plays (h : Reader.Hands I output) (hc : I c.reader) {t t' : Tree}
    (hp : (Unpack.entry root e t).Plays c (none, t') c' out) :
    ((prepare root e).run t = (.ok none, t') ∧ c' = c) ∨
      ∃ l t₁, (prepare root e).run t = (.ok (some l), t₁) ∧
        Content.Supplied e.content (output c.reader) ∧
        t' = fill e.header l (e.content.expand (output c.reader)).1 true t₁ ∧ I c'.reader ∧
        output c'.reader = (output c.reader).drop (Content.onTape e.content) ∧
        c'.position = c.position + Content.onTape e.content := by
  rw [Unpack.entry] at hp
  generalize hrun : (prepare root e).run t = prepared at hp ⊢
  obtain ⟨o, t₁⟩ := prepared
  cases o with
  | error f => cases (plays_pure_iff.mp hp).1
  | ok o =>
    cases o with
    | none =>
      obtain ⟨ha, rfl, -⟩ := plays_pure_iff.mp hp
      cases ha
      exact .inl ⟨rfl, rfl⟩
    | some l =>
      obtain ⟨⟨chunks, fault⟩, c₂, o₁, o₂, hcontent, hfill, -⟩ := plays_bind_iff.mp hp
      obtain ⟨ha, rfl, -⟩ := plays_pure_iff.mp hfill
      cases ha
      obtain ⟨hc', -, hs, hchunks, hleft, hpos⟩ := of_readContent_plays h hc hcontent
      refine .inr ⟨l, t₁, rfl, hs, ?_, hc', hleft, hpos⟩
      rw [hchunks]
      rfl

/-- An entry that is applied to its end takes no more than what is stored of its content. -/
theorem done_of_plays (h : Reader.Hands I output) (hc : I c.reader)
    (hp : (applyEntry root e p).Plays c (none, p') c' out) :
    Done root e (output c.reader) p p' ∧ I c'.reader ∧ ∃ seen,
      output c.reader = seen ++ output c'.reader ∧ c'.position = c.position + seen.length ∧
        seen.length ≤ Content.onTape e.content := by
  have hstays : I c.reader ∧ ∃ seen, output c.reader = seen ++ output c.reader ∧
      c.position = c.position + seen.length ∧ seen.length ≤ Content.onTape e.content :=
    ⟨hc, [], rfl, rfl, Nat.zero_le _⟩
  cases hw : whiteout? e.path with
  | some w =>
    rcases hr : remove p.applied root e.path w p.tree with ⟨_ | err, t⟩
    · rw [applyEntry_of_removed hw hr] at hp
      obtain ⟨ha, rfl, -⟩ := plays_pure_iff.mp hp
      cases ha
      exact ⟨.removed hw hr, hstays⟩
    · rw [applyEntry_of_refused hw hr] at hp
      cases (plays_pure_iff.mp hp).1
  | none =>
    cases hup : Path.hasUp e.path with
    | true =>
      rw [applyEntry_of_up hw hup] at hp
      cases (plays_pure_iff.mp hp).1
    | false =>
      rw [applyEntry_of_ordinary hw hup] at hp
      obtain ⟨⟨fault, t⟩, c₁, o₁, o₂, hentry, hpure, -⟩ := plays_bind_iff.mp hp
      obtain ⟨ha, rfl, -⟩ := plays_pure_iff.mp hpure
      cases fault with
      | some f => cases ha
      | none =>
        cases ha
        rcases of_entry_plays h hc hentry with ⟨hrun, rfl⟩ | ⟨l, t₁, hrun, hs, rfl, hc', hleft, hpos⟩
        · exact ⟨.placed hw hup hrun, hstays⟩
        · refine ⟨.filled hw hup hrun hs, hc',
            (output c.reader).take (Content.onTape e.content), ?_, ?_, ?_⟩
          · rw [hleft, List.take_append_drop]
          · rw [List.length_take_of_le hs.onTape_le, hpos]
          · exact List.length_take_le _ _

/-- An entry that can be applied to its end with these bytes is. -/
theorem plays_of_done (h : Reader.Gives I output) (hc : I c.reader)
    (hd : Done root e (output c.reader) p p') :
    ∃ c', (applyEntry root e p).Plays c (none, p') c' [] := by
  cases hd with
  | removed hw hr =>
    rw [applyEntry_of_removed hw hr]
    exact ⟨c, plays_pure _ _⟩
  | placed hw hup hrun =>
    refine ⟨c, applyEntry_plays (r := (none, _)) hw hup ?_⟩
    rw [Unpack.entry, hrun]
    exact plays_pure _ _
  | filled hw hup hrun hs =>
    obtain ⟨chunks, c', hcontent, -, hchunks, -⟩ := readContent_plays h [] hc hs
    have hchunks : chunks.reverse.flatten = (e.content.expand (output c.reader)).1 := hchunks
    refine ⟨c', applyEntry_plays (r := (none, _)) hw hup ?_⟩
    rw [Unpack.entry, hrun, ← hchunks]
    exact hcontent.bind_nil (plays_pure _ _)

end Entry

/-! ## Entries one after the other -/

/-- The entries of the archive from `start` to `stop`, each of them applied to its end. -/
inductive Follows (root : PathParts) (archive : Bytes) :
    Nat → Progress → List (Entry × Bytes) → Nat → Progress → Prop
  | here (start : Nat) (p : Progress) : Follows root archive start p [] start p
  | entry {start stop : Nat} {p p₁ p' : Progress} {items : List (Entry × Bytes)}
      {e : { e : Entry // Behind start e.next }} {c : Spot Whole}
      (h : (readEntry start).Plays (⟨start, ⟨archive.drop start⟩⟩ : Spot Whole) (some e) c [])
      (hd : Done root e.1 c.reader.left p p₁)
      (hs : Follows root archive e.1.next p₁ items stop p') :
      Follows root archive start p ((e.1, (e.1.content.expand c.reader.left).1) :: items) stop p'

section Follows

variable {root : PathParts} {archive : Bytes} {start stop : Nat} {p p' : Progress}
variable {items : List (Entry × Bytes)}

theorem Follows.le (h : Follows root archive start p items stop p') : start ≤ stop := by
  induction h with
  | here => exact Nat.le_refl _
  | @entry start _ _ _ _ _ e _ _ _ _ ih => exact Nat.le_trans (Nat.le_of_lt e.2.1) ih

theorem Follows.count (h : Follows root archive start p items stop p') :
    p'.count = p.count + items.length := by
  induction h with
  | here => rfl
  | entry h hd hs ih =>
    rw [ih, hd.count, List.length_cons]
    omega

theorem Follows.entries (h : Follows root archive start p items stop p') :
    entriesFrom archive start = items ++ entriesFrom archive stop := by
  induction h with
  | here => rfl
  | entry h hd hs ih => rw [entriesFrom_of_plays h, ih, List.cons_append]

theorem Follows.closed (h : Follows root archive start p items stop p') (hp : p.tree.Closed) :
    p'.tree.Closed := by
  induction h with
  | here => exact hp
  | entry h hd hs ih => exact ih (hd.applies.closed hp)

/-- Entries are applied in the same way if the archive is another one behind them. -/
theorem Follows.cut {cut : Nat} (h : Follows root archive start p items stop p')
    (hcut : stop ≤ cut) (more : Bytes) :
    ∃ items', Follows root (archive.take cut ++ more) start p items' stop p' := by
  induction h with
  | here start p => exact ⟨[], .here start p⟩
  | @entry start stop p p₁ p' items e c h hd hs ih =>
    obtain ⟨items', hs'⟩ := ih hcut
    have hnext := Nat.le_trans hs.le hcut
    have hcontent := (content_le_of_readEntry h).2
    refine ⟨_, .entry (readEntry_take h hnext more) (hd.congr fun hlength => ?_) hs'⟩
    rw [List.take_append_of_le_length (by rw [List.length_take]; omega), List.take_take,
      Nat.min_eq_left (by omega)]

/-! ## Runs -/

/-- The reader is somewhere in the archive, no further than at `start`. -/
structure Within {σ : Type} (I : σ → Prop) (output : σ → Bytes) (archive : Bytes) (start : Nat)
    (c : Spot σ) : Prop where
  holds : I c.reader
  on : (c.whole output).On archive
  le : c.position ≤ start

theorem within_start {σ : Type} {I : σ → Prop} (output : σ → Bytes) {s : σ} (hs : I s) :
    Within I output (output s) 0 ⟨0, s⟩ := ⟨hs, ⟨[], rfl, rfl⟩, Nat.le_refl 0⟩

section Runs

variable {σ : Type} [Reader σ] {I : σ → Prop} {output : σ → Bytes} {c : Spot σ}

/-- What is read at a place of the archive is read by every reader that has not come further. -/
theorem Within.reads (h : Reader.Gives I output) (hw : Within I output archive start c)
    (hstart : start ≤ archive.length) {r : Option { e : Entry // Behind start e.next }}
    {d : Spot Whole} {out : Bytes}
    (hp : (readEntry start).Plays (⟨start, ⟨archive.drop start⟩⟩ : Spot Whole) r d out) :
    ∃ c₁, (readEntry start).Plays c r c₁ out ∧ I c₁.reader ∧ c₁.whole output = d :=
  (reads_readEntry start).of_whole h hw.holds
    ((readEntryAfter_from (hw.on.isAhead hw.le hstart)).mpr hp)

/-- Behind an entry that is applied to its end the reader has not come further than to the next
header. -/
theorem Within.applied (h : Reader.Hands I output) {e : { e : Entry // Behind start e.next }}
    {p₁ : Progress} {c₁ c₂ : Spot σ} {out : Bytes} (hc₁ : I c₁.reader)
    (hon : (c₁.whole output).On archive)
    (hcontent : c₁.position + Content.onTape e.1.content ≤ e.1.next)
    (happly : (applyEntry root e.1 p).Plays c₁ (none, p₁) c₂ out) :
    Within I output archive e.1.next c₂ := by
  obtain ⟨-, hc₂, seen, hleft, hpos, hseen⟩ := done_of_plays h hc₁ happly
  exact ⟨hc₂, hon.take (b := seen) hleft hpos, by omega⟩

/-- A run on the archive goes from entry to entry. -/
theorem Follows.run (h : Reader.Gives I output) (hf : Follows root archive start p items stop p')
    (hw : Within I output archive start c) :
    ∃ c', Within I output archive stop c' ∧
      (Relay.run (applyEntries root start c.position p) c.reader).result
        = (Relay.run (applyEntries root stop c'.position p') c'.reader).result := by
  induction hf generalizing c with
  | here start p => exact ⟨c, hw, rfl⟩
  | @entry start stop p p₁ p' items e d hentry hd hs ih =>
    obtain ⟨hon, hcontent⟩ := content_le_of_readEntry hentry
    obtain ⟨c₁, hread, hc₁, rfl⟩ :=
      hw.reads h (Nat.le_of_add_right_le (le_length_of_readEntry hentry)) hentry
    obtain ⟨c₂, happly⟩ := plays_of_done h hc₁ hd
    obtain ⟨c', hw', hrun⟩ := ih (.applied h.hands hc₁ hon hcontent happly)
    exact ⟨c', hw', (result_of_plays hread happly).trans hrun⟩

/-- What a run comes to that applies no further entry. -/
inductive Ends (root : PathParts) (stop : Nat) (p : Progress) (c : Spot σ) :
    Except LayerError Nat × Tree → Prop
  | done {d : Spot σ} {out : Bytes} (h : (readEntry stop).Plays c none d out) :
      Ends root stop p c (.ok p.count, p.tree)
  | unread {f : Fault}
      (h : (Relay.run ((readEntry stop).run c.position) c.reader).result = .error f) :
      Ends root stop p c (.error (.stream f), p.tree)
  | failed {e : { e : Entry // Behind stop e.next }} {c₁ c₂ : Spot σ} {out out' : Bytes}
      {err : LayerError} {after : Progress} (h : (readEntry stop).Plays c (some e) c₁ out)
      (ha : (applyEntry root e.1 p).Plays c₁ (some err, after) c₂ out') :
      Ends root stop p c (.error err, after.tree)

theorem Ends.result {r : Except LayerError Nat × Tree} (h : Ends root stop p c r) :
    (Relay.run (applyEntries root stop c.position p) c.reader).result = r := by
  cases h with
  | done h =>
    rw [result_applyEntries]
    simp only [h.1]
  | unread h =>
    rw [result_applyEntries]
    simp only [h]
  | failed h ha => exact result_of_fails h ha

/-- Every run goes over some of the entries and comes to its end behind them. -/
theorem exists_follows (h : Reader.Hands I output) (root : PathParts) (p : Progress)
    (hw : Within I output archive start c) :
    ∃ items stop p' c', Follows root archive start p items stop p' ∧
      Within I output archive stop c' ∧ Ends root stop p' c'
        (Relay.run (applyEntries root start c.position p) c.reader).result := by
  induction hd : limit - start using Nat.strongRecOn generalizing start p c with
  | ind d ih =>
    subst hd
    have hends : ∀ {r}, Ends root start p c r → Ends root start p c
        (Relay.run (applyEntries root start c.position p) c.reader).result :=
      fun h => h.result.symm ▸ h
    rcases hread : (Relay.run ((readEntry start).run c.position) c.reader).result with
      f | ⟨_ | e, position⟩
    · exact ⟨[], start, p, c, .here start p, hw, hends (.unread hread)⟩
    · have hplays : (readEntry start).Plays c none ⟨position, _⟩ _ := ⟨hread, rfl, rfl⟩
      exact ⟨[], start, p, c, .here start p, hw, hends (.done hplays)⟩
    obtain ⟨c₁, out, hplays⟩ : ∃ c₁ out, (readEntry start).Plays c (some e) c₁ out :=
      ⟨⟨position, _⟩, _, hread, rfl, rfl⟩
    obtain ⟨⟨failure, after⟩, position', hrun, -⟩ :=
      (returns_applyEntry root e.1 p c₁.position).run c₁.reader
    obtain ⟨c₂, out', happly⟩ :
        ∃ c₂ out, (applyEntry root e.1 p).Plays c₁ (failure, after) c₂ out :=
      ⟨⟨position', _⟩, _, hrun, rfl, rfl⟩
    cases failure with
    | some err => exact ⟨[], start, p, c, .here start p, hw, hends (.failed hplays happly)⟩
    | none =>
      obtain ⟨-, -, hc₁, hwhole⟩ := (reads_readEntry start).plays h hw.holds hplays
      obtain ⟨hentry, hcontent⟩ := readEntry_on hw.on hw.le hwhole
      obtain ⟨hon, hcontent⟩ := hcontent e rfl
      obtain ⟨hdone, -⟩ := done_of_plays h hc₁ happly
      have hlimit := e.2.1
      have hlimit' := e.2.2
      obtain ⟨items, stop, p', c', hf, hw', hends'⟩ := ih (limit - e.1.next) (by omega) after
        (.applied h hc₁ hon hcontent happly) rfl
      refine ⟨_, stop, p', c', .entry hentry hdone hf, hw', ?_⟩
      rw [result_of_plays hplays happly]
      exact hends'

/-- Where the reader finds no entry there is none. -/
theorem Within.stops (h : Reader.Hands I output) (hw : Within I output archive start c)
    {d : Spot σ} {out : Bytes} (hp : (readEntry start).Plays c none d out) :
    Stops archive start := by
  obtain ⟨-, -, -, hwhole⟩ := (reads_readEntry start).plays h hw.holds hp
  exact ⟨_, (readEntry_on hw.on hw.le hwhole).1⟩

end Runs

end Follows

end Extract
end ContainerLayer
