import ContainerLayer.Proofs.Extract.Child
import ContainerLayer.Proofs.Extract.Following

/-
How a run fails.

It fails at one entry, and the tree is what the entries in front of that one left, with what the
entry itself did before it failed; what stands behind the entry has no part in it
(`failing_outcome`).  An entry whose path leads upwards, or has the name of a whiteout that names
nothing (`Barred`), always fails, and does nothing before it fails.  There are three places where
such a path is noticed: one for either kind of whiteout, and one for all other entries
(`Applies.barred`).
-/

namespace ContainerLayer
namespace Extract

open Tar Tape Unpack ContainerLayer.Tree

/-! ## Barred paths -/

/-- No entry can be applied that has this path: it leads upwards, or is that of a whiteout that
names nothing. -/
def Barred (path : Bytes) : Prop := Path.hasUp path = true ∨ whiteout? path = some .invalid

instance (path : Bytes) : Decidable (Barred path) :=
  inferInstanceAs (Decidable (_ ∨ _))

/-- The error says that a path is barred. -/
inductive Bars : LayerError → Prop
  | escapes (path : Bytes) : Bars (.extract path .escapes)
  | badWhiteout (path : Bytes) : Bars (.extract path .badWhiteout)

theorem Bars.invalidData {err : LayerError} (h : Bars err) :
    ∃ path cause, err = .extract path cause ∧ cause.fault.kind = .invalidData := by
  cases h with
  | escapes path => exact ⟨path, .escapes, rfl, rfl⟩
  | badWhiteout path => exact ⟨path, .badWhiteout, rfl, rfl⟩

theorem not_bars_failed (path : Bytes) (f : Fault) : ¬ Bars (.extract path (.failed f)) := by
  intro h
  cases h

section Remove

variable {applied : Applied} {root : PathParts} {path : Bytes} {w : Whiteout} {t : Tree}

/-- A whiteout is refused for its path just if the path is barred. -/
theorem remove_barred (hw : whiteout? path = some w) :
    (Barred path → ∃ err, remove applied root path w t = (some err, t) ∧ Bars err) ∧
      ∀ err t', remove applied root path w t = (some err, t') → Bars err → Barred path := by
  have hbarred : w ≠ .invalid → (Barred path ↔ Path.hasUp path = true) := by
    intro hne
    simp [Barred, hw, hne]
  cases w with
  | invalid => exact ⟨fun _ => ⟨_, rfl, .badWhiteout path⟩, fun _ _ _ _ => .inr hw⟩
  | lower =>
    rw [hbarred (by simp), remove_lower _ _ _ hw]
    split
    · rename_i hup
      exact ⟨fun _ => ⟨_, rfl, .escapes _⟩, fun _ _ _ _ => hup⟩
    · rename_i hup
      refine ⟨fun h => absurd h hup, fun err t' h hb => ?_⟩
      split at h
      · cases h
      · cases h
        exact absurd hb (not_bars_failed _ _)
  | file name =>
    rw [hbarred (by simp), remove_file _ _ _ hw]
    split
    · rename_i hup
      exact ⟨fun _ => ⟨_, rfl, .escapes _⟩, fun _ _ _ _ => hup⟩
    · rename_i hup
      refine ⟨fun h => absurd h hup, fun err t' h hb => ?_⟩
      split at h
      · cases h
      · cases h
        exact absurd hb (not_bars_failed _ _)

end Remove

/-- A whiteout of a barred path, or another entry with one, fails and does nothing, and no entry
fails in this way for another reason. -/
theorem Applies.barred {root : PathParts} {e : Entry} {p p' : Progress}
    {failure : Option LayerError} (h : Applies root e p failure p') :
    (Barred e.path → ∃ err, failure = some err ∧ Bars err ∧ p' = p) ∧
      ∀ err, failure = some err → Bars err → Barred e.path := by
  have hordinary : whiteout? e.path = none → (Barred e.path ↔ Path.hasUp e.path = true) := by
    intro hw
    simp [Barred, hw]
  cases h with
  | removed hw hr =>
    refine ⟨fun hb => ?_, nofun⟩
    obtain ⟨err, hr', -⟩ := (remove_barred hw).1 hb
    rw [hr] at hr'
    cases hr'
  | @refused w err t' hw hr =>
    refine ⟨fun hb => ?_, fun err' he hb =>
      (remove_barred hw).2 err' _ (Option.some.inj he ▸ hr) hb⟩
    obtain ⟨err', hr', hbars⟩ := (remove_barred hw).1 hb
    rw [hr] at hr'
    cases hr'
    exact ⟨err, rfl, hbars, rfl⟩
  | escapes hw hup =>
    rw [hordinary hw]
    exact ⟨fun _ => ⟨_, rfl, .escapes _, rfl⟩, fun _ _ _ => hup⟩
  | failed hw hup _ =>
    rw [hordinary hw, hup]
    refine ⟨nofun, fun err he hb => ?_⟩
    cases he
    exact absurd hb (not_bars_failed _ _)
  | unpacked hw hup _ =>
    rw [hordinary hw, hup]
    exact ⟨nofun, nofun⟩

theorem Follows.not_barred {root : PathParts} {archive : Bytes} {start stop : Nat}
    {p p' : Progress} {items : List (Entry × Bytes)}
    (h : Follows root archive start p items stop p') : ∀ x ∈ items, ¬ Barred x.1.path := by
  induction h with
  | here => exact fun x hx => absurd hx List.not_mem_nil
  | entry h hd hs ih =>
    intro x hx hb
    rcases List.mem_cons.mp hx with rfl | hx
    · obtain ⟨err, he, -⟩ := hd.applies.barred.1 hb
      cases he
    · exact ih x hx hb

/-! ## What an entry does before it fails -/

/-- What an entry that fails may have done to the tree.  A whiteout for all of a directory may have
cleared some of that.  An entry that is unpacked may have made the directories that were missing on
the way to its path, and at that path itself what was there may be lost or replaced. -/
inductive Begun (root : PathParts) (e : Entry) (p : Progress) : Tree → Prop
  | nothing : Begun root e p p.tree
  | clearing {t'} (hw : whiteout? e.path = some .lower)
      (h : Loses (LowerAt p.applied root (Path.names (Path.parent e.path)) p.tree) p.tree t') :
      Begun root e p t'
  | unpacking {t₁ t'} (hw : whiteout? e.path = none)
      (hway : ∀ k, t₁.lookup k = p.tree.lookup k ∨ (p.tree.lookup k = none ∧
        ∃ q, q <+: (Path.names e.path).dropLast ∧ t₁.openDirectory (root ++ q) = .ok k))
      (hplace : t' = t₁ ∨ ∃ d last, (Path.names e.path).getLast? = some last ∧
        t₁.canonicalize (root ++ (Path.names e.path).dropLast) = .ok d ∧
        SameBut (d ++ [last]) t₁ t') : Begun root e p t'

theorem Applies.begun {root : PathParts} {e : Entry} {p p' : Progress} {err : LayerError}
    (h : Applies root e p (some err) p') (ht : p.tree.Closed) : Begun root e p p'.tree := by
  cases h with
  | escapes _ _ => exact .nothing
  | @refused w _ t' hw hr =>
    by_cases hlower : w = .lower
    · subst hlower
      exact .clearing hw ((Applies.refused hw hr).loses ht hw)
    · rw [eq_of_remove hw hlower hr]
      exact .nothing
  | failed hw _ h =>
    obtain ⟨t₁, hway, hplace⟩ := h.exists_way
    exact .unpacking hw (hway.opens ht) hplace

/-! ## What stands behind an entry -/

section Front

variable {σ : Type} [Reader σ] {I : σ → Prop} {output : σ → Bytes} (h : Reader.Gives I output)
variable {root : PathParts} {e : Entry} {p : Progress} {c c' d : Spot σ} {out : Bytes}

include h in
theorem entry_front {t : Tree} (hc : I c.reader) (hd : I d.reader)
    (hlength : Content.onTape e.content ≤ (output c.reader).length)
    (he : (output d.reader).take (Content.onTape e.content)
      = (output c.reader).take (Content.onTape e.content)) {r : Option Fault × Tree}
    (hp : (Unpack.entry root e t).Plays c r c' out) :
    ∃ d' out', (Unpack.entry root e t).Plays d r d' out' := by
  rw [Unpack.entry] at hp ⊢
  generalize (prepare root e).run t = prepared at hp ⊢
  obtain ⟨o, t₁⟩ := prepared
  cases o with
  | error f =>
    obtain ⟨rfl, -, -⟩ := plays_pure_iff.mp hp
    exact ⟨d, [], plays_pure _ _⟩
  | ok o =>
    cases o with
    | none =>
      obtain ⟨rfl, -, -⟩ := plays_pure_iff.mp hp
      exact ⟨d, [], plays_pure _ _⟩
    | some l =>
      obtain ⟨_, c₁, o₁, o₂, hcontent, hfill, -⟩ := plays_bind_iff.mp hp
      obtain ⟨rfl, -, -⟩ := plays_pure_iff.mp hfill
      obtain ⟨chunks, chunks', fault, c₂, d', hc', hd', heq⟩ :=
        readContent_front h (Eq.refl ([] : List Bytes).reverse.flatten) hc hd hlength he
      obtain ⟨rfl, -, -⟩ := hc'.det hcontent
      refine ⟨d', [], hd'.bind_nil ?_⟩
      dsimp only
      rw [heq]
      exact plays_pure _ _

include h in
/-- What an entry does depends on no more of the archive than is stored of its content. -/
theorem applyEntry_front (hc : I c.reader) (hd : I d.reader)
    (hlength : Content.onTape e.content ≤ (output c.reader).length)
    (he : (output d.reader).take (Content.onTape e.content)
      = (output c.reader).take (Content.onTape e.content)) {r : Option LayerError × Progress}
    (hp : (applyEntry root e p).Plays c r c' out) :
    ∃ d' out', (applyEntry root e p).Plays d r d' out' := by
  have hpure : ∀ {r'}, applyEntry root e p = pure r' →
      ∃ d' out', (applyEntry root e p).Plays d r d' out' := by
    intro r' hr
    rw [hr] at hp ⊢
    obtain ⟨rfl, -, -⟩ := plays_pure_iff.mp hp
    exact ⟨d, [], plays_pure _ _⟩
  cases hw : whiteout? e.path with
  | some w =>
    rcases hr : remove p.applied root e.path w p.tree with ⟨_ | err, t⟩
    · exact hpure (applyEntry_of_removed hw hr)
    · exact hpure (applyEntry_of_refused hw hr)
  | none =>
    cases hup : Path.hasUp e.path with
    | true => exact hpure (applyEntry_of_up hw hup)
    | false =>
      rw [applyEntry_of_ordinary hw hup] at hp ⊢
      obtain ⟨r', c₁, o₁, o₂, hentry, hrest, -⟩ := plays_bind_iff.mp hp
      obtain ⟨rfl, rfl, rfl⟩ := plays_pure_iff.mp hrest
      obtain ⟨d', out', hentry'⟩ := entry_front h hc hd hlength he hentry
      exact ⟨d', _, hentry'.bind (plays_pure _ _)⟩

end Front

/-! ## Runs that fail -/

/-- The archive that is made of the entries in front of `stop`: their last block is filled up if
it is cut short, and a trailer stands behind it. -/
def upTo (archive : Bytes) (stop : Nat) : Bytes :=
  archive.take stop ++ (List.replicate (stop - archive.length) 0 ++ trailer)

theorem upTo_eq (archive : Bytes) (stop : Nat) : ∃ front, upTo archive stop = front ++ trailer ∧
    front.length = stop := by
  refine ⟨archive.take stop ++ List.replicate (stop - archive.length) 0, ?_, ?_⟩
  · rw [upTo, List.append_assoc]
  · rw [List.length_append, List.length_take, List.length_replicate]
    omega

theorem stops_upTo (archive : Bytes) (stop : Nat) : Stops (upTo archive stop) stop := by
  obtain ⟨front, hfront, hlength⟩ := upTo_eq archive stop
  have htrailer : trailer = List.replicate 512 0 ++ List.replicate 512 0 := by
    rw [List.replicate_append_replicate]
    rfl
  rw [Stops, hfront, List.drop_left' hlength, htrailer]
  exact ⟨_, readEntry_plays_none (ahead_here stop _)⟩

section Runs

variable {σ : Type} [Reader σ] {I : σ → Prop} {output : σ → Bytes} {root : PathParts} {t : Tree}
variable {archive : Bytes} {stop : Nat} {p : Progress} {items : List (Entry × Bytes)}

/-- The entries in front of `stop` make up an archive that is applied to its end. -/
theorem Follows.result_upTo (hf : Follows root archive 0 { tree := t } items stop p) :
    (Relay.run (applyArchive root t) (Source.ofBytes (upTo archive stop))).result
      = (.ok items.length, p.tree) := by
  obtain ⟨items', hcut⟩ :=
    hf.cut (Nat.le_refl stop) (List.replicate (stop - archive.length) 0 ++ trailer)
  have hwithin : Within Source.OnlyData Source.remaining (upTo archive stop) 0
      ⟨0, Source.ofBytes (upTo archive stop)⟩ := by
    have := within_start Source.remaining (Source.onlyData_ofBytes (upTo archive stop))
    rwa [show (Source.ofBytes (upTo archive stop)).remaining = upTo archive stop from
      List.append_nil _] at this
  obtain ⟨c, hc, hrun⟩ := hcut.run Source.gives hwithin
  obtain ⟨d, hstop⟩ := stops_upTo archive stop
  have hlength : stop ≤ (upTo archive stop).length := by
    obtain ⟨front, hfront, hlength⟩ := upTo_eq archive stop
    rw [hfront, List.length_append]
    omega
  obtain ⟨c₁, hread, -, -⟩ := hc.reads Source.gives hlength hstop
  have hcount : p.count = items.length := by
    rw [hf.count]
    exact Nat.zero_add _
  rw [applyArchive, hrun, Ends.result (.done hread), hcount]

/-- A run on bytes that are the same up to the header behind the entry at which a run fails fails
there in the same way. -/
theorem Follows.result_congr (h : Reader.Gives I output) {s s' : σ} (hs' : I s')
    (hf : Follows root (output s) 0 { tree := t } items stop p) {c c₁ c₂ : Spot σ}
    (hc : Within I output (output s) stop c) {e : { e : Entry // Behind stop e.next }}
    {out out' : Bytes} {err : LayerError} {after : Progress}
    (hread : (readEntry stop).Plays c (some e) c₁ out)
    (happly : (applyEntry root e.1 p).Plays c₁ (some err, after) c₂ out')
    (hlength : e.1.next ≤ (output s).length)
    (hsame : (output s').take e.1.next = (output s).take e.1.next) :
    (Relay.run (applyArchive root t) s').result = (.error err, after.tree) := by
  obtain ⟨-, -, hc₁, hwhole⟩ := (reads_readEntry stop).plays h.hands hc.holds hread
  obtain ⟨hentry, hcontent⟩ := readEntry_on hc.on hc.le hwhole
  obtain ⟨⟨front, hfront, hpos⟩, hcontent⟩ := hcontent e rfl
  dsimp only [Spot.whole] at hfront hpos hcontent
  -- the other archive has the same front, with its own rest behind it
  have hsplit : output s' = (output s).take e.1.next ++ (output s').drop e.1.next := by
    rw [← hsame, List.take_append_drop]
  obtain ⟨items', hf'⟩ := hf.cut (Nat.le_of_lt e.2.1) ((output s').drop e.1.next)
  rw [← hsplit] at hf'
  obtain ⟨d, hd, hrun⟩ := hf'.run h (within_start output hs')
  have hentry' := readEntry_take hentry (Nat.le_refl e.1.next) ((output s').drop e.1.next)
  rw [← hsplit] at hentry'
  obtain ⟨d₁, hread', hd₁, hwhole'⟩ :=
    hd.reads h (Nat.le_of_add_right_le (le_length_of_readEntry hentry')) hentry'
  have hleft : output d₁.reader
      = (output c₁.reader).take (e.1.next - c₁.position) ++ (output s').drop e.1.next :=
    congrArg (fun c => c.reader.left) hwhole'
  have hlen := congrArg List.length hfront
  rw [List.length_append] at hlen
  obtain ⟨d₂, o, happly'⟩ := applyEntry_front h hc₁ hd₁ (by omega) (by
    rw [hleft, List.take_append_of_le_length (by rw [List.length_take]; omega), List.take_take,
      Nat.min_eq_left (by omega)]) happly
  rw [applyArchive, hrun]
  exact result_of_fails hread' happly'

/-- What comes of a run that fails at the entry `e`, where those in front of it had come to `p`.
The entry is begun on their tree, which stands but for what it may have done before it failed.
What is behind the entry has no part in it.  The entry fails for its path just if that is barred,
and then it does nothing. -/
structure FailsAt (I : σ → Prop) (output : σ → Bytes) (archive : Bytes) (root : PathParts)
    (t : Tree) (p : Progress) (e : Entry) (err : LayerError) (run : Except LayerError Nat × Tree) : Prop where
  applies : ∃ after, Applies root e p (some err) after ∧ run = (.error err, after.tree)
  begun : Begun root e p run.2
  behind : Reader.Gives I output → e.next ≤ archive.length → ∀ s', I s' →
    (output s').take e.next = archive.take e.next →
    (Relay.run (applyArchive root t) s').result = run
  barred : Barred e.path ↔ Bars err
  nothing : Barred e.path → run.2 = p.tree ∧
    ∃ path cause, err = .extract path cause ∧ cause.fault.kind = .invalidData

theorem Follows.failsAt {s : σ} (hf : Follows root (output s) 0 { tree := t } items stop p)
    (ht : t.Closed) {c c₁ c₂ : Spot σ} (hc : Within I output (output s) stop c)
    {e : { e : Entry // Behind stop e.next }} {out out' : Bytes} {err : LayerError}
    {after : Progress} (hread : (readEntry stop).Plays c (some e) c₁ out)
    (happly : (applyEntry root e.1 p).Plays c₁ (some err, after) c₂ out') :
    FailsAt I output (output s) root t p e.1 err (.error err, after.tree) := by
  have happlies : Applies root e.1 p (some err) after := applies_of_run happly.1
  obtain ⟨hbarred, hbars⟩ := happlies.barred
  refine ⟨⟨after, happlies, rfl⟩, happlies.begun (hf.closed ht), fun h hlength s' hs' hsame => ?_,
    ⟨fun hb => ?_, hbars err rfl⟩, fun hb => ?_⟩
  · exact hf.result_congr h hs' hc hread happly hlength hsame
  all_goals obtain ⟨err', he, hb, hp⟩ := hbarred hb
  · exact Option.some.inj he ▸ hb
  · exact ⟨by rw [hp], Option.some.inj he ▸ hb.invalidData⟩

end Runs

/-- What comes of a run over the bytes that a reader hands out.  If it succeeds, no entry has a
barred path, and the result is how many entries there are.  If it fails, it does so behind some
first entries of the archive.  Alone, these would be applied to their end, and then either what is
behind them cannot be read, and they are all that was done, or the run fails at the next entry. -/
theorem failing_outcome {σ : Type} [Reader σ] {I : σ → Prop} {output : σ → Bytes}
    (h : Reader.Hands I output) {s : σ} (hs : I s) (root : PathParts) {t : Tree} (ht : t.Closed) :
    let archive := output s
    let entries := entriesFrom archive 0
    let run := (Relay.run (applyArchive root t) s).result
    (∀ n, run.1 = .ok n → n = entries.length ∧ ∀ x ∈ entries, ¬ Barred x.1.path) ∧
      ∀ err, run.1 = .error err → ∃ first place p, entries = first ++ entriesFrom archive place ∧
        (Relay.run (applyArchive root t) (Source.ofBytes (upTo archive place))).result
          = (.ok first.length, p.tree) ∧
        ((∃ f, err = .stream f ∧ run.2 = p.tree) ∨
          ∃ e, (entriesFrom archive place).head?.map Prod.fst = some e ∧
            FailsAt I output archive root t p e err run) := by
  intro archive entries run
  obtain ⟨items, stop, p, c, hf, hc, hends⟩ :=
    exists_follows h root { tree := t } (within_start output hs)
  have hentries : entries = items ++ entriesFrom archive stop := hf.entries
  generalize hrun : (Relay.run (applyEntries root 0 0 { tree := t }) s).result = r at hends
  have hrun : run = r := hrun
  rw [hrun]
  refine ⟨fun n hn => ?_, fun err herr => ⟨items, stop, p, hentries, hf.result_upTo, ?_⟩⟩
  · cases hends with
    | done hread =>
      cases hn
      rw [hentries, entriesFrom_of_stops (hc.stops h hread), List.append_nil, hf.count]
      exact ⟨Nat.zero_add _, hf.not_barred⟩
    | unread _ | failed _ _ => cases hn
  · cases hends with
    | done _ => cases herr
    | @unread f _ =>
      cases herr
      exact .inl ⟨f, rfl, rfl⟩
    | @failed e c₁ c₂ _ _ err' after hread happly =>
      cases herr
      obtain ⟨-, -, -, hwhole⟩ := (reads_readEntry stop).plays h hc.holds hread
      refine .inr ⟨e.1, ?_, hf.failsAt ht hc hread happly⟩
      rw [entriesFrom_of_plays (readEntry_on hc.on hc.le hwhole).1]
      rfl

/-- A file, and another one of the same name that is cut off in front of its content. -/
def shortArchive : Bytes :=
  plainMember .regular (ascii "a") (ascii "x") 0o644
    ++ (plainMember .regular (ascii "a") (ascii "y") 0o644).take 512

/-- The run fails at the second file, and by then there is nothing left of the first one.  So what
earlier entries did is not safe from the one that fails. -/
theorem short_entry_replaces_file :
    ¬ ∀ (t : Tree) (root : PathParts) (data : Bytes) (earlier : List Step) (x : Step), t.Closed →
      archiveHistory root t (Source.ofBytes data) = earlier ++ [x] → x.failure ≠ none →
      ∀ l, Own earlier l → x.before.tree.lookup l ≠ none → x.Keeps l := by
  intro h
  have hfacts : (archiveHistory [ascii "root"] freshRoot (Source.ofBytes shortArchive)).map
      (fun x => (x.entry.path, x.failure.isSome, x.before.tree.lookup [ascii "root", ascii "a"],
        x.after.tree.lookup [ascii "root", ascii "a"]))
        = [(ascii "a", false, none,
            some (.file { id := 0, data := ascii "x", mtime := some 1 })),
          (ascii "a", true, some (.file { id := 0, data := ascii "x", mtime := some 1 }),
            some (.file { id := 1 }))] := by decide +kernel
  obtain ⟨y, _, hy, hfirst, hrest⟩ := List.map_eq_cons_iff.mp hfacts
  obtain ⟨x, rfl, hsecond⟩ := List.map_eq_singleton_iff.mp hrest
  simp only [Prod.mk.injEq] at hfirst hsecond
  obtain ⟨hpath, -, hnone, hsome⟩ := hfirst
  obtain ⟨-, hfails, hbefore, hafter⟩ := hsecond
  have hown : Own [y] [ascii "root", ascii "a"] := by
    refine ⟨[], y, [], rfl, ⟨by rw [hpath]; decide, fun hkeep => ?_⟩, by simp⟩
    rw [Step.Keeps, hnone, hsome] at hkeep
    cases hkeep
  have hsame := h freshRoot [ascii "root"] shortArchive [y] x (by decide) hy
    (Option.isSome_iff_ne_none.mp hfails) [ascii "root", ascii "a"] hown (by rw [hbefore]; simp)
  rw [Step.Keeps, hbefore, hafter] at hsame
  cases hsame

/-- Three files, the second of them with a path that leads upwards. -/
def upwardArchive : Bytes :=
  emptyMember .regular (ascii "c") [] ++ emptyMember .regular (ascii "x/../b") []
    ++ emptyMember .regular (ascii "d") [] ++ trailer

/-- The first of the files is there, and neither of the others is. -/
theorem upward_entry_ends_run :
    ∃ (first : List (Entry × Bytes)) (place : Nat) (left : Tree),
      (Relay.run (applyArchive [ascii "root"] twoFiles)
          (Source.ofBytes (upTo upwardArchive place))).result = (.ok first.length, left) ∧
      (Relay.run (applyArchive [ascii "root"] twoFiles) (Source.ofBytes upwardArchive)).result
        = (.error (.extract (ascii "x/../b") .escapes), left) ∧
      left.lookup [ascii "root", ascii "c"] ≠ none ∧
      left.lookup [ascii "root", ascii "x"] = none ∧
      left.lookup [ascii "root", ascii "d"] = none := by
  have herr : (Relay.run (applyArchive [ascii "root"] twoFiles)
      (Source.ofBytes upwardArchive)).result.1
        = .error (.extract (ascii "x/../b") .escapes) := by
    decide +kernel
  have hleft : ∀ left, (Relay.run (applyArchive [ascii "root"] twoFiles)
        (Source.ofBytes upwardArchive)).result.2 = left →
      left.lookup [ascii "root", ascii "c"] ≠ none ∧
        left.lookup [ascii "root", ascii "x"] = none ∧
        left.lookup [ascii "root", ascii "d"] = none := by
    rintro _ rfl
    decide +kernel
  have honly := Source.onlyData_ofBytes upwardArchive
  have hremaining : (Source.ofBytes upwardArchive).remaining = upwardArchive := List.append_nil _
  have houtcome := failing_outcome Source.hands honly.steady [ascii "root"]
    (t := twoFiles) (by decide)
  rw [hremaining] at houtcome
  obtain ⟨first, place, p, -, halone, ⟨f, he, -⟩ | ⟨e, -, hfails⟩⟩ := houtcome.2 _ herr
  · cases he
  · have htree := (hfails.nothing (hfails.barred.mpr (.escapes _))).1
    exact ⟨first, place, p.tree, halone, Prod.ext herr htree, hleft _ htree⟩

end Extract
end ContainerLayer
