import ContainerLayer.Proofs.Filter.Draining
import ContainerLayer.Proofs.Filter.Rendering

/-
What a filter run amounts to.

A run that succeeds reads the items of its archive, decides about each of them once and in
order, and writes a rendering of every item that is kept, one behind the other.  Here the
decision may change entries in any way that leaves them writable, with the size they have.
-/

namespace ContainerLayer

open Tar Tape

/-- The second entry differs from the first in its path, and in its link name if it has one. -/
structure EntryHeader.Relabeled (e e' : EntryHeader) : Prop where
  header : e'.header = e.header
  attributes : e'.attributes = e.attributes
  size : e'.size = e.size
  target : e'.linkName.isSome = e.linkName.isSome

/-- The decision does nothing to entries but keep, drop and relabel them. -/
def Decision.Relabels {δ : Type} (decide : Decision δ) : Prop :=
  ∀ d (e : EntryHeader), e.Relabeled (decide d e).1.2

/-- The second entry differs from the first in its path, and in its target if it is a link
with a target. -/
structure EntryHeader.Renamed (e e' : EntryHeader) : Prop where
  header : e'.header = e.header
  attributes : e'.attributes = e.attributes
  size : e'.size = e.size
  target : e'.linkName.isSome = e.linkName.isSome
  other : e.isLink = false → e'.linkName = e.linkName

/-- The decision does nothing but keep, drop and rename entries. -/
def Decision.Renames {δ : Type} (decide : Decision δ) : Prop :=
  ∀ d (e : EntryHeader), e.Renamed (decide d e).1.2

/-- The second entry has the size of the first, and can be written if the first can. -/
structure EntryHeader.Revised (e e' : EntryHeader) : Prop where
  size : e'.size = e.size
  proper : e.Proper → e'.Proper

/-- The decision leaves entries with the size they have, and writable if they are. -/
def Decision.Revises {δ : Type} (decide : Decision δ) : Prop :=
  ∀ d (e : EntryHeader), e.Revised (decide d e).1.2

theorem Decision.Renames.relabels {δ : Type} {decide : Decision δ} (h : decide.Renames) :
    decide.Relabels :=
  fun d e => ⟨(h d e).header, (h d e).attributes, (h d e).size, (h d e).target⟩

namespace Filter

variable {δ : Type}

/-- The items that are kept, under the names that they are kept under. -/
def kept (decide : Decision δ) (d : δ) : List Item → List Item
  | [] => []
  | x :: xs =>
    let r := decide d x.entry
    if r.1.1 then ⟨r.1.2, x.content⟩ :: kept decide r.2 xs else kept decide r.2 xs

/-- The state of the decision after one call for each item, in order. -/
def decided (decide : Decision δ) (d : δ) (items : List Item) : δ :=
  items.foldl (fun d x => (decide d x.entry).2) d

/-- Renderings of items, one behind the other. -/
inductive RenderedAll : List Item → Bytes → Prop
  | nil : RenderedAll [] []
  | cons {x : Item} {xs : List Item} {o out : Bytes} (h : x.entry.Rendered x.content o)
      (hs : RenderedAll xs out) : RenderedAll (x :: xs) (o ++ out)

theorem RenderedAll.det {xs : List Item} {out out' : Bytes} (h : RenderedAll xs out)
    (h' : RenderedAll xs out') : out = out' := by
  induction h generalizing out' with
  | nil =>
    cases h'
    rfl
  | cons h hs ih =>
    cases h' with
    | cons k ks => rw [h.det k, ih ks]

/-- The item can be written so that reading gives it back. -/
structure Item.Proper (x : Item) : Prop where
  entry : x.entry.Proper
  length : x.content.length = x.entry.size

end Filter

theorem EntryHeader.Relabeled.proper {e e' : EntryHeader} (h : e.Relabeled e') (he : e.Proper) :
    e'.Proper := by
  have hx : e'.extensions = e.extensions := by rw [extensions, h.attributes]; rfl
  constructor
  · rw [h.header]
    exact he.member
  · rw [h.attributes]
    exact he.attributes
  · intro hn
    have ht := h.target
    rw [hn] at ht
    rw [h.header]
    exact he.target (by simpa using ht.symm)
  · rw [h.header, hx]
    exact he.adopted

theorem EntryHeader.Relabeled.revised {e e' : EntryHeader} (h : e.Relabeled e') : e.Revised e' :=
  ⟨h.size, h.proper⟩

theorem Decision.Relabels.revises {δ : Type} {decide : Decision δ} (h : decide.Relabels) :
    decide.Revises := fun d e => (h d e).revised

namespace Filter

variable {δ : Type} {σ : Type} [Reader σ] {I : σ → Prop} {output : σ → Bytes}
variable (h : Reader.Hands I output)

/-- What comes of handling an entry with the content `bytes`. -/
def Handled (keep : Bool) (e : EntryHeader) (bytes out : Bytes) : Prop :=
  if keep then e.Rendered bytes out else out = []

include h in
theorem handle_plays {keep : Bool} {e : EntryHeader} {content : Content} {c c' : Spot σ} {u : Unit}
    {out : Bytes} (hc : I c.reader) (ht : Content.total content ≤ e.size)
    (hp : (handle keep e content).Plays c u c' out) :
    ∃ bytes, bytes.length = e.size ∧ e.size = Content.total content ∧ Handled keep e bytes out
      ∧ I c'.reader
      ∧ Content.expand content (output c.reader) = (bytes, output c'.reader)
      ∧ c'.position + (output c'.reader).length = c.position + (output c.reader).length := by
  unfold handle at hp
  unfold Handled
  cases keep with
  | true => exact e.append_plays h hc ht hp
  | false => exact e.dropContent_plays h hc ht hp

/-- How the filter comes to see an entry: its records stand in front of it, or it is made
of records itself, which are then read from its content. -/
theorem ofEntry_plays {e : Entry} {header : EntryHeader} {content : Content} {c c' : Spot σ}
    {out : Bytes} (hp : (EntryHeader.ofEntry e).Plays c (header, content) c' out) :
    out = []
      ∧ (EntryHeader.seen e = .ok header ∧ content = e.content ∧ c' = c
        ∨ content = [] ∧ e.extensions = none ∧ ∃ data as,
          (Content.collect e.content).Plays c data c' []
            ∧ EntryHeader.attributesOf (Pax.records data) = .ok as
            ∧ header = ⟨e.path, e.linkName, e.header, as, e.size⟩) := by
  obtain ⟨⟨data, content₁⟩, c₁, o₁, o₂, h₁, h₂, rfl⟩ := plays_bind_iff.mp hp
  dsimp only at h₂
  split at h₂
  · exact absurd h₂ not_plays_throw
  rename_i as has
  obtain ⟨e', rfl, rfl⟩ := plays_pure_iff.mp h₂
  cases e'
  unfold EntryHeader.extensionsOf at h₁
  have hseen : ∀ {as}, EntryHeader.attributesOf ((e.extensions.map Pax.records).getD []) = .ok as →
      EntryHeader.seen e = .ok ⟨e.path, e.linkName, e.header, as, e.size⟩ := by
    intro as has
    rw [EntryHeader.seen, has]
    rfl
  split at h₁
  · rename_i d hx
    obtain ⟨e', rfl, rfl⟩ := plays_pure_iff.mp h₁
    cases e'
    refine ⟨rfl, .inl ⟨hseen ?_, rfl, rfl⟩⟩
    rw [hx]
    exact has
  · rename_i hx
    split at h₁
    · obtain ⟨d, c₂, o₃, o₄, h₃, h₄, rfl⟩ := plays_bind_iff.mp h₁
      obtain ⟨e', rfl, rfl⟩ := plays_pure_iff.mp h₄
      cases e'
      obtain ⟨-, rfl⟩ := (Content.reads_collect e.content).gets.of_plays h₃
      exact ⟨rfl, .inr ⟨rfl, hx, d, as, h₃, has, rfl⟩⟩
    · obtain ⟨e', rfl, rfl⟩ := plays_pure_iff.mp h₁
      cases e'
      refine ⟨rfl, .inl ⟨hseen ?_, rfl, rfl⟩⟩
      rw [hx]
      exact has

theorem readItem_plays {e : Entry} {entry : EntryHeader} {bytes : Bytes} {d d' : Spot Whole}
    (hseen : EntryHeader.seen e = .ok entry) (hlen : bytes.length = e.size)
    (hp : (Content.collect e.content).Plays d bytes d' []) :
    (readItem e).Plays d ⟨entry, bytes⟩ d' [] := by
  unfold readItem
  rw [hseen]
  refine hp.bind_nil ?_
  rw [if_pos hlen]
  exact plays_pure _ d'

/-- What it takes for an entry to be read as an item. -/
theorem readItem_plays_iff {e : Entry} {x : Item} {c c' : Spot Whole} {out : Bytes} :
    (readItem e).Plays c x c' out ↔
      out = [] ∧ EntryHeader.seen e = .ok x.entry
        ∧ Content.expand e.content c.reader.left = (x.content, c'.reader.left)
        ∧ x.content.length = e.size
        ∧ c'.position + c'.reader.left.length = c.position + c.reader.left.length := by
  obtain ⟨position, hcollect, hpos⟩ :=
    Content.collect_plays e.content c.position c.reader.left
  constructor
  · intro hp
    unfold readItem at hp
    split at hp
    · exact absurd hp not_plays_throw
    rename_i entry hseen
    obtain ⟨bytes, c₁, o₁, o₂, h₁, h₂, rfl⟩ := plays_bind_iff.mp hp
    obtain ⟨rfl, rfl, rfl⟩ := hcollect.det h₁
    split at h₂
    · rename_i hlength
      obtain ⟨rfl, rfl, rfl⟩ := plays_pure_iff.mp h₂
      exact ⟨rfl, hseen, rfl, hlength, hpos⟩
    · exact absurd h₂ not_plays_throw
  · intro h
    obtain ⟨rfl, hseen, hexpand, hlength, hlast⟩ := h
    rw [hexpand] at hcollect hpos
    dsimp only at hcollect hpos
    rw [show position = c'.position by omega] at hcollect
    exact readItem_plays hseen hlength hcollect

include h in
/-- An entry with records in front of it, or none, is read as an item while its content is
handled. -/
theorem content_plays {e : Entry} {keep : Bool} {header header' : EntryHeader} {c c' : Spot σ}
    {u : Unit} {out : Bytes} (hsound : e.Sound) (hseen : EntryHeader.seen e = .ok header)
    (hr : header.Revised header') (hc : I c.reader)
    (hp : (handle keep header' e.content).Plays c u c' out) :
    ∃ bytes, (readItem e).Plays (c.whole output) ⟨header, bytes⟩ (c'.whole output) []
      ∧ I c'.reader ∧ Item.Proper ⟨header, bytes⟩ ∧ Handled keep header' bytes out := by
  obtain ⟨hproper, hsize⟩ := EntryHeader.proper_seen hsound hseen
  have hsize' : header'.size = e.size := hr.size.trans hsize
  have ht : Content.total e.content ≤ header'.size :=
    Nat.le_of_eq (hsound.total.trans hsize'.symm)
  obtain ⟨bytes, hlen, -, hhandled, hc', hexp, hpos⟩ := handle_plays h hc ht hp
  have hlen : bytes.length = e.size := hlen.trans hsize'
  exact ⟨bytes, readItem_plays hseen hlen (Content.collect_of_expand hexp hpos), hc',
    ⟨hproper, hlen.trans hsize.symm⟩, hhandled⟩

include h in
/-- An entry whose content is read as records has no content, or else handling it fails. -/
theorem records_plays {e : Entry} {keep : Bool} {data : Bytes} {as : List Attribute}
    {header' : EntryHeader} {c₁ c₂ c₃ : Spot σ} {u : Unit} {out : Bytes} (hsound : e.Sound)
    (hx : e.extensions = none) (hc : I c₁.reader)
    (hcollect : (Content.collect e.content).Plays c₁ data c₂ [])
    (has : EntryHeader.attributesOf (Pax.records data) = .ok as)
    (hr : EntryHeader.Revised ⟨e.path, e.linkName, e.header, as, e.size⟩ header')
    (hp : (handle keep header' []).Plays c₂ u c₃ out) :
    (readItem e).Plays (c₁.whole output) ⟨⟨e.path, e.linkName, e.header, as, e.size⟩, []⟩
        (c₃.whole output) []
      ∧ I c₃.reader ∧ Item.Proper ⟨⟨e.path, e.linkName, e.header, as, e.size⟩, []⟩
      ∧ Handled keep header' [] out := by
  obtain ⟨-, -, hc₂, hwhole⟩ := (Content.reads_collect e.content).plays h hc hcollect
  obtain ⟨bytes, hlen, hzero, hhandled, hc₃, hexp, hpos⟩ := handle_plays h hc₂ (Nat.zero_le _) hp
  have hzero : header'.size = 0 := hzero
  have hsize : e.size = 0 := hr.size.symm.trans hzero
  have hbytes : bytes = [] := List.eq_nil_of_length_eq_zero (by omega)
  subst hbytes
  have hspot : c₂.whole output = c₃.whole output := by
    have hout : output c₂.reader = output c₃.reader := congrArg Prod.snd hexp
    rw [hout] at hpos
    rw [Spot.whole, Spot.whole, hout, show c₂.position = c₃.position by omega]
  have hdata : data = [] := by
    obtain ⟨position, hplays, -⟩ := Content.collect_plays e.content c₁.position (output c₁.reader)
    obtain ⟨e', -, -⟩ := hplays.det hwhole
    have hle := Content.length_expand_le e.content (output c₁.reader)
    rw [e', hsound.total, hsize] at hle
    exact List.eq_nil_of_length_eq_zero (by omega)
  subst hdata
  cases has
  have hseen : EntryHeader.seen e = .ok ⟨e.path, e.linkName, e.header, [], e.size⟩ := by
    rw [EntryHeader.seen, hx]
    rfl
  rw [hspot] at hwhole
  exact ⟨readItem_plays hseen hsize.symm hwhole, hc₃,
    ⟨(EntryHeader.proper_seen hsound hseen).1, hsize.symm⟩, hhandled⟩

include h in
/-- An entry that was read and handled is read as an item, up to the same spot. -/
theorem entry_plays {start : Nat} {keep : Bool} {header header' : EntryHeader} {content : Content}
    {next : { next : Nat // Behind start next }} {c c₁ c₂ : Spot σ} {u : Unit} {o₁ o₂ : Bytes}
    (hc : I c.reader) (hn : (nextEntry start).Plays c (some (header, content, next)) c₁ o₁)
    (hr : header.Revised header') (hh : (handle keep header' content).Plays c₁ u c₂ o₂) :
    ∃ (e : { e : Entry // Behind start e.next }) (d : Spot Whole) (bytes : Bytes),
      (Tar.readEntry start).Plays (c.whole output) (some e) d []
        ∧ (readItem e.1).Plays d ⟨header, bytes⟩ (c₂.whole output) []
        ∧ next.1 = e.1.next ∧ I c₂.reader ∧ o₁ = []
        ∧ Item.Proper ⟨header, bytes⟩ ∧ Handled keep header' bytes o₂ := by
  obtain ⟨r, c₀, o₃, o₄, h₁, h₂, rfl⟩ := plays_bind_iff.mp hn
  obtain ⟨hsound, rfl, hc₀, hentry⟩ := (reads_readEntry start).plays h hc h₁
  cases r with
  | none =>
    obtain ⟨e, -⟩ := plays_pure_iff.mp h₂
    cases e
  | some e =>
    have hsound := hsound e rfl
    obtain ⟨⟨header₁, content₁⟩, c₃, o₅, o₆, h₃, h₄, rfl⟩ := plays_bind_iff.mp h₂
    obtain ⟨e', rfl, rfl⟩ := plays_pure_iff.mp h₄
    cases e'
    obtain ⟨rfl, hcase⟩ := ofEntry_plays h₃
    rcases hcase with ⟨hseen, rfl, rfl⟩ | ⟨rfl, hx, data, as, hcollect, has, rfl⟩
    · obtain ⟨bytes, hitem, hc₂, hproper, hhandled⟩ := content_plays h hsound hseen hr hc₀ hh
      exact ⟨e, _, bytes, hentry, hitem, rfl, hc₂, rfl, hproper, hhandled⟩
    · obtain ⟨hitem, hc₂, hproper, hhandled⟩ := records_plays h hsound hx hc₀ hcollect has hr hh
      exact ⟨e, _, [], hentry, hitem, rfl, hc₂, rfl, hproper, hhandled⟩

/-- What `written` is after a run that kept and skipped some of the items. -/
structure Transcript (decide : Decision δ) (d : δ) (items : List Item) (stats stats' : FilterStats)
    (d' : δ) (written : Bytes) : Prop where
  state : d' = decided decide d items
  kept : stats'.kept = stats.kept + (Filter.kept decide d items).length
  counted : stats'.kept + stats'.skipped = stats.kept + stats.skipped + items.length
  proper : ∀ x ∈ Filter.kept decide d items, x.Proper
  rendered : RenderedAll (Filter.kept decide d items) written

/-- One more entry in front of the others. -/
theorem Transcript.cons {decide : Decision δ} {d d' : δ} {entry : EntryHeader} {bytes : Bytes}
    {items : List Item} {stats stats' : FilterStats} {o out : Bytes} (hr : decide.Revises)
    (hx : Item.Proper ⟨entry, bytes⟩)
    (ho : Handled (decide d entry).1.1 (decide d entry).1.2 bytes o)
    (h : Transcript decide (decide d entry).2 items
      (if (decide d entry).1.1 then { stats with kept := stats.kept + 1 }
        else { stats with skipped := stats.skipped + 1 }) stats' d' out) :
    Transcript decide d (⟨entry, bytes⟩ :: items) stats stats' d' (o ++ out) := by
  obtain ⟨hstate, hkept, hcounted, hproper, hrendered⟩ := h
  have hrevised := hr d entry
  unfold Handled at ho
  cases hk : (decide d entry).1.1 with
  | true =>
    have hlist : Filter.kept decide d (⟨entry, bytes⟩ :: items)
        = ⟨(decide d entry).1.2, bytes⟩ :: Filter.kept decide (decide d entry).2 items := by
      simp only [Filter.kept, hk, if_true]
    simp only [hk, if_true] at hkept hcounted ho
    constructor
    · exact hstate
    · rw [hlist, List.length_cons]
      omega
    · rw [List.length_cons]
      omega
    · rw [hlist]
      intro x hmem
      rcases List.mem_cons.mp hmem with rfl | hmem
      · exact ⟨hrevised.proper hx.entry, hx.length.trans hrevised.size.symm⟩
      · exact hproper x hmem
    · rw [hlist]
      exact .cons ho hrendered
  | false =>
    have hlist : Filter.kept decide d (⟨entry, bytes⟩ :: items)
        = Filter.kept decide (decide d entry).2 items := by
      simp only [Filter.kept, hk, Bool.false_eq_true, if_false]
    simp only [hk, Bool.false_eq_true, if_false] at hkept hcounted ho
    subst ho
    constructor
    · exact hstate
    · rw [hlist]
      exact hkept
    · rw [List.length_cons]
      omega
    · rw [hlist]
      exact hproper
    · rw [hlist]
      exact hrendered

theorem run_bind {α β : Type} (p : Relay α) (f : α → Relay β) (s : σ) :
    (Relay.run (p >>= f) s).result
        = (Relay.run (f (Relay.run p s).result) (Relay.run p s).rest).result
      ∧ (Relay.run (p >>= f) s).written = (Relay.run p s).written
        ++ (Relay.run (f (Relay.run p s).result) (Relay.run p s).rest).written
      ∧ (Relay.run (p >>= f) s).rest
        = (Relay.run (f (Relay.run p s).result) (Relay.run p s).rest).rest := by
  refine ⟨Relay.result_run_bind p f s, ?_, Relay.rest_run_bind p f s⟩
  show (Relay.run (p.bind f) s).written = _
  rw [Relay.run_bind]
  simp [Relay.Outcome.written]

/-- Where there is no entry, the loop ends. -/
theorem run_copyEntries_end {decide : Decision δ} {start : Nat} {c c₁ : Spot σ}
    {stats : FilterStats} {d : δ} {out : Bytes} (hn : (nextEntry start).Plays c none c₁ out) :
    (Relay.run (copyEntries decide start c.position stats d) c.reader).result = (.ok stats, d)
      ∧ (Relay.run (copyEntries decide start c.position stats d) c.reader).written = out
      ∧ (Relay.run (copyEntries decide start c.position stats d) c.reader).rest = c₁.reader := by
  obtain ⟨hresult, hrest, hwritten⟩ := hn
  rw [copyEntries]
  simp only [run_bind, hresult, hrest, hwritten]
  exact ⟨rfl, List.append_nil out, rfl⟩

/-- After an entry, the loop goes on behind it. -/
theorem run_copyEntries_entry {decide : Decision δ} {start : Nat} {c c₁ c₂ : Spot σ}
    (stats : FilterStats) {d : δ} {header : EntryHeader} {content : Content}
    {next : { next : Nat // Behind start next }} {o₁ o₂ : Bytes}
    (hn : (nextEntry start).Plays c (some (header, content, next)) c₁ o₁)
    (hh : (handle (decide d header).1.1 (decide d header).1.2 content).Plays c₁ () c₂ o₂) :
    let p := copyEntries decide next.1 c₂.position
      (if (decide d header).1.1 then { stats with kept := stats.kept + 1 }
        else { stats with skipped := stats.skipped + 1 }) (decide d header).2
    (Relay.run (copyEntries decide start c.position stats d) c.reader).result
        = (Relay.run p c₂.reader).result
      ∧ (Relay.run (copyEntries decide start c.position stats d) c.reader).written
        = o₁ ++ o₂ ++ (Relay.run p c₂.reader).written
      ∧ (Relay.run (copyEntries decide start c.position stats d) c.reader).rest
        = (Relay.run p c₂.reader).rest := by
  intro p
  obtain ⟨hresult, hrest, hwritten⟩ := hn
  obtain ⟨hresult', hrest', hwritten'⟩ := hh
  rw [copyEntries]
  simp only [run_bind, hresult, hrest, hwritten, hresult', hrest', hwritten']
  exact ⟨rfl, (List.append_assoc _ _ _).symm, rfl⟩

/-- What a loop that succeeds does at one entry. -/
theorem copyEntries_step {decide : Decision δ} {start : Nat} {c : Spot σ}
    {stats stats' : FilterStats} {d d' : δ}
    (he : (Relay.run (copyEntries decide start c.position stats d) c.reader).result
      = (.ok stats', d')) :
    (∃ c₁, stats' = stats ∧ d' = d ∧ (nextEntry start).Plays c none c₁
          (Relay.run (copyEntries decide start c.position stats d) c.reader).written
        ∧ (Relay.run (copyEntries decide start c.position stats d) c.reader).rest = c₁.reader)
    ∨ ∃ header content next c₁ c₂ o₁ o₂,
        (nextEntry start).Plays c (some (header, content, next)) c₁ o₁
        ∧ (handle (decide d header).1.1 (decide d header).1.2 content).Plays c₁ () c₂ o₂
        ∧ let p := copyEntries decide next.1 c₂.position
            (if (decide d header).1.1 then { stats with kept := stats.kept + 1 }
              else { stats with skipped := stats.skipped + 1 }) (decide d header).2
          (Relay.run p c₂.reader).result = (.ok stats', d')
          ∧ (Relay.run (copyEntries decide start c.position stats d) c.reader).written
            = o₁ ++ o₂ ++ (Relay.run p c₂.reader).written
          ∧ (Relay.run (copyEntries decide start c.position stats d) c.reader).rest
            = (Relay.run p c₂.reader).rest := by
  cases hn : (Relay.run ((nextEntry start).run c.position) c.reader).result with
  | error f =>
    rw [copyEntries] at he
    simp only [run_bind, hn] at he
    cases he
  | ok r =>
    obtain ⟨r, position⟩ := r
    obtain ⟨c₁, hpos, hplays⟩ : ∃ c₁ : Spot σ, c₁.position = position
        ∧ (nextEntry start).Plays c r c₁ _ := ⟨⟨position, _⟩, rfl, hn, rfl, rfl⟩
    subst hpos
    cases r with
    | none =>
      obtain ⟨hresult, hwritten, hrest⟩ := run_copyEntries_end hplays
      obtain ⟨hstats, rfl⟩ := Prod.mk.inj (he.symm.trans hresult)
      exact .inl ⟨c₁, Except.ok.inj hstats, rfl, hwritten ▸ hplays, hrest⟩
    | some r =>
      obtain ⟨header, content, next⟩ := r
      cases hh : (Relay.run ((handle (decide d header).1.1 (decide d header).1.2 content).run
          c₁.position) c₁.reader).result with
      | error f =>
        rw [copyEntries] at he
        simp only [run_bind, hn, hplays.2.1, hh] at he
        cases he
      | ok r =>
        obtain ⟨⟨⟩, position'⟩ := r
        have hplays' : (handle (decide d header).1.1 (decide d header).1.2 content).Plays c₁ ()
            ⟨position', _⟩ _ := ⟨hh, rfl, rfl⟩
        obtain ⟨hresult, hwritten, hrest⟩ := run_copyEntries_entry stats hplays hplays'
        exact .inr ⟨header, content, next, c₁, _, _, _, hplays, hplays', hresult.symm.trans he,
          hwritten, hrest⟩

include h in
/-- Copying entries that succeeds has read all items from there on. -/
theorem copyEntries_plays {decide : Decision δ} (hr : decide.Revises) (start : Nat) {c : Spot σ}
    {stats stats' : FilterStats} {d d' : δ} (hc : I c.reader)
    (he : (Relay.run (copyEntries decide start c.position stats d) c.reader).result
      = (.ok stats', d')) :
    ∃ items position left,
      (list start).Plays (c.whole output) items (⟨position, ⟨left⟩⟩ : Spot Whole) []
        ∧ Transcript decide d items stats stats' d'
            (Relay.run (copyEntries decide start c.position stats d) c.reader).written := by
  induction hd : Tar.limit - start using Nat.strongRecOn generalizing start c stats d with
  | ind m ih =>
    rcases copyEntries_step he with ⟨c₁, rfl, rfl, hn, -⟩ |
      ⟨header, content, next, c₁, c₂, o₁, o₂, hn, hh, hrest, hw, -⟩
    · obtain ⟨r, c₀, o₁, o₂, h₁, h₂, ho⟩ := plays_bind_iff.mp hn
      cases r with
      | none =>
        obtain ⟨-, -, rfl⟩ := plays_pure_iff.mp h₂
        obtain ⟨-, rfl, -, hentry⟩ := (reads_readEntry start).plays h hc h₁
        rw [ho]
        refine ⟨[], c₀.position, output c₀.reader, ?_, ⟨rfl, rfl, rfl, by simp [kept], .nil⟩⟩
        rw [list]
        exact hentry.bind_nil (plays_pure _ _)
      | some e =>
        obtain ⟨_, _, _, _, -, h₃, -⟩ := plays_bind_iff.mp h₂
        cases (plays_pure_iff.mp h₃).1
    · obtain ⟨e, w, bytes, hentry, hitem, hnext, hc₂, rfl, hx, ho⟩ :=
        entry_plays h hc hn (hr d header) hh
      have h₁ := next.2.1
      have h₂ := next.2.2
      obtain ⟨items, position, left, hlist, ht⟩ := ih _ (by omega) next.1 hc₂ hrest rfl
      rw [hw]
      rw [hnext] at hlist
      refine ⟨⟨header, bytes⟩ :: items, position, left, ?_, ?_⟩
      · rw [list]
        refine hentry.bind_nil (hitem.bind_nil ?_)
        exact hlist.bind_nil (plays_pure _ _)
      · exact Transcript.cons hr hx ho ht

include h in
/-- A filter that succeeds has read its archive to the end, and has written the items it
keeps with a trailer behind them. -/
theorem produce_transcript_of_revises {decide : Decision δ} (hr : decide.Revises) {s : σ}
    (hs : I s) {stats : FilterStats} {d d' : δ}
    (he : (Relay.run (produce decide d) s).result = (.ok stats, d')) :
    ∃ items out, Lists (⟨output s⟩ : Whole) items ∧ Transcript decide d items {} stats d' out
      ∧ (Relay.run (produce decide d) s).written = out ++ trailer := by
  have hcopy := (result_produce decide d s).symm.trans he
  obtain ⟨items, position, left, hlist, ht⟩ :=
    copyEntries_plays h hr 0 (c := ⟨0, s⟩) hs hcopy
  exact ⟨items, _, ⟨position, hlist.1⟩, ht,
    (written_produce decide d s).1 stats (congrArg Prod.fst he)⟩

include h in
theorem produce_transcript {decide : Decision δ} (hr : decide.Renames) {s : σ} (hs : I s)
    {stats : FilterStats} {d d' : δ}
    (he : (Relay.run (produce decide d) s).result = (.ok stats, d')) :
    ∃ items out, Lists (⟨output s⟩ : Whole) items ∧ Transcript decide d items {} stats d' out
      ∧ (Relay.run (produce decide d) s).written = out ++ trailer :=
  produce_transcript_of_revises h hr.relabels.revises hs he

end Filter
end ContainerLayer
