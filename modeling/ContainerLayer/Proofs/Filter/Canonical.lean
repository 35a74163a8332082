import ContainerLayer.Proofs.Filter.Copying
import ContainerLayer.Proofs.Filter.Faithful

/-
Filtered archives that are filtered again.

What a filter writes for an entry is read as an entry that is written in the same way, byte for
byte: its names are spelled as they are written, its records and its content are the same, and
its header already has all that is put into it.  So a filter that keeps everything hands on the
output of a filter as it is (`output_canonical`).
-/

namespace ContainerLayer

open Tar Tape

/-- The decision keeps every entry, and leaves it as it is. -/
def Decision.KeepsAll {δ : Type} (decide : Decision δ) : Prop :=
  ∀ d e, (decide d e).1 = (true, e)

namespace Filter

/-- Writing the item once more as it comes back changes nothing. -/
structure Item.Settled (x : Item) : Prop where
  kind : x.entry.header.kind ≠ .sparse
  names : x.entry.Settled
  lasting : x.Lasting

theorem Item.Carried.lasting {x y : Item} (h : x.Carried y) (hx : x.Lasting) : y.Lasting := by
  intro hkind hnone
  have hk : y.entry.header.kind = x.entry.header.kind :=
    h.fields.kind (x.entry.apart_setFields (by decide))
  rw [hk] at hkind
  rw [h.attributes] at hnone
  rw [h.content, hx hkind hnone, ite_self]

section Gives

variable {δ σ : Type} [Reader σ] {I : σ → Prop} {output : σ → Bytes} (h : Reader.Gives I output)

include h in
/-- Copying the renderings of items gives these renderings. -/
theorem copyEntries_renderedAll {decide : Decision δ} (hkeep : decide.KeepsAll) {xs : List Item}
    {out : Bytes} (hr : RenderedAll xs out) (hx : ∀ x ∈ xs, x.Proper ∧ x.Settled) {start : Nat}
    {c : Spot σ} (hc : I c.reader) (ha : Ahead (c.whole output) start (out ++ trailer))
    (hl : start + out.length < limit) (stats : FilterStats) (d : δ) :
    let o := Relay.run (copyEntries decide start c.position stats d) c.reader
    o.result.1 = .ok { stats with kept := stats.kept + xs.length } ∧ o.written = out := by
  induction hr generalizing start c stats d with
  | nil =>
    obtain ⟨e, hend⟩ := readEntry_plays_trailer ha
    obtain ⟨c', hplays, -, -⟩ := (reads_readEntry start).of_whole h hc hend
    have hnext : (nextEntry start).Plays c none c' [] := hplays.bind_nil (plays_pure none c')
    exact ⟨congrArg Prod.fst (run_copyEntries_end hnext).1, (run_copyEntries_end hnext).2.1⟩
  | @cons x xs o out hrendered hs ih =>
    obtain ⟨hproper, hsettled⟩ := hx x List.mem_cons_self
    rw [List.append_assoc] at ha
    rw [List.length_append] at hl
    obtain ⟨y, hfinds, hcarried, hagain⟩ := rendered_found hproper.entry hrendered hproper.length ha
      (by omega) fun hk => absurd hk hsettled.kind
    obtain ⟨content, next, c₁, c₂, hnext, hhandle, hstop, hc₂, ha₂⟩ := hfinds.copies h hc
      (hcarried.lasting hsettled.lasting) (hagain hsettled.names)
    have hdecided := hkeep d y.entry
    have hhandle :
        (handle (decide d y.entry).1.1 (decide d y.entry).1.2 content).Plays c₁ () c₂ o := by
      rw [hdecided]
      exact hhandle
    have hstep := run_copyEntries_entry stats hnext hhandle
    simp only [hdecided, if_true] at hstep
    rw [← hstop] at ha₂
    obtain ⟨hresult, hwritten⟩ := ih (fun z hz => hx z (List.mem_cons_of_mem x hz)) hc₂ ha₂
      (by omega) { stats with kept := stats.kept + 1 } (decide d y.entry).2
    intro o'
    refine ⟨(congrArg Prod.fst hstep.1).trans (hresult.trans ?_), hstep.2.1.trans ?_⟩
    · rw [List.length_cons, Nat.add_right_comm, Nat.add_assoc]
    · rw [List.nil_append, hwritten]

end Gives

section Hands

variable {δ ε σ τ : Type} [Reader σ] [Reader τ]
variable {I : σ → Prop} {output : σ → Bytes} {J : τ → Prop} {output' : τ → Bytes}

/-- Let a filter succeed whose decision keeps, drops and relabels entries, and hand its output to
a filter that keeps everything.  If the entries that the first one keeps are settled, so no sparse
files, no links to the root without a slash at its end, no records whose own records are gone, and
with their whole names in the name field where the header is a ustar header, then the second one
keeps them all and gives the output as it is. -/
theorem output_canonical (h : Reader.Hands I output) (h' : Reader.Gives J output') {s rest : σ}
    {t : τ} (hs : I s) (ht : J t) {decide : Decision δ} (hr : decide.Relabels)
    {again : Decision ε} (hkeep : again.KeepsAll) {d : δ} (d' : ε) {stats : FilterStats}
    (hfinish : (Filtered.start s decide d).finish = (.ok stats, rest))
    (hlimit : (Filtered.start s decide d).drain.data.length ≤ limit)
    (hdata : output' t = (Filtered.start s decide d).drain.data) :
    ∃ items, Lists (⟨output s⟩ : Whole) items
      ∧ ((∀ x ∈ kept decide d items, x.Settled) →
        (∃ rest', (Filtered.start t again d').finish = (.ok ⟨stats.kept, 0⟩, rest'))
          ∧ (Filtered.start t again d').drain.data
            = (Filtered.start s decide d).drain.data) := by
  obtain ⟨items, out, _, hlist, htranscript, hout⟩ := finish_transcript h hs hr.revises hfinish
  refine ⟨items, hlist, fun hsettled => ?_⟩
  have htrailer : trailer.length = 1024 := List.length_replicate
  rw [hout] at hdata hlimit ⊢
  rw [List.length_append, htrailer] at hlimit
  have hahead : Ahead ((⟨0, t⟩ : Spot τ).whole output') 0 (out ++ trailer) := by
    rw [Spot.whole, hdata]
    exact ahead_here 0 _
  obtain ⟨hresult, hwritten⟩ := copyEntries_renderedAll h' hkeep htranscript.rendered
    (fun x hx => ⟨htranscript.proper x hx, hsettled x hx⟩) ht hahead (by omega) {} d'
  have hkept : stats.kept = 0 + (kept decide d items).length := htranscript.kept
  rw [← result_produce] at hresult
  constructor
  · exact ⟨_, Filtered.finish_eq_ok_iff.mpr ⟨hkept ▸ hresult, rfl⟩⟩
  · rw [Filtered.data_start, (written_produce again d' t).1 _ hresult, hwritten]

end Hands

/-! ## A file under a long path, and two entries that do not last -/

theorem keepsAll_keepAll : keepAll.KeepsAll := fun _ _ => rfl

/-- A path that does not go into a header. -/
def longPath : Bytes := List.replicate 120 97

/-- The long name in front of the file is read and written again. -/
theorem output_canonical_longPath :
    let s := Source.ofBytes (fileMember (ascii "a") (ascii "xyz") ++ trailer)
    let data := (Filtered.start s (keepAs longPath) ()).drain.data
    data.length = 3072 ∧ (Filtered.start (Source.ofBytes data) keepAll ()).drain.data = data := by
  intro s data
  have hrun : (let o := Relay.run (produce (keepAs longPath) ()) s
      (o.result.1.toOption, o.written.length)) = (some ⟨1, 0⟩, 3072) := by decide +kernel
  obtain ⟨hresult, hlength⟩ := Prod.mk.inj hrun
  obtain ⟨rest, hfinish⟩ := exists_finish ⟨1, 0⟩ hresult
  have hlength : data.length = 3072 :=
    (congrArg List.length (Filtered.data_start _ _ _)).trans hlength
  obtain ⟨items, hlist, hcanonical⟩ := output_canonical Source.hands Source.gives
    (Source.onlyData_ofBytes _).steady (Source.onlyData_ofBytes data)
    (renames_keepAs longPath).relabels keepsAll_keepAll () hfinish
    (show data.length ≤ limit by rw [hlength]; decide) (List.append_nil _)
  obtain ⟨items', hlist', hkinds⟩ := lists_of_map
    (⟨fileMember (ascii "a") (ascii "xyz") ++ trailer⟩ : Whole)
    (fun x => (x.entry.header.kind, x.entry.header.dialect)) [(.regular, .gnu)] (by decide +kernel)
  refine ⟨hlength, (hcanonical fun x hx => ?_).2⟩
  rw [show s.remaining = fileMember (ascii "a") (ascii "xyz") ++ trailer from List.append_nil _]
    at hlist
  rw [hlist.det hlist', kept_keepAs] at hx
  obtain ⟨y, hy, rfl⟩ := List.mem_map.mp hx
  have hy := List.mem_map_of_mem (f := fun x => (x.entry.header.kind, x.entry.header.dialect)) hy
  rw [hkinds, List.mem_singleton, Prod.mk.injEq] at hy
  obtain ⟨hkind, hdialect⟩ := hy
  have hustar : y.entry.header.dialect ≠ .ustar := by
    rw [hdialect]
    decide
  have hlink : y.entry.isLink = false := congrArg EntryKind.isLink hkind
  refine ⟨?_, ⟨fun hd => absurd hd hustar, fun hd => absurd hd hustar, ?_⟩, ?_⟩
  · show y.entry.header.kind ≠ .sparse
    rw [hkind]
    decide
  · exact fun hk => absurd (hlink.symm.trans hk) Bool.false_ne_true
  · intro hk
    have hk : y.entry.header.kind = .extension ∨ y.entry.header.kind = .globalExtension := hk
    rw [hkind] at hk
    exact absurd hk (by decide)

/-- A filter that keeps everything succeeds on the archive, and gives `out`. -/
def HandsOn (archive out : Bytes) : Prop :=
  (∃ stats rest, (Filtered.start (Source.ofBytes archive) keepAll ()).finish = (.ok stats, rest))
    ∧ (Filtered.start (Source.ofBytes archive) keepAll ()).drain.data = out

theorem handsOn_of_run {archive out : Bytes} (stats : FilterStats)
    (e : (let o := Relay.run (produce keepAll ()) (Source.ofBytes archive)
      (o.result.1.toOption, o.written)) = (some stats, out)) : HandsOn archive out := by
  obtain ⟨hresult, hwritten⟩ := Prod.mk.inj e
  obtain ⟨rest, hfinish⟩ := exists_finish stats hresult
  exact ⟨⟨stats, rest, hfinish⟩, (Filtered.data_start _ _ _).trans hwritten⟩

/-- Records for all that follows. -/
def recordArchive : Bytes :=
  let records := Pax.render [⟨ascii "k", ascii "v"⟩]
  memberBytes (((Header.newGnu.put .name (ascii "a")).setSize records.length).setKind
    .globalExtension).setChecksum records ++ trailer

/-- A record for the path of the next entry. -/
def pathRecord : Bytes :=
  let path := Pax.render [⟨Pax.pathKey, ascii "a"⟩]
  memberBytes (extensionHeader path.length) path

theorem lists_plain (archive : Bytes) (kind : EntryKind)
    (e : (Relay.run ((list 0).run 0) (⟨archive⟩ : Whole)).result.toOption.map
      (fun r => r.1.map fun x => (x.entry.header.kind, x.entry.header.dialect))
        = some [(kind, .gnu)]) (hkind : kind ≠ .sparse) :
    ∃ x, Lists (⟨archive⟩ : Whole) [x] ∧ x.Plain ∧ x.entry.header.kind = kind := by
  obtain ⟨items, hlist, hitems⟩ := lists_of_map _ _ _ e
  obtain ⟨x, rfl, hx⟩ := List.map_eq_singleton_iff.mp hitems
  obtain ⟨hk, hd⟩ := Prod.mk.inj hx
  refine ⟨x, hlist, ⟨hk ▸ hkind, fun hustar => ?_⟩, hk⟩
  cases hd.symm.trans hustar

/-- What is handed on is not always handed on again as it is.  The root as a target gets one more
slash.  And records for all that follows are passed over while there is a record for their own
path in front of them, but without it they are read for what they say, and then missing. -/
theorem output_changes_again :
    (∃ x, Lists (⟨linkArchive (ascii "/.")⟩ : Whole) [x] ∧ x.Plain ∧ x.entry.header.kind = .symlink)
      ∧ HandsOn (linkArchive (ascii "/.")) (linkArchive (ascii "/"))
      ∧ HandsOn (linkArchive (ascii "/")) (linkArchive (ascii "//"))
      ∧ linkArchive (ascii "/") ≠ linkArchive (ascii "//")
      ∧ (∃ x, Lists (⟨pathRecord ++ recordArchive⟩ : Whole) [x] ∧ x.Plain
        ∧ x.entry.header.kind = .globalExtension)
      ∧ HandsOn (pathRecord ++ recordArchive) recordArchive
      ∧ ∀ out, ¬ HandsOn recordArchive out := by
  refine ⟨lists_plain _ .symlink (by decide +kernel) (by decide),
    handsOn_of_run ⟨1, 0⟩ (by decide +kernel), handsOn_of_run ⟨1, 0⟩ (by decide +kernel),
    by decide +kernel, lists_plain _ .globalExtension (by decide +kernel) (by decide),
    handsOn_of_run ⟨1, 0⟩ (by decide +kernel), ?_⟩
  rintro out ⟨⟨stats, rest, hfinish⟩, -⟩
  have hnone : (Relay.run (produce keepAll ()) (Source.ofBytes recordArchive)).result.1.toOption
      = none := by decide +kernel
  rw [(Filtered.finish_eq_ok_iff.mp hfinish).1] at hnone
  cases hnone

end Filter
end ContainerLayer
