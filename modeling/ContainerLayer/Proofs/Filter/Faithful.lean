import ContainerLayer.Proofs.Filter.Delivery
import ContainerLayer.Proofs.Filter.Readback
import Mathlib.Data.List.Forall2

/-
What a filter hands on.

The items that are kept come back from the output, in order and each as it was but for the
spelling of its names.  Rendering and reading meet at the items: a run writes a rendering
of each, and each rendering is found where it was put.
-/

namespace ContainerLayer
namespace Filter

open Tar Tape

/-- The item is no sparse file, and the front field of a ustar header is empty. -/
structure Item.Plain (x : Item) : Prop where
  kind : x.entry.header.kind ≠ .sparse
  front : x.entry.header.dialect = .ustar → (x.entry.header.get .front).untilZero = []

theorem Item.Plain.solid {x : Item} (h : x.Plain) : x.Solid := fun hk => absurd hk h.kind

/-- Renderings with a trailer behind them are read as the items that were written. -/
theorem renderedAll_found {xs : List Item} {out : Bytes} (hr : RenderedAll xs out)
    (hx : ∀ x ∈ xs, x.Proper ∧ x.Plain) {c : Spot Whole} {start : Nat}
    (ha : Ahead c start (out ++ trailer)) (hl : start + out.length < limit) :
    ∃ ys c', (list start).Plays c ys c' [] ∧ List.Forall₂ Item.Faithful xs ys := by
  obtain ⟨ys, d, hplays, hys⟩ :=
    renderedAll_listed hr (fun x h => ⟨(hx x h).1, (hx x h).2.solid⟩) ha hl
  obtain ⟨hlength, hzip⟩ := List.forall₂_iff_zip.mp hys
  refine ⟨ys, d, hplays, List.forall₂_iff_zip.mpr ⟨hlength, fun h => ?_⟩⟩
  exact (hzip h).faithful (hx _ (List.of_mem_zip h).1).2.front

theorem RenderedAll.aligned {xs : List Item} {out : Bytes} (h : RenderedAll xs out) :
    out.length % 512 = 0 := by
  induction h with
  | nil => rfl
  | cons h hs ih =>
    have := h.aligned
    rw [List.length_append]
    omega

section Lists

variable {σ τ : Type} [Reader σ] [Reader τ]

/-- Which entries an archive has depends on its bytes alone, not on who hands them out. -/
theorem Lists.transfer {I : σ → Prop} {output : σ → Bytes} {J : τ → Prop} {output' : τ → Bytes}
    (h : Reader.Hands I output) (h' : Reader.Gives J output') {s : σ} {t : τ} (hs : I s) (ht : J t)
    (e : output' t = output s) {items : List Item} (hl : Lists s items) : Lists t items := by
  obtain ⟨position, hl⟩ := hl
  have hplays : (list 0).Plays (⟨0, s⟩ : Spot σ) items
      ⟨position, (Relay.run ((list 0).run 0) s).rest⟩ _ := ⟨hl, rfl, rfl⟩
  obtain ⟨-, -, -, hwhole⟩ := (reads_list 0).plays h hs hplays
  have hspot : (⟨0, s⟩ : Spot σ).whole output = (⟨0, t⟩ : Spot τ).whole output' := by
    rw [Spot.whole, Spot.whole, e]
  rw [hspot] at hwhole
  obtain ⟨c', hplays', -, -⟩ := (reads_list 0).of_whole h' ht hwhole
  exact ⟨c'.position, hplays'.1⟩

end Lists

variable {δ σ : Type} [Reader σ] {I : σ → Prop} {output : σ → Bytes}

/-- A filter that succeeds has read the items of its archive, and gives renderings of those that
are kept, with a trailer behind them. -/
theorem finish_transcript (h : Reader.Hands I output) {s rest : σ} (hs : I s) {decide : Decision δ}
    (hr : decide.Revises) {d : δ} {stats : FilterStats}
    (hfinish : (Filtered.start s decide d).finish = (.ok stats, rest)) :
    ∃ items out d', Lists (⟨output s⟩ : Whole) items ∧ Transcript decide d items {} stats d' out
      ∧ (Filtered.start s decide d).drain.data = out ++ trailer := by
  obtain ⟨hok, -⟩ := Filtered.finish_eq_ok_iff.mp hfinish
  obtain ⟨items, out, hlist, ht, hwritten⟩ :=
    produce_transcript_of_revises h hr hs (Prod.ext hok rfl)
  exact ⟨items, out, _, hlist, ht, (Filtered.data_start _ _ _).trans hwritten⟩

/-- A filter that succeeds has asked its decision about every entry of its archive, once and
in order, and counted the answers.  The output consists of whole blocks.  If none of the
entries that are kept is a sparse file, or has a ustar header with something in its front
field, the output can be read to its end and gives back the entries that were kept, in
order. -/
theorem output_faithful (h : Reader.Hands I output) {s : σ} (hs : I s) {decide : Decision δ}
    (hr : decide.Renames) {d d' : δ} {stats : FilterStats}
    (he : (Filtered.start s decide d).drain.rest.producer = .ended (.ok stats) d') :
    ∃ items, Lists (Source.ofBytes (output s)) items ∧ d' = decided decide d items
      ∧ stats.kept = (kept decide d items).length
      ∧ stats.kept + stats.skipped = items.length
      ∧ (Filtered.start s decide d).drain.data.length % 512 = 0
      ∧ ((∀ x ∈ kept decide d items, x.Plain) →
        (Filtered.start s decide d).drain.data.length ≤ limit →
        ∃ copies, Lists (Source.ofBytes (Filtered.start s decide d).drain.data) copies
          ∧ List.Forall₂ Item.Faithful (kept decide d items) copies) := by
  have hsource : ∀ {b : Bytes} {items : List Item}, Lists (⟨b⟩ : Whole) items →
      Lists (Source.ofBytes b) items := by
    intro b items hl
    refine hl.transfer Whole.gives.hands Source.gives trivial (Source.onlyData_ofBytes b) ?_
    exact List.append_nil b
  obtain ⟨hdata, hproducer⟩ := Filtered.drain_spec (produce decide d) { inner := s }
  have hrun : (Relay.run (produce decide d) ({ inner := s } : Cancelable σ)).result
      = (.ok stats, d') := by
    have e := hproducer.symm.trans he
    rw [Producer.ended.injEq] at e
    exact Prod.ext e.1 e.2
  obtain ⟨items, out, hlist, ht, hwritten⟩ :=
    produce_transcript h.cancelable hr (s := ({ inner := s } : Cancelable σ)) hs hrun
  have hout : (Filtered.start s decide d).drain.data = out ++ trailer := hdata.trans hwritten
  have htrailer : trailer.length = 1024 := List.length_replicate
  have haligned := ht.rendered.aligned
  rw [hout, List.length_append, htrailer]
  refine ⟨items, hsource hlist, ht.state, ?_, ?_, by omega, ?_⟩
  · simpa using ht.kept
  · simpa using ht.counted
  · intro hplain hlimit
    obtain ⟨copies, c', hplays, hcopies⟩ := renderedAll_found ht.rendered
      (fun x hx => ⟨ht.proper x hx, hplain x hx⟩) (ahead_here 0 _) (by omega)
    exact ⟨copies, hsource ⟨c'.position, hplays.1⟩, hcopies⟩

/-! ## Small archives -/

/-- An archive with a symbolic link. -/
def linkArchive (target : Bytes) : Bytes :=
  ((((Header.newGnu.put .name (ascii "a")).put .linkName target).setSize 0).setKind
    .symlink).setChecksum.bytes ++ trailer

/-- A regular file. -/
def fileMember (name content : Bytes) : Bytes :=
  memberBytes (((Header.newGnu.put .name name).setSize content.length).setKind
    .regular).setChecksum content

/-- Keeps every entry under the given path. -/
def keepAs (path : Bytes) : Decision Unit := fun d e => ((true, { e with path }), d)

theorem renames_keepAs (path : Bytes) : (keepAs path).Renames :=
  fun _ _ => ⟨rfl, rfl, rfl, rfl, fun _ => rfl⟩

theorem kept_keepAs (path : Bytes) (items : List Item) :
    kept (keepAs path) () items = items.map fun x => ⟨{ x.entry with path }, x.content⟩ := by
  induction items with
  | nil => rfl
  | cons x xs ih =>
    show _ :: kept (keepAs path) () xs = _
    rw [ih]
    rfl

/-- Filters that archive. -/
def filterLink (target path : Bytes) : Filtered Source Unit :=
  .start (Source.ofBytes (linkArchive target)) (keepAs path) ()

theorem filterLink_ends {target path : Bytes}
    (e : (Relay.run (produce (keepAs path) ()) ({ inner := Source.ofBytes (linkArchive target) } :
      Cancelable Source)).result = (.ok ⟨1, 0⟩, ())) :
    (filterLink target path).drain.rest.producer = .ended (.ok ⟨1, 0⟩) () := by
  have hproducer := (Filtered.drain_spec (produce (keepAs path) ())
    ({ inner := Source.ofBytes (linkArchive target) } : Cancelable Source)).2
  rw [e] at hproducer
  exact hproducer

theorem lists_of_map {α : Type} (s : σ) (f : Item → α) (as : List α)
    (e : (Relay.run ((list 0).run 0) s).result.toOption.map (fun r => r.1.map f) = some as) :
    ∃ items, Lists s items ∧ items.map f = as := by
  cases hr : (Relay.run ((list 0).run 0) s).result with
  | error k =>
    rw [hr] at e
    cases e
  | ok r =>
    rw [hr] at e
    exact ⟨r.1, ⟨r.2, hr⟩, Option.some.inj e⟩

theorem Lists.det {s : σ} {items items' : List Item} (h : Lists s items) (h' : Lists s items') :
    items = items' := by
  obtain ⟨position, h⟩ := h
  obtain ⟨position', h'⟩ := h'
  exact congrArg Prod.fst (Except.ok.inj (h.symm.trans h'))

theorem output_faithful_link :
    (keepAs (ascii "c//d")).Renames
      ∧ (filterLink (ascii "b") (ascii "c//d")).drain.rest.producer = .ended (.ok ⟨1, 0⟩) ()
      ∧ ∃ items copies, Lists (Source.ofBytes (linkArchive (ascii "b"))) items
        ∧ (∀ x ∈ kept (keepAs (ascii "c//d")) () items, x.Plain)
        ∧ (filterLink (ascii "b") (ascii "c//d")).drain.data.length ≤ limit
        ∧ Lists (Source.ofBytes (filterLink (ascii "b") (ascii "c//d")).drain.data) copies
        ∧ List.Forall₂ Item.Faithful (kept (keepAs (ascii "c//d")) () items) copies := by
  have he := filterLink_ends (show (Relay.run (produce (keepAs (ascii "c//d")) ())
    ({ inner := Source.ofBytes (linkArchive (ascii "b")) } : Cancelable Source)).result
      = (.ok ⟨1, 0⟩, ()) by decide +kernel)
  obtain ⟨items, hlist, -, -, -, -, hout⟩ := output_faithful Source.hands
    (Source.onlyData_ofBytes _).steady (renames_keepAs (ascii "c//d")) he
  rw [show Source.remaining (Source.ofBytes (linkArchive (ascii "b"))) = linkArchive (ascii "b")
    from List.append_nil _] at hlist
  have hlength : (filterLink (ascii "b") (ascii "c//d")).drain.data.length ≤ limit := by
    decide +kernel
  obtain ⟨items', hlist', hkinds⟩ := lists_of_map (Source.ofBytes (linkArchive (ascii "b")))
    (fun x => (x.entry.header.kind, x.entry.header.dialect)) [(.symlink, .gnu)]
    (by decide +kernel)
  have hplain : ∀ x ∈ kept (keepAs (ascii "c//d")) () items, x.Plain := by
    intro x hx
    rw [hlist.det hlist', kept_keepAs] at hx
    obtain ⟨y, hy, rfl⟩ := List.mem_map.mp hx
    have hy := List.mem_map_of_mem (f := fun x => (x.entry.header.kind, x.entry.header.dialect)) hy
    rw [hkinds, List.mem_singleton, Prod.mk.injEq] at hy
    constructor
    · show y.entry.header.kind ≠ .sparse
      rw [hy.1]
      decide
    · intro hd
      cases hy.2.symm.trans hd
  obtain ⟨copies, hcopies, hfaithful⟩ := hout hplain hlength
  exact ⟨renames_keepAs _, he, items, copies, hlist, hplain, hlength, hcopies, hfaithful⟩

/-- The spelling of a target is not always kept down to its end: a target that is the root
with a dot behind it is handed on as the root, which ends with a slash. -/
theorem output_target_slash :
    (filterLink (ascii "/.") (ascii "a")).drain.rest.producer = .ended (.ok ⟨1, 0⟩) ()
      ∧ ∃ x y, Lists (Source.ofBytes (linkArchive (ascii "/."))) [x] ∧ x.Plain ∧ x.entry.isLink = true
        ∧ Lists (Source.ofBytes (filterLink (ascii "/.") (ascii "a")).drain.data) [y]
        ∧ x.entry.linkName = some (ascii "/.") ∧ y.entry.linkName = some (ascii "/")
        ∧ Path.endsWithSlash (ascii "/.") = false ∧ Path.endsWithSlash (ascii "/") = true := by
  refine ⟨filterLink_ends (by decide +kernel), ?_⟩
  obtain ⟨items, hlist, hitems⟩ := lists_of_map (Source.ofBytes (linkArchive (ascii "/.")))
    (fun x => (x.entry.header.kind, x.entry.header.dialect, x.entry.linkName))
    [(.symlink, .gnu, some (ascii "/."))] (by decide +kernel)
  obtain ⟨copies, hlist', hcopies⟩ := lists_of_map
    (Source.ofBytes (filterLink (ascii "/.") (ascii "a")).drain.data)
    (fun x => x.entry.linkName) [some (ascii "/")] (by decide +kernel)
  obtain ⟨x, rfl, hx⟩ := List.map_eq_singleton_iff.mp hitems
  obtain ⟨y, rfl, hy⟩ := List.map_eq_singleton_iff.mp hcopies
  simp only [Prod.mk.injEq] at hx
  obtain ⟨hkind, hdialect, htarget⟩ := hx
  refine ⟨x, y, hlist, ⟨?_, ?_⟩, ?_, hlist', htarget, hy, by decide, by decide⟩
  · rw [hkind]
    decide
  · intro hd
    cases hdialect.symm.trans hd
  · show x.entry.header.kind.isLink = true
    rw [hkind]
    rfl

end Filter
end ContainerLayer
