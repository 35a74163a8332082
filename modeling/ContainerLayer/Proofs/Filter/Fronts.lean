import ContainerLayer.Proofs.Filter.Dropping
import ContainerLayer.Proofs.Filter.Holes

/-
Paths behind fronts.

The path of a ustar header stands in two fields, with a slash in between.  A filter writes a path
of up to a hundred bytes into the name field alone, and leaves what the other field had on input.
Such a path comes back behind the old front (`Header.Fronted`), also where the decision took that
front away; every other path comes back as it was decided.
-/

namespace ContainerLayer
namespace Filter

open Tar Tape

/-- The path of the second item is that of the first: behind the front of the header, if that was
left there, and without it otherwise. -/
structure Item.Named (x y : Item) : Prop where
  behind : x.entry.header.Fronted x.entry.path → ∃ name, Path.Alike x.entry.path name
    ∧ y.entry.path = (x.entry.header.get .front).untilZero ++ Path.slash :: name
  alike_iff : Path.Alike x.entry.path y.entry.path ↔ (x.entry.header.Fronted x.entry.path →
    Path.components (x.entry.header.get .front).untilZero = [.here])

theorem Item.Carried.named {x y : Item} (h : x.Carried y) : x.Named y := by
  constructor
  · intro hf
    obtain ⟨name, hname, hpath⟩ := h.path.behind hf
    exact ⟨name, Naming.alike_of_textOf hname, hpath⟩
  · by_cases hf : x.entry.header.Fronted x.entry.path
    · obtain ⟨name, hname, hpath⟩ := h.path.behind hf
      rw [hpath, Header.alike_behind_iff hname hf.front]
      exact ⟨fun h _ => h, fun h => h hf⟩
    · exact ⟨fun _ hf' => absurd hf' hf, fun _ => h.path.alike hf⟩

variable {δ σ : Type} [Reader σ] {I : σ → Prop} {output : σ → Bytes}

/-- Let a filter succeed whose decision keeps, drops and relabels entries, and take the kept
entries in front of the first sparse file with holes.  They come first in the output, and all of
it is read if there is no such file.  One whose path was put into the name field of a header that
has something in its front field comes back behind that front; so it has the path that was decided
just if the front is a dot.  All others have the path that was decided. -/
theorem path_comes_back_iff (h : Reader.Hands I output) {s rest : σ} (hs : I s)
    {decide : Decision δ} (hr : decide.Relabels) {d : δ} {stats : FilterStats}
    (hfinish : (Filtered.start s decide d).finish = (.ok stats, rest))
    (hlimit : (Filtered.start s decide d).drain.data.length ≤ limit) :
    ∃ items, Lists (⟨output s⟩ : Whole) items ∧ stats.kept = (kept decide d items).length
      ∧ ∀ front xs, kept decide d items = front ++ xs → (∀ x ∈ front, x.Solid) →
        ∃ ys, List.Forall₂ Item.Named front ys
          ∧ (∀ copies, Lists (⟨(Filtered.start s decide d).drain.data⟩ : Whole) copies →
            ys <+: copies)
          ∧ (xs = [] → Lists (⟨(Filtered.start s decide d).drain.data⟩ : Whole) ys) := by
  obtain ⟨items, out, _, hlist, ht, hdata⟩ := finish_transcript h hs hr.revises hfinish
  have htrailer : trailer.length = 1024 := List.length_replicate
  rw [hdata, List.length_append, htrailer] at hlimit
  rw [hdata]
  refine ⟨items, hlist, ?_, fun front xs e hfront => ?_⟩
  · rw [ht.kept]
    exact Nat.zero_add _
  have hproper := ht.proper
  have hrendered := ht.rendered
  rw [e] at hproper hrendered
  obtain ⟨ys, later, c, stop, hlater, hahead, -, hcarried, hiff⟩ := renderedAll_carried hrendered
    (fun x hx => ⟨hproper x (List.mem_append_left _ hx), hfront x hx⟩) (ahead_here 0 _) (by omega)
  refine ⟨ys, hcarried.imp fun _ _ hxy => hxy.named, fun copies hcopies => ?_, ?_⟩
  · obtain ⟨c', hp⟩ := lists_iff_plays.mp hcopies
    obtain ⟨zs, rfl, -⟩ := (hiff copies c').mp hp
    exact List.prefix_append ys zs
  · rintro rfl
    cases hlater
    obtain ⟨c', hend⟩ := list_plays_trailer hahead
    exact lists_iff_plays.mpr ⟨c', (hiff ys c').mpr ⟨[], (List.append_nil ys).symm, hend⟩⟩

/-! ## A file with a path in two fields -/

/-- A file whose path stands in two fields of its header. -/
def frontArchive (front name : Bytes) : Bytes :=
  memberBytes ((((Header.newUstar.put .front front).put .name name).setSize 0).setKind
    .regular).setChecksum [] ++ trailer

/-- What was stripped from the path comes back. -/
theorem path_comes_back_iff_stripped :
    ∃ items x y, Lists (⟨frontArchive (ascii "Files") (ascii "x")⟩ : Whole) items
      ∧ kept (stripDecision (ascii "Files/")) () items = [x] ∧ x.entry.path = ascii "x"
      ∧ Lists (⟨(Filtered.start (Source.ofBytes (frontArchive (ascii "Files") (ascii "x")))
          (stripDecision (ascii "Files/")) ()).drain.data⟩ : Whole) [y]
      ∧ ¬ Path.Alike x.entry.path y.entry.path := by
  let archive := frontArchive (ascii "Files") (ascii "x")
  let strip := stripDecision (ascii "Files/")
  obtain ⟨rest, hfinish⟩ := exists_finish ⟨1, 0⟩
    (show (Relay.run (produce strip ()) (Source.ofBytes archive)).result.1.toOption = _ by
      decide +kernel)
  obtain ⟨items, hlist, -, hall⟩ := path_comes_back_iff Source.hands
    (Source.onlyData_ofBytes archive).steady (relabels_stripDecision _) hfinish
    (show (Filtered.start (Source.ofBytes archive) strip ()).drain.data.length ≤ limit by
      decide +kernel)
  rw [show Source.remaining (Source.ofBytes archive) = archive from List.append_nil _] at hlist
  obtain ⟨items', hlist', hitems⟩ := lists_of_map (⟨archive⟩ : Whole)
    (fun x => (isBelow (ascii "Files/") x, (stripped (ascii "Files/") x).entry.path,
      decide ((stripped (ascii "Files/") x).Solid
        ∧ (stripped (ascii "Files/") x).entry.header.Fronted (ascii "x")),
      ((stripped (ascii "Files/") x).entry.header.get .front).untilZero))
    [(true, ascii "x", true, ascii "Files")] (by decide +kernel)
  cases hlist.det hlist'
  obtain ⟨x, rfl, hx⟩ := List.map_eq_singleton_iff.mp hitems
  simp only [Prod.mk.injEq, decide_eq_true_eq] at hx
  obtain ⟨hbelow, hpath, ⟨hsolid, hfronted⟩, hfront⟩ := hx
  have hkept : kept strip () [x] = [stripped (ascii "Files/") x] := by
    rw [kept_stripDecision, List.filter_cons_of_pos hbelow]
    rfl
  obtain ⟨ys, hys, -, hread⟩ := hall [stripped (ascii "Files/") x] []
    (by rw [hkept]; rfl) (by simpa using hsolid)
  obtain ⟨y, ys, hnamed, hnil, rfl⟩ := List.forall₂_cons_left_iff.mp hys
  cases List.forall₂_nil_left_iff.mp hnil
  refine ⟨[x], _, y, hlist, hkept, hpath, hread rfl, ?_⟩
  rw [hnamed.alike_iff, hpath, hfront]
  exact fun h => absurd (h hfronted) (by decide)

/-- A path in two fields gets the first one twice when an archive is filtered that is to keep all
as it is. -/
theorem front_doubled :
    (∃ rest, (Filtered.start (Source.ofBytes (frontArchive (ascii "a") (ascii "b"))) keepAll
        ()).finish = (.ok ⟨1, 0⟩, rest))
      ∧ ∃ x y, Lists (⟨frontArchive (ascii "a") (ascii "b")⟩ : Whole) [x]
        ∧ Lists (⟨(Filtered.start (Source.ofBytes (frontArchive (ascii "a") (ascii "b"))) keepAll
          ()).drain.data⟩ : Whole) [y]
        ∧ x.entry.header.kind = .regular ∧ x.entry.header.dialect = .ustar
        ∧ (x.entry.header.get .front).untilZero = ascii "a"
        ∧ x.entry.path = ascii "a/b" ∧ y.entry.path = ascii "a/a/b"
        ∧ ¬ Path.Alike x.entry.path y.entry.path := by
  let archive := frontArchive (ascii "a") (ascii "b")
  refine ⟨exists_finish _ ?_, ?_⟩
  · show (Relay.run (produce keepAll ()) (Source.ofBytes archive)).result.1.toOption = _
    decide +kernel
  · obtain ⟨items, hlist, hitems⟩ := lists_of_map (⟨archive⟩ : Whole)
      (fun x => (x.entry.header.kind, x.entry.header.dialect,
        (x.entry.header.get .front).untilZero, x.entry.path))
      [(.regular, .ustar, ascii "a", ascii "a/b")] (by decide +kernel)
    obtain ⟨copies, hcopies, hpaths⟩ := lists_of_map
      (⟨(Filtered.start (Source.ofBytes archive) keepAll ()).drain.data⟩ : Whole)
      (fun x => x.entry.path) [ascii "a/a/b"] (by decide +kernel)
    obtain ⟨x, rfl, hx⟩ := List.map_eq_singleton_iff.mp hitems
    obtain ⟨y, rfl, hy⟩ := List.map_eq_singleton_iff.mp hpaths
    simp only [Prod.mk.injEq] at hx
    obtain ⟨hkind, hdialect, hfront, hpath⟩ := hx
    refine ⟨x, y, hlist, hcopies, hkind, hdialect, hfront, hpath, hy, ?_⟩
    rw [hpath, hy]
    exact fun h => absurd h.essence (by decide)

end Filter
end ContainerLayer
