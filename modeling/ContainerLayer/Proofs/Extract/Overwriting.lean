import ContainerLayer.Proofs.Extract.Opaque
import ContainerLayer.Proofs.Tar.Reading
import ContainerLayer.Proofs.Unpack.Reading
import ContainerLayer.Proofs.Unpack.Replacing

/-
What comes of an entry whose name is taken.

A run that arrives at a file or a symbolic link goes on behind it, with the new node in
place of the old one and everything else as it was.  At a hard link the run ends, since
nothing is dropped to make room for one (`entry_over_occupant`).
-/

namespace ContainerLayer
namespace Extract

open Tar Unpack ContainerLayer.Tree

/-- The progress after an ordinary entry that left the tree `t`. -/
def Progress.unpacked (p : Progress) (e : Entry) (t : Tree) : Progress :=
  { tree := t, applied := Path.names e.path :: p.applied, count := p.count + 1 }

/-- What unpacking an entry means for the run. -/
def outcome (e : Entry) (p : Progress) : Option Fault × Tree → Option LayerError × Progress
  | (some f, tree) => (some (.extract e.path (.failed f)), { p with tree })
  | (none, tree) => (none, p.unpacked e tree)

section Runs

variable {σ : Type} [Reader σ] {root : PathParts} {e : Entry} {p : Progress} {c c' : Spot σ}

theorem applyEntry_of_removed {w : Whiteout} {t : Tree} (hw : whiteout? e.path = some w)
    (h : remove p.applied root e.path w p.tree = (none, t)) :
    applyEntry root e p = pure (none, { p with tree := t, count := p.count + 1 }) := by
  unfold applyEntry
  dsimp only
  rw [hw]
  dsimp only
  rw [h]

theorem applyEntry_of_refused {w : Whiteout} {err : LayerError} {t : Tree}
    (hw : whiteout? e.path = some w)
    (h : remove p.applied root e.path w p.tree = (some err, t)) :
    applyEntry root e p = pure (some err, { p with tree := t }) := by
  unfold applyEntry
  dsimp only
  rw [hw]
  dsimp only
  rw [h]

theorem applyEntry_of_up (hw : whiteout? e.path = none) (hup : Path.hasUp e.path = true) :
    applyEntry root e p = pure (some (.extract e.path .escapes), p) := by
  unfold applyEntry
  dsimp only
  rw [hw]
  dsimp only
  rw [hup]
  rfl

/-- An ordinary entry is unpacked. -/
theorem applyEntry_of_ordinary (hw : whiteout? e.path = none) (hup : Path.hasUp e.path = false) :
    applyEntry root e p = (do return outcome e p (← Unpack.entry root e p.tree)) := by
  unfold applyEntry
  dsimp only
  rw [hw]
  dsimp only
  rw [hup]
  refine bind_congr fun r => ?_
  obtain ⟨_ | f, t⟩ := r
  · rfl
  · rfl

theorem applyEntry_plays (hw : whiteout? e.path = none) (hup : Path.hasUp e.path = false)
    {r : Option Fault × Tree} (h : (Unpack.entry root e p.tree).Plays c r c' []) :
    (applyEntry root e p).Plays c (outcome e p r) c' [] := by
  rw [applyEntry_of_ordinary hw hup]
  exact h.bind_nil (Tape.plays_pure _ _)

variable {start : Nat} {c₁ c₂ : Spot σ} {next : { e : Entry // Behind start e.next }}
variable {out out' : Bytes}

/-- Behind an entry that was applied the run goes on. -/
theorem result_of_plays (hread : (readEntry start).Plays c (some next) c₁ out) {p' : Progress}
    (h : (applyEntry root next.1 p).Plays c₁ (none, p') c₂ out') :
    (Relay.run (applyEntries root start c.position p) c.reader).result
      = (Relay.run (applyEntries root next.1.next c₂.position p') c₂.reader).result := by
  obtain ⟨hr, hrest, _⟩ := hread
  obtain ⟨ha, harest, _⟩ := h
  obtain ⟨e, he⟩ := next
  rw [result_applyEntries]
  simp only [hr, hrest, ha, harest]

/-- At an entry that fails the run ends. -/
theorem result_of_fails (hread : (readEntry start).Plays c (some next) c₁ out) {p' : Progress}
    {err : LayerError} (h : (applyEntry root next.1 p).Plays c₁ (some err, p') c₂ out') :
    (Relay.run (applyEntries root start c.position p) c.reader).result = (.error err, p'.tree) := by
  obtain ⟨hr, hrest, _⟩ := hread
  obtain ⟨ha, harest, _⟩ := h
  obtain ⟨e, he⟩ := next
  rw [result_applyEntries]
  simp only [hr, hrest, ha]

end Runs

/-! ## One entry over what has its name -/

section Over

variable {σ : Type} [Reader σ] {root : PathParts} {e : Entry} {t : Tree} {r : Location} {n : Node}

/-- The node that a file is unpacked to where the identity `id` is free. -/
def fileNode (id : Nat) (header : Header) (data : Bytes) : Node :=
  .file { id, data, mode := (modeOf header).getD 0o644, mtime := mtimeOf header }

theorem entry_file_plays {I : σ → Prop} {output : σ → Bytes} (hg : Reader.Gives I output)
    {c : Spot σ} (hc : I c.reader) (h : Occupied t root r (Path.names e.path) n) (he : IsFile e)
    (hs : e.content.Supplied (output c.reader)) :
    ∃ t' c', (Unpack.entry root e t).Plays c (none, t') c' [] ∧
      output c'.reader = (e.content.expand (output c.reader)).2 ∧
      SameBut (r ++ Path.names e.path) t t' ∧
      t'.lookup (r ++ Path.names e.path)
        = some (fileNode t.freshId e.header (e.content.expand (output c.reader)).1) := by
  have hplace := run_place_file r he (h.run_placeFile fun _ => Path.isPlain_of_mem_names)
  obtain ⟨chunks, c', hplays, _, hchunks, hrest⟩ := readContent_plays hg [] hc hs
  generalize r ++ Path.names e.path = l at hplace ⊢
  have hnew : ((t.erase l).insertFile l [] 0o644 none).lookup l
      = some (.file { id := t.freshId }) := by
    rw [lookup_insertFile, if_pos rfl]
    rfl
  refine ⟨fill e.header l chunks.reverse.flatten true ((t.erase l).insertFile l [] 0o644 none), c',
    ?_, hrest, SameBut.trans (fun k hk => ?_) (sameBut_fill _ l _ _ _), ?_⟩
  · rw [Unpack.entry, h.run_prepare, hplace]
    exact hplays.bind_nil (Tape.plays_pure _ _)
  · rw [lookup_insertFile, if_neg hk, lookup_erase_ne hk]
  · rw [lookup_fill hnew, hchunks, fileNode]
    simp

theorem entry_symlink_plays (c : Spot σ) (h : Occupied t root r (Path.names e.path) n)
    (hk : e.header.kind = .symlink) {target : Bytes} (ht : e.linkName = some target)
    (hne : Path.components target ≠ []) (hh : IsTarget target) :
    ∃ t', (Unpack.entry root e t).Plays c (none, t') c [] ∧
      SameBut (r ++ Path.names e.path) t t' ∧
      t'.lookup (r ++ Path.names e.path) = some (.symlink target) := by
  have hplace := run_place_symlink r hk ht hne
    (h.run_placeSymlink (fun _ => Path.isPlain_of_mem_names) hh)
  generalize r ++ Path.names e.path = l at hplace ⊢
  refine ⟨(t.erase l).insert l (.symlink target), ?_, fun k hk => ?_, lookup_insert_self _ _ _⟩
  · rw [Unpack.entry, h.run_prepare, hplace]
    exact Tape.plays_pure _ _
  · rw [lookup_insert_ne hk, lookup_erase_ne hk]

theorem entry_hardLink_plays (c : Spot σ) (h : Occupied t root r (Path.names e.path) n)
    (hk : e.header.kind = .hardLink) {target : Bytes} (ht : e.linkName = some target)
    (hne : Path.components target ≠ []) (hin : Inside r (linked r target) t) :
    (Unpack.entry root e t).Plays c (some (.ofKind .alreadyExists), t) c [] := by
  rw [Unpack.entry, h.run_prepare, run_place_hardLink r hk ht hne (h.run_placeHardLink hin)]
  exact Tape.plays_pure _ _

end Over

/-- A run arrives at an ordinary entry whose path names something that is no directory, with
nothing but directories on the way.  If it is a file, all of its content there, or a symbolic
link, the entry is applied: what was named is replaced by the new node, nothing else is changed,
and the run goes on behind the entry.  If it is a hard link to something inside, nothing is
changed, and the run fails because the name exists. -/
theorem entry_over_occupant {σ : Type} [Reader σ] {I : σ → Prop} {output : σ → Bytes}
    (hg : Reader.Gives I output) {start : Nat} {c c₁ : Spot σ} (hc : I c.reader)
    {next : { e : Entry // Behind start e.next }} {out : Bytes}
    (hread : (readEntry start).Plays c (some next) c₁ out)
    (hw : whiteout? next.1.path = none) (hup : Path.hasUp next.1.path = false) {root : PathParts}
    {p : Progress} {r : Location} {n : Node}
    (h : Occupied p.tree root r (Path.names next.1.path) n) :
    let e := next.1
    let l := r ++ Path.names e.path
    let run := (Relay.run (applyEntries root start c.position p) c.reader).result
    let runFrom := fun (c₂ : Spot σ) t =>
      (Relay.run (applyEntries root e.next c₂.position (p.unpacked e t)) c₂.reader).result
    (IsFile e → e.content.Supplied (output c₁.reader) →
        ∃ t c₂, run = runFrom c₂ t ∧
          output c₂.reader = (e.content.expand (output c₁.reader)).2 ∧ SameBut l p.tree t ∧
          t.lookup l = some
            (fileNode p.tree.freshId e.header (e.content.expand (output c₁.reader)).1)) ∧
      (e.header.kind = .symlink → ∀ target, e.linkName = some target →
        Path.components target ≠ [] → IsTarget target →
        ∃ t, run = runFrom c₁ t ∧ SameBut l p.tree t ∧ t.lookup l = some (.symlink target)) ∧
      (e.header.kind = .hardLink → ∀ target, e.linkName = some target →
        Path.components target ≠ [] → Inside r (linked r target) p.tree →
        run = (.error (.extract e.path (.failed (.ofKind .alreadyExists))), p.tree)) := by
  intro e l run runFrom
  obtain ⟨_, _, hc₁, _⟩ := (reads_readEntry start).plays hg.hands hc hread
  refine ⟨fun he hs => ?_, fun hk target ht hne hh => ?_, fun hk target ht hne hin => ?_⟩
  · obtain ⟨t, c₂, hplays, hrest, hsame, hnode⟩ := entry_file_plays hg hc₁ h he hs
    exact ⟨t, c₂, result_of_plays hread (applyEntry_plays hw hup hplays), hrest, hsame, hnode⟩
  · obtain ⟨t, hplays, hsame, hnode⟩ := entry_symlink_plays c₁ h hk ht hne hh
    exact ⟨t, result_of_plays hread (applyEntry_plays hw hup hplays), hsame, hnode⟩
  · have hplays := entry_hardLink_plays c₁ h hk ht hne hin
    exact result_of_fails hread (applyEntry_plays hw hup hplays)

/-- Two files in a directory. -/
def twoFiles : Tree where
  nodes := [
    ([], .directory 0o755),
    ([ascii "root"], .directory 0o755),
    ([ascii "root", ascii "a"], .file { id := 0, data := ascii "one" }),
    ([ascii "root", ascii "b"], .file { id := 1, data := ascii "two" })]
  freshId := 2

/-- An entry that is to replace the second of the files. -/
def overB (kind : EntryKind) : Source := Source.ofBytes (emptyMember kind (ascii "b") (ascii "a"))

/-- A file and a symbolic link replace the file that is there, but a hard link to the other
file does not. -/
theorem hardLink_replaces_no_file :
    ((Relay.run (applyArchive [ascii "root"] twoFiles) (overB .regular)).result.1
        = .ok 1 ∧
      (treeAfter [ascii "root"] twoFiles (overB .regular)).lookup [ascii "root", ascii "b"]
        ≠ twoFiles.lookup [ascii "root", ascii "b"]) ∧
    ((Relay.run (applyArchive [ascii "root"] twoFiles) (overB .symlink)).result.1
        = .ok 1 ∧
      (treeAfter [ascii "root"] twoFiles (overB .symlink)).lookup [ascii "root", ascii "b"]
        = some (.symlink (ascii "a"))) ∧
    (Relay.run (applyArchive [ascii "root"] twoFiles) (overB .hardLink)).result.1
        = .error (.extract (ascii "b") (.failed (.ofKind .alreadyExists))) ∧
      (treeAfter [ascii "root"] twoFiles (overB .hardLink)).lookup [ascii "root", ascii "b"]
        = twoFiles.lookup [ascii "root", ascii "b"] := by
  decide +kernel

/-- The first entry of `overB kind`. -/
theorem readEntry_overB (kind : EntryKind)
    (hkind : kind = .regular ∨ kind = .symlink ∨ kind = .hardLink) :
    ∃ next c₁ out, (readEntry 0).Plays ⟨0, overB kind⟩ (some next) c₁ out ∧
      next.1.path = ascii "b" ∧ next.1.header.kind = kind ∧
      next.1.linkName = some (ascii "a") ∧ next.1.content = [.stored 0] := by
  have hfacts : ((Relay.run ((readEntry 0).run 0) (overB kind)).result.toOption.bind fun r =>
        r.1.map fun next => (next.1.path, next.1.header.kind, next.1.linkName, next.1.content))
      = some (ascii "b", kind, some (ascii "a"), [.stored 0]) := by
    rcases hkind with rfl | rfl | rfl
    · decide +kernel
    · decide +kernel
    · decide +kernel
  obtain ⟨⟨_, position⟩, hr, ho⟩ := Option.bind_eq_some_iff.mp hfacts
  obtain ⟨next, rfl, hnext⟩ := Option.map_eq_some_iff.mp ho
  simp only [Prod.mk.injEq] at hnext
  exact ⟨next, ⟨position, _⟩, _, ⟨eq_ok_of_toOption hr, rfl, rfl⟩, hnext⟩

theorem occupied_twoFiles :
    Occupied twoFiles [ascii "root"] [ascii "root"] [ascii "b"]
      (.file { id := 1, data := ascii "two" }) where
  closed := by decide
  named := by decide
  start := by rfl
  found := by rfl
  occupant := by decide
  apart := by rfl

/-- There the run goes on behind the file and the symbolic link, with the new node in place, and
fails at the hard link. -/
theorem over_second_file :
    (∃ next c₁ out t, ∃ c₂ : Spot Source,
      (readEntry 0).Plays ⟨0, overB .regular⟩ (some next) c₁ out ∧
      (Relay.run (applyEntries [ascii "root"] 0 0 { tree := twoFiles }) (overB .regular)).result
        = (Relay.run (applyEntries [ascii "root"] next.1.next c₂.position
          (Progress.unpacked { tree := twoFiles } next.1 t)) c₂.reader).result ∧
      t.lookup [ascii "root", ascii "b"] = some (fileNode 2 next.1.header [])) ∧
    (∃ next c₁ out t, (readEntry 0).Plays ⟨0, overB .symlink⟩ (some next) c₁ out ∧
      (Relay.run (applyEntries [ascii "root"] 0 0 { tree := twoFiles }) (overB .symlink)).result
        = (Relay.run (applyEntries [ascii "root"] next.1.next c₁.position
          (Progress.unpacked { tree := twoFiles } next.1 t)) c₁.reader).result ∧
      t.lookup [ascii "root", ascii "b"] = some (.symlink (ascii "a"))) ∧
    (Relay.run (applyEntries [ascii "root"] 0 0 { tree := twoFiles }) (overB .hardLink)).result
      = (.error (.extract (ascii "b") (.failed (.ofKind .alreadyExists))), twoFiles) := by
  have honly : ∀ kind, (overB kind).OnlyData := fun kind => Source.onlyData_ofBytes _
  have hw : whiteout? (ascii "b") = none := by decide
  have hup : Path.hasUp (ascii "b") = false := by decide
  have hnames : Path.names (ascii "b") = [ascii "b"] := by decide
  have htarget : Path.components (ascii "a") ≠ [] := by decide
  refine ⟨?_, ?_, ?_⟩
  · obtain ⟨next, c₁, out, hread, hpath, hkind, _, hcontent⟩ :=
      readEntry_overB .regular (by decide)
    have hfile : IsFile next.1 := by
      refine ⟨?_, by rw [hkind]; rfl, by rw [hkind]; rfl⟩
      have hslash : Path.endsWithSlash (ascii "b") = false := by decide
      rw [Unpack.isDirectory, hkind, hpath, hslash, Bool.and_false]
      rfl
    have h := entry_over_occupant Source.gives (honly .regular) hread (by rwa [hpath])
      (by rwa [hpath]) (p := { tree := twoFiles }) (by rw [hpath, hnames]; exact occupied_twoFiles)
    obtain ⟨t, c₂, hrun, _, _, hnode⟩ := h.1 hfile (by rw [hcontent]; exact ⟨Nat.zero_le _, trivial⟩)
    rw [hpath, hnames, hcontent] at hnode
    exact ⟨next, c₁, out, t, c₂, hread, hrun, hnode⟩
  · obtain ⟨next, c₁, out, hread, hpath, hkind, hlink, _⟩ :=
      readEntry_overB .symlink (by decide)
    have h := entry_over_occupant Source.gives (honly .symlink) hread (by rwa [hpath])
      (by rwa [hpath]) (p := { tree := twoFiles }) (by rw [hpath, hnames]; exact occupied_twoFiles)
    obtain ⟨t, hrun, _, hnode⟩ := h.2.1 hkind _ hlink htarget ⟨by decide, by decide, by decide⟩
    rw [hpath, hnames] at hnode
    exact ⟨next, c₁, out, t, hread, hrun, hnode⟩
  · obtain ⟨next, c₁, out, hread, hpath, hkind, hlink, _⟩ :=
      readEntry_overB .hardLink (by decide)
    have h := entry_over_occupant Source.gives (honly .hardLink) hread (by rwa [hpath])
      (by rwa [hpath]) (p := { tree := twoFiles }) (by rw [hpath, hnames]; exact occupied_twoFiles)
    have hrun := h.2.2 hkind _ hlink htarget
      ⟨[ascii "root"], [ascii "root", ascii "a"], by rfl, by rfl, by decide⟩
    rwa [hpath] at hrun

end Extract
end ContainerLayer
