import ContainerLayer.Proofs.Extract.Containment

/-
What the whiteout for all of a directory spares.

It goes by the names of the paths that earlier entries had, and not by what these
entries put into the tree.  A directory that was only made on the way to an entry, or
that was reached by another path, is not among the names, and goes with everything in
it, although the archive itself put it there (`opaque_whiteout_spares`).  Only where a
link on the way to the directory goes before the rest of it, some of that may be left.
-/

namespace ContainerLayer
namespace Extract

open Tar ContainerLayer.Tree

/-- One of the steps unpacked an ordinary entry with the path that `names` spell. -/
def Named (xs : List Step) (names : List Bytes) : Prop :=
  ∃ y ∈ xs, whiteout? y.entry.path = none ∧ Path.names y.entry.path = names

theorem Applies.mem_applied {root : PathParts} {e : Entry} {p p' : Progress}
    (h : Applies root e p none p') {names : List Bytes} :
    names ∈ p'.applied
      ↔ names ∈ p.applied ∨ (whiteout? e.path = none ∧ Path.names e.path = names) := by
  cases h with
  | removed hw _ => simp [hw]
  | unpacked hw _ _ => simp [hw, or_comm, eq_comm]

/-- The progress lists the paths of the ordinary entries so far. -/
theorem Linked.mem_applied {root : PathParts} {p : Progress} {xs ys : List Step} {x : Step}
    (h : Linked root p (xs ++ x :: ys)) {names : List Bytes} :
    names ∈ x.before.applied ↔ names ∈ p.applied ∨ Named xs names := by
  induction xs generalizing p with
  | nil =>
    obtain ⟨rfl, _⟩ := h
    simp [Named]
  | cons y xs ih =>
    obtain ⟨rfl, ha, hf, hrest⟩ := h
    -- more steps come, so this one did not fail
    rw [hf.resolve_right (by simp)] at ha
    rw [ih hrest, ha.mem_applied, or_assoc]
    simp only [Named, List.mem_cons, exists_eq_or_imp]

theorem Linked.spared_iff {root : PathParts} {t : Tree} {xs ys : List Step} {x : Step}
    (h : Linked root { tree := t } (xs ++ x :: ys)) {names rest : List Bytes} :
    Spared x.before.applied names rest ↔ ∀ q, q <+: rest → q ≠ [] → Named xs (names ++ q) := by
  refine forall_congr' fun q => forall_congr' fun _ => forall_congr' fun _ => ?_
  rw [h.mem_applied]
  simp

/-- A whiteout for all of a directory keeps the way there if there are no links on it. -/
theorem Step.keepsWay_of_straight {root : PathParts} {x : Step}
    (h : Applies root x.entry x.before x.failure x.after) (hx : x.before.tree.Closed)
    (hs : x.before.tree.Straight (root ++ Path.names (Path.parent x.entry.path))) :
    x.KeepsWay root :=
  fun hw _ hd => opens_of_straight hx (h.closed hx) hs hd (h.loses hx hw)

section Carried

variable {root : PathParts} {t : Tree} {earlier later : List Step} {x : Step}

/-- What earlier entries named is kept, if they named each directory on the way down to it. -/
theorem Linked.kept_of_named (h : Linked root { tree := t } (earlier ++ x :: later))
    (ht : t.Closed) (hw : whiteout? x.entry.path = some .lower) {k : Location}
    (hk : ∀ d rest,
      x.before.tree.openDirectory (root ++ Path.names (Path.parent x.entry.path)) = .ok d →
      k = d ++ rest → ∀ q, q <+: rest → q ≠ [] →
        Named earlier (Path.names (Path.parent x.entry.path) ++ q)) :
    x.after.tree.lookup k = x.before.tree.lookup k := by
  have hmem : x ∈ earlier ++ x :: later := by simp
  refine ((h.applies x hmem).loses (h.closed ht x hmem) hw).eq_of_not ?_
  rintro ⟨d, hd, rest, hrest, hs⟩
  exact hs (h.spared_iff.mpr (hk d rest hd hrest))

/-- What is at a place that no earlier entry named is gone, and what is below it. -/
theorem Linked.gone_of_not_named (h : Linked root { tree := t } (earlier ++ x :: later))
    (ht : t.Closed) (hw : whiteout? x.entry.path = some .lower) (hx : x.failure = none)
    (hway : x.KeepsWay root) {d : Location}
    (hd : x.before.tree.openDirectory (root ++ Path.names (Path.parent x.entry.path)) = .ok d)
    {q rest : List Bytes} (hq : q <+: rest) (hne : q ≠ []) (hplain : ∀ n ∈ q, IsPlain n)
    (hn : ¬ Named earlier (Path.names (Path.parent x.entry.path) ++ q)) :
    x.after.tree.lookup (d ++ rest) = none := by
  have hmem : x ∈ earlier ++ x :: later := by simp
  have happlies := h.applies x hmem
  have hclosed := h.closed ht x hmem
  have hremove := happlies.remove_eq hw
  rw [hx] at hremove
  have hnone := gone_of_clearIn lists_children hclosed (run_clear_of_remove hw hremove)
    (hway hw d hd) hplain fun hs => hn (h.spared_iff.mp hs q List.prefix_rfl hne)
  obtain ⟨more, rfl⟩ := hq
  rw [← List.append_assoc]
  refine Classical.byContradiction fun hthere => ?_
  by_cases hmore : more = []
  · rw [hmore, List.append_nil] at hthere
    exact hthere hnone
  · exact ne_none_of_isDirectory
      ((happlies.closed hclosed).isDirectory_of_append hthere hmore) hnone

end Carried

/-- What a whiteout for all of a directory does when it is carried out.  Where the directory
is at `d`, a place below it is left as it was if each place on the way down to it was named by
an earlier ordinary entry, and is gone otherwise; nothing else is changed.  So of what an
earlier entry put there, the whiteout spares just what has no directory on its way that was
only made for an entry below it.  That it is gone takes that the directory can still be opened by
its path afterwards, as it always can if there are no links on the way. -/
theorem opaque_whiteout_spares {σ : Type} [Reader σ] {t : Tree} (ht : t.Closed)
    {root : PathParts} {s : σ} {earlier later : List Step} {x : Step}
    (h : archiveHistory root t s = earlier ++ x :: later)
    (hw : whiteout? x.entry.path = some .lower) (hx : x.failure = none) :
    let names := Path.names (Path.parent x.entry.path)
    (∀ k, (∀ d rest, x.before.tree.openDirectory (root ++ names) = .ok d → k = d ++ rest →
          ∀ q, q <+: rest → q ≠ [] → Named earlier (names ++ q)) →
        x.after.tree.lookup k = x.before.tree.lookup k) ∧
      (x.KeepsWay root → ∀ d rest q, x.before.tree.openDirectory (root ++ names) = .ok d →
        q <+: rest → q ≠ [] → (∀ n ∈ q, IsPlain n) → ¬ Named earlier (names ++ q) →
        x.after.tree.lookup (d ++ rest) = none) ∧
      (x.KeepsWay root → ∀ y ∈ earlier, whiteout? y.entry.path = none →
        ∀ d rest, x.before.tree.openDirectory (root ++ names) = .ok d →
          Path.names y.entry.path = names ++ rest → x.before.tree.lookup (d ++ rest) ≠ none →
          (x.after.tree.lookup (d ++ rest) = x.before.tree.lookup (d ++ rest)
            ↔ ∀ q, q <+: rest → q ≠ [] → q ≠ rest → Named earlier (names ++ q))) ∧
      (x.before.tree.Straight (root ++ names) → x.KeepsWay root) := by
  intro names
  have hlinked : Linked root { tree := t } (earlier ++ x :: later) :=
    h ▸ linked_history 0 0 { tree := t } s
  have hmem : x ∈ earlier ++ x :: later := by simp
  refine ⟨fun k hk => hlinked.kept_of_named ht hw hk, fun hway d rest q hd hq hne hplain hn =>
    hlinked.gone_of_not_named ht hw hx hway hd hq hne hplain hn,
    fun hway y hy hyw d rest hd hyn hthere => ⟨fun hsame q hq hne _ => ?_, fun hall => ?_⟩,
    Step.keepsWay_of_straight (hlinked.applies x hmem) (hlinked.closed ht x hmem)⟩
  · refine Classical.byContradiction fun hn => hthere ?_
    rw [← hsame]
    refine hlinked.gone_of_not_named ht hw hx hway hd hq hne (fun n hnq => ?_) hn
    exact Path.isPlain_of_mem_names (hyn ▸ List.mem_append_right names (hq.subset hnq))
  · refine hlinked.kept_of_named ht hw fun d' rest' hd' he q hq hne => ?_
    obtain rfl := Except.ok.inj (hd.symm.trans hd')
    obtain rfl := List.append_cancel_left he
    by_cases hlast : q = rest
    · exact ⟨y, hy, hyw, by rw [hyn, hlast]⟩
    · exact hall q hq hne hlast

/-- An empty directory to unpack to. -/
def freshRoot : Tree where
  nodes := [([], .directory 0o755), ([ascii "root"], .directory 0o755)]

/-- A file two directories down, neither of which is an entry. -/
def deepFile : Bytes := emptyMember .regular (ascii "a/b/f") []

/-- The file, and a whiteout for all of the directory in which its directory is. -/
def deepFileThenWhiteout : Bytes := deepFile ++ emptyMember .regular (ascii "a/.wh..wh..opq") []

/-- The whiteout removes the file that the archive itself put there, and does not fail. -/
theorem opaque_whiteout_removes_own_file :
    ((treeAfter [ascii "root"] freshRoot (Source.ofBytes deepFile)).lookup
        [ascii "root", ascii "a", ascii "b", ascii "f"]).isSome = true ∧
      (Relay.run (applyArchive [ascii "root"] freshRoot)
        (Source.ofBytes deepFileThenWhiteout)).result.1.toOption = some 2 ∧
      (treeAfter [ascii "root"] freshRoot (Source.ofBytes deepFileThenWhiteout)).lookup
        [ascii "root", ascii "a", ascii "b", ascii "f"] = none := by
  decide +kernel

/-- What the whiteout does there is what it does everywhere: the directory on the way to the
file was not named, so the file is gone. -/
theorem opaque_whiteout_spares_no_unnamed :
    ∃ y x, archiveHistory [ascii "root"] freshRoot (Source.ofBytes deepFileThenWhiteout) = [y, x] ∧
      whiteout? x.entry.path = some .lower ∧ x.failure = none ∧
      ¬ Named [y] [ascii "a", ascii "b"] ∧
      x.after.tree.lookup [ascii "root", ascii "a", ascii "b", ascii "f"] = none := by
  have hfacts : (archiveHistory [ascii "root"] freshRoot
      (Source.ofBytes deepFileThenWhiteout)).map (fun x => (x.entry.path, x.failure.isNone,
        (x.before.tree.openDirectory [ascii "root", ascii "a"]).toOption,
        (x.after.tree.openDirectory [ascii "root", ascii "a"]).toOption))
        = [(ascii "a/b/f", true, none, some [ascii "root", ascii "a"]),
          (ascii "a/.wh..wh..opq", true, some [ascii "root", ascii "a"],
            some [ascii "root", ascii "a"])] := by decide +kernel
  obtain ⟨y, _, hy, hfirst, hrest⟩ := List.map_eq_cons_iff.mp hfacts
  obtain ⟨x, rfl, hsecond⟩ := List.map_eq_singleton_iff.mp hrest
  simp only [Prod.mk.injEq] at hfirst hsecond
  obtain ⟨hyp, _, _⟩ := hfirst
  obtain ⟨hxp, hf, hopen, hopen'⟩ := hsecond
  have hw : whiteout? x.entry.path = some .lower := by
    rw [hxp]
    decide
  have hfailure : x.failure = none := Option.isNone_iff_eq_none.mp hf
  have hunnamed : ¬ Named [y] [ascii "a", ascii "b"] := by
    intro h
    obtain ⟨z, hz, _, hn⟩ := h
    rw [List.mem_singleton.mp hz, hyp] at hn
    revert hn
    decide
  have hd := eq_ok_of_toOption hopen
  have hnames : Path.names (Path.parent x.entry.path) = [ascii "a"] := by
    rw [hxp]
    decide
  have hsplit : archiveHistory [ascii "root"] freshRoot (Source.ofBytes deepFileThenWhiteout)
      = [y] ++ x :: [] := hy
  have hway : x.KeepsWay [ascii "root"] := by
    intro _ d hd'
    rw [hnames] at hd' ⊢
    obtain rfl := Except.ok.inj (hd.symm.trans hd')
    exact eq_ok_of_toOption hopen'
  have h := (opaque_whiteout_spares (by decide) hsplit hw hfailure).2.1 hway
  rw [hnames] at h
  exact ⟨y, x, hy, hw, hfailure, hunnamed,
    h [ascii "root", ascii "a"] [ascii "b", ascii "f"] [ascii "b"] hd (by decide) (by decide)
      (List.forall_mem_singleton.mpr ⟨by decide, by decide⟩) hunnamed⟩

end Extract
end ContainerLayer
