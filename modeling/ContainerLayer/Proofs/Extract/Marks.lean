import ContainerLayer.Proofs.Extract.Opaque
import ContainerLayer.Proofs.Path.Spelling
import ContainerLayer.Proofs.Unpack.Making

/-
Names with the mark of a whiteout, and what a run makes under them.

An entry is taken for a whiteout by the last of its names.  Nothing is therefore ever put
at the place of an entry under a name with the mark (`Applies.marked`).  But a name
further to the front of an ordinary entry's path may have the mark, too, and a directory
that is missing there is made under it like under any other name
(`mark_made_for_entry_below`).
-/

namespace ContainerLayer
namespace Extract

open Tar ContainerLayer.Tree

theorem ofName?_ne_none {name : Bytes} (h : Whiteout.mark <+: name) :
    Whiteout.ofName? name ≠ none := by
  obtain ⟨rest, rfl⟩ := h
  have hdrop : (Whiteout.mark ++ rest).dropPrefix? Whiteout.mark = some rest := by
    simp [Bytes.dropPrefix?]
  unfold Whiteout.ofName?
  rw [hdrop]
  dsimp only
  split
  · simp
  · split <;> simp

/-- The last name of an ordinary entry has no mark. -/
theorem getLast?_names_ne {path name : Bytes} (hw : whiteout? path = none)
    (hup : Path.hasUp path = false) (hm : Whiteout.mark <+: name) :
    (Path.names path).getLast? ≠ some name := by
  intro h
  rw [← Path.fileName_eq_getLast? hup] at h
  rw [whiteout?, h] at hw
  exact ofName?_ne_none hm hw

/-- There was nothing under `name` in `l`, and the step's ordinary entry made a directory there
that was missing on the way to it. -/
def Step.MakesWay (x : Step) (l : Location) (name : Bytes) : Prop :=
  whiteout? x.entry.path = none ∧ name ∈ (Path.names x.entry.path).dropLast ∧
    x.before.tree.lookup (l ++ [name]) = none ∧ x.after.tree.isDirectory (l ++ [name]) = true

/-- What a step does under a name with the mark. -/
theorem Step.marked {root : PathParts} {x : Step}
    (h : Applies root x.entry x.before x.failure x.after) (hx : x.before.tree.Closed)
    {l : Location} {name : Bytes} (hm : Whiteout.mark <+: name) :
    x.after.tree.lookup (l ++ [name]) = x.before.tree.lookup (l ++ [name]) ∨
      x.after.tree.lookup (l ++ [name]) = none ∨ x.MakesWay l name := by
  obtain ⟨e, p, p', failure⟩ := x
  dsimp only at h hx ⊢
  have hordinary : ∀ {fault t}, whiteout? e.path = none → Path.hasUp e.path = false →
      Unpack.Unpacks root e p.tree fault t → p'.tree = t →
      p'.tree.lookup (l ++ [name]) = p.tree.lookup (l ++ [name]) ∨
        p'.tree.lookup (l ++ [name]) = none ∨ Step.MakesWay ⟨e, p, p', failure⟩ l name := by
    rintro fault _ hw hup hu rfl
    rcases hu.makes hx l name (getLast?_names_ne hw hup hm) with he | ⟨h₁, h₂, h₃⟩
    · exact .inl he
    · exact .inr (.inr ⟨hw, h₃, h₁, h₂⟩)
  cases h with
  | removed hw h => exact (((Applies.removed hw h).loses hx hw).none_or_eq _).symm.imp_right .inl
  | refused hw h => exact (((Applies.refused hw h).loses hx hw).none_or_eq _).symm.imp_right .inl
  | escapes _ _ => exact .inl rfl
  | failed hw hup h => exact hordinary hw hup h rfl
  | unpacked hw hup h => exact hordinary hw hup h rfl

theorem Linked.marked {root : PathParts} {p : Progress} {xs : List Step} (h : Linked root p xs)
    (hp : p.tree.Closed) {l : Location} {name : Bytes} (hm : Whiteout.mark <+: name)
    (hthere : (finalTree p.tree xs).lookup (l ++ [name]) ≠ none) :
    (finalTree p.tree xs).lookup (l ++ [name]) = p.tree.lookup (l ++ [name]) ∨
      ∃ x ∈ xs, x.MakesWay l name ∧
        (finalTree p.tree xs).lookup (l ++ [name]) = x.after.tree.lookup (l ++ [name]) := by
  induction xs generalizing p with
  | nil => exact .inl rfl
  | cons x xs ih =>
    obtain ⟨rfl, ha, _, hrest⟩ := h
    rw [finalTree] at hthere ⊢
    rcases ih hrest (ha.closed hp) hthere with heq | ⟨y, hy, hmade⟩
    · rcases Step.marked ha hp hm with hsame | hgone | hmade
      · exact .inl (heq.trans hsame)
      · exact absurd (heq.trans hgone) hthere
      · exact .inr ⟨x, List.mem_cons_self, hmade, heq⟩
    · exact .inr ⟨y, List.mem_cons_of_mem x hy, hmade⟩

theorem Linked.closed_finalTree {root : PathParts} {p : Progress} {xs : List Step}
    (h : Linked root p xs) (hp : p.tree.Closed) : (finalTree p.tree xs).Closed := by
  induction xs generalizing p with
  | nil => exact hp
  | cons x xs ih =>
    obtain ⟨rfl, ha, _, hrest⟩ := h
    exact ih hrest (ha.closed hp)

/-- Whatever comes of applying an archive, a path with a marked name in it that leads somewhere
afterwards has led as far as that name before, and there is still there what was there then; or
as far as that name it leads to a directory that was missing on the way to an ordinary entry of
the archive, one with the marked name in front of its last one. -/
theorem applyArchive_marked {σ : Type} [Reader σ] {t : Tree} (ht : t.Closed) {root : PathParts}
    (s : σ) {l rest : Location} {name : Bytes} (hm : Whiteout.mark <+: name)
    (hthere : (treeAfter root t s).lookup (l ++ name :: rest) ≠ none) :
    (t.lookup (l ++ [name]) ≠ none ∧
        (treeAfter root t s).lookup (l ++ [name]) = t.lookup (l ++ [name])) ∨
      ∃ x ∈ archiveHistory root t s, x.MakesWay l name ∧
        (treeAfter root t s).lookup (l ++ [name]) = x.after.tree.lookup (l ++ [name]) := by
  rw [treeAfter_eq] at hthere ⊢
  have hlinked : Linked root { tree := t } (archiveHistory root t s) :=
    linked_history 0 0 { tree := t } s
  have hname : (finalTree t (archiveHistory root t s)).lookup (l ++ [name]) ≠ none := by
    rw [List.append_cons] at hthere
    by_cases hrest : rest = []
    · rwa [hrest, List.append_nil] at hthere
    · exact ne_none_of_isDirectory
        ((hlinked.closed_finalTree ht).isDirectory_of_append hthere hrest)
  rcases hlinked.marked ht hm hname with heq | hmade
  · exact .inl ⟨heq ▸ hname, heq⟩
  · exact .inr hmade

/-- A file in a directory with the mark in its name. -/
def fileBelowMark : Bytes := emptyMember .regular (ascii ".wh.x/f") []

/-- The archive makes a directory with the mark in its name. -/
theorem mark_made_for_entry_below :
    ¬ ∀ (t : Tree) (root : PathParts) (r : Location) (data : Bytes), t.Closed →
      t.canonicalize root = .ok r → ∀ below name, name ∈ below → Whiteout.mark <+: name →
        (treeAfter root t (Source.ofBytes data)).lookup (r ++ below) ≠ none →
        t.lookup (r ++ below) ≠ none := by
  intro h
  have := h freshRoot [ascii "root"] [ascii "root"] fileBelowMark (by decide) (by rfl)
    [ascii ".wh.x"] (ascii ".wh.x") (by decide) (by decide)
  revert this
  decide +kernel

/-- What is made there is made on the way to an ordinary entry. -/
theorem mark_made_on_the_way :
    freshRoot.Closed ∧ freshRoot.lookup [ascii "root", ascii ".wh.x"] = none ∧
      ∃ x ∈ archiveHistory [ascii "root"] freshRoot (Source.ofBytes fileBelowMark),
        x.MakesWay [ascii "root"] (ascii ".wh.x") := by
  have hclosed : freshRoot.Closed := by decide
  have hfree : freshRoot.lookup [ascii "root", ascii ".wh.x"] = none := by decide
  have hmark : Whiteout.mark <+: ascii ".wh.x" := by decide
  have hthere : (treeAfter [ascii "root"] freshRoot (Source.ofBytes fileBelowMark)).lookup
      ([ascii "root"] ++ ascii ".wh.x" :: [ascii "f"]) ≠ none := by decide +kernel
  rcases applyArchive_marked hclosed (Source.ofBytes fileBelowMark) hmark hthere with h | h
  · exact absurd hfree h.1
  · obtain ⟨x, hx, hmade, _⟩ := h
    exact ⟨hclosed, hfree, x, hx, hmade⟩

end Extract
end ContainerLayer
