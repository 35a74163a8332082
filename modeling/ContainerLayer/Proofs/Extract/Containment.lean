import ContainerLayer.Proofs.Extract.History

/-
What a run changes outside of the directory that it unpacks to.

Ordinary entries change nothing outside: they are unpacked where their directory was
just found to be inside.  Whiteouts are not looked after like that.  Their paths are
kept from leading upwards as texts, but the tree may lead them elsewhere by symbolic
links, and what they name there is removed.  So nothing outside is changed if no
whiteout of the run reaches outside, and if one does, that shows
(`applyArchive_outside`).
-/

namespace ContainerLayer
namespace Extract

open Tar ContainerLayer.Tree

namespace Step

/-- The step is a whiteout, and what is at `k` is among what it may take away. -/
def Takes (root : PathParts) (x : Step) (k : Location) : Prop :=
  Path.hasUp x.entry.path = false ∧ ∃ w, whiteout? x.entry.path = some w ∧
    Extract.Takes x.before.applied root x.entry.path w x.before.tree k

/-- The step may take away something that is not below `r`. -/
def ReachesOutside (root : PathParts) (r : Location) (x : Step) : Prop :=
  ∃ k, ¬ Below r k ∧ x.before.tree.lookup k ≠ none ∧ x.Takes root k

/-- If the step is a whiteout for all of a directory, that can be opened by its path afterwards as
it could before. -/
def KeepsWay (root : PathParts) (x : Step) : Prop :=
  whiteout? x.entry.path = some .lower → ∀ d,
    x.before.tree.openDirectory (root ++ Path.names (Path.parent x.entry.path)) = .ok d →
    x.after.tree.openDirectory (root ++ Path.names (Path.parent x.entry.path)) = .ok d

/-- The step is carried out, loses no way, and takes away something that is not below `r`. -/
def RemovesOutside (root : PathParts) (r : Location) (x : Step) : Prop :=
  x.failure = none ∧ x.KeepsWay root ∧
    ∃ k, ¬ Below r k ∧ (∀ n ∈ k, IsPlain n) ∧ x.before.tree.lookup k ≠ none ∧ x.Takes root k

end Step

/-- A step takes nothing away but by a whiteout, and puts nothing outside. -/
theorem shrinksOutside_of_applies {root : PathParts} {e : Entry} {p p' : Progress}
    {failure : Option LayerError} {r : Location} (h : Applies root e p failure p')
    (hp : p.tree.Closed) (hroot : p.tree.OnlyTo root r) : ShrinksOutside r p.tree p'.tree := by
  cases hw : whiteout? e.path with
  | some w => exact (h.loses hp hw).shrinksOutside r
  | none => exact (h.sameOutside hp hroot hw).shrinks

/-- A step changes nothing outside unless it is a whiteout that reaches there. -/
theorem Step.sameOutside_of_not_reachesOutside {root : PathParts} {x : Step} {r : Location}
    (h : Applies root x.entry x.before x.failure x.after) (hx : x.before.tree.Closed)
    (hroot : x.before.tree.OnlyTo root r) (hnot : ¬ x.ReachesOutside root r) :
    SameOutside r x.before.tree x.after.tree := by
  cases hw : whiteout? x.entry.path with
  | none => exact h.sameOutside hx hroot hw
  | some w =>
    cases hup : Path.hasUp x.entry.path with
    | true =>
      have hremove := remove_of_hasUp x.before.applied root x.before.tree hw hup
      rw [h.remove_eq hw] at hremove
      rw [show x.after.tree = x.before.tree from hremove]
      exact SameOutside.refl r _
    | false =>
      exact (h.loses hx hw).sameOutside fun k hk hn ht => hnot ⟨k, hk, hn, hup, w, hw, ht⟩

/-- What a whiteout takes away is gone once it is carried out, if it loses no way. -/
theorem Step.gone_of_takes {root : PathParts} {x : Step}
    (h : Applies root x.entry x.before x.failure x.after) (hx : x.before.tree.Closed)
    (hdone : x.failure = none) (hway : x.KeepsWay root) {k : Location} (hk : ∀ n ∈ k, IsPlain n)
    (ht : x.Takes root k) : x.after.tree.lookup k = none := by
  obtain ⟨-, w, hw, ht⟩ := ht
  have hremove := h.remove_eq hw
  rw [hdone] at hremove
  cases w with
  | invalid => exact ht.elim
  | file name => exact ((without_of_remove hx hw hremove).1 k).1 ht
  | lower =>
    obtain ⟨d, hd, rest, rfl, hs⟩ := ht
    exact gone_of_clearIn lists_children hx (run_clear_of_remove hw hremove) (hway hw d hd)
      (fun n hn => hk n (List.mem_append_right d hn)) hs

theorem Step.RemovesOutside.not_sameOutside {root : PathParts} {x : Step} {r : Location}
    (hr : x.RemovesOutside root r) (h : Applies root x.entry x.before x.failure x.after)
    (hx : x.before.tree.Closed) : ¬ SameOutside r x.before.tree x.after.tree := by
  intro hsame
  obtain ⟨hdone, hway, k, hk, hplain, hthere, ht⟩ := hr
  rw [← hsame k hk] at hthere
  exact hthere (Step.gone_of_takes h hx hdone hway hplain ht)

theorem outside_of_linked {root : PathParts} {r : Location} {p : Progress} {xs : List Step}
    (h : Linked root p xs) (hp : p.tree.Closed) (hroot : p.tree.OnlyTo root r) :
    ShrinksOutside r p.tree (finalTree p.tree xs) ∧
      ((∀ x ∈ xs, ¬ x.ReachesOutside root r) → SameOutside r p.tree (finalTree p.tree xs)) ∧
      ((∃ x ∈ xs, x.RemovesOutside root r) → ¬ SameOutside r p.tree (finalTree p.tree xs)) := by
  induction xs generalizing p with
  | nil =>
    have hsame := SameOutside.refl r p.tree
    exact ⟨hsame.shrinks, fun _ => hsame, by simp⟩
  | cons x xs ih =>
    obtain ⟨rfl, ha, _, hrest⟩ := h
    obtain ⟨hclosed, honly⟩ := ha.closed_and_onlyTo hp hroot
    have hone := shrinksOutside_of_applies ha hp hroot
    obtain ⟨ih₁, ih₂, ih₃⟩ := ih hrest hclosed honly
    rw [finalTree]
    refine ⟨hone.trans ih₁, fun hnot => ?_, fun hremoves hsame => ?_⟩
    · obtain ⟨hx, hxs⟩ := List.forall_mem_cons.mp hnot
      exact (Step.sameOutside_of_not_reachesOutside ha hp hroot hx).trans (ih₂ hxs)
    · obtain ⟨hfirst, hlater⟩ := (hone.sameOutside_trans_iff ih₁).mp hsame
      obtain ⟨y, hy, hr⟩ := hremoves
      rcases List.mem_cons.mp hy with rfl | hy
      · exact hr.not_sameOutside ha hp hfirst
      · exact ih₃ ⟨y, hy, hr⟩ hlater

/-- What applying an archive changes outside of the directory: nothing is put or altered
there, whatever comes of the run, and nothing is removed there if no whiteout of the run reaches
outside.  If one does and is carried out, something is removed there, unless it is one for all of
a directory that has lost the way to that directory. -/
theorem applyArchive_outside {σ : Type} [Reader σ] {t : Tree} (ht : t.Closed) {root : PathParts}
    {r : Location} (hroot : t.canonicalize root = .ok r) (s : σ) :
    ShrinksOutside r t (treeAfter root t s) ∧
      ((∀ x ∈ archiveHistory root t s, ¬ x.ReachesOutside root r) →
        SameOutside r t (treeAfter root t s)) ∧
      ((∃ x ∈ archiveHistory root t s, x.RemovesOutside root r) →
        ¬ SameOutside r t (treeAfter root t s)) := by
  rw [treeAfter_eq]
  exact outside_of_linked (p := { tree := t }) (linked_history 0 0 { tree := t } s) ht
    (onlyTo_of_canonicalize hroot)

/-! ## A way out -/

/-- A directory with a link in it that leads above it, and a file beside it. -/
def linkedOut : Tree where
  nodes := [
    ([], .directory 0o755),
    ([ascii "root"], .directory 0o755),
    ([ascii "root", ascii "link"], .symlink (ascii "..")),
    ([ascii "precious"], .file { id := 0, data := ascii "data" })]
  freshId := 1

/-- A whiteout whose directory is the link. -/
def whiteoutThroughLink : Bytes := emptyMember .regular (ascii "link/.wh.precious") []

/-- A whiteout below a link that leads out of the directory removes a file outside. -/
theorem whiteout_through_link_removes_outside :
    ¬ ∀ (t : Tree) (root : PathParts) (r : Location) (data : Bytes), t.Closed →
      t.canonicalize root = .ok r → SameOutside r t (treeAfter root t (Source.ofBytes data)) := by
  intro h
  have := h linkedOut [ascii "root"] [ascii "root"] whiteoutThroughLink (by decide +kernel) (by rfl)
    [ascii "precious"] (by decide)
  revert this
  decide +kernel

/-- In that run nothing is altered outside, and it is a whiteout that removes something there. -/
theorem whiteout_through_link_reachesOutside :
    linkedOut.Closed ∧ linkedOut.canonicalize [ascii "root"] = .ok [ascii "root"] ∧
      ShrinksOutside [ascii "root"] linkedOut
        (treeAfter [ascii "root"] linkedOut (Source.ofBytes whiteoutThroughLink)) ∧
      (∃ x ∈ archiveHistory [ascii "root"] linkedOut (Source.ofBytes whiteoutThroughLink),
        x.RemovesOutside [ascii "root"] [ascii "root"]) ∧
      ¬ SameOutside [ascii "root"] linkedOut
        (treeAfter [ascii "root"] linkedOut (Source.ofBytes whiteoutThroughLink)) := by
  have hclosed : linkedOut.Closed := by decide +kernel
  have hroot : linkedOut.canonicalize [ascii "root"] = .ok [ascii "root"] := by rfl
  have hfacts : (archiveHistory [ascii "root"] linkedOut
      (Source.ofBytes whiteoutThroughLink)).map (fun x => (x.entry.path, x.failure.isNone))
        = [(ascii "link/.wh.precious", true)] := by decide +kernel
  obtain ⟨x, hx, hfirst⟩ := List.map_eq_singleton_iff.mp hfacts
  obtain ⟨hpath, hnone⟩ := Prod.mk.inj hfirst
  have hw : whiteout? x.entry.path = some (.file (ascii "precious")) := by
    rw [hpath]
    decide
  have hremoves : x.RemovesOutside [ascii "root"] [ascii "root"] := by
    refine ⟨Option.isNone_iff_eq_none.mp hnone, fun hlower => ?_, [ascii "precious"], by decide, ?_,
      ?_, by rw [hpath]; decide, _, hw, [ascii "precious"],
      .file { id := 0, data := ascii "data" }, ?_, List.prefix_rfl, fun _ hd => by cases hd⟩
    · rw [hw] at hlower
      cases hlower
    · exact List.forall_mem_singleton.mpr ⟨by decide, by decide⟩
    · rw [before_of_cons hx]
      decide
    · rw [before_of_cons hx, hpath]
      rfl
  have hmem : x ∈ archiveHistory [ascii "root"] linkedOut (Source.ofBytes whiteoutThroughLink) := by
    rw [hx]
    exact List.mem_cons_self
  obtain ⟨hshrinks, _, hnot⟩ :=
    applyArchive_outside hclosed hroot (Source.ofBytes whiteoutThroughLink)
  exact ⟨hclosed, hroot, hshrinks, ⟨x, hmem, hremoves⟩, hnot ⟨x, hmem, hremoves⟩⟩

end Extract
end ContainerLayer
