import ContainerLayer.Proofs.Extract.Child
import ContainerLayer.Proofs.Extract.Opaque

/-
What is left of a directory that was cleared.

`Emptied` says it place by place, for a directory that is reached without symbolic links, however
deep it is and in whatever order the directories in it are listed (`clear_leaves`).  What is there
is told by its location only, so a symbolic link is a node like others: it goes, or it stays and
still is the same link, and nothing is done to what it leads to.
-/

namespace ContainerLayer
namespace Extract

open Tar ContainerLayer.Tree

/-- In `t'` the directory at `d`, which was reached by `names`, has nothing in it any more but
what was applied and is in directories that all were; the rest of `t` is as it was. -/
structure Emptied (applied : Applied) (d : Location) (names : List Bytes) (t t' : Tree) :
    Prop where
  spared : ∀ rest, (∀ q, q <+: rest → q ≠ [] → names ++ q ∈ applied) →
    t'.lookup (d ++ rest) = t.lookup (d ++ rest)
  gone : ∀ rest, (∀ n ∈ rest, IsPlain n) →
    ¬ (∀ q, q <+: rest → q ≠ [] → names ++ q ∈ applied) → t'.lookup (d ++ rest) = none
  outside : ∀ k, ¬ Below d k → t'.lookup k = t.lookup k

section Clearing

variable {order : Tree → Location → List Bytes} {applied : Applied} {root : PathParts}
variable {names : List Bytes} {t t' : Tree}

/-- A directory without links on the way to it is emptied by a clearing that comes to its end. -/
theorem emptied_of_clearIn (horder : ∀ u l, Lists u l (order u l)) (ht : t.Closed)
    (hs : t.Straight (root ++ names))
    (hrun : (clearIn order applied root names).run t = (.ok (), t')) :
    Emptied applied (root ++ names) names t t' := by
  obtain ⟨hclosed, hloses⟩ := loses_clearIn horder applied root names ht
  rw [hrun] at hclosed hloses
  have hlower : ∀ k, LowerAt applied root names t k → Lower applied (root ++ names) names k := by
    intro k hk
    obtain ⟨d, hd, hlower⟩ := hk
    rwa [hs.eq_of_openDirectory hd] at hlower
  refine ⟨fun rest hspared => hloses.eq_of_not fun hk => ?_, fun rest hplain hn => ?_,
    fun k hk => hloses.eq_of_not fun hk' => hk (hlower k hk').below⟩
  · obtain ⟨rest', e, hn⟩ := hlower _ hk
    rw [← List.append_cancel_left e] at hn
    exact hn hspared
  · cases hd : t.openDirectory (root ++ names) with
    | ok d =>
      obtain rfl := hs.eq_of_openDirectory hd
      exact gone_of_clearIn horder ht hrun (opens_of_straight ht hclosed hs hd hloses) hplain hn
    | error k =>
      -- clearing came to its end because there is nothing, and so there is nothing below
      have hk : k = .notFound := by
        refine Classical.byContradiction fun hk => ?_
        rw [run_clearIn_of_error hd hk] at hrun
        cases hrun
      rw [hk] at hd
      refine hloses.eq_none (ht.lookup_of_not_isDirectory ?_ (below_append ?_))
      · exact hs.not_isDirectory_of_notFound ht hd
      · rintro rfl
        exact hn (spared_nil applied names)

/-- Clearing changes nothing where there is nothing. -/
theorem run_clearIn_of_vacant (order : Tree → Location → List Bytes) (applied : Applied)
    (ht : t.Closed) (hs : t.Straight (root ++ names)) (hn : t.lookup (root ++ names) = none) :
    ((clearIn order applied root names).run t).2 = t ∧
      (((clearIn order applied root names).run t).1 = .ok ()
        ↔ Legal (root ++ names) ∧ ¬ t.Obstructed [] (root ++ names)) := by
  obtain ⟨hgood, hbad⟩ := hs.openDirectory_eq ht
  by_cases h : Legal (root ++ names) ∧ ¬ t.Obstructed [] (root ++ names)
  · rw [run_clearIn, hgood h, hn]
    exact ⟨rfl, fun _ => h, fun _ => rfl⟩
  · obtain ⟨k, hk, hopen⟩ := hbad h
    rw [run_clearIn_of_error hopen hk]
    refine ⟨rfl, fun e => ?_, fun hgood => absurd hgood h⟩
    cases e

end Clearing

/-- Clearing a directory to which no symbolic link leads, with `applied` any names of paths and
the children of each directory listed in any order.  If it comes to its end, it leaves
just what was applied in directories that were (`Emptied`).  It does come to its end if each name
below the directory can be looked up there.  If there is nothing at the path, nothing is changed,
and it comes to its end just if the path can be looked up: it is not too long, and neither is a
name that is looked up on the way, and only directories are on it as far as there is anything.
After a whiteout for all of such a directory, whatever is left there has the name of an earlier
entry. -/
theorem clear_leaves {t : Tree} (ht : t.Closed) (root : PathParts) :
    (∀ (order : Tree → Location → List Bytes) (applied : Applied) (names : List Bytes),
        (∀ u l, Lists u l (order u l)) → t.Straight (root ++ names) →
        let dir := root ++ names
        let run := (clearIn order applied root names).run t
        (run.1 = .ok () → Emptied applied dir names t run.2) ∧
          (t.openDirectory dir = .ok dir → (∀ front name,
              t.lookup (dir ++ front ++ [name]) ≠ none → Fits (dir ++ front) name) →
            run.1 = .ok ()) ∧
          (t.lookup dir = none →
            run.2 = t ∧ (run.1 = .ok () ↔ Legal dir ∧ ¬ t.Obstructed [] dir))) ∧
      ∀ {σ : Type} [Reader σ] (s : σ) (earlier later : List Step) (x : Step),
        archiveHistory root t s = earlier ++ x :: later →
        whiteout? x.entry.path = some .lower → x.failure = none →
        let names := Path.names (Path.parent x.entry.path)
        x.before.tree.Straight (root ++ names) → ∀ rest, rest ≠ [] → (∀ n ∈ rest, IsPlain n) →
        x.after.tree.lookup (root ++ names ++ rest) ≠ none → Named earlier (names ++ rest) := by
  refine ⟨fun order applied names horder hs =>
    ⟨fun hrun => ?_, fun hd hfits => ?_, fun hn => ?_⟩, ?_⟩
  · exact emptied_of_clearIn horder ht hs (Prod.ext hrun rfl)
  · exact clearIn_succeeds horder applied ht hs hd hfits
  · exact run_clearIn_of_vacant order applied ht hs hn
  · intro σ _ s earlier later x hhistory hw hx names hs rest hrest hplain hleft
    have hlinked : Linked root { tree := t } (earlier ++ x :: later) :=
      hhistory ▸ linked_history 0 0 { tree := t } s
    have hmem : x ∈ earlier ++ x :: later := by simp
    have hremove := (hlinked.applies x hmem).remove_eq hw
    rw [hx] at hremove
    have hemptied := emptied_of_clearIn lists_children (hlinked.closed ht x hmem) hs
      (run_clear_of_remove hw hremove)
    refine Classical.byContradiction fun hn => hleft (hemptied.gone rest hplain fun hall => hn ?_)
    exact hlinked.spared_iff.mp hall rest List.prefix_rfl hrest

/-- A directory with a file, a directory and a symbolic link in it, and a file beside it. -/
def lowerLayer : Tree where
  nodes := [
    ([], .directory 0o755),
    ([ascii "root"], .directory 0o755),
    ([ascii "root", ascii "dir"], .directory 0o755),
    ([ascii "root", ascii "dir", ascii "old"], .file { id := 0 }),
    ([ascii "root", ascii "dir", ascii "sub"], .directory 0o755),
    ([ascii "root", ascii "dir", ascii "sub", ascii "new"], .file { id := 1 }),
    ([ascii "root", ascii "dir", ascii "sub", ascii "old"], .file { id := 2 }),
    ([ascii "root", ascii "dir", ascii "link"], .symlink (ascii "/beside")),
    ([ascii "beside"], .file { id := 3 })]
  freshId := 4

/-- The directory `sub` and the file `new` were applied.  The last children are cleared first, and
all the same the two of them are left, the other files and the link are gone, and what the link
led to is there.  A directory that does not exist can be cleared, too. -/
theorem clear_leaves_lowerLayer :
    let applied : Applied := [[ascii "dir", ascii "sub"], [ascii "dir", ascii "sub", ascii "new"]]
    let order := fun (u : Tree) l => (u.children l).reverse
    let dir := [ascii "root", ascii "dir"]
    (∃ t', (clearIn order applied [ascii "root"] [ascii "dir"]).run lowerLayer = (.ok (), t') ∧
        t'.lookup (dir ++ [ascii "sub", ascii "new"]) = some (.file { id := 1 }) ∧
        t'.lookup (dir ++ [ascii "sub", ascii "old"]) = none ∧
        t'.lookup (dir ++ [ascii "link"]) = none ∧
        t'.lookup [ascii "beside"] = some (.file { id := 3 })) ∧
      (clear applied [ascii "root"] [ascii "missing", ascii "dir"]).run lowerLayer
        = (.ok (), lowerLayer) := by
  intro applied order dir
  have horder : ∀ u l, Lists u l (order u l) := fun u l name =>
    List.mem_reverse.trans (lists_children u l name)
  have hclear := (clear_leaves (show lowerLayer.Closed by decide) [ascii "root"]).1
  obtain ⟨hleaves, hsucceeds, -⟩ := hclear order applied [ascii "dir"] horder (by decide)
  obtain ⟨-, -, hvacant⟩ :=
    hclear Tree.children applied [ascii "missing", ascii "dir"] lists_children (by decide)
  obtain ⟨hsame, hiff⟩ := hvacant (by decide)
  have hrun := hsucceeds (by rfl) fun front name hthere => ?_
  · have hleft := hleaves hrun
    refine ⟨⟨_, Prod.ext hrun rfl, ?_, ?_, ?_, ?_⟩, Prod.ext (hiff.mpr ⟨?_, ?_⟩) hsame⟩
    · refine (hleft.spared [ascii "sub", ascii "new"] ?_).trans (by decide)
      exact spared_cons.mpr ⟨by decide, spared_cons.mpr ⟨by decide, spared_nil _ _⟩⟩
    · refine hleft.gone [ascii "sub", ascii "old"] ?_ fun hs => ?_
      · exact fun n hn => ⟨(by decide : ∀ n ∈ [ascii "sub", ascii "old"], n ≠ Path.dot) n hn,
          (by decide : ∀ n ∈ [ascii "sub", ascii "old"], n ≠ Path.dots) n hn⟩
      · exact absurd (hs [ascii "sub", ascii "old"] (List.prefix_refl _) (by decide)) (by decide)
    · refine hleft.gone [ascii "link"] (List.forall_mem_singleton.mpr ⟨by decide, by decide⟩)
        fun hs => ?_
      exact absurd (hs [ascii "link"] (List.prefix_refl _) (by decide)) (by decide)
    · exact (hleft.outside [ascii "beside"] (by decide)).trans (by decide)
    · exact ⟨by decide, by decide⟩
    · simp only [List.cons_append, List.nil_append, obstructed_cons, obstructed_nil, Blocked]
      decide
  · obtain ⟨p, hp, e⟩ := lookup_ne_none_iff.mp hthere
    have hfits : ∀ p ∈ lowerLayer.nodes, (p.1.any fun n => n.contains 0) = false ∧
        pathLength p.1 < maxPath ∧ ∀ n ∈ p.1, n.length ≤ maxName := by decide
    obtain ⟨hzero, hlong, hnames⟩ := hfits p hp
    rw [e] at hzero hlong hnames
    exact ⟨⟨hzero, hlong⟩, hnames name (by simp)⟩

/-- A name that is too long is looked up in a directory before anything can be missing.  So a
directory that does not exist is not cleared by such a name. -/
theorem clear_fails_for_length :
    ¬ ∀ (t : Tree) (applied : Applied) (root : PathParts) (names : List Bytes), t.Closed →
      t.Straight (root ++ names) → t.lookup (root ++ names) = none →
      (clear applied root names).run t = (.ok (), t) := by
  intro h
  have hrun := h freshRoot [] [ascii "root"] [longName] (by decide) (by decide +kernel)
    (by decide +kernel)
  have hopen : freshRoot.openDirectory ([ascii "root"] ++ [longName])
      = .error .invalidFilename := by decide +kernel
  rw [clear, run_clearIn_of_error hopen (by decide)] at hrun
  cases hrun

end Extract
end ContainerLayer
