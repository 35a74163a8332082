import ContainerLayer.Proofs.Extract.Removing
import ContainerLayer.Proofs.Path.Above
import ContainerLayer.Proofs.Tar.Finding
import ContainerLayer.Proofs.Tree.Unlinked

/-
The child that a whiteout takes away, told by the text of its path.

The path is any text whose last component is the mark and a name.  What is in front of that
component leads to a directory, and if no symbolic link is on the way there, what the whiteout
does is settled by the names on the way alone: it is refused (`Refused`), or the child with that
name goes and nothing else does (`child_whiteout_outcome`).
-/

namespace ContainerLayer
namespace Extract

open Tar ContainerLayer.Tree

/-- The names that lead down to the child `name` of the directory with these components. -/
def childOf (above : List Component) (name : Bytes) : List Bytes :=
  above.filterMap Path.nameOfComponent ++ [name]

/-- A whiteout for the child `name` of a directory cannot be carried out: the way to the directory
leads upwards, no file can have the name, the path is too long, or something is in the way. -/
def Refused (root : PathParts) (r : Location) (above : List Component) (name : Bytes) (t : Tree) :
    Prop :=
  .up ∈ above ∨ (name = [] ∨ name = Path.dot ∨ name = Path.dots) ∨
    Overlong (root ++ childOf above name) ∨ t.Obstructed r (childOf above name)

section Removing

variable {applied : Applied} {root : PathParts} {r : Location} {path name : Bytes}
variable {above : List Component} {t : Tree}

theorem names_of_components {last : Bytes} (h : Path.components path = above ++ [.name last]) :
    Path.names path = childOf above last := by
  rw [Path.names_def, h, List.filterMap_append]
  rfl

theorem mem_names {last : Bytes} (h : Path.components path = above ++ [.name last]) :
    last ∈ Path.names path := by
  rw [names_of_components h]
  exact List.mem_append_right _ List.mem_cons_self

/-- What a path with the mark in front of its last name asks for. -/
theorem whiteout?_of_components
    (h : Path.components path = above ++ [.name (Whiteout.mark ++ name)])
    (hlower : Whiteout.mark ++ name ≠ Whiteout.lowerName) :
    whiteout? path = some (if name = [] ∨ name = Path.dot ∨ name = Path.dots then .invalid
      else .file name) := by
  have hslash : (47 : UInt8) ∉ name := fun hn =>
    Bytes.not_mem_of_mem_splitOn (Path.mem_splitOn_of_mem_names (mem_names h))
      (List.mem_append_right Whiteout.mark hn)
  have hname : Path.fileName path = some (Whiteout.mark ++ name) := by
    rw [Path.fileName, h, List.getLast?_concat]
  have hrest : (Whiteout.mark ++ name).dropPrefix? Whiteout.mark = some name := by
    rfl
  rw [whiteout?, hname, Option.bind_some, Whiteout.ofName?, if_neg hlower, hrest]
  simp only [Bool.or_eq_true, decide_eq_true_eq, List.contains_iff_mem, hslash, or_false, or_assoc]
  by_cases hbad : name = [] ∨ name = Path.dot ∨ name = Path.dots
  · rw [if_pos hbad]
    exact if_pos hbad
  · rw [if_neg hbad]
    exact if_neg hbad

/-- Carrying out a whiteout for one name is removing the child with that name, if the way to its
directory does not lead upwards. -/
theorem remove_of_components (h : Path.components path = above ++ [.name (Whiteout.mark ++ name)])
    (hlower : Whiteout.mark ++ name ≠ Whiteout.lowerName)
    (hname : ¬ (name = [] ∨ name = Path.dot ∨ name = Path.dots)) :
    remove applied root path (.file name) t
      = if .up ∈ above then (some (.extract (Path.join (Path.parent path) name) .escapes), t)
        else match t.removeAll (root ++ childOf above name) with
          | .ok t' => (none, t')
          | .error k => (some (.extract path (.failed (.ofKind k))), t) := by
  have hw := whiteout?_of_components h hlower
  rw [if_neg hname] at hw
  rw [remove_file applied root t hw, hasUp_of_components h, Path.names_def,
    Path.components_parent h]
  simp only [decide_eq_true_eq]
  rfl

/-- What a whiteout for a child of a directory does, if no link is on the way there. -/
theorem remove_child (applied : Applied) (ht : t.Closed) (hroot : t.canonicalize root = .ok r)
    (h : Path.components path = above ++ [.name (Whiteout.mark ++ name)]) (hzero : 0 ∉ path)
    (hlower : Whiteout.mark ++ name ≠ Whiteout.lowerName)
    (hlinks : .up ∉ above → t.Unlinked r (childOf above name)) :
    ∃ w, whiteout? path = some w ∧
      ((Refused root r above name t ∧ ∃ err, remove applied root path w t = (some err, t)) ∨
        (¬ Refused root r above name t ∧ ∃ t', remove applied root path w t = (none, t') ∧
          Without (fun k => r ++ childOf above name <+: k ∧
            (k = r ++ childOf above name → t.isDirectory k = true →
              (t.hollow k).hasEntry (root ++ childOf above name) = true)) t t' ∧
          (t'.canonicalize root = .ok r → Without (r ++ childOf above name <+: ·) t t') ∧
          (t.lookup (r ++ childOf above name) = none → t' = t))) := by
  refine ⟨_, whiteout?_of_components h hlower, ?_⟩
  by_cases hname : name = [] ∨ name = Path.dot ∨ name = Path.dots
  · rw [if_pos hname]
    exact .inl ⟨.inr (.inl hname), _, rfl⟩
  rw [if_neg hname, remove_of_components h hlower hname]
  have hpart := Path.mem_splitOn_of_mem_names (mem_names h)
  by_cases hup : .up ∈ above
  · rw [if_pos hup]
    exact .inl ⟨.inl hup, _, rfl⟩
  rw [if_neg hup]
  have hnames : ∀ n ∈ childOf above name, IsPlain n ∧ 0 ∉ n := by
    intro n hn
    rcases List.mem_append.mp hn with hn | hn
    · have hn : n ∈ Path.names path := by
        rw [names_of_components h]
        exact List.mem_append_left _ hn
      exact ⟨Path.isPlain_of_mem_names hn, fun hz =>
        hzero (Bytes.mem_of_mem_splitOn (Path.mem_splitOn_of_mem_names hn) hz)⟩
    · rw [List.mem_singleton.mp hn]
      simp only [not_or] at hname
      exact ⟨⟨hname.2.1, hname.2.2⟩, fun hz =>
        hzero (Bytes.mem_of_mem_splitOn hpart (List.mem_append_right _ hz))⟩
  have hrefused : Refused root r above name t ↔
      Overlong (root ++ childOf above name) ∨ t.Obstructed r (childOf above name) := by
    simp [Refused, hup, hname]
  rw [hrefused]
  rcases ht.removeAll_unlinked hroot (by simp [childOf]) (fun n hn => (hnames n hn).1)
    (fun n hn => (hnames n hn).2) (hlinks hup) with ⟨hbad, k, hr⟩ | ⟨hgood, t', hr, hrest⟩
  · rw [hr]
    exact .inl ⟨hbad, _, rfl⟩
  · rw [hr]
    exact .inr ⟨hgood, t', rfl, hrest⟩

/-- An entry with a whiteout's name changes nothing but the tree, and counts if it succeeds. -/
theorem Applies.progress_of_whiteout {e : Entry} {p p' : Progress} {failure : Option LayerError}
    (h : Applies root e p failure p') {w : Whiteout} (hw : whiteout? e.path = some w) :
    p' = { p with tree := p'.tree, count := if failure = none then p.count + 1 else p.count } := by
  cases h with
  | removed _ _ | refused _ _ => rfl
  | escapes hw' _ | failed hw' _ _ | unpacked hw' _ _ =>
    rw [hw] at hw'
    cases hw'

end Removing

/-- What comes of an entry whose path is any text, without zero bytes, that ends with the mark and
a name, when no symbolic link is on the way to the directory that is in front of the name.  The
entry fails just if it is refused, and then the run ends there with the tree as it was.  Otherwise
the child with that name goes, with everything below it, and nothing else is changed, so if there
is no such child nothing is.  If the child is a symbolic link, only the link goes.  A child that
is a directory stays itself, empty, if its path does not lead to it any more by then; so there is
none of that if `root` leads where it did before. -/
theorem child_whiteout_outcome {σ : Type} [Reader σ] {t : Tree} (ht : t.Closed)
    {root : PathParts} {s : σ} {earlier later : List Step} {x : Step}
    (h : archiveHistory root t s = earlier ++ x :: later) {above : List Component} {name : Bytes}
    (hpath : Path.components x.entry.path = above ++ [.name (Whiteout.mark ++ name)])
    (hzero : 0 ∉ x.entry.path) (hlower : Whiteout.mark ++ name ≠ Whiteout.lowerName)
    {r : Location} (hroot : x.before.tree.canonicalize root = .ok r)
    (hlinks : .up ∉ above → x.before.tree.Unlinked r (childOf above name)) :
    (x.failure ≠ none ↔ Refused root r above name x.before.tree) ∧
      (∀ err, x.failure = some err → later = [] ∧ x.after = x.before ∧
        (Relay.run (applyArchive root t) s).result = (.error err, x.before.tree)) ∧
      (x.failure = none → x.after.count = x.before.count + 1 ∧
        Without (fun k => r ++ childOf above name <+: k ∧
          (k = r ++ childOf above name → x.before.tree.isDirectory k = true →
            (x.before.tree.hollow k).hasEntry (root ++ childOf above name) = true))
          x.before.tree x.after.tree ∧
        (x.after.tree.canonicalize root = .ok r →
          Without (r ++ childOf above name <+: ·) x.before.tree x.after.tree) ∧
        (x.before.tree.lookup (r ++ childOf above name) = none →
          x.after.tree = x.before.tree) ∧
        ∀ target, x.before.tree.lookup (r ++ childOf above name) = some (.symlink target) →
          ∀ k, k ≠ r ++ childOf above name → x.Keeps k) := by
  have hmem : x ∈ earlier ++ x :: later := by simp
  have hx : x ∈ archiveHistory root t s := by rwa [h]
  have hlinked : Linked root { tree := t } (earlier ++ x :: later) :=
    h ▸ linked_history 0 0 { tree := t } s
  have hclosed := hlinked.closed ht x hmem
  have happlies := hlinked.applies x hmem
  obtain ⟨w, hw, hremove⟩ :=
    remove_child x.before.applied hclosed hroot hpath hzero hlower hlinks
  have hprogress := happlies.progress_of_whiteout hw
  rw [happlies.remove_eq hw] at hremove
  cases hf : x.failure with
  | some err =>
    rw [hf] at hremove hprogress
    obtain ⟨hrefused, _, hsame⟩ := hremove.resolve_right (by simp)
    have hafter : x.after = x.before := by
      rw [hprogress, (Prod.mk.inj hsame).2]
      rfl
    refine ⟨⟨fun _ => hrefused, fun _ => by simp⟩, fun err' he => ⟨?_, hafter, ?_⟩, by simp⟩
    · exact hlinked.nil_of_failure (by simp [hf])
    · rw [← hafter]
      exact result_of_failure hx (hf.trans he)
  | none =>
    rw [hf] at hremove hprogress
    obtain ⟨hfine, _, hsame, hwithout, hall, hnone⟩ := hremove.resolve_left (by simp)
    rw [← (Prod.mk.inj hsame).2] at hwithout hall hnone
    refine ⟨⟨fun hne => absurd rfl hne, fun hrefused => absurd hrefused hfine⟩, by simp, fun _ =>
      ⟨by rw [hprogress]; rfl, hwithout, hall, hnone, fun target hlink k hk => ?_⟩⟩
    rw [Step.Keeps]
    by_cases hbelow : r ++ childOf above name <+: k
    · -- there is nothing below a link
      have hdir : x.before.tree.isDirectory (r ++ childOf above name) = false := by
        rw [isDirectory, hlink]
        rfl
      have hvacant := hclosed.lookup_of_not_isDirectory hdir ⟨hbelow, hk⟩
      rw [hwithout.loses.eq_none hvacant, hvacant]
    · exact (hwithout k).2 fun hp => hbelow hp.1

/-- A directory with a file in it and a symbolic link to the file. -/
def linkBeside : Tree where
  nodes := [
    ([], .directory 0o755),
    ([ascii "root"], .directory 0o755),
    ([ascii "root", ascii "dir"], .directory 0o755),
    ([ascii "root", ascii "dir", ascii "file"], .file { id := 0 }),
    ([ascii "root", ascii "dir", ascii "link"], .symlink (ascii "file"))]
  freshId := 1

/-- A whiteout for the link, with slashes and a dot in its path that mean nothing. -/
def whiteoutLink : Bytes := emptyMember .regular (ascii "dir//./.wh.link/") []

/-- The link goes, and the file that it leads to stays. -/
theorem child_whiteout_takes_link :
    ∃ x, archiveHistory [ascii "root"] linkBeside (Source.ofBytes whiteoutLink) = [x] ∧
      x.failure = none ∧
      x.after.tree.lookup [ascii "root", ascii "dir", ascii "link"] = none ∧
      x.Keeps [ascii "root", ascii "dir", ascii "file"] := by
  have hfacts : (archiveHistory [ascii "root"] linkBeside
      (Source.ofBytes whiteoutLink)).map (fun x => (x.entry.path, x.failure.isNone))
        = [(ascii "dir//./.wh.link/", true)] := by decide +kernel
  obtain ⟨x, hx, hfirst⟩ := List.map_eq_singleton_iff.mp hfacts
  obtain ⟨hpath, hnone⟩ := Prod.mk.inj hfirst
  have hf : x.failure = none := Option.isNone_iff_eq_none.mp hnone
  have hbefore : x.before = { tree := linkBeside } := before_of_cons hx
  have hlinks : linkBeside.Unlinked [ascii "root"]
      (childOf [.name (ascii "dir")] (ascii "link")) := by
    refine unlinked_cons.mpr ⟨fun _ e => ?_, unlinked_cons.mpr ⟨fun _ e => ?_, unlinked_nil⟩⟩
    · cases e
    · cases e
  have hsplit : archiveHistory [ascii "root"] linkBeside (Source.ofBytes whiteoutLink)
      = [] ++ x :: [] := hx
  have hcomponents : Path.components x.entry.path
      = [.name (ascii "dir")] ++ [.name (Whiteout.mark ++ ascii "link")] := by
    rw [hpath]
    decide
  have hroot : x.before.tree.canonicalize [ascii "root"] = .ok [ascii "root"] := by
    rw [hbefore]
    rfl
  obtain ⟨_, _, hcarried⟩ := child_whiteout_outcome (by decide) hsplit hcomponents
    (by rw [hpath]; decide) (by decide) hroot (by rw [hbefore]; exact fun _ => hlinks)
  obtain ⟨_, hwithout, _⟩ := hcarried hf
  have hlink : linkBeside.isDirectory [ascii "root", ascii "dir", ascii "link"] = false := by decide
  refine ⟨x, hx, hf, (hwithout _).1 ⟨by decide, fun _ hd => ?_⟩, (hwithout _).2 fun hp => ?_⟩
  · rw [hbefore, hlink] at hd
    cases hd
  · exact absurd hp.1 (by decide)

/-- A whiteout with a longer path than a header has room for. -/
def longWhiteout (name : Bytes) : Bytes :=
  let path := Whiteout.mark ++ name
  memberBytes (longHeader .longName path.length) (path ++ [0]) ++ whiteoutA

/-- A name that is too long for every file. -/
def longName : Bytes := List.replicate 256 97

/-- A directory with a link in it that leads back to the directory it is in. -/
def linkBack : Tree where
  nodes := [
    ([], .directory 0o755),
    ([ascii "r"], .directory 0o755),
    ([ascii "r", ascii "a"], .directory 0o755),
    ([ascii "r", ascii "a", ascii "link"], .symlink (ascii ".."))]

/-- Without a look at lengths the failures are not told: a whiteout for a name that no file can
have because it is too long fails, although nothing is in the way.  And not every child is gone
after a whiteout for it: when it is a directory with a link in it that `root` goes by, it stays. -/
theorem child_whiteout_exceptions :
    (¬ ∀ (t : Tree) (root : PathParts) (data : Bytes) (earlier later : List Step) (x : Step)
      (above : List Component) (name : Bytes) (r : Location), t.Closed →
      archiveHistory root t (Source.ofBytes data) = earlier ++ x :: later →
      Path.components x.entry.path = above ++ [.name (Whiteout.mark ++ name)] →
      0 ∉ x.entry.path → Whiteout.mark ++ name ≠ Whiteout.lowerName →
      x.before.tree.canonicalize root = .ok r →
      (.up ∉ above → x.before.tree.Unlinked r (childOf above name)) →
      (x.failure ≠ none ↔ .up ∈ above ∨ (name = [] ∨ name = Path.dot ∨ name = Path.dots) ∨
        ∃ q, q <+: above.filterMap Path.nameOfComponent ∧ x.before.tree.Blocked (r ++ q))) ∧
    ¬ ∀ (t : Tree) (root : PathParts) (data : Bytes) (earlier later : List Step) (x : Step)
      (above : List Component) (name : Bytes) (r : Location), t.Closed →
      archiveHistory root t (Source.ofBytes data) = earlier ++ x :: later →
      Path.components x.entry.path = above ++ [.name (Whiteout.mark ++ name)] →
      0 ∉ x.entry.path → Whiteout.mark ++ name ≠ Whiteout.lowerName →
      x.before.tree.canonicalize root = .ok r →
      (.up ∉ above → x.before.tree.Unlinked r (childOf above name)) →
      x.failure = none → x.after.tree.lookup (r ++ childOf above name) = none := by
  refine ⟨fun h => ?_, fun h => ?_⟩
  · have hfacts : (archiveHistory [ascii "root"] freshRoot
        (Source.ofBytes (longWhiteout longName))).map (fun x => (x.entry.path, x.failure.isSome))
          = [(Whiteout.mark ++ longName, true)] := by decide +kernel
    obtain ⟨x, hx, hfirst⟩ := List.map_eq_singleton_iff.mp hfacts
    obtain ⟨hpath, hfails⟩ := Prod.mk.inj hfirst
    have hbefore : x.before = { tree := freshRoot } := before_of_cons hx
    have hlinks : freshRoot.Unlinked [ascii "root"] (childOf [] longName) := by
      refine unlinked_cons.mpr ⟨fun _ e => ?_, unlinked_nil⟩
      cases e
    have hiff := h freshRoot [ascii "root"] (longWhiteout longName) [] [] x [] longName
      [ascii "root"] (by decide) hx (by rw [hpath]; decide +kernel) (by rw [hpath]; decide +kernel)
      (by decide) (by rw [hbefore]; rfl) (by rw [hbefore]; exact fun _ => hlinks)
    rcases hiff.mp (Option.isSome_iff_ne_none.mp hfails) with hup | hname | ⟨q, hq, hblocked⟩
    · cases hup
    · exact absurd hname (by decide)
    · rw [List.prefix_nil.mp hq, hbefore] at hblocked
      exact absurd hblocked.2 (by decide)
  · have hfacts : (archiveHistory [ascii "r", ascii "a", ascii "link"] linkBack
        (Source.ofBytes whiteoutA)).map (fun x => (x.entry.path, x.failure.isNone,
          x.after.tree.lookup [ascii "r", ascii "a"]))
          = [(ascii ".wh.a", true, some (.directory 0o755))] := by decide +kernel
    obtain ⟨x, hx, hfirst⟩ := List.map_eq_singleton_iff.mp hfacts
    simp only [Prod.mk.injEq] at hfirst
    obtain ⟨hpath, hnone, hleft⟩ := hfirst
    have hbefore : x.before = { tree := linkBack } := before_of_cons hx
    have hlinks : linkBack.Unlinked [ascii "r"] (childOf [] (ascii "a")) := by
      refine unlinked_cons.mpr ⟨fun _ e => ?_, unlinked_nil⟩
      cases e
    have hgone := h linkBack [ascii "r", ascii "a", ascii "link"] whiteoutA [] [] x [] (ascii "a")
      [ascii "r"] (by decide) hx (by rw [hpath]; decide) (by rw [hpath]; decide) (by decide)
      (by rw [hbefore]; rfl) (by rw [hbefore]; exact fun _ => hlinks)
      (Option.isNone_iff_eq_none.mp hnone)
    rw [show [ascii "r"] ++ childOf [] (ascii "a") = [ascii "r", ascii "a"] from rfl,
      hleft] at hgone
    cases hgone

end Extract
end ContainerLayer
