import ContainerLayer.Proofs.Extract.Opaque

/-
What the whiteout for one name takes away.

Unlike the whiteout for all of a directory it does not ask what the archive itself put
there.  Whatever is at the path or below it goes, and with it what earlier entries of the
same archive left there (`file_whiteout_removes`).  So it matters where in an archive such
a whiteout comes.
-/

namespace ContainerLayer
namespace Extract

open Tar ContainerLayer.Tree

namespace Step

/-- What is at `k` is the same before and after. -/
def Keeps (x : Step) (k : Location) : Prop := x.after.tree.lookup k = x.before.tree.lookup k

/-- The step unpacks an ordinary entry, and that changes what is at `k`. -/
def Alters (x : Step) (k : Location) : Prop := whiteout? x.entry.path = none ∧ ¬ x.Keeps k

end Step

/-- What is at `k` after the steps is what an ordinary entry of them left there. -/
def Own (xs : List Step) (k : Location) : Prop :=
  ∃ ys y zs, xs = ys ++ y :: zs ∧ y.Alters k ∧ ∀ z ∈ zs, z.Keeps k

theorem Own.cons {xs : List Step} {k : Location} (h : Own xs k) (x : Step) : Own (x :: xs) k := by
  obtain ⟨ys, y, zs, rfl, hy, hzs⟩ := h
  exact ⟨x :: ys, y, zs, rfl, hy, hzs⟩

/-- Whatever is somewhere in the course of a run was put there by an ordinary entry, or has been
there all the time.  A whiteout that changes something leaves nothing. -/
theorem Linked.own_or_kept {root : PathParts} {p : Progress} {xs ys : List Step} {x : Step}
    (h : Linked root p (xs ++ x :: ys)) (hp : p.tree.Closed) {k : Location}
    (hk : x.before.tree.lookup k ≠ none) :
    Own xs k ∨ ((∀ y ∈ xs, y.Keeps k) ∧ x.before.tree.lookup k = p.tree.lookup k) := by
  induction xs generalizing p with
  | nil =>
    obtain ⟨rfl, _⟩ := h
    exact .inr ⟨by simp, rfl⟩
  | cons y xs ih =>
    obtain ⟨rfl, ha, hf, hrest⟩ := h
    rw [hf.resolve_right (by simp)] at ha
    rcases ih hrest (ha.closed hp) with hown | ⟨hkeep, heq⟩
    · exact .inl (hown.cons y)
    by_cases hy : y.Keeps k
    · exact .inr ⟨List.forall_mem_cons.mpr ⟨hy, hkeep⟩, heq.trans hy⟩
    · refine .inl ⟨[], y, xs, rfl, ⟨?_, hy⟩, hkeep⟩
      cases hw : whiteout? y.entry.path with
      | none => rfl
      | some w =>
        refine absurd (((ha.loses hp hw).none_or_eq k).resolve_left fun hnone => hk ?_) hy
        rw [heq, hnone]

/-- `k` is at the place that the whiteout's path names, or below it, and goes when the path is
removed. -/
def Step.Covers (root : PathParts) (x : Step) (name : Bytes) (k : Location) : Prop :=
  x.before.tree.Removes (root ++ Path.names (Path.parent x.entry.path) ++ [name]) k

/-- What a whiteout for one name does when it is carried out.  What is at the place that it
names, or below, is gone afterwards, and nothing else is changed; only a directory that its path
does not lead to any more once it is empty stays itself.  What goes was there before the archive
was applied and was not changed since, or is what an earlier ordinary entry left there.  Of what
such entries left, the whiteout spares just what is elsewhere. -/
theorem file_whiteout_removes {σ : Type} [Reader σ] {t : Tree} (ht : t.Closed)
    {root : PathParts} {s : σ} {earlier later : List Step} {x : Step}
    (h : archiveHistory root t s = earlier ++ x :: later) {name : Bytes}
    (hw : whiteout? x.entry.path = some (.file name)) (hx : x.failure = none) :
    (∀ k, x.Covers root name k → x.after.tree.lookup k = none) ∧
      (∀ k, ¬ x.Covers root name k → x.Keeps k) ∧
      (∀ k, x.before.tree.lookup k ≠ none →
        Own earlier k ∨
          ((∀ y ∈ earlier, y.Keeps k) ∧ x.before.tree.lookup k = t.lookup k)) ∧
      ∀ k, Own earlier k → x.before.tree.lookup k ≠ none →
        (x.Keeps k ↔ ¬ x.Covers root name k) := by
  have hlinked : Linked root { tree := t } (earlier ++ x :: later) :=
    h ▸ linked_history 0 0 { tree := t } s
  have hmem : x ∈ earlier ++ x :: later := by simp
  have hremove := (hlinked.applies x hmem).remove_eq hw
  rw [hx] at hremove
  have hwithout := (without_of_remove (hlinked.closed ht x hmem) hw hremove).1
  have hgone : ∀ k, x.Covers root name k → x.after.tree.lookup k = none :=
    fun k => (hwithout k).1
  have hkept : ∀ k, ¬ x.Covers root name k → x.Keeps k := fun k => (hwithout k).2
  refine ⟨hgone, hkept, fun k => hlinked.own_or_kept ht,
    fun k _ hk => ⟨fun hkeep hc => ?_, hkept k⟩⟩
  exact hk (hkeep.symm.trans (hgone k hc))

/-- A file and the whiteout for its name. -/
def fileA : Bytes := emptyMember .regular (ascii "a") []

def whiteoutA : Bytes := emptyMember .regular (ascii ".wh.a") []

/-- The whiteout removes the file that the archive itself put there, and so it makes a
difference which of the two comes first. -/
theorem file_whiteout_removes_own_file :
    (Relay.run (applyArchive [ascii "root"] freshRoot)
        (Source.ofBytes (fileA ++ whiteoutA))).result.1.toOption = some 2 ∧
      (treeAfter [ascii "root"] freshRoot (Source.ofBytes (fileA ++ whiteoutA))).lookup
        [ascii "root", ascii "a"] = none ∧
      (Relay.run (applyArchive [ascii "root"] freshRoot)
        (Source.ofBytes (whiteoutA ++ fileA))).result.1.toOption = some 2 ∧
      ((treeAfter [ascii "root"] freshRoot (Source.ofBytes (whiteoutA ++ fileA))).lookup
        [ascii "root", ascii "a"]).isSome = true := by
  decide +kernel

/-- What the whiteout does there is what it does everywhere: the file is the archive's own, and
the whiteout's path names it. -/
theorem file_whiteout_spares_no_own_file :
    ∃ y x, archiveHistory [ascii "root"] freshRoot (Source.ofBytes (fileA ++ whiteoutA)) = [y, x] ∧
      whiteout? x.entry.path = some (.file (ascii "a")) ∧ x.failure = none ∧
      Own [y] [ascii "root", ascii "a"] ∧
      x.after.tree.lookup [ascii "root", ascii "a"] = none := by
  have hfacts : (archiveHistory [ascii "root"] freshRoot
      (Source.ofBytes (fileA ++ whiteoutA))).map (fun x => (x.entry.path, x.failure.isNone,
        (x.before.tree.find false [ascii "root", ascii "a"]).toOption.map fun r =>
          (r.1, r.2.isDirectory)))
        = [(ascii "a", true, none),
          (ascii ".wh.a", true, some ([ascii "root", ascii "a"], false))] := by decide +kernel
  obtain ⟨y, _, hy, hfirst, hrest⟩ := List.map_eq_cons_iff.mp hfacts
  obtain ⟨x, rfl, hsecond⟩ := List.map_eq_singleton_iff.mp hrest
  simp only [Prod.mk.injEq] at hfirst hsecond
  obtain ⟨hxp, hf, hfound⟩ := hsecond
  obtain ⟨⟨_, n⟩, hr, hn⟩ := Option.map_eq_some_iff.mp hfound
  obtain ⟨rfl, hfile⟩ := Prod.mk.inj hn
  have hfind := eq_ok_of_toOption hr
  have hw : whiteout? x.entry.path = some (.file (ascii "a")) := by
    rw [hxp]
    decide
  have hfailure : x.failure = none := Option.isNone_iff_eq_none.mp hf
  have hthere : x.before.tree.lookup [ascii "root", ascii "a"] ≠ none := by
    rw [(find_eq_ok_iff.mp hfind).2]
    exact Option.some_ne_none n
  have hcovers : x.Covers [ascii "root"] (ascii "a") [ascii "root", ascii "a"] := by
    refine ⟨_, n, ?_, List.prefix_refl _, fun _ hdir => ?_⟩
    · rw [hxp]
      exact hfind
    · rw [hfile] at hdir
      cases hdir
  have hsplit : archiveHistory [ascii "root"] freshRoot (Source.ofBytes (fileA ++ whiteoutA))
      = [y] ++ x :: [] := hy
  have h := file_whiteout_removes (by decide) hsplit hw hfailure
  refine ⟨y, x, hy, hw, hfailure, ?_, h.1 _ hcovers⟩
  refine (h.2.2.1 _ hthere).resolve_right fun hkept => hthere ?_
  rw [hkept.2]
  decide

end Extract
end ContainerLayer
