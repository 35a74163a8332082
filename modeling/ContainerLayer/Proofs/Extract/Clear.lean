import ContainerLayer.Proofs.Extract.Clearing
import ContainerLayer.Proofs.Path.Above

/-
What whiteouts take away.

The whiteout for one file takes away what its path names, and the one for all of a directory
what is not spared in that directory (`Takes`).  Neither changes anything else, whether or not it
comes to its end (`loses_of_remove`).  The one for a file does all or nothing of it
(`without_of_remove`).
-/

namespace ContainerLayer
namespace Extract

open ContainerLayer.Tree

/-- What a whiteout at `path` may take away: what its file's path names, or what is not spared in
the directory that its own directory's path leads to. -/
def Takes (applied : Applied) (root : PathParts) (path : Bytes) (w : Whiteout) (t : Tree)
    (k : Location) : Prop :=
  match w with
  | .invalid => False
  | .file name => t.Removes (root ++ Path.names (Path.parent path) ++ [name]) k
  | .lower => LowerAt applied root (Path.names (Path.parent path)) t k

theorem eq_ok_of_toOption {ε α : Type} {r : Except ε α} {a : α} (h : r.toOption = some a) :
    r = .ok a := by
  cases r with
  | error e => cases h
  | ok b => exact congrArg Except.ok (Option.some.inj h)

/-! ## Paths of whiteouts -/

section Paths

variable {path name : Bytes} {w : Whiteout}

/-- The path of a whiteout ends with a name that says so. -/
theorem components_of_whiteout? (h : whiteout? path = some w) :
    ∃ above name, Path.components path = above ++ [.name name] ∧ Whiteout.ofName? name = some w := by
  obtain ⟨name, hname, hw⟩ := Option.bind_eq_some_iff.mp h
  obtain ⟨above, habove⟩ := Path.components_of_fileName hname
  exact ⟨above, name, habove, hw⟩

theorem hasUp_of_components {above : List Component}
    (h : Path.components path = above ++ [.name name]) :
    Path.hasUp path = decide (.up ∈ above) := by
  rw [Path.hasUp, h, Bool.eq_iff_iff]
  simp

theorem hasUp_parent_of_whiteout? (h : whiteout? path = some w) :
    Path.hasUp (Path.parent path) = Path.hasUp path := by
  obtain ⟨above, name, hpath, _⟩ := components_of_whiteout? h
  rw [hasUp_of_components hpath, Path.hasUp, Path.components_parent hpath, Bool.eq_iff_iff]
  simp

theorem hasUp_join_of_whiteout? (h : whiteout? path = some (.file name)) :
    Path.hasUp (Path.join (Path.parent path) name) = Path.hasUp path := by
  obtain ⟨above, last, hpath, hlast⟩ := components_of_whiteout? h
  obtain ⟨-, hname, hslash⟩ := Path.eq_of_ofName?_file hlast
  simp only [not_or] at hname
  have hjoin : Path.components (Path.join (Path.parent path) name) = above ++ [.name name] := by
    rw [Path.components_join hslash hname.1 ⟨hname.2.1, hname.2.2⟩, Path.components_parent hpath]
  rw [hasUp_of_components hpath, hasUp_of_components hjoin]

/-- The parent's path with the name of a removed file leads to names only. -/
theorem names_of_whiteout? (h : whiteout? path = some (.file name)) :
    Path.names (Path.join (Path.parent path) name)
        = Path.names (Path.parent path) ++ [name] ∧ IsPlain name := by
  obtain ⟨last, _, hlast⟩ := Option.bind_eq_some_iff.mp h
  exact Path.names_of_whiteout hlast

end Paths

/-! ## Carrying out a whiteout -/

section Removing

variable {root : PathParts} {path name : Bytes} {w : Whiteout} {t t' : Tree}

theorem remove_lower (applied : Applied) (root : PathParts) (t : Tree)
    (hw : whiteout? path = some .lower) :
    remove applied root path .lower t
      = if Path.hasUp path then (some (.extract (Path.parent path) .escapes), t)
        else match (clear applied root (Path.names (Path.parent path))).run t with
          | (.ok _, t') => (none, t')
          | (.error f, t') => (some (.extract path (.failed f)), t') := by
  unfold remove removal resolve
  dsimp only
  rw [hasUp_parent_of_whiteout? hw]
  cases Path.hasUp path <;> rfl

theorem remove_file (applied : Applied) (root : PathParts) (t : Tree)
    (hw : whiteout? path = some (.file name)) :
    remove applied root path (.file name) t
      = if Path.hasUp path then
          (some (.extract (Path.join (Path.parent path) name) .escapes), t)
        else match t.removeAll (root ++ (Path.names (Path.parent path) ++ [name])) with
          | .ok t' => (none, t')
          | .error k => (some (.extract path (.failed (.ofKind k))), t) := by
  unfold remove removal resolve
  dsimp only
  rw [hasUp_join_of_whiteout? hw, (names_of_whiteout? hw).1]
  cases Path.hasUp path with
  | true => rfl
  | false =>
    simp only [bind, Except.bind, pure, Except.pure, Bool.false_eq_true, if_false,
      TreeWork.run_change]
    cases t.removeAll (root ++ (Path.names (Path.parent path) ++ [name])) <;> rfl

variable {applied : Applied} {err : LayerError}

/-- Where a path leads upwards nothing is done. -/
theorem remove_of_hasUp (applied : Applied) (root : PathParts) (t : Tree)
    (hw : whiteout? path = some w) (hup : Path.hasUp path = true) :
    (remove applied root path w t).2 = t := by
  cases w with
  | invalid => rfl
  | lower => rw [remove_lower _ _ _ hw, if_pos hup]
  | file name => rw [remove_file _ _ _ hw, if_pos hup]

/-- The whiteout for one file that is carried out takes all of it away. -/
theorem without_of_remove (ht : t.Closed) (hw : whiteout? path = some (.file name))
    (h : remove applied root path (.file name) t = (none, t')) :
    Without (Takes applied root path (.file name) t) t t' ∧ t'.Closed := by
  rw [remove_file _ _ _ hw, ← List.append_assoc] at h
  split at h
  · cases h
  · split at h
    · rename_i hremove
      cases h
      exact ⟨ht.without_of_removeAll hremove,
        ht.closed_of_removeAll (names_of_whiteout? hw).2 hremove⟩
    · cases h

/-- Only a whiteout for all of a directory may fail half-way. -/
theorem eq_of_remove (hw : whiteout? path = some w) (hne : w ≠ .lower)
    (h : remove applied root path w t = (some err, t')) : t' = t := by
  cases w with
  | invalid =>
    cases h
    rfl
  | lower => exact absurd rfl hne
  | file name =>
    rw [remove_file _ _ _ hw] at h
    split at h
    · cases h
      rfl
    · split at h
      · cases h
      · cases h
        rfl

theorem run_clear_of_remove (hw : whiteout? path = some .lower)
    (h : remove applied root path .lower t = (none, t')) :
    (clear applied root (Path.names (Path.parent path))).run t = (.ok (), t') := by
  rw [remove_lower _ _ _ hw] at h
  split at h
  · cases h
  · split at h
    · rename_i hrun
      cases h
      exact hrun
    · cases h

/-- Whatever comes of it, a whiteout takes away only what `Takes` says, and whole directories. -/
theorem loses_of_remove (applied : Applied) (root : PathParts) (ht : t.Closed)
    (hw : whiteout? path = some w) :
    (remove applied root path w t).2.Closed ∧
      Loses (Takes applied root path w t) t (remove applied root path w t).2 := by
  cases w with
  | invalid => exact ⟨ht, .refl _ t⟩
  | lower =>
    rw [remove_lower _ _ _ hw]
    split
    · exact ⟨ht, .refl _ t⟩
    · have h := loses_clearIn lists_children applied root (Path.names (Path.parent path)) ht
      rw [clear]
      split
      · rename_i hrun
        rwa [hrun] at h
      · rename_i hrun
        rwa [hrun] at h
  | file name =>
    rcases hr : remove applied root path (.file name) t with ⟨_ | err, t'⟩
    · obtain ⟨hwithout, hclosed⟩ := without_of_remove ht hw hr
      exact ⟨hclosed, hwithout.loses⟩
    · rw [eq_of_remove hw (by simp) hr]
      exact ⟨ht, .refl _ t⟩

end Removing

end Extract
end ContainerLayer
