import ContainerLayer.Path
import ContainerLayer.Proofs.Bytes
import ContainerLayer.Proofs.Tree.Following
import ContainerLayer.Whiteout

/-
The names of a path, taken from its text.

The names are the parts between slashes that are neither empty nor dots, wherever
they stand (`names_eq`), so putting texts together with a slash in between puts
their names together.
-/

namespace ContainerLayer

namespace Path

open ContainerLayer.Tree

/-- A part between slashes as a name, if it is one. -/
def nameOf? (part : Bytes) : Option Bytes :=
  if part = [] ∨ part = dot ∨ part = dots then none else some part

theorem nameOf?_eq_some_iff {part name : Bytes} :
    nameOf? part = some name ↔ part = name ∧ name ≠ [] ∧ IsPlain name := by
  unfold nameOf?
  split
  · rename_i h
    simp only [reduceCtorEq, false_iff]
    intro h
    obtain ⟨rfl, h1, h2, h3⟩ := h
    rcases h with h | h | h
    · exact h1 h
    · exact h2 h
    · exact h3 h
  · rename_i h
    simp only [not_or] at h
    simp only [Option.some.injEq]
    constructor
    · intro e
      subst e
      exact ⟨rfl, h.1, h.2.1, h.2.2⟩
    · exact fun h => h.1

/-- The name that a component is. -/
def nameOfComponent : Component → Option Bytes
  | .name n => some n
  | _ => none

theorem names_def (p : Bytes) : names p = (components p).filterMap nameOfComponent := rfl

theorem filterMap_componentOf (parts : List Bytes) :
    (parts.filterMap componentOf).filterMap nameOfComponent = parts.filterMap nameOf? := by
  rw [List.filterMap_filterMap]
  congr 1
  funext part
  unfold componentOf nameOf?
  by_cases h1 : part = []
  · simp [h1]
  by_cases h2 : part = dot
  · simp [h2]
  by_cases h3 : part = dots
  · simp [h3, nameOfComponent]
  · simp [h1, h2, h3, nameOfComponent]

/-- The names are the parts between slashes that are names. -/
theorem names_eq (p : Bytes) : names p = (p.splitOn slash).filterMap nameOf? := by
  rw [names_def]
  unfold components
  cases h : p.splitOn slash with
  | nil => exact absurd h (Bytes.splitOn_ne_nil slash p)
  | cons first rest =>
    dsimp only
    by_cases hp : p = []
    · subst hp
      cases h
      rfl
    rw [if_neg hp]
    by_cases h1 : first = []
    · subst h1
      rw [if_pos rfl, List.filterMap_cons_none rfl, filterMap_componentOf,
        List.filterMap_cons_none rfl]
    by_cases h2 : first = dot
    · subst h2
      rw [if_neg h1, if_pos rfl, List.filterMap_cons_none rfl, filterMap_componentOf,
        List.filterMap_cons_none rfl]
    rw [if_neg h1, if_neg h2, List.filterMap_append, filterMap_componentOf,
      ← List.singleton_append, List.filterMap_append, ← filterMap_componentOf [first]]
    cases hc : componentOf first <;> simp [hc]

theorem isPlain_of_mem_names {p name : Bytes} (h : name ∈ names p) : IsPlain name := by
  rw [names_eq, List.mem_filterMap] at h
  obtain ⟨part, _, h⟩ := h
  exact (nameOf?_eq_some_iff.mp h).2.2

theorem mem_splitOn_of_mem_names {p name : Bytes} (h : name ∈ names p) : name ∈ p.splitOn slash := by
  rw [names_eq, List.mem_filterMap] at h
  obtain ⟨part, hpart, h⟩ := h
  rwa [← (nameOf?_eq_some_iff.mp h).1]

@[simp] theorem names_nil : names [] = [] := rfl

theorem names_append_slash (a b : Bytes) : names (a ++ slash :: b) = names a ++ names b := by
  rw [names_eq, names_eq, names_eq, Bytes.splitOn_append, List.filterMap_append]

theorem names_of_not_mem {name : Bytes} (hs : slash ∉ name) (hn : name ≠ []) (hp : IsPlain name) :
    names name = [name] := by
  rw [names_eq, Bytes.splitOn_of_not_mem hs]
  simp [nameOf?_eq_some_iff.mpr ⟨rfl, hn, hp⟩]

theorem names_join {p q : Bytes} (hq : isAbsolute q = false) :
    names (join p q) = names p ++ names q := by
  unfold join
  rw [if_neg (by simp [hq])]
  split
  · rename_i h
    simp only [Bool.or_eq_true, decide_eq_true_eq] at h
    rcases h with rfl | h
    · simp
    · obtain ⟨a, rfl⟩ : ∃ a, p = a ++ [slash] :=
        List.getLast?_eq_some_iff.mp (by simpa [endsWithSlash] using h)
      rw [List.append_assoc, List.singleton_append, names_append_slash, names_append_slash]
      simp
  · exact names_append_slash p q

/-- The name of a whiteout for one file is the mark and a name that a file can have. -/
theorem eq_of_ofName?_file {whiteout name : Bytes}
    (h : Whiteout.ofName? whiteout = some (.file name)) :
    whiteout = Whiteout.mark ++ name ∧ ¬ (name = [] ∨ name = dot ∨ name = dots) ∧ slash ∉ name := by
  unfold Whiteout.ofName? at h
  split at h
  · cases h
  split at h
  · cases h
  rename_i rest hrest
  split at h
  · cases h
  rename_i hname
  cases h
  simp only [Bool.or_eq_true, decide_eq_true_eq, List.contains_iff_mem, not_or] at hname
  obtain ⟨⟨⟨h1, h2⟩, h3⟩, h4⟩ := hname
  refine ⟨?_, by simp only [not_or]; exact ⟨h1, h2, h3⟩, h4⟩
  unfold Bytes.dropPrefix? at hrest
  split at hrest
  · rename_i hpre
    rw [← Option.some.inj hrest]
    exact (List.prefix_iff_eq_append.mp (List.isPrefixOf_iff_prefix.mp hpre)).symm
  · cases hrest

/-- What a whiteout removes is a name in the directory of the whiteout. -/
theorem names_of_whiteout {above whiteout name : Bytes}
    (h : Whiteout.ofName? whiteout = some (.file name)) :
    names (join above name) = names above ++ [name] ∧ IsPlain name := by
  obtain ⟨-, hname, hslash⟩ := eq_of_ofName?_file h
  simp only [not_or] at hname
  have hp : IsPlain name := ⟨hname.2.1, hname.2.2⟩
  have ha : isAbsolute name = false := by
    cases name with
    | nil => rfl
    | cons x r =>
      simp only [List.mem_cons, not_or] at hslash
      simp [isAbsolute, Ne.symm hslash.1]
  rw [names_join ha, names_of_not_mem hslash hname.1 hp]
  exact ⟨rfl, hp⟩

/-- A path with a file name ends with it. -/
theorem components_of_fileName {p name : Bytes} (h : fileName p = some name) :
    ∃ above, components p = above ++ [.name name] := by
  have hlast : (components p).getLast? = some (.name name) := by
    unfold fileName at h
    split at h
    · rename_i hlast
      cases h
      exact hlast
    · cases h
  exact List.getLast?_eq_some_iff.mp hlast

end Path
end ContainerLayer
