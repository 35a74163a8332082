import ContainerLayer.Proofs.Path.Spelling

/-
The path above a path and the paths below it, by their components.

What is above a path has its components without the last one (`components_of_parent?`), and a
name that is put below a path is one more component (`components_join`).
-/

namespace ContainerLayer
namespace Path

open ContainerLayer.Tree

/-- What the first part of a path stands for. -/
def leading (part : Bytes) : List Component :=
  if part = [] then [.root] else if part = dot then [.here] else (componentOf part).toList

/-- The components that parts between slashes stand for, if the one at the front has a meaning. -/
def ofParts : List Bytes → List Component
  | [] => []
  | first :: rest => leading first ++ rest.filterMap componentOf

theorem components_nil : components [] = [] := rfl

theorem components_eq {p : Bytes} (hp : p ≠ []) : components p = ofParts (p.splitOn slash) := by
  unfold components ofParts leading
  cases p.splitOn slash with
  | nil => rfl
  | cons first rest =>
    dsimp only
    rw [if_neg hp]
    split
    · rfl
    split <;> rfl

theorem ofParts_append {parts : List Bytes} (h : parts ≠ []) (more : List Bytes) :
    ofParts (parts ++ more) = ofParts parts ++ more.filterMap componentOf := by
  cases parts with
  | nil => exact absurd rfl h
  | cons first rest => simp [ofParts]

theorem dropLast_leading (part : Bytes) : (leading part).dropLast = [] := by
  unfold leading
  split
  · rfl
  split
  · rfl
  · cases componentOf part <;> rfl

/-- A part that is not idle behind others stands for the last component. -/
theorem dropLast_ofParts_concat {parts : List Bytes} (hne : parts ≠ []) {last : Bytes}
    (h : isIdle (last :: parts.reverse) = false) :
    (ofParts (parts ++ [last])).dropLast = ofParts parts := by
  obtain ⟨c, hc⟩ : ∃ c, componentOf last = some c := by
    obtain ⟨b, bs, e⟩ := List.exists_cons_of_ne_nil (List.reverse_ne_nil_iff.mpr hne)
    rw [e] at h
    refine Option.ne_none_iff_exists'.mp ?_
    unfold componentOf
    rw [if_neg (by simpa [isIdle] using h)]
    split <;> simp
  rw [ofParts_append hne, List.filterMap_cons_some hc, List.filterMap_nil, List.dropLast_concat]

/-- Idle parts at the end stand for nothing. -/
theorem ofParts_dropIdle (reversed : List Bytes) :
    ofParts (dropIdle reversed).reverse = ofParts reversed.reverse := by
  induction reversed with
  | nil => rfl
  | cons last rest ih =>
    rw [dropIdle]
    split
    · rename_i hidle
      cases rest with
      | nil => exact absurd hidle (by simp [isIdle])
      | cons next rest =>
        have hlast : componentOf last = none := if_pos hidle
        rw [ih, List.reverse_cons (a := last), ofParts_append (by simp),
          List.filterMap_cons_none hlast, List.filterMap_nil, List.append_nil]
    · rfl

theorem isIdle_dropIdle (reversed : List Bytes) : isIdle (dropIdle reversed) = false := by
  induction reversed with
  | nil => rfl
  | cons last rest ih =>
    rw [dropIdle]
    split
    · exact ih
    · rename_i hidle
      exact Bool.eq_false_iff.mpr hidle

theorem mem_of_mem_dropIdle {reversed : List Bytes} {part : Bytes}
    (h : part ∈ dropIdle reversed) : part ∈ reversed := by
  obtain ⟨idle, e⟩ := dropIdle_suffix reversed
  rw [e]
  exact List.mem_append_right _ h

theorem splitOn_glue {parts : List Bytes} (hne : parts ≠ []) (hs : ∀ part ∈ parts, slash ∉ part) :
    (glue parts).splitOn slash = parts := by
  induction parts with
  | nil => exact absurd rfl hne
  | cons a as ih =>
    obtain ⟨ha, has⟩ := List.forall_mem_cons.mp hs
    cases as with
    | nil =>
      have e : glue [a] = a := by simp [glue]
      rw [e, Bytes.splitOn_of_not_mem ha]
    | cons b as =>
      rw [glue_cons (List.cons_ne_nil b as), Bytes.splitOn_append, Bytes.splitOn_of_not_mem ha,
        ih (List.cons_ne_nil b as) has]
      rfl

/-- Parts that are put together again stand for what they stood for. -/
theorem components_rejoin {reversed : List Bytes} (hne : reversed ≠ [])
    (hs : ∀ part ∈ reversed, slash ∉ part) :
    components (rejoin reversed) = ofParts reversed.reverse := by
  by_cases hroot : reversed = [[]]
  · subst hroot
    rfl
  have hglue : rejoin reversed = glue reversed.reverse := by
    unfold rejoin
    split
    · rfl
    · exact absurd rfl hroot
    · simp [glue]
    · rfl
  have hsplit : (glue reversed.reverse).splitOn slash = reversed.reverse :=
    splitOn_glue (by simpa using hne) fun part h => hs part (List.mem_reverse.mp h)
  have hfull : glue reversed.reverse ≠ [] := by
    intro e
    rw [e] at hsplit
    refine hroot (List.reverse_eq_iff.mp hsplit.symm)
  rw [hglue, components_eq hfull, hsplit]

/-- The path above has the components of the path without the last. -/
theorem components_of_parent? {p q : Bytes} (h : parent? p = some q) :
    components q = (components p).dropLast := by
  unfold parent? at h
  split at h
  · cases h
  · cases h
  rename_i c hroot hlast
  have hp : p ≠ [] := by
    rintro rfl
    cases hlast
  have hparts : ofParts (dropIdle (p.splitOn slash).reverse).reverse = components p := by
    rw [ofParts_dropIdle, List.reverse_reverse, components_eq hp]
  split at h
  · cases h
  rename_i a rest hdrop
  rw [hdrop, List.reverse_cons] at hparts
  split at h
  · rename_i hrest
    -- the only part is the last component
    cases h
    subst hrest
    rw [← hparts, components_nil]
    exact ((congrArg List.dropLast (List.append_nil _)).trans (dropLast_leading a)).symm
  · rename_i hrest
    cases h
    have hidle : isIdle (a :: rest.reverse.reverse) = false := by
      rw [List.reverse_reverse, ← hdrop]
      exact isIdle_dropIdle _
    have hs : ∀ part ∈ dropIdle rest, slash ∉ part := by
      intro part hmem
      have hmem : part ∈ dropIdle (p.splitOn slash).reverse := by
        rw [hdrop]
        exact List.mem_cons_of_mem a (mem_of_mem_dropIdle hmem)
      exact Bytes.not_mem_of_mem_splitOn (List.mem_reverse.mp (mem_of_mem_dropIdle hmem))
    rw [components_rejoin (dropIdle_ne_nil hrest) hs, ofParts_dropIdle, ← hparts,
      dropLast_ofParts_concat (List.reverse_ne_nil_iff.mpr hrest) hidle]

/-- What is above a path that ends with a name. -/
theorem components_parent {p name : Bytes} {above : List Component}
    (h : components p = above ++ [.name name]) : components (parent p) = above := by
  have hdrop : dropIdle (p.splitOn slash).reverse ≠ [] :=
    dropIdle_ne_nil (by simpa using Bytes.splitOn_ne_nil slash p)
  have hparent : parent? p ≠ none := by
    unfold parent?
    rw [h, List.getLast?_concat]
    dsimp only
    split
    · rename_i hnil
      exact absurd hnil hdrop
    · split <;> simp
  obtain ⟨q, hq⟩ := Option.ne_none_iff_exists'.mp hparent
  rw [parent, hq, Option.getD_some, components_of_parent? hq, h, List.dropLast_concat]

/-- A name below a path is one more component. -/
theorem components_join {p name : Bytes} (hs : slash ∉ name) (hn : name ≠ []) (hp : IsPlain name) :
    components (join p name) = components p ++ [.name name] := by
  have hpart : componentOf name = some (.name name) := by
    unfold componentOf
    rw [if_neg (by simp [hn, hp.ne_dot]), if_neg hp.ne_dots]
  have hinner : inner name = [.name name] := by
    rw [inner, Bytes.splitOn_of_not_mem hs, List.filterMap_cons_some hpart, List.filterMap_nil]
  have habs : isAbsolute name = false := by
    rw [isAbsolute, beq_eq_false_iff_ne]
    intro e
    exact hs (List.mem_of_mem_head? e)
  unfold join
  rw [if_neg (by simp [habs])]
  split
  · rename_i h
    simp only [Bool.or_eq_true, decide_eq_true_eq] at h
    by_cases hnil : p = []
    · subst hnil
      rw [List.nil_append, components_nil, components_eq hn, Bytes.splitOn_of_not_mem hs]
      simp [ofParts, leading, hn, hp.ne_dot, hpart]
    · obtain ⟨a, rfl⟩ : ∃ a, p = a ++ [slash] :=
        List.getLast?_eq_some_iff.mp (by simpa [endsWithSlash] using h.resolve_left hnil)
      rw [List.append_assoc, List.singleton_append]
      by_cases ha : a = []
      · subst ha
        have e : components (slash :: name) = .root :: inner name := by
          unfold components
          rw [Bytes.splitOn_sep_cons]
          rfl
        rw [List.nil_append, List.nil_append, e, hinner]
        rfl
      · rw [components_append_slash ha, components_concat_slash ha, hinner]
  · rename_i h
    have hnil : p ≠ [] := by
      rintro rfl
      exact h (by simp)
    rw [components_append_slash hnil, hinner]

end Path
end ContainerLayer
