import ContainerLayer.Proofs.Path

/-
The plain spelling of a path: its components with single slashes in between.

A path has the same components as its plain spelling (`components_spell`).  Two paths
that differ in slashes and dots without meaning have the same essence.
-/

namespace ContainerLayer
namespace Path

/-- The component is a part between slashes that counts anywhere in a path. -/
structure IsStep (c : Component) : Prop where
  part : componentOf c.text = some c
  slash : slash ∉ c.text

theorem isStep_of_componentOf {part : Bytes} {c : Component} (hs : slash ∉ part)
    (h : componentOf part = some c) : IsStep c := by
  have h' := h
  unfold componentOf at h
  split at h
  · cases h
  split at h
  · rename_i he
    cases h
    exact ⟨rfl, by decide⟩
  · cases h
    exact ⟨h', hs⟩

theorem IsStep.ne_root {c : Component} (h : IsStep c) : c ≠ .root := by
  intro e
  subst e
  exact h.slash (by decide)

theorem IsStep.ne_here {c : Component} (h : IsStep c) : c ≠ .here := by
  intro e
  subst e
  exact absurd h.part (by decide)

theorem IsStep.text_ne {c : Component} (h : IsStep c) : c.text ≠ [] ∧ c.text ≠ dot := by
  constructor
  · intro e
    have := h.part
    rw [e] at this
    cases this
  · intro e
    have := h.part
    rw [e] at this
    exact absurd this (by simp [componentOf])

/-- What comes behind a slash adds these components. -/
def inner (q : Bytes) : List Component := (q.splitOn slash).filterMap componentOf

theorem isStep_of_mem_inner {q : Bytes} {c : Component} (h : c ∈ inner q) : IsStep c := by
  obtain ⟨part, hpart, hc⟩ := List.mem_filterMap.mp h
  exact isStep_of_componentOf (Bytes.not_mem_of_mem_splitOn hpart) hc

/-- The components of a path: perhaps a root or a dot, then steps. -/
inductive Parts : List Component → Prop
  | plain (cs : List Component) (h : ∀ c ∈ cs, IsStep c) : Parts cs
  | root (cs : List Component) (h : ∀ c ∈ cs, IsStep c) : Parts (.root :: cs)
  | here (cs : List Component) (h : ∀ c ∈ cs, IsStep c) : Parts (.here :: cs)

theorem parts_components (p : Bytes) : Parts (components p) := by
  have hmem : ∀ first rest, p.splitOn slash = first :: rest →
      ∀ c ∈ rest.filterMap componentOf, IsStep c := by
    intro first rest e c hc
    obtain ⟨part, hpart, hc⟩ := List.mem_filterMap.mp hc
    have hm : part ∈ p.splitOn slash := by
      rw [e]
      exact List.mem_cons_of_mem first hpart
    exact isStep_of_componentOf (Bytes.not_mem_of_mem_splitOn hm) hc
  unfold components
  cases e : p.splitOn slash with
  | nil => exact .plain [] (by simp)
  | cons first rest =>
    have hrest := hmem first rest e
    dsimp only
    split
    · exact .plain [] (by simp)
    split
    · exact .root _ hrest
    split
    · exact .here _ hrest
    · refine .plain _ fun c hc => ?_
      rcases List.mem_append.mp hc with hc | hc
      · have hm : first ∈ p.splitOn slash := by
          rw [e]
          exact List.mem_cons_self
        exact isStep_of_componentOf (Bytes.not_mem_of_mem_splitOn hm) (Option.mem_toList.mp hc)
      · exact hrest c hc

theorem Parts.getLast?_names {cs : List Component} (h : Parts cs) (hup : Component.up ∉ cs) :
    (cs.filterMap nameOfComponent).getLast? = cs.getLast?.bind nameOfComponent := by
  -- steps that do not lead upwards are names, and so the last of them is one
  have hsteps : ∀ steps : List Component, (∀ c ∈ steps, IsStep c) → Component.up ∉ steps →
      (steps.filterMap nameOfComponent).getLast? = steps.getLast?.bind nameOfComponent := by
    intro steps hs hu
    rcases List.eq_nil_or_concat steps with rfl | ⟨front, c, rfl⟩
    · rfl
    · rw [List.concat_eq_append] at hs hu ⊢
      have hc := hs c (by simp)
      cases c with
      | name n => simp [nameOfComponent]
      | root => exact absurd rfl hc.ne_root
      | here => exact absurd rfl hc.ne_here
      | up => exact absurd (by simp) hu
  have hfront : ∀ c steps, nameOfComponent c = none → (∀ c ∈ steps, IsStep c) →
      Component.up ∉ steps → ((c :: steps).filterMap nameOfComponent).getLast?
        = (c :: steps).getLast?.bind nameOfComponent := by
    intro c steps hc hs hu
    rw [List.filterMap_cons_none hc, hsteps steps hs hu]
    cases steps with
    | nil => simp [hc]
    | cons d rest => rw [List.getLast?_cons_cons]
  cases h with
  | plain cs h => exact hsteps cs h hup
  | root cs h => exact hfront .root cs rfl h fun hu => hup (List.mem_cons_of_mem _ hu)
  | here cs h => exact hfront .here cs rfl h fun hu => hup (List.mem_cons_of_mem _ hu)

/-- A path that never leads upwards ends with the last of its names. -/
theorem fileName_eq_getLast? {p : Bytes} (hup : hasUp p = false) :
    fileName p = (names p).getLast? := by
  have hup : Component.up ∉ components p := by simpa [hasUp] using hup
  rw [names_def, (parts_components p).getLast?_names hup, fileName]
  cases (components p).getLast? with
  | none => rfl
  | some c => cases c <;> rfl

/-- The text of components with single slashes in between; `slashed` says that one has to
come in front. -/
def spell (slashed : Bool) : List Component → Bytes
  | [] => []
  | c :: rest => (if slashed then [slash] else []) ++ c.text ++ spell (slashed || c != .root) rest

theorem spell_true (c : Component) (cs : List Component) (hc : c ≠ .root) :
    spell true (c :: cs) = slash :: spell false (c :: cs) := by
  have e : (c != .root) = true := bne_iff_ne.mpr hc
  simp [spell, e]

theorem splitOn_spell {cs : List Component} (hne : cs ≠ [])
    (h : ∀ c ∈ cs, c ≠ .root ∧ slash ∉ c.text) :
    (spell false cs).splitOn slash = cs.map Component.text := by
  induction cs with
  | nil => exact absurd rfl hne
  | cons c cs ih =>
    obtain ⟨hc, hs⟩ := h c List.mem_cons_self
    have hcs := fun c hc => h c (List.mem_cons_of_mem _ hc)
    have hb : (c != .root) = true := bne_iff_ne.mpr hc
    have e : spell false (c :: cs) = c.text ++ spell true cs := by simp [spell, hb]
    rw [e]
    cases cs with
    | nil => rw [spell, List.append_nil, Bytes.splitOn_of_not_mem hs]; rfl
    | cons c' cs =>
      rw [spell_true c' cs (hcs c' List.mem_cons_self).1, Bytes.splitOn_append,
        Bytes.splitOn_of_not_mem hs, ih (by simp) hcs]
      rfl

theorem filterMap_text {cs : List Component} (h : ∀ c ∈ cs, IsStep c) :
    (cs.map Component.text).filterMap componentOf = cs := by
  induction cs with
  | nil => rfl
  | cons c cs ih =>
    rw [List.map_cons, List.filterMap_cons_some (h c List.mem_cons_self).part,
      ih fun c hc => h c (List.mem_cons_of_mem _ hc)]

/-- Components are those of their spelling. -/
theorem components_spell {cs : List Component} (h : Parts cs) : components (spell false cs) = cs := by
  have hsteps : ∀ cs : List Component, (∀ c ∈ cs, IsStep c) →
      ∀ c ∈ cs, c ≠ .root ∧ slash ∉ c.text := fun cs h c hc => ⟨(h c hc).ne_root, (h c hc).slash⟩
  cases h with
  | plain _ h =>
    cases cs with
    | nil => rfl
    | cons c cs =>
      have hc := (h c List.mem_cons_self).text_ne
      have hsplit := splitOn_spell (List.cons_ne_nil c cs) (hsteps _ h)
      have hne : spell false (c :: cs) ≠ [] := by simp [spell, hc.1]
      have hmap := filterMap_text h
      rw [List.map_cons] at hsplit hmap
      unfold components
      rw [hsplit]
      dsimp only
      rw [if_neg hne, if_neg hc.1, if_neg hc.2, ← hmap]
      cases hc' : componentOf c.text <;> simp [hc']
  | root cs h =>
    have e : spell false (.root :: cs) = slash :: spell false cs := rfl
    unfold components
    rw [e, Bytes.splitOn_sep_cons]
    dsimp only
    rw [if_neg (List.cons_ne_nil _ _), if_pos rfl]
    congr 1
    cases cs with
    | nil => rfl
    | cons c cs =>
      rw [splitOn_spell (List.cons_ne_nil c cs) (hsteps _ h), filterMap_text h]
  | here cs h =>
    have hall : ∀ c ∈ Component.here :: cs, c ≠ .root ∧ slash ∉ c.text := by
      intro c hc
      rcases List.mem_cons.mp hc with rfl | hc
      · exact ⟨by decide, by decide⟩
      · exact hsteps cs h c hc
    have hsplit := splitOn_spell (List.cons_ne_nil _ cs) hall
    have hne : spell false (.here :: cs) ≠ [] := by simp [spell, Component.text]
    unfold components
    rw [hsplit, List.map_cons]
    dsimp only
    rw [if_neg hne, if_neg (by decide), if_pos (by rfl), filterMap_text h]

/-! ## Slashes in the middle and at the end -/

theorem components_append_slash {p : Bytes} (hp : p ≠ []) (q : Bytes) :
    components (p ++ slash :: q) = components p ++ inner q := by
  unfold components
  rw [Bytes.splitOn_append]
  cases e : p.splitOn slash with
  | nil => exact absurd e (Bytes.splitOn_ne_nil slash p)
  | cons first rest =>
    simp only [List.cons_append, List.filterMap_append, List.append_eq_nil_iff, hp, false_and,
      if_false, List.cons_ne_nil]
    split
    · rfl
    split
    · rfl
    · rw [List.append_assoc]
      rfl

theorem components_concat_slash {p : Bytes} (hp : p ≠ []) :
    components (p ++ [slash]) = components p := by
  rw [components_append_slash hp]
  exact List.append_nil _

theorem endsWithSlash_append {p q : Bytes} (hq : q ≠ []) :
    endsWithSlash (p ++ q) = endsWithSlash q := by
  rw [endsWithSlash, endsWithSlash, List.getLast?_append]
  cases h : q.getLast? with
  | none => exact absurd (List.getLast?_eq_none_iff.mp h) hq
  | some x => rfl

theorem spell_concat (slashed : Bool) (cs : List Component) (c : Component) :
    ∃ front, spell slashed (cs ++ [c]) = front ++ c.text := by
  induction cs generalizing slashed with
  | nil => exact ⟨if slashed then [slash] else [], by simp [spell]⟩
  | cons c' cs ih =>
    obtain ⟨front, e⟩ := ih (slashed || c' != .root)
    exact ⟨(if slashed then [slash] else []) ++ c'.text ++ front, by
      rw [List.cons_append, spell, e, ← List.append_assoc]⟩

theorem spell_eq_nil {slashed : Bool} {cs : List Component} (h : Parts cs)
    (e : spell slashed cs = []) : cs = [] := by
  cases h with
  | plain _ h =>
    cases cs with
    | nil => rfl
    | cons c cs => simp [spell, (h c List.mem_cons_self).text_ne.1] at e
  | root cs h => simp [spell, Component.text] at e
  | here cs h => simp [spell, Component.text] at e

/-- A plain spelling ends with a slash only if it is the root's. -/
theorem endsWithSlash_spell {cs : List Component} (h : Parts cs) :
    endsWithSlash (spell false cs) = decide (cs = [.root]) := by
  have hlast : ∀ (cs : List Component) (c : Component), c.text ≠ [] → slash ∉ c.text →
      endsWithSlash (spell false (cs ++ [c])) = false := by
    intro cs c hne hs
    obtain ⟨front, e⟩ := spell_concat false cs c
    rw [e, endsWithSlash_append hne, Bool.eq_false_iff]
    intro he
    have he : c.text.getLast? = some slash := by simpa [endsWithSlash] using he
    exact hs (List.mem_of_getLast? he)
  have hsteps : ∀ (front cs : List Component), (∀ c ∈ cs, IsStep c) → cs ≠ [] →
      endsWithSlash (spell false (front ++ cs)) = false ∧ front ++ cs ≠ [.root] := by
    intro front cs h hne
    obtain ⟨cs', c, rfl⟩ : ∃ cs' c, cs = cs' ++ [c] :=
      ⟨_, _, (List.dropLast_concat_getLast hne).symm⟩
    have hc := h c (List.mem_append_right _ List.mem_cons_self)
    rw [← List.append_assoc]
    refine ⟨hlast _ c hc.text_ne.1 hc.slash, fun e => hc.ne_root ?_⟩
    have := congrArg List.getLast? e
    simpa using this
  cases h with
  | plain _ h =>
    cases cs with
    | nil => rfl
    | cons c cs =>
      obtain ⟨h₁, h₂⟩ := hsteps [] (c :: cs) h (by simp)
      exact h₁.trans (decide_eq_false h₂).symm
  | root cs h =>
    cases cs with
    | nil => decide
    | cons c cs =>
      obtain ⟨h₁, h₂⟩ := hsteps [.root] (c :: cs) h (by simp)
      exact h₁.trans (decide_eq_false h₂).symm
  | here cs h =>
    cases cs with
    | nil => decide
    | cons c cs =>
      obtain ⟨h₁, h₂⟩ := hsteps [.here] (c :: cs) h (by simp)
      exact h₁.trans (decide_eq_false h₂).symm

/-! ## Dots without meaning -/

/-- Components without a dot in front of others. -/
def undotted (cs : List Component) : List Component :=
  if cs.length = 1 then cs else cs.filter (· != .here)

/-- What is left of a path without redundant slashes and dots. -/
def essence (p : Bytes) : List Component := undotted (components p)

theorem filter_of_isStep {cs : List Component} (h : ∀ c ∈ cs, IsStep c) :
    cs.filter (· != .here) = cs :=
  List.filter_eq_self.mpr fun c hc => bne_iff_ne.mpr (h c hc).ne_here

theorem parts_undotted {cs : List Component} (h : Parts cs) : Parts (undotted cs) := by
  unfold undotted
  split
  · exact h
  · cases h with
    | plain _ h => rw [filter_of_isStep h]; exact .plain cs h
    | root cs h =>
      rw [List.filter_cons_of_pos (by decide), filter_of_isStep h]
      exact .root cs h
    | here cs h =>
      rw [List.filter_cons_of_neg (by decide), filter_of_isStep h]
      exact .plain cs h

theorem undotted_undotted_append {cs steps : List Component} (hcs : cs ≠ [])
    (hs : ∀ c ∈ steps, IsStep c) : undotted (undotted cs ++ steps) = undotted (cs ++ steps) := by
  have hf := filter_of_isStep hs
  by_cases h₁ : cs.length = 1
  · rw [show undotted cs = cs from if_pos h₁]
  · have e : undotted cs = cs.filter (· != .here) := if_neg h₁
    have hlong : (cs ++ steps).length ≠ 1 := by
      have := List.length_pos_iff.mpr hcs
      rw [List.length_append]
      omega
    rw [e, show undotted (cs ++ steps) = _ from if_neg hlong, List.filter_append]
    unfold undotted
    split
    · rw [hf]
    · rw [List.filter_append, List.filter_filter, hf]
      simp

theorem undotted_undotted (cs : List Component) : undotted (undotted cs) = undotted cs := by
  cases cs with
  | nil => rfl
  | cons c cs =>
    have e : undotted (undotted (c :: cs) ++ []) = undotted (c :: cs ++ []) :=
      undotted_undotted_append (List.cons_ne_nil c cs) (by simp)
    simpa using e

theorem undotted_ne_nil {cs : List Component} (h : Parts cs) (hne : cs ≠ []) : undotted cs ≠ [] := by
  unfold undotted
  split
  · exact hne
  · rename_i hlen
    cases h with
    | plain _ h => rwa [filter_of_isStep h]
    | root cs h =>
      rw [List.filter_cons_of_pos (by decide)]
      simp
    | here cs h =>
      rw [List.filter_cons_of_neg (by decide), filter_of_isStep h]
      intro e
      subst e
      exact hlen rfl

theorem filter_steps {cs : List Component} (h : ∀ c ∈ cs, IsStep c) :
    cs.filter (fun c => c != .root && c != .here) = cs := by
  refine List.filter_eq_self.mpr fun c hc => ?_
  simp [(h c hc).ne_root, (h c hc).ne_here]

theorem inner_eq (q : Bytes) :
    inner q = (components q).filter fun c => c != .root && c != .here := by
  have hq : (inner q).filter _ = inner q := filter_steps fun c hc => isStep_of_mem_inner hc
  rw [← hq]
  unfold inner components
  cases e : q.splitOn slash with
  | nil => exact absurd e (Bytes.splitOn_ne_nil slash q)
  | cons first rest =>
    dsimp only
    split
    · subst q
      cases e
      rfl
    split
    · subst first
      rfl
    split
    · subst first
      rfl
    · cases hc : componentOf first <;> simp [hc]

theorem inner_eq_of_undotted {p q : Bytes} (h : components q = undotted (components p)) :
    inner q = inner p := by
  rw [inner_eq, inner_eq, h]
  unfold undotted
  split
  · rfl
  · rw [List.filter_filter]
    congr 1
    funext c
    by_cases hc : c = .here <;> simp [hc]

theorem components_ne_nil {p : Bytes} (hp : p ≠ []) : components p ≠ [] := by
  unfold components
  cases e : p.splitOn slash with
  | nil => exact absurd e (Bytes.splitOn_ne_nil slash p)
  | cons first rest =>
    dsimp only
    rw [if_neg hp]
    split
    · exact List.cons_ne_nil _ _
    rename_i hfirst
    split
    · exact List.cons_ne_nil _ _
    rename_i hdot
    unfold componentOf
    rw [if_neg (by simp [hfirst, hdot])]
    split <;> exact List.cons_ne_nil _ _

/-- Steps with components in front of them are the steps alone just if what is in front is a
dot. -/
theorem undotted_append_eq_steps_iff {front steps : List Component} (hf : Parts front)
    (hfront : front ≠ []) (hs : ∀ c ∈ steps, IsStep c) (hsteps : steps ≠ []) :
    undotted (front ++ steps) = steps ↔ front = [.here] := by
  have hlong : (front ++ steps).length ≠ 1 := by
    have := List.length_pos_iff.mpr hfront
    have := List.length_pos_iff.mpr hsteps
    rw [List.length_append]
    omega
  rw [undotted, if_neg hlong, List.filter_append, filter_of_isStep hs, List.append_left_eq_self]
  cases hf with
  | plain _ h =>
    rw [filter_of_isStep h]
    refine ⟨fun e => absurd e hfront, fun e => absurd rfl (h .here ?_).ne_here⟩
    rw [e]
    exact List.mem_cons_self
  | root cs h => simp
  | here cs h => rw [List.filter_cons_of_neg (by decide), filter_of_isStep h, List.cons_inj_right]

/-- A path without a root that gets something in front of it stays the same path just if that is
a dot. -/
theorem undotted_append_inner_iff {front : List Component} {p : Bytes} (hf : Parts front)
    (hfront : front ≠ []) (hp : components p ≠ []) (hroot : .root ∉ components p) :
    undotted (front ++ inner p) = essence p ↔ front = [.here] := by
  have hs : ∀ c ∈ inner p, IsStep c := fun c hc => isStep_of_mem_inner hc
  have hparts := parts_components p
  have hcut := inner_eq p
  unfold essence
  generalize components p = cs at hp hroot hparts hcut
  generalize inner p = steps at hs hcut
  cases hparts with
  | plain _ h =>
    rw [filter_steps h] at hcut
    subst hcut
    rw [show undotted steps = steps by unfold undotted; split <;> simp [filter_of_isStep h]]
    exact undotted_append_eq_steps_iff hf hfront h hp
  | root cs h => exact absurd List.mem_cons_self hroot
  | here cs h =>
    rw [List.filter_cons_of_neg (by decide), filter_steps h] at hcut
    subst hcut
    cases steps with
    | nil =>
      rw [List.append_nil]
      constructor
      · intro e
        unfold undotted at e
        split at e
        · exact e
        · have hmem : Component.here ∈ front.filter (· != .here) := by
            rw [e]
            exact List.mem_cons_self
          simpa using (List.mem_filter.mp hmem).2
      · rintro rfl
        rfl
    | cons c cs =>
      have e : undotted (.here :: c :: cs) = c :: cs := by
        rw [undotted, if_neg (by simp), List.filter_cons_of_neg (by decide), filter_of_isStep h]
      rw [e]
      exact undotted_append_eq_steps_iff hf hfront h (List.cons_ne_nil c cs)

/-- The two texts name the same, up to slashes and dots without meaning, and both or
neither ends with a slash. -/
structure Alike (p q : Bytes) : Prop where
  essence : essence q = essence p
  slash : endsWithSlash q = endsWithSlash p

theorem Alike.refl (p : Bytes) : Alike p p := ⟨rfl, rfl⟩

/-! ## The directory above -/

/-- Parts with slashes in between. -/
def glue (parts : List Bytes) : Bytes := (parts.intersperse [slash]).flatten

theorem glue_cons {a : Bytes} {as : List Bytes} (h : as ≠ []) :
    glue (a :: as) = a ++ slash :: glue as := by
  cases as with
  | nil => exact absurd rfl h
  | cons b as => simp [glue, List.intersperse]

theorem glue_append {as bs : List Bytes} (ha : as ≠ []) (hb : bs ≠ []) :
    glue (as ++ bs) = glue as ++ slash :: glue bs := by
  induction as with
  | nil => exact absurd rfl ha
  | cons a as ih =>
    cases as with
    | nil =>
      rw [List.singleton_append, glue_cons hb]
      simp [glue]
    | cons a' as =>
      have hne : a' :: as ≠ [] := List.cons_ne_nil a' as
      rw [List.cons_append, glue_cons (List.append_ne_nil_of_left_ne_nil hne bs), ih hne,
        glue_cons hne, List.append_assoc]
      rfl

theorem glue_splitOn (p : Bytes) : glue (p.splitOn slash) = p := by
  induction p with
  | nil => rfl
  | cons x p ih =>
    rw [Bytes.splitOn_cons]
    cases e : Bytes.splitOn slash p with
    | nil => exact absurd e (Bytes.splitOn_ne_nil slash p)
    | cons a as =>
      rw [e] at ih
      unfold Bytes.splitStep
      dsimp only
      split
      · rename_i hx
        rw [glue_cons (by simp), ih, hx]
        rfl
      · rw [← ih]
        cases as with
        | nil => simp [glue]
        | cons b as =>
          have hne : b :: as ≠ [] := List.cons_ne_nil b as
          rw [glue_cons hne, glue_cons hne, List.cons_append]

theorem dropIdle_suffix (parts : List Bytes) : ∃ idle, parts = idle ++ dropIdle parts := by
  induction parts with
  | nil => exact ⟨[], rfl⟩
  | cons a as ih =>
    rw [dropIdle]
    split
    · obtain ⟨idle, e⟩ := ih
      exact ⟨a :: idle, by rw [List.cons_append, ← e]⟩
    · exact ⟨[], rfl⟩

theorem dropIdle_ne_nil {parts : List Bytes} (h : parts ≠ []) : dropIdle parts ≠ [] := by
  induction parts with
  | nil => exact absurd rfl h
  | cons a as ih =>
    rw [dropIdle]
    split
    · rename_i hi
      refine ih ?_
      intro e
      subst e
      exact absurd hi (by simp [isIdle])
    · simp

/-- The path is below `front`, which is neither empty nor the root: `front` is its text up
to a slash. -/
def Below (front path : Bytes) : Prop := ∃ rest, path = front ++ slash :: rest

theorem Below.trans {a b c : Bytes} (h : Below a b) (k : Below b c) : Below a c := by
  obtain ⟨r, rfl⟩ := h
  obtain ⟨s, rfl⟩ := k
  exact ⟨r ++ slash :: s, by simp⟩

theorem rejoin_eq {reversed : List Bytes} (h : rejoin reversed ≠ [slash]) :
    rejoin reversed = glue reversed.reverse := by
  unfold rejoin at h ⊢
  split
  · rfl
  · exact absurd rfl h
  · simp [glue]
  · rfl

theorem below_of_parent? {p q : Bytes} (h : parent? p = some q) (hne : q ≠ [])
    (hroot : q ≠ [slash]) : Below q p := by
  unfold parent? at h
  split at h
  · cases h
  · cases h
  split at h
  · cases h
  rename_i a rest e
  split at h
  · cases h
    exact absurd rfl hne
  rename_i hrest
  cases h
  obtain ⟨idle, h₁⟩ := dropIdle_suffix (p.splitOn slash).reverse
  obtain ⟨idle', h₂⟩ := dropIdle_suffix rest
  have hrest' := dropIdle_ne_nil hrest
  have hparts : p.splitOn slash
      = (dropIdle rest).reverse ++ (idle ++ a :: idle').reverse := by
    have h₃ : (p.splitOn slash).reverse = idle ++ a :: (idle' ++ dropIdle rest) := by
      rw [← h₂, ← e]
      exact h₁
    have := congrArg List.reverse h₃
    simpa using this
  refine ⟨glue (idle ++ a :: idle').reverse, ?_⟩
  rw [rejoin_eq hroot, ← glue_append (by simpa using hrest') (by simp), ← hparts, glue_splitOn]

end Path
end ContainerLayer
