import ContainerLayer.Tree.Change

/-
What the changes to a tree do to the node at each location.

Trees are lists of nodes, but everything about them is said through `lookup`.
Each change has one lemma here that gives the node at an arbitrary location after
the change, so that no later proof opens the list.
-/

namespace ContainerLayer
namespace Tree

/-- `l` is below `r`, at any depth. -/
def Below (r l : Location) : Prop := r <+: l ∧ l ≠ r

instance (r l : Location) : Decidable (Below r l) := inferInstanceAs (Decidable (_ ∧ _))

theorem below_append {r names : Location} (h : names ≠ []) : Below r (r ++ names) :=
  ⟨List.prefix_append r names, fun e => h (List.append_right_eq_self.mp e)⟩

theorem below_concat {r d : Location} (h : r <+: d) (name : Bytes) : Below r (d ++ [name]) := by
  obtain ⟨names, rfl⟩ := h
  rw [List.append_assoc]
  exact below_append (by simp)

theorem Below.exists_append {r l : Location} (h : Below r l) :
    ∃ names, names ≠ [] ∧ l = r ++ names := by
  obtain ⟨⟨names, rfl⟩, hne⟩ := h
  exact ⟨names, fun e => hne (by rw [e, List.append_nil]), rfl⟩

theorem Below.concat {r l : Location} (h : Below r l) (name : Bytes) : Below r (l ++ [name]) :=
  below_concat h.1 name

/-- Dropping nodes by their locations. -/
theorem lookup_filter (t : Tree) (keep : Location → Bool) (k : Location) :
    Tree.lookup { t with nodes := t.nodes.filter fun p => keep p.1 } k
      = if keep k then t.lookup k else none := by
  simp only [lookup]
  induction t.nodes with
  | nil => simp
  | cons p ps ih =>
    by_cases hp : p.1 = k
    · subst hp
      by_cases hk : keep p.1
      · simp [hk]
      · simp only [List.filter_cons, hk, if_false, Bool.false_eq_true] at ih ⊢
        exact ih
    · have hb : (p.1 == k) = false := by simpa using hp
      by_cases hk : keep p.1
      · simp only [List.filter_cons, hk, if_true, List.find?_cons, hb]
        exact ih
      · simp only [List.filter_cons, hk, if_false, Bool.false_eq_true, List.find?_cons, hb]
        exact ih

theorem lookup_erase (t : Tree) (l k : Location) :
    (t.erase l).lookup k = if k = l then none else t.lookup k := by
  by_cases h : k = l
  · subst h
    rw [lookup_erase_self, if_pos rfl]
  · rw [lookup_erase_ne h, if_neg h]

theorem lookup_insert (t : Tree) (l k : Location) (n : Node) :
    (t.insert l n).lookup k = if k = l then some n else t.lookup k := by
  by_cases h : k = l
  · subst h
    rw [lookup_insert_self, if_pos rfl]
  · rw [lookup_insert_ne h, if_neg h]

theorem lookup_insertFile (t : Tree) (l k : Location) (data : Bytes) (mode : Nat)
    (mtime : Option Int) :
    (t.insertFile l data mode mtime).lookup k
      = if k = l then some (.file ⟨t.freshId, data, mode, mtime⟩) else t.lookup k :=
  lookup_insert t l k _

theorem lookup_hollow (t : Tree) (l k : Location) :
    (t.hollow l).lookup k = if Below l k then none else t.lookup k := by
  have h := lookup_filter t (fun k => k = l || !l.isPrefixOf k) k
  rw [show (t.hollow l).lookup k = _ from h]
  by_cases hk : Below l k
  · rw [if_pos hk, if_neg (by simp [hk.1, hk.2])]
  · rw [if_neg hk, if_pos]
    by_cases he : k = l
    · simp [he]
    · have hpre : ¬ l <+: k := fun hpre => hk ⟨hpre, he⟩
      simp [Bool.eq_false_iff, List.isPrefixOf_iff_prefix, hpre]

theorem lookup_modify (t : Tree) (l k : Location) (f : Node → Node) :
    (t.modify l f).lookup k = if k = l then (t.lookup k).map f else t.lookup k := by
  simp only [lookup, modify]
  induction t.nodes with
  | nil => simp
  | cons p ps ih =>
    by_cases hp : p.1 = k
    · by_cases hl : k = l <;> simp [hp, hl]
    · have hb : (p.1 == k) = false := by simpa using hp
      have hb' : ((if p.1 = l then (p.1, f p.2) else p).1 == k) = false := by
        split <;> exact hb
      rw [List.map_cons, List.find?_cons, hb', List.find?_cons, hb]
      exact ih

theorem lookup_setMode_ne {t : Tree} {l k : Location} (h : k ≠ l) (mode : Nat) :
    (t.setMode l mode).lookup k = t.lookup k := by
  rw [setMode, lookup_modify, if_neg h]

theorem lookup_setData_ne {t : Tree} {l k : Location} (h : k ≠ l) (data : Bytes) :
    (t.setData l data).lookup k = t.lookup k := by
  rw [setData, lookup_modify, if_neg h]

theorem lookup_setMtime_ne {t : Tree} {l k : Location} (h : k ≠ l) (mtime : Int) :
    (t.setMtime l mtime).lookup k = t.lookup k := by
  rw [setMtime, lookup_modify, if_neg h]

theorem getLast?_eq_some_and_dropLast_eq {k l : Location} {name : Bytes} :
    (k.getLast? = some name ∧ k.dropLast = l) ↔ k = l ++ [name] := by
  constructor
  · intro h
    obtain ⟨h, rfl⟩ := h
    obtain ⟨ys, rfl⟩ := List.getLast?_eq_some_iff.mp h
    rw [List.dropLast_concat]
  · intro e
    subst e
    simp

theorem lookup_ne_none_iff {t : Tree} {k : Location} :
    t.lookup k ≠ none ↔ ∃ p ∈ t.nodes, p.1 = k := by
  rw [lookup, ne_eq, Option.map_eq_none_iff, ← ne_eq, Option.ne_none_iff_isSome,
    List.find?_isSome]
  simp

/-- The children of a directory are the names of the nodes right below it. -/
theorem mem_children {t : Tree} {l : Location} {name : Bytes} :
    name ∈ t.children l ↔ (name ≠ Path.dot ∧ name ≠ Path.dots) ∧ t.lookup (l ++ [name]) ≠ none := by
  rw [lookup_ne_none_iff, children, List.mem_filterMap, ← exists_and_left]
  refine exists_congr fun p => ?_
  rw [and_left_comm]
  refine and_congr_right fun _ => ?_
  rw [← getLast?_eq_some_and_dropLast_eq]
  cases p.1.getLast? with
  | none => simp
  | some x =>
    by_cases hd : p.1.dropLast = l
    · by_cases hx : x = name
      · simp [hd, hx]
      · simp [hd, hx]
    · simp [hd]

end Tree
end ContainerLayer
