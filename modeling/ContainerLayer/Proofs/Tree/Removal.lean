import ContainerLayer.Proofs.Tree.Closed

/-
What removals take away.

A removal is described by the locations that it takes away: nothing is at them
afterwards, and everything else is as it was (`Without`).  One that may fail on the
way takes away some of them (`Loses`).  Removals one after the other take away what
either of them does.
-/

namespace ContainerLayer
namespace Tree

/-- `t'` is `t` without some of what is at the locations that have `p`. -/
def Loses (p : Location → Prop) (t t' : Tree) : Prop :=
  ∀ k, t'.lookup k = t.lookup k ∨ (p k ∧ t'.lookup k = none)

namespace Loses

variable {p q : Location → Prop} {t t' t'' : Tree}

theorem refl (p : Location → Prop) (t : Tree) : Loses p t t := fun _ => .inl rfl

theorem none_or_eq (h : Loses p t t') (k : Location) :
    t'.lookup k = none ∨ t'.lookup k = t.lookup k := by
  rcases h k with e | ⟨_, e⟩
  · exact .inr e
  · exact .inl e

theorem eq_none (h : Loses p t t') {k : Location} (hk : t.lookup k = none) :
    t'.lookup k = none := by
  rcases h.none_or_eq k with e | e
  · exact e
  · rw [e, hk]

theorem trans (h : Loses p t t') (h' : Loses p t' t'') : Loses p t t'' := by
  intro k
  rcases h' k with e | e
  · rw [e]
    exact h k
  · exact .inr e

theorem mono (h : Loses p t t') (hq : ∀ k, p k → q k) : Loses q t t' :=
  fun k => (h k).imp_right fun hk => ⟨hq k hk.1, hk.2⟩

theorem eq_of_not (h : Loses p t t') {k : Location} (hk : ¬ p k) : t'.lookup k = t.lookup k :=
  (h k).resolve_right fun hp => hk hp.1

theorem isDirectory (h : Loses p t t') {k : Location} (hk : ¬ p k) :
    t'.isDirectory k = t.isDirectory k := by
  rw [Tree.isDirectory, Tree.isDirectory, h.eq_of_not hk]

theorem shrinksOutside (h : Loses p t t') (r : Location) : ShrinksOutside r t t' :=
  fun k _ => (h.none_or_eq k).symm

theorem sameOutside (h : Loses p t t') {r : Location}
    (hp : ∀ k, ¬ Below r k → t.lookup k ≠ none → ¬ p k) : SameOutside r t t' := by
  intro k hk
  by_cases hn : t.lookup k = none
  · rw [h.eq_none hn, hn]
  · exact h.eq_of_not (hp k hk hn)

end Loses

theorem Fades.loses {p : Location → Prop} {t t' t'' : Tree} (h : t.Fades t') (h' : Loses p t' t'') :
    t.Fades t'' := by
  intro l n hn
  rcases h'.none_or_eq l with e | e
  · exact .inr e
  · rw [e]
    exact h l n hn

/-- `t'` is `t` without what is at the locations that have `p`. -/
def Without (p : Location → Prop) (t t' : Tree) : Prop :=
  ∀ k, (p k → t'.lookup k = none) ∧ (¬ p k → t'.lookup k = t.lookup k)

namespace Without

variable {p q : Location → Prop} {t t' t'' : Tree}

theorem loses (h : Without p t t') : Loses p t t' := by
  intro k
  by_cases hp : p k
  · exact .inr ⟨hp, (h k).1 hp⟩
  · exact .inl ((h k).2 hp)

theorem isDirectory (h : Without p t t') {k : Location} (hk : ¬ p k) :
    t'.isDirectory k = t.isDirectory k := h.loses.isDirectory hk

theorem refl (t : Tree) : Without (fun _ => False) t t := fun _ => ⟨False.elim, fun _ => rfl⟩

/-- It makes no difference what is said about locations at which there is nothing. -/
theorem congr (h : Without p t t') (hq : ∀ k, t.lookup k ≠ none → (p k ↔ q k)) :
    Without q t t' := by
  intro k
  by_cases hk : t.lookup k = none
  · have : t'.lookup k = none := h.loses.eq_none hk
    exact ⟨fun _ => this, fun _ => by rw [this, hk]⟩
  · rw [← hq k hk]
    exact h k

/-- Nothing is below what a removal that takes away whole directories takes away. -/
theorem closed (h : Without p t t') (ht : t.Closed) (hroot : ¬ p [])
    (hp : ∀ l name, p l → p (l ++ [name])) : t'.Closed := by
  refine ⟨by rw [h.isDirectory hroot]; exact ht.root, fun l name hk => ?_⟩
  have hl : ¬ p l := fun hl => hk ((h _).1 (hp l name hl))
  rw [h.isDirectory hl]
  exact ht.above l name fun hn => hk (h.loses.eq_none hn)

end Without

/-! ## Removing what a path names -/

/-- What goes when the path is removed: what it names, with everything below.  A directory itself
goes only if its path still leads to it once nothing is in it. -/
def Removes (t : Tree) (path : PathParts) (k : Location) : Prop :=
  ∃ l n, t.find false path = .ok (l, n) ∧ l <+: k ∧
    (k = l → n.isDirectory = true → (t.hollow l).hasEntry path = true)

section Removing

variable {t t' : Tree} {path : PathParts} {l k : Location} {n : Node}

theorem removes_iff (hf : t.find false path = .ok (l, n)) :
    t.Removes path k ↔
      l <+: k ∧ (k = l → n.isDirectory = true → (t.hollow l).hasEntry path = true) := by
  constructor
  · intro h
    obtain ⟨l', n', e, hk⟩ := h
    rw [hf] at e
    cases e
    exact hk
  · exact fun h => ⟨l, n, hf, h⟩

theorem exists_removeAll (hf : t.find false path = .ok (l, n)) :
    ∃ t', t.removeAll path = .ok t' := by
  rw [removeAll, hf]
  by_cases hd : n.isDirectory = true
  · exact ⟨_, if_pos hd⟩
  · exact ⟨_, if_neg hd⟩

theorem removeAll_of_error {k : FaultKind} (h : t.find false path = .error k) (hk : k ≠ .notFound) :
    t.removeAll path = .error k := by
  rw [removeAll, h]
  cases k <;> first | rfl | exact absurd rfl hk

theorem Removes.concat (h : t.Removes path k) (name : Bytes) : t.Removes path (k ++ [name]) := by
  obtain ⟨l, n, hf, hk, _⟩ := h
  refine ⟨l, n, hf, hk.trans (List.prefix_append k [name]), fun e => ?_⟩
  have := hk.length_le
  have := congrArg List.length e
  simp only [List.length_append, List.length_singleton] at this
  omega

/-- A path that ends with a name does not name the root of the tree. -/
theorem not_removes_nil {name : Bytes} (hname : IsPlain name) :
    ¬ t.Removes (path ++ [name]) [] := by
  intro h
  obtain ⟨l, n, hf, hl, _⟩ := h
  obtain ⟨d, _, _, hd⟩ := (leads_of_resolve (find_eq_ok_iff.mp hf).1).concat hname
  rw [hd (.inl rfl)] at hl
  simpa using List.prefix_nil.mp hl

/-- What is not a directory goes alone, since nothing is below it. -/
theorem Closed.without_erase (ht : t.Closed) (hl : t.isDirectory l = false) :
    Without (l <+: ·) t (t.erase l) := by
  intro k
  by_cases he : k = l
  · subst he
    exact ⟨fun _ => lookup_erase_self t k, fun hk => absurd List.prefix_rfl hk⟩
  · rw [lookup_erase_ne he]
    exact ⟨fun hk => ht.lookup_of_not_isDirectory hl ⟨hk, he⟩, fun _ => rfl⟩

/-- A directory that is emptied, and then removed if `c` holds. -/
theorem without_hollow (t : Tree) (l : Location) (c : Prop) [Decidable c] :
    Without (fun k => l <+: k ∧ (k = l → c)) t
      (if c then (t.hollow l).erase l else t.hollow l) := by
  intro k
  by_cases he : k = l
  · subst he
    by_cases hc : c
    · rw [if_pos hc]
      exact ⟨fun _ => lookup_erase_self _ k, fun hk => absurd ⟨List.prefix_rfl, fun _ => hc⟩ hk⟩
    · rw [if_neg hc, lookup_hollow, if_neg fun hb => hb.2 rfl]
      exact ⟨fun hk => absurd (hk.2 rfl) hc, fun _ => rfl⟩
  · have hlookup : (if c then (t.hollow l).erase l else t.hollow l).lookup k
        = if Below l k then none else t.lookup k := by
      rw [← lookup_hollow]
      split
      · exact lookup_erase_ne he
      · rfl
    rw [hlookup]
    exact ⟨fun hk => if_pos ⟨hk.1, he⟩,
      fun hk => if_neg fun hb => hk ⟨hb.1, fun e => absurd e he⟩⟩

/-- What goes when a path is removed is gone afterwards, and everything else is as it was. -/
theorem Closed.without_of_removeAll (ht : t.Closed) (h : t.removeAll path = .ok t') :
    Without (t.Removes path) t t' := by
  unfold removeAll at h
  split at h
  · rename_i hf
    cases h
    refine (Without.refl t).congr fun k _ => ⟨False.elim, fun ⟨l, n, e, _⟩ => ?_⟩
    rw [hf] at e
    cases e
  · cases h
  · rename_i l n hf
    split at h <;> rename_i hd <;> cases h
    · refine (without_hollow t l _).congr fun k _ => ?_
      rw [removes_iff hf]
      simp only [hd, forall_const]
    · have hl : t.isDirectory l = false := by
        rw [isDirectory, (find_eq_ok_iff.mp hf).2]
        exact Bool.eq_false_iff.mpr hd
      refine (ht.without_erase hl).congr fun k _ => ?_
      rw [removes_iff hf]
      exact (and_iff_left fun _ h => absurd h hd).symm

theorem Closed.closed_of_removeAll (ht : t.Closed) {name : Bytes} (hname : IsPlain name)
    (h : t.removeAll (path ++ [name]) = .ok t') : t'.Closed :=
  (ht.without_of_removeAll h).closed ht (not_removes_nil hname) fun _ name hl => hl.concat name

end Removing

end Tree
end ContainerLayer
