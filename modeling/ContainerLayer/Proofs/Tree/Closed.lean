import ContainerLayer.Proofs.Tree.Following

/-
Trees in which everything is in a directory.

This is what every file system looks like, and what every change that a file system
offers keeps.  The location that a look-up ends at with nothing there is therefore
always a free name in a directory (`Leads.exists_concat`).
-/

namespace ContainerLayer
namespace Tree

/-- The root is a directory, and so is the place above everything else. -/
structure Closed (t : Tree) : Prop where
  root : t.isDirectory [] = true
  above : ∀ l name, t.lookup (l ++ [name]) ≠ none → t.isDirectory l = true

/-- It is enough to look at the nodes that are listed. -/
theorem closed_iff_nodes {t : Tree} :
    t.Closed ↔ t.isDirectory [] = true ∧
      ∀ p ∈ t.nodes, p.1 ≠ [] → t.isDirectory p.1.dropLast = true := by
  constructor
  · intro h
    refine ⟨h.root, fun p hp hne => ?_⟩
    obtain ⟨l, name, hl⟩ := (List.eq_nil_or_concat p.1).resolve_left hne
    rw [List.concat_eq_append] at hl
    rw [hl, List.dropLast_concat]
    exact h.above l name (lookup_ne_none_iff.mpr ⟨p, hp, hl⟩)
  · intro h
    obtain ⟨hroot, h⟩ := h
    refine ⟨hroot, fun l name hl => ?_⟩
    obtain ⟨p, hp, e⟩ := lookup_ne_none_iff.mp hl
    have := h p hp (by simp [e])
    rwa [e, List.dropLast_concat] at this

instance (t : Tree) : Decidable t.Closed := decidable_of_iff _ closed_iff_nodes.symm

namespace Closed

variable {t : Tree}

theorem isDirectory_of_append (ht : t.Closed) {l more : Location}
    (h : t.lookup (l ++ more) ≠ none) (hm : more ≠ []) : t.isDirectory l = true := by
  induction more generalizing l with
  | nil => exact absurd rfl hm
  | cons name more ih =>
    rw [List.append_cons] at h
    by_cases hmore : more = []
    · subst hmore
      rw [List.append_nil] at h
      exact ht.above l name h
    · exact ht.above l name (ne_none_of_isDirectory (ih h hmore))

/-- There is nothing below what is no directory. -/
theorem lookup_of_not_isDirectory (ht : t.Closed) {l k : Location}
    (hl : t.isDirectory l = false) (hk : Below l k) : t.lookup k = none := by
  obtain ⟨more, hm, rfl⟩ := hk.exists_append
  by_cases h : t.lookup (l ++ more) = none
  · exact h
  · rw [ht.isDirectory_of_append h hm] at hl
    cases hl

theorem dropLast_ne_none (ht : t.Closed) {l : Location} (h : t.isDirectory l = true) :
    t.lookup l.dropLast ≠ none := by
  rcases List.eq_nil_or_concat l with rfl | ⟨d, name, rfl⟩
  · exact ne_none_of_isDirectory h
  · rw [List.concat_eq_append] at h ⊢
    rw [List.dropLast_concat]
    exact ne_none_of_isDirectory (ht.above d name (ne_none_of_isDirectory h))

/-! ## What keeps a tree closed -/

theorem insert (ht : t.Closed) {d : Location} {name : Bytes} (hd : t.isDirectory d = true)
    (hn : t.lookup (d ++ [name]) = none) (n : Node) : (t.insert (d ++ [name]) n).Closed := by
  have keeps : ∀ l, t.isDirectory l = true → (t.insert (d ++ [name]) n).isDirectory l = true := by
    intro l hl
    have hne : l ≠ d ++ [name] := by
      intro e
      subst e
      exact ne_none_of_isDirectory hl hn
    rw [isDirectory, lookup_insert_ne hne]
    exact hl
  refine ⟨keeps [] ht.root, fun l x h => keeps l ?_⟩
  by_cases he : l ++ [x] = d ++ [name]
  · rw [(List.append_inj' he rfl).1]
    exact hd
  · rw [lookup_insert_ne he] at h
    exact ht.above l x h

theorem erase (ht : t.Closed) {l : Location} (hl : t.isDirectory l = false) :
    (t.erase l).Closed := by
  have keeps : ∀ k, t.isDirectory k = true → (t.erase l).isDirectory k = true := by
    intro k hk
    have hne : k ≠ l := by
      intro e
      subst e
      rw [hk] at hl
      cases hl
    rw [isDirectory, lookup_erase_ne hne]
    exact hk
  refine ⟨keeps [] ht.root, fun k x h => keeps k (ht.above k x fun e => h ?_)⟩
  rw [lookup_erase, e]
  split <;> rfl

theorem hollow (ht : t.Closed) (l : Location) : (t.hollow l).Closed := by
  have keeps : ∀ k, ¬ Below l k → (t.hollow l).isDirectory k = t.isDirectory k := by
    intro k hk
    rw [isDirectory, isDirectory, lookup_hollow, if_neg hk]
  refine ⟨?_, fun k x h => ?_⟩
  · rw [keeps [] fun hb => hb.2 (List.prefix_nil.mp hb.1).symm]
    exact ht.root
  · rw [lookup_hollow] at h
    split at h
    · exact absurd rfl h
    · rename_i hk
      rw [keeps k fun hb => hk (hb.concat x)]
      exact ht.above k x h

theorem modify (ht : t.Closed) (l : Location) {f : Node → Node}
    (hf : ∀ n, (f n).isDirectory = n.isDirectory) : (t.modify l f).Closed := by
  have keeps : ∀ k, (t.modify l f).isDirectory k = t.isDirectory k := by
    intro k
    rw [isDirectory, isDirectory, lookup_modify]
    split
    · cases t.lookup k <;> simp [hf]
    · rfl
  refine ⟨by rw [keeps]; exact ht.root, fun k x h => ?_⟩
  rw [keeps]
  refine ht.above k x fun e => h ?_
  rw [lookup_modify, e]
  split <;> rfl

theorem setMode (ht : t.Closed) (l : Location) (mode : Nat) : (t.setMode l mode).Closed :=
  ht.modify l fun n => by cases n <;> rfl

theorem setData (ht : t.Closed) (l : Location) (data : Bytes) : (t.setData l data).Closed :=
  ht.modify l fun n => by cases n <;> rfl

theorem setMtime (ht : t.Closed) (l : Location) (mtime : Int) : (t.setMtime l mtime).Closed :=
  ht.modify l fun n => by cases n <;> rfl

end Closed

/-- A look-up that ends where there is nothing ends at a free name in a directory. -/
theorem Leads.exists_concat {t : Tree} (ht : t.Closed) {links : Nat} {here : Location}
    {parts : PathParts} {l : Location} (h : Leads t false links here parts l)
    (hhere : t.lookup here ≠ none) (hl : t.lookup l = none) :
    ∃ pre name d, parts = pre ++ [name] ∧ IsPlain name ∧ Leads t true links here pre d ∧
      t.isDirectory d = true ∧ l = d ++ [name] := by
  induction h with
  | here => exact absurd hl hhere
  | @dot _ _ part _ _ hd hp _ ih =>
    obtain ⟨pre, name, d, rfl, h1, h2, h3⟩ := ih hhere hl
    exact ⟨part :: pre, name, d, rfl, h1, .dot hd hp h2, h3⟩
  | @dots _ _ part _ _ hd hp _ ih =>
    obtain ⟨pre, name, d, rfl, h1, h2, h3⟩ := ih (ht.dropLast_ne_none hd) hl
    exact ⟨part :: pre, name, d, rfl, h1, .dots hd hp h2, h3⟩
  | @vacant _ _ name hd hp _ => exact ⟨[], name, _, rfl, hp, .here, hd, rfl⟩
  | link _ _ hn => simp [hl] at hn
  | @jump _ here part target rest _ hd hp hn hr _ ih =>
    have hstart : t.lookup (if Path.isAbsolute target then [] else here) ≠ none := by
      split
      · exact ne_none_of_isDirectory ht.root
      · exact ne_none_of_isDirectory hd
    obtain ⟨pre, name, d, e, h1, h2, h3⟩ := ih hstart hl
    -- the link is not at the end of the path, so the path ends as the rest does
    have hrest : rest ≠ [] := by simpa using hr
    obtain ⟨front, last, rfl⟩ := (List.eq_nil_or_concat rest).resolve_left hrest
    rw [List.concat_eq_append, ← List.append_assoc] at e
    obtain ⟨rfl, hlast⟩ := List.append_inj' e rfl
    obtain rfl : last = name := by simpa using hlast
    exact ⟨part :: front, last, d, by simp, h1, .jump hd hp hn (.inr rfl) h2, h3⟩
  | @step _ _ part _ _ _ hd hp hn hs _ ih =>
    obtain ⟨pre, name, d, rfl, h1, h2, h3⟩ := ih (by simp [hn]) hl
    exact ⟨part :: pre, name, d, rfl, h1, .step hd hp hn hs h2, h3⟩

/-- Where a path leads to nothing, something can be put. -/
theorem Closed.exists_concat_of_resolve {t : Tree} (ht : t.Closed) {path : PathParts}
    {l : Location} (h : t.resolve false path = .ok l) (hl : t.lookup l = none) :
    ∃ above name d, path = above ++ [name] ∧ IsPlain name ∧ t.isDirectory d = true ∧
      l = d ++ [name] := by
  obtain ⟨above, name, d, h1, h2, _, h3⟩ :=
    (leads_of_resolve h).exists_concat ht (ne_none_of_isDirectory ht.root) hl
  exact ⟨above, name, d, h1, h2, h3⟩

end Tree
end ContainerLayer
