import ContainerLayer.Proofs.Tree.Puts
import ContainerLayer.Proofs.Tree.Removal

/-
Paths that stay where they lead.

Changes to a tree can break a path, and this library never makes anything where a
broken path would have led.  So a path that leads to some place never leads to
another one later (`OnlyTo`): as long as the path is whole nothing is put in its way,
and once it is broken nothing is put at all.
-/

namespace ContainerLayer

/-- Nodes that following a path does not tell apart. -/
def Node.Alike : Node → Node → Prop
  | directory _, directory _ => True
  | file _, file _ => True
  | symlink target, symlink target' => target = target'
  | _, _ => False

theorem Node.Alike.refl (n : Node) : n.Alike n := by cases n <;> simp [Alike]

namespace Tree

/-- The path leads to a node. -/
def Present (t : Tree) (path : PathParts) : Prop :=
  ∃ d, Leads t true linkBudget [] path d ∧ t.lookup d ≠ none

theorem present_of_canonicalize {t : Tree} {path : PathParts} {l : Location}
    (h : t.canonicalize path = .ok l) : t.Present path := by
  obtain ⟨n, hf⟩ := canonicalize_eq_ok_iff.mp h
  obtain ⟨hr, hl⟩ := find_eq_ok_iff.mp hf
  exact ⟨l, leads_of_resolve hr, by simp [hl]⟩

/-- What leads to something goes by way of something. -/
theorem Present.of_append {t : Tree} {path more : PathParts} (h : t.Present (path ++ more)) :
    t.Present path := by
  cases more with
  | nil => rwa [List.append_nil] at h
  | cons part rest =>
    obtain ⟨d, hd, _⟩ := h
    obtain ⟨d', _, h₁, h₂⟩ := hd.split (by simp)
    exact ⟨d', h₁, ne_none_of_isDirectory h₂.isDirectory⟩

/-- Something is put in a directory that is there. -/
theorem Puts.present {t t' : Tree} {path : PathParts} {name : Bytes} {l : Location}
    (h : Puts t (path ++ [name]) l t') : t.Present path := by
  obtain ⟨d, _, h₁, h₂⟩ := (leads_of_resolve h.1).split (by simp)
  exact ⟨d, h₁, ne_none_of_isDirectory h₂.isDirectory⟩

/-- Every node of `t'` is in `t`, too, or was one that leads on in the same way. -/
def Covers (t t' : Tree) : Prop :=
  ∀ l m, t'.lookup l = some m → ∃ n, t.lookup l = some n ∧ n.Alike m

theorem Covers.ne_none {t t' : Tree} (h : t.Covers t') {l : Location} (hl : t'.lookup l ≠ none) :
    t.lookup l ≠ none := by
  obtain ⟨m, hm⟩ := Option.ne_none_iff_exists'.mp hl
  obtain ⟨n, hn, _⟩ := h l m hm
  simp [hn]

theorem Covers.isDirectory {t t' : Tree} (h : t.Covers t') {l : Location}
    (hl : t'.isDirectory l = true) : t.isDirectory l = true := by
  obtain ⟨mode, hm⟩ := isDirectory_iff.mp hl
  obtain ⟨n, hn, ha⟩ := h l _ hm
  cases n with
  | directory mode' => exact isDirectory_iff.mpr ⟨mode', hn⟩
  | file f => exact ha.elim
  | symlink target => exact ha.elim

/-- What leads to a node led there before. -/
theorem Leads.of_covers {t t' : Tree} (ht : t.Covers t') {last : Bool} {links : Nat}
    {here l : Location} {parts : PathParts} (h : Leads t' last links here parts l)
    (hl : t'.lookup l ≠ none) : Leads t last links here parts l := by
  induction h with
  | here => exact .here
  | dot hd hp _ ih => exact .dot (ht.isDirectory hd) hp (ih hl)
  | dots hd hp _ ih => exact .dots (ht.isDirectory hd) hp (ih hl)
  | vacant _ _ hn => exact absurd hn hl
  | link hd hp hn hlast =>
    obtain ⟨n, hm, ha⟩ := ht _ _ hn
    cases n with
    | symlink target' => exact .link (ht.isDirectory hd) hp hm hlast
    | directory mode => exact ha.elim
    | file f => exact ha.elim
  | jump hd hp hn hr _ ih =>
    obtain ⟨n, hm, ha⟩ := ht _ _ hn
    cases n with
    | symlink target' =>
      cases ha
      exact .jump (ht.isDirectory hd) hp hm hr (ih hl)
    | directory mode => exact ha.elim
    | file f => exact ha.elim
  | @step _ _ _ m _ _ hd hp hn hs _ ih =>
    obtain ⟨n, hm, ha⟩ := ht _ _ hn
    refine .step (ht.isDirectory hd) hp hm ?_ (ih hl)
    rintro target rfl
    cases m with
    | symlink target' => exact hs target' rfl
    | directory mode => exact ha.elim
    | file f => exact ha.elim

/-- If the path leads to anything, then to what is at `r`. -/
def OnlyTo (t : Tree) (path : PathParts) (r : Location) : Prop :=
  ∀ l, Leads t true linkBudget [] path l → t.lookup l ≠ none → l = r

namespace OnlyTo

variable {t t' : Tree} {path : PathParts} {r : Location}

theorem eq_of_canonicalize (h : t.OnlyTo path r) {l : Location} (hl : t.canonicalize path = .ok l) :
    l = r := by
  obtain ⟨n, hf⟩ := canonicalize_eq_ok_iff.mp hl
  obtain ⟨hr, hn⟩ := find_eq_ok_iff.mp hf
  exact h l (leads_of_resolve hr) (by simp [hn])

/-- Where a path leads is settled as long as it leads anywhere. -/
theorem of_present (h : t.OnlyTo path r) (hp : t.Present path) (ht : t.Fades t') :
    t'.OnlyTo path r := by
  obtain ⟨d, hd, hn⟩ := hp
  intro l hl hl'
  rw [hd.unique ht hn hl hl']
  exact h d hd hn

theorem of_covers (h : t.OnlyTo path r) (ht : t.Covers t') : t'.OnlyTo path r :=
  fun l hl hl' => h l (hl.of_covers ht hl') (ht.ne_none hl')

end OnlyTo

theorem onlyTo_of_canonicalize {t : Tree} {path : PathParts} {r : Location}
    (h : t.canonicalize path = .ok r) : t.OnlyTo path r := by
  obtain ⟨n, hf⟩ := canonicalize_eq_ok_iff.mp h
  obtain ⟨hr, hn⟩ := find_eq_ok_iff.mp hf
  intro l hl hl'
  exact (leads_of_resolve hr).unique (Fades.refl t) (by simp [hn]) hl hl'

theorem exists_onlyTo (t : Tree) (path : PathParts) : ∃ r, t.OnlyTo path r := by
  by_cases h : t.Present path
  · obtain ⟨d, hd, hn⟩ := h
    exact ⟨d, fun l hl hl' => hd.unique (Fades.refl t) hn hl hl'⟩
  · exact ⟨[], fun l hl hl' => absurd ⟨l, hl, hl'⟩ h⟩

/-! ## Changes that lead on in the same way -/

theorem Loses.covers {p : Location → Prop} {t t' : Tree} (h : Loses p t t') : t.Covers t' := by
  intro l m hm
  rcases h.none_or_eq l with e | e
  · rw [e] at hm
    cases hm
  · rw [e] at hm
    exact ⟨m, hm, .refl m⟩

/-- A directory was emptied before it was removed. -/
theorem Without.hollow_covers {t t' : Tree} {path : PathParts} {l : Location} {n : Node}
    (h : Without (t.Removes path) t t') (hf : t.find false path = .ok (l, n)) :
    (t.hollow l).Covers t' := by
  intro k m hm
  have hk : ¬ t.Removes path k := by
    intro hk
    rw [(h k).1 hk] at hm
    cases hm
  refine ⟨m, ?_, .refl m⟩
  rw [lookup_hollow, if_neg, ← (h k).2 hk, hm]
  exact fun hb => hk ((removes_iff hf).mpr ⟨hb.1, fun e => absurd e hb.2⟩)

theorem Drops.covers {t t' : Tree} {path : PathParts} {l : Location} (h : Drops t path l t') :
    t.Covers t' := by
  obtain ⟨_, _, _, rfl⟩ := h
  intro k m hm
  rw [lookup_erase] at hm
  split at hm
  · cases hm
  · exact ⟨m, hm, .refl m⟩

theorem covers_modify (t : Tree) (l : Location) {f : Node → Node}
    (hf : ∀ n : Node, n.Alike (f n)) : t.Covers (t.modify l f) := by
  intro k m hm
  rw [lookup_modify] at hm
  split at hm
  · obtain ⟨n, hn, rfl⟩ := Option.map_eq_some_iff.mp hm
    exact ⟨n, hn, hf n⟩
  · exact ⟨m, hm, .refl m⟩

theorem covers_setMode (t : Tree) (l : Location) (mode : Nat) : t.Covers (t.setMode l mode) :=
  covers_modify t l fun n => by cases n <;> simp [Node.Alike]

theorem covers_setData (t : Tree) (l : Location) (data : Bytes) : t.Covers (t.setData l data) :=
  covers_modify t l fun n => by cases n <;> simp [Node.Alike]

theorem covers_setMtime (t : Tree) (l : Location) (mtime : Int) :
    t.Covers (t.setMtime l mtime) :=
  covers_modify t l fun n => by cases n <;> simp [Node.Alike]

end Tree
end ContainerLayer
