import ContainerLayer.Proofs.Tree.Closed

/-
What the changes through paths do.

Whatever makes something puts one node where there was none (`Puts`); the removal of
a name takes one node away that is no directory (`Drops`).  Both keep a tree closed,
and both change nothing outside of a location that the directory is in.
-/

namespace ContainerLayer
namespace Tree

/-- `t'` is `t` with a node at `l`, where `path` leads and nothing was. -/
def Puts (t : Tree) (path : PathParts) (l : Location) (t' : Tree) : Prop :=
  t.resolve false path = .ok l ∧ t.lookup l = none ∧
    ∃ n, ∀ k, t'.lookup k = if k = l then some n else t.lookup k

/-- `t'` is `t` without the node that `path` names at `l`, which is no directory. -/
def Drops (t : Tree) (path : PathParts) (l : Location) (t' : Tree) : Prop :=
  t.resolve false path = .ok l ∧ t.lookup l ≠ none ∧ t.isDirectory l = false ∧ t' = t.erase l

theorem puts_insert {t : Tree} {path : PathParts} {l : Location}
    (h : t.resolve false path = .ok l) (hl : t.lookup l = none) (n : Node) :
    Puts t path l (t.insert l n) :=
  ⟨h, hl, n, fun k => lookup_insert t l k n⟩

theorem puts_of_makeDirectory {t t' : Tree} {path : PathParts} {mode : Nat}
    (h : t.makeDirectory path mode = .ok t') :
    ∃ l, Puts t path l t' ∧ t'.isDirectory l = true := by
  unfold makeDirectory at h
  cases hr : t.resolve false path with
  | error k => rw [hr] at h; cases h
  | ok l =>
    simp only [hr, bind, Except.bind] at h
    cases hl : t.lookup l with
    | some n => rw [hl] at h; cases h
    | none =>
      rw [hl] at h
      cases h
      exact ⟨l, puts_insert hr hl _, by simp [isDirectory, Node.isDirectory]⟩

theorem puts_of_createFile {t t' : Tree} {path : PathParts} {l : Location}
    (h : t.createFile path = .ok (l, t')) : Puts t path l t' := by
  unfold createFile at h
  cases hr : t.resolve false path with
  | error k => rw [hr] at h; cases h
  | ok l =>
    simp only [hr, bind, Except.bind] at h
    cases hl : t.lookup l with
    | some n => rw [hl] at h; cases h
    | none =>
      rw [hl] at h
      cases h
      exact ⟨hr, hl, _, fun k => lookup_insertFile t l k _ _ _⟩

theorem lookup_of_createFile {t t' : Tree} {path : PathParts} {l : Location}
    (h : t.createFile path = .ok (l, t')) : ∃ id, t'.lookup l = some (.file { id }) := by
  unfold createFile at h
  cases hr : t.resolve false path with
  | error k => rw [hr] at h; cases h
  | ok l' =>
    simp only [hr, bind, Except.bind] at h
    cases hl : t.lookup l' with
    | some n => rw [hl] at h; cases h
    | none =>
      rw [hl] at h
      cases h
      exact ⟨t.freshId, by rw [lookup_insertFile, if_pos rfl]⟩

theorem puts_of_makeSymlink {t t' : Tree} {path : PathParts} {target : Bytes}
    (h : t.makeSymlink path target = .ok t') : ∃ l, Puts t path l t' := by
  simp only [makeSymlink, bind, Except.bind, throw, throwThe, MonadExceptOf.throw] at h
  by_cases h0 : target.contains 0 = true
  · rw [if_pos h0] at h
    cases h
  by_cases h1 : target = []
  · rw [if_neg h0, if_pos h1] at h
    cases h
  by_cases h2 : maxPath ≤ target.length
  · rw [if_neg h0, if_neg h1, if_pos h2] at h
    cases h
  rw [if_neg h0, if_neg h1, if_neg h2] at h
  cases hr : t.resolve false path with
  | error k => simp only [hr] at h; cases h
  | ok l =>
    simp only [hr] at h
    cases hl : t.lookup l with
    | some n => rw [hl] at h; cases h
    | none =>
      rw [hl] at h
      cases h
      exact ⟨l, puts_insert hr hl _⟩

theorem puts_of_makeHardLink {t t' : Tree} {existing path : PathParts}
    (h : t.makeHardLink existing path = .ok t') : ∃ l, Puts t path l t' := by
  unfold makeHardLink at h
  cases hf : t.find false existing with
  | error k => rw [hf] at h; cases h
  | ok r =>
    cases hr : t.resolve false path with
    | error k => simp only [hf, hr, bind, Except.bind] at h; cases h
    | ok l =>
      simp only [hf, hr, bind, Except.bind] at h
      cases hl : t.lookup l with
      | some n => simp only [hl, Option.isSome_some, if_true] at h; cases h
      | none =>
        simp only [hl, Option.isSome_none, Bool.false_eq_true, if_false] at h
        by_cases hd : r.2.isDirectory = true
        · rw [if_pos hd] at h; cases h
        · rw [if_neg hd] at h
          cases h
          exact ⟨l, puts_insert hr hl _⟩

theorem drops_of_unlink {t t' : Tree} {path : PathParts} (h : t.unlink path = .ok t') :
    ∃ l, Drops t path l t' := by
  unfold unlink at h
  cases hf : t.find false path with
  | error k => rw [hf] at h; cases h
  | ok r =>
    obtain ⟨l, n⟩ := r
    obtain ⟨hr, hl⟩ := find_eq_ok_iff.mp hf
    simp only [hf, bind, Except.bind] at h
    by_cases hd : n.isDirectory = true
    · rw [if_pos hd] at h; cases h
    · rw [if_neg hd] at h
      cases h
      exact ⟨l, hr, by simp [hl], by simpa [isDirectory, hl] using hd, rfl⟩

/-! ## What they keep -/

theorem Closed.congr {t t' : Tree} (ht : t.Closed) (h : ∀ k, t'.lookup k = t.lookup k) :
    t'.Closed := by
  have hd : ∀ k, t'.isDirectory k = t.isDirectory k := fun k => by
    rw [isDirectory, isDirectory, h]
  exact ⟨by rw [hd]; exact ht.root, fun l name hl => by
    rw [h] at hl
    rw [hd]
    exact ht.above l name hl⟩

theorem Puts.closed {t t' : Tree} {path : PathParts} {l : Location} (h : Puts t path l t')
    (ht : t.Closed) : t'.Closed := by
  obtain ⟨hr, hl, n, hn⟩ := h
  obtain ⟨_, name, d, _, _, hd, rfl⟩ := ht.exists_concat_of_resolve hr hl
  exact (ht.insert hd hl n).congr fun k => by rw [hn, lookup_insert]

theorem Drops.closed {t t' : Tree} {path : PathParts} {l : Location} (h : Drops t path l t')
    (ht : t.Closed) : t'.Closed := by
  obtain ⟨_, _, hd, rfl⟩ := h
  exact ht.erase hd

theorem Puts.fades {t t' : Tree} {path : PathParts} {l : Location} (h : Puts t path l t') :
    t.Fades t' := by
  obtain ⟨_, hl, n, hn⟩ := h
  intro k m hk
  rw [hn, if_neg (by rintro rfl; rw [hl] at hk; cases hk)]
  exact .inl hk

theorem Drops.fades {t t' : Tree} {path : PathParts} {l : Location} (h : Drops t path l t') :
    t.Fades t' := by
  obtain ⟨_, _, _, rfl⟩ := h
  refine Fades.of_le fun k m hk => ?_
  rw [lookup_erase] at hk
  split at hk
  · cases hk
  · exact hk

theorem Puts.sameOutside {t t' : Tree} {path : PathParts} {l : Location}
    (h : Puts t path l t') {r : Location} (hl : Below r l) : SameOutside r t t' := by
  obtain ⟨_, _, n, hn⟩ := h
  intro k hk
  rw [hn, if_neg (by rintro rfl; exact hk hl)]

theorem Drops.sameOutside {t t' : Tree} {path : PathParts} {l : Location}
    (h : Drops t path l t') {r : Location} (hl : Below r l) : SameOutside r t t' := by
  obtain ⟨_, _, _, rfl⟩ := h
  intro k hk
  rw [lookup_erase, if_neg (by rintro rfl; exact hk hl)]

/-- A path that goes one name beyond a place inside leads to a place inside. -/
theorem below_of_resolve {t t' : Tree} (ht : t.Fades t') {above : PathParts} {name : Bytes}
    (hname : IsPlain name) {r d l : Location} (hd : t.canonicalize above = .ok d) (hr : r <+: d)
    (h : t'.resolve false (above ++ [name]) = .ok l) : Below r l := by
  rw [(resolve_concat ht hname hd h (.inl rfl)).1]
  exact below_concat hr name

/-! ## Making the directories on the way -/

/-- Each step makes the last directory of the path, once the others were made or not. -/
theorem makeDirectories_cons {t t' : Tree} {name : Bytes} {above : PathParts}
    (h : t.makeDirectories (name :: above) = .ok t') :
    ∃ t₁, (t₁ = t ∨ t.makeDirectories above = .ok t₁) ∧
      (t' = t₁ ∨ ∃ l, Puts t₁ (above.reverse ++ [name]) l t' ∧ t'.isDirectory l = true) := by
  have hor : ∀ {t₁ : Tree},
      t₁.orDirectory (name :: above).reverse (t₁.makeDirectory (name :: above).reverse 0o755)
        = .ok t' →
      t' = t₁ ∨ ∃ l, Puts t₁ (above.reverse ++ [name]) l t' ∧ t'.isDirectory l = true := by
    intro t₁ h
    unfold orDirectory at h
    split at h
    · cases h
      exact .inl rfl
    · obtain ⟨l, hl, hd⟩ := puts_of_makeDirectory h
      rw [List.reverse_cons] at hl
      exact .inr ⟨l, hl, hd⟩
  unfold makeDirectories at h
  dsimp only at h
  split at h
  · cases hm : t.makeDirectories above with
    | error k => simp only [hm, bind, Except.bind] at h; cases h
    | ok t₁ =>
      simp only [hm, bind, Except.bind] at h
      exact ⟨t₁, .inr rfl, hor h⟩
  · exact ⟨t, .inl rfl, hor h⟩

/-- A path that leads to a node does not lead to a free name. -/
theorem Leads.not_vacant {t : Tree} {links : Nat} {here : Location} {parts : PathParts}
    {l l' : Location} (h : Leads t false links here parts l) (hl : t.lookup l = none)
    (h' : Leads t true links here parts l') : t.lookup l' = none := by
  induction h generalizing l' with
  | here =>
    cases h'
    exact hl
  | dot _ hp _ ih =>
    cases h' with
    | dot _ _ h' => exact ih hl h'
    | dots _ hq => exact absurd (hp.symm.trans hq) (by decide)
    | vacant _ hq => exact absurd hp hq.ne_dot
    | link _ _ _ hl' => cases hl'
    | jump _ hq => exact absurd hp hq.ne_dot
    | step _ hq => exact absurd hp hq.ne_dot
  | dots _ hp _ ih =>
    cases h' with
    | dot _ hq => exact absurd (hp.symm.trans hq) (by decide)
    | dots _ _ h' => exact ih hl h'
    | vacant _ hq => exact absurd hp hq.ne_dots
    | link _ _ _ hl' => cases hl'
    | jump _ hq => exact absurd hp hq.ne_dots
    | step _ hq => exact absurd hp hq.ne_dots
  | vacant _ hp hn =>
    cases h' with
    | dot _ hq => exact absurd hq hp.ne_dot
    | dots _ hq => exact absurd hq hp.ne_dots
    | vacant _ _ _ => exact hn
    | link _ _ _ hl' => cases hl'
    | jump _ _ hm => simp [hn] at hm
    | step _ _ hm => simp [hn] at hm
  | link _ _ hn => simp [hl] at hn
  | jump _ hp hn _ _ ih =>
    cases h' with
    | dot _ hq => exact absurd hq hp.ne_dot
    | dots _ hq => exact absurd hq hp.ne_dots
    | vacant _ _ hm => simp [hn] at hm
    | link _ _ _ hl' => cases hl'
    | jump _ _ hm _ h' =>
      rw [hn] at hm
      cases hm
      exact ih hl h'
    | step _ _ hm hs =>
      rw [hn] at hm
      cases hm
      exact absurd rfl (hs _)
  | step _ hp hn hs _ ih =>
    cases h' with
    | dot _ hq => exact absurd hq hp.ne_dot
    | dots _ hq => exact absurd hq hp.ne_dots
    | vacant _ _ hm => simp [hn] at hm
    | link _ _ _ hl' => cases hl'
    | jump _ _ hm =>
      rw [hn] at hm
      cases hm
      exact absurd rfl (hs _)
    | step _ _ _ _ h' => exact ih hl h'

/-- Nothing is made on the way to a node. -/
theorem makeDirectories_of_leads {t t' : Tree} {reversed : PathParts} {d : Location}
    (hd : Leads t true linkBudget [] reversed.reverse d) (hn : t.lookup d ≠ none)
    (h : t.makeDirectories reversed = .ok t') : t' = t := by
  induction reversed generalizing d t' with
  | nil =>
    cases h
    rfl
  | cons name above ih =>
    rw [List.reverse_cons] at hd
    obtain ⟨d', _, hd', hlast⟩ := hd.split (by simp)
    have hn' := ne_none_of_isDirectory hlast.isDirectory
    obtain ⟨t₁, h₁, h₂⟩ := makeDirectories_cons h
    obtain rfl : t₁ = t := by
      rcases h₁ with rfl | h₁
      · rfl
      · exact ih hd' hn' h₁
    rcases h₂ with rfl | ⟨l, ⟨hr, hl, _⟩, _⟩
    · rfl
    · exact absurd ((leads_of_resolve hr).not_vacant hl hd) hn

/-- In a directory that exists, one directory is made at most. -/
theorem puts_of_makeDirectories {t t' : Tree} {name : Bytes} {above : PathParts} {d : Location}
    (hd : t.canonicalize above.reverse = .ok d)
    (h : t.makeDirectories (name :: above) = .ok t') :
    t' = t ∨ ∃ l, Puts t (above.reverse ++ [name]) l t' ∧ t'.isDirectory l = true := by
  obtain ⟨n, hf⟩ := canonicalize_eq_ok_iff.mp hd
  obtain ⟨hr, hl⟩ := find_eq_ok_iff.mp hf
  obtain ⟨t₁, h₁, h₂⟩ := makeDirectories_cons h
  obtain rfl : t₁ = t := by
    rcases h₁ with rfl | h₁
    · rfl
    · exact makeDirectories_of_leads (leads_of_resolve hr) (by simp [hl]) h₁
  exact h₂

end Tree
end ContainerLayer
