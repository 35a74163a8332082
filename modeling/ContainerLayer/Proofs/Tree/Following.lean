import ContainerLayer.Proofs.Tree.Lookup

/-
Where paths lead in trees that differ.

`Leads` says step by step how a path is followed, and is what `Tree.follow` works
out.  Two facts about it carry everything that is said about paths elsewhere.  A
path that leads to a node leads to no other node once nodes were taken away or put
in where there were none (`Leads.unique`).  And a path with one more name
leads into the directory that the path without the name leads to (`resolve_concat`).
-/

namespace ContainerLayer
namespace Tree

/-- A name that a directory can hold. -/
structure IsPlain (name : Bytes) : Prop where
  ne_dot : name ≠ Path.dot
  ne_dots : name ≠ Path.dots

/-- Following `parts` from the directory at `here` ends at `l`, with at most `links` links
on the way. -/
inductive Leads (t : Tree) (last : Bool) : (links : Nat) → Location → PathParts → Location → Prop
  | here {links l} : Leads t last links l [] l
  | dot {links here part rest l} (hd : t.isDirectory here = true) (hp : part = Path.dot)
      (h : Leads t last links here rest l) : Leads t last links here (part :: rest) l
  | dots {links here part rest l} (hd : t.isDirectory here = true) (hp : part = Path.dots)
      (h : Leads t last links here.dropLast rest l) : Leads t last links here (part :: rest) l
  | vacant {links here name} (hd : t.isDirectory here = true) (hp : IsPlain name)
      (hn : t.lookup (here ++ [name]) = none) :
      Leads t last links here [name] (here ++ [name])
  | link {links here name target} (hd : t.isDirectory here = true) (hp : IsPlain name)
      (hn : t.lookup (here ++ [name]) = some (.symlink target)) (hl : last = false) :
      Leads t last links here [name] (here ++ [name])
  | jump {links here name target rest l} (hd : t.isDirectory here = true) (hp : IsPlain name)
      (hn : t.lookup (here ++ [name]) = some (.symlink target)) (hr : rest ≠ [] ∨ last = true)
      (h : Leads t last links (if Path.isAbsolute target then [] else here)
        (partsOf target ++ rest) l) :
      Leads t last (links + 1) here (name :: rest) l
  | step {links here name n rest l} (hd : t.isDirectory here = true) (hp : IsPlain name)
      (hn : t.lookup (here ++ [name]) = some n) (hs : ∀ target, n ≠ .symlink target)
      (h : Leads t last links (here ++ [name]) rest l) :
      Leads t last links here (name :: rest) l

theorem isDirectory_iff {t : Tree} {l : Location} :
    t.isDirectory l = true ↔ ∃ mode, t.lookup l = some (.directory mode) := by
  unfold isDirectory
  cases t.lookup l with
  | none => simp
  | some n => cases n <;> simp [Node.isDirectory]

theorem ne_none_of_isDirectory {t : Tree} {l : Location} (h : t.isDirectory l = true) :
    t.lookup l ≠ none := by
  obtain ⟨mode, h⟩ := isDirectory_iff.mp h
  simp [h]

/-- A walk leads somewhere if the jumps that it may make do. -/
theorem leads_of_walk {t : Tree} {last : Bool} {links : Nat}
    {jump : Location → PathParts → Except FaultKind Location}
    (hjump : ∀ {here name target rest l}, t.isDirectory here = true → IsPlain name →
      t.lookup (here ++ [name]) = some (.symlink target) → rest ≠ [] ∨ last = true →
      jump (if Path.isAbsolute target then [] else here) (partsOf target ++ rest) = .ok l →
      Leads t last links here (name :: rest) l)
    {here : Location} {parts : PathParts} {l : Location}
    (h : t.walk last jump here parts = .ok l) : Leads t last links here parts l := by
  induction parts generalizing here with
  | nil =>
    cases h
    exact .here
  | cons part rest ih =>
    unfold walk at h
    split at h
    · cases h
    · cases h
    · cases h
    · rename_i mode hhere
      have hd : t.isDirectory here = true := isDirectory_iff.mpr ⟨mode, hhere⟩
      split at h
      · exact .dot hd ‹_› (ih h)
      split at h
      · exact .dots hd ‹_› (ih h)
      rename_i hdot hdots
      have hp : IsPlain part := ⟨hdot, hdots⟩
      split at h
      · cases h
      dsimp only at h
      split at h
      · rename_i hn
        split at h
        · subst rest
          cases h
          exact .vacant hd hp hn
        · cases h
      · rename_i target hn
        split at h
        · rename_i he
          obtain ⟨rfl, hl⟩ : rest = [] ∧ last = false := by simpa using he
          cases h
          exact .link hd hp hn hl
        · rename_i he
          refine hjump hd hp hn ?_ h
          by_cases hr : rest = []
          · exact .inr (by simpa [hr] using he)
          · exact .inl hr
      · rename_i n hs hn
        exact .step hd hp hn hs (ih h)

theorem leads_of_follow {t : Tree} {last : Bool} {links : Nat} {here : Location}
    {parts : PathParts} {l : Location} (h : t.follow last links here parts = .ok l) :
    Leads t last links here parts l := by
  induction links generalizing here parts l with
  | zero => exact leads_of_walk (fun _ _ _ _ e => by cases e) h
  | succ links ih => exact leads_of_walk (fun hd hp hn hr e => .jump hd hp hn hr (ih e)) h

/-! ## Trees that differ -/

/-- Every node of `t` is in `t'` as it was, or is gone; `t'` may have others beside. -/
def Fades (t t' : Tree) : Prop :=
  ∀ l n, t.lookup l = some n → t'.lookup l = some n ∨ t'.lookup l = none

theorem Fades.refl (t : Tree) : t.Fades t := fun _ _ h => .inl h

theorem Fades.eq_of_some {t t' : Tree} (ht : t.Fades t') {l : Location} {n m : Node}
    (h : t.lookup l = some n) (h' : t'.lookup l = some m) : m = n := by
  rcases ht l n h with e | e
  · rw [e] at h'
    exact (Option.some.inj h').symm
  · rw [e] at h'
    cases h'

theorem Fades.of_le {t t' : Tree} (h : ∀ l n, t'.lookup l = some n → t.lookup l = some n) :
    t.Fades t' := by
  intro l n hn
  cases hm : t'.lookup l with
  | none => exact .inr rfl
  | some m =>
    have := h l m hm
    rw [hn] at this
    exact .inl this.symm

theorem Leads.unique {t t' : Tree} (ht : t.Fades t') {last : Bool} {links : Nat}
    {here : Location} {parts : PathParts} {l l' : Location}
    (h : Leads t last links here parts l) (hl : t.lookup l ≠ none)
    (h' : Leads t' last links here parts l') (hl' : t'.lookup l' ≠ none) : l' = l := by
  induction h generalizing l' with
  | here =>
    cases h'
    rfl
  | dot _ hp _ ih =>
    cases h' with
    | dot _ _ h' => exact ih hl h' hl'
    | dots _ hq => exact absurd (hp.symm.trans hq) (by decide)
    | vacant _ hq => exact absurd hp hq.ne_dot
    | link _ hq => exact absurd hp hq.ne_dot
    | jump _ hq => exact absurd hp hq.ne_dot
    | step _ hq => exact absurd hp hq.ne_dot
  | dots _ hp _ ih =>
    cases h' with
    | dot _ hq => exact absurd (hp.symm.trans hq) (by decide)
    | dots _ _ h' => exact ih hl h' hl'
    | vacant _ hq => exact absurd hp hq.ne_dots
    | link _ hq => exact absurd hp hq.ne_dots
    | jump _ hq => exact absurd hp hq.ne_dots
    | step _ hq => exact absurd hp hq.ne_dots
  | vacant _ _ hn => exact absurd hn hl
  | link _ hp hn hlast =>
    cases h' with
    | dot _ hq => exact absurd hq hp.ne_dot
    | dots _ hq => exact absurd hq hp.ne_dots
    | vacant _ _ _ => rfl
    | link _ _ _ => rfl
    | jump _ _ _ hr => simp [hlast] at hr
    | step _ _ hm hs => exact absurd (ht.eq_of_some hn hm) (hs _)
  | jump _ hp hn hr _ ih =>
    cases h' with
    | dot _ hq => exact absurd hq hp.ne_dot
    | dots _ hq => exact absurd hq hp.ne_dots
    | vacant _ _ hm => exact absurd hm hl'
    | link _ _ _ hlast => simp [hlast] at hr
    | jump _ _ hm _ h' =>
      cases ht.eq_of_some hn hm
      exact ih hl h' hl'
    | step _ _ hm hs => exact absurd (ht.eq_of_some hn hm) (hs _)
  | step _ hp hn hs _ ih =>
    cases h' with
    | dot _ hq => exact absurd hq hp.ne_dot
    | dots _ hq => exact absurd hq hp.ne_dots
    | vacant _ _ hm => exact absurd hm hl'
    | link _ _ hm => exact absurd (ht.eq_of_some hn hm).symm (hs _)
    | jump _ _ hm => exact absurd (ht.eq_of_some hn hm).symm (hs _)
    | step _ _ _ _ h' => exact ih hl h' hl'

/-- A path with more parts behind it leads to a place from which the further parts lead on. -/
theorem Leads.split {t : Tree} {last : Bool} {links : Nat} {here : Location}
    {parts more : PathParts} (hmore : more ≠ []) {l : Location}
    (h : Leads t last links here (parts ++ more) l) :
    ∃ d links', Leads t true links here parts d ∧ Leads t last links' d more l := by
  generalize hq : parts ++ more = q at h
  induction h generalizing parts with
  | here => simp [hmore] at hq
  | @dot links here part rest l hd hp h ih =>
    cases parts with
    | nil =>
      subst hq
      exact ⟨here, links, .here, .dot hd hp h⟩
    | cons _ rest =>
      cases hq
      obtain ⟨d, links', h₁, h₂⟩ := ih rfl
      exact ⟨d, links', .dot hd hp h₁, h₂⟩
  | @dots links here part rest l hd hp h ih =>
    cases parts with
    | nil =>
      subst hq
      exact ⟨here, links, .here, .dots hd hp h⟩
    | cons _ rest =>
      cases hq
      obtain ⟨d, links', h₁, h₂⟩ := ih rfl
      exact ⟨d, links', .dots hd hp h₁, h₂⟩
  | @vacant links here name hd hp hn =>
    cases parts with
    | nil =>
      subst hq
      exact ⟨here, links, .here, .vacant hd hp hn⟩
    | cons _ rest => simp [hmore] at hq
  | @link links here name target hd hp hn hl =>
    cases parts with
    | nil =>
      subst hq
      exact ⟨here, links, .here, .link hd hp hn hl⟩
    | cons _ rest => simp [hmore] at hq
  | @jump links here name target rest l hd hp hn hr h ih =>
    cases parts with
    | nil =>
      subst hq
      exact ⟨here, links + 1, .here, .jump hd hp hn hr h⟩
    | cons _ rest =>
      cases hq
      obtain ⟨d, links', h₁, h₂⟩ := ih (List.append_assoc _ _ _)
      exact ⟨d, links', .jump hd hp hn (.inr rfl) h₁, h₂⟩
  | @step links here name n rest l hd hp hn hs h ih =>
    cases parts with
    | nil =>
      subst hq
      exact ⟨here, links, .here, .step hd hp hn hs h⟩
    | cons _ rest =>
      cases hq
      obtain ⟨d, links', h₁, h₂⟩ := ih rfl
      exact ⟨d, links', .step hd hp hn hs h₁, h₂⟩

theorem Leads.isDirectory {t : Tree} {last : Bool} {links : Nat} {here l : Location}
    {part : Bytes} {parts : PathParts} (h : Leads t last links here (part :: parts) l) :
    t.isDirectory here = true := by
  cases h with
  | dot hd _ _ => exact hd
  | dots hd _ _ => exact hd
  | vacant hd _ _ => exact hd
  | link hd _ _ _ => exact hd
  | jump hd _ _ _ _ => exact hd
  | step hd _ _ _ _ => exact hd

/-- A name leads to its place in the directory.  Only a link, if it is to be followed, leads
elsewhere. -/
theorem Leads.eq_concat {t : Tree} {last : Bool} {links : Nat} {d l : Location} {name : Bytes}
    (hname : IsPlain name) (h : Leads t last links d [name] l)
    (hlast : last = false ∨ ∀ target, t.lookup (d ++ [name]) ≠ some (.symlink target)) :
    l = d ++ [name] := by
  cases h with
  | dot _ hp _ => exact absurd hp hname.ne_dot
  | dots _ hp _ => exact absurd hp hname.ne_dots
  | vacant _ _ _ => rfl
  | link _ _ _ _ => rfl
  | jump _ _ hn hr _ =>
    rcases hlast with hl | hl
    · simp [hl] at hr
    · exact absurd hn (hl _)
  | step _ _ _ _ h =>
    cases h
    rfl

/-- A path with one more name leads into the directory that the path leads to. -/
theorem Leads.concat {t : Tree} {last : Bool} {links : Nat} {here : Location}
    {parts : PathParts} {name : Bytes} (hname : IsPlain name) {l : Location}
    (h : Leads t last links here (parts ++ [name]) l) :
    ∃ d, Leads t true links here parts d ∧ t.isDirectory d = true ∧
      (last = false ∨ (∀ target, t.lookup (d ++ [name]) ≠ some (.symlink target)) →
        l = d ++ [name]) := by
  obtain ⟨d, _, h₁, h₂⟩ := h.split (by simp)
  exact ⟨d, h₁, h₂.isDirectory, h₂.eq_concat hname⟩

/-! ## Look-ups by path -/

theorem leads_of_resolve {t : Tree} {last : Bool} {path : PathParts} {l : Location}
    (h : t.resolve last path = .ok l) : Leads t last linkBudget [] path l := by
  unfold resolve at h
  split at h
  · cases h
  split at h
  · cases h
  exact leads_of_follow h

theorem find_eq_ok_iff {t : Tree} {last : Bool} {path : PathParts} {l : Location} {n : Node} :
    t.find last path = .ok (l, n) ↔ t.resolve last path = .ok l ∧ t.lookup l = some n := by
  unfold find
  cases hr : t.resolve last path with
  | error k => simp [bind, Except.bind]
  | ok k =>
    cases hk : t.lookup k with
    | none =>
      simp only [bind, Except.bind, hk, throw, throwThe, MonadExceptOf.throw, reduceCtorEq,
        Except.ok.injEq, false_iff]
      intro h
      obtain ⟨rfl, h⟩ := h
      rw [hk] at h
      cases h
    | some m =>
      simp only [bind, Except.bind, hk, pure, Except.pure, Except.ok.injEq, Prod.mk.injEq]
      constructor
      · intro h
        obtain ⟨rfl, rfl⟩ := h
        exact ⟨rfl, hk⟩
      · intro h
        obtain ⟨rfl, h⟩ := h
        rw [hk] at h
        exact ⟨rfl, Option.some.inj h⟩

theorem canonicalize_eq_ok_iff {t : Tree} {path : PathParts} {l : Location} :
    t.canonicalize path = .ok l ↔ ∃ n, t.find true path = .ok (l, n) := by
  unfold canonicalize
  cases t.find true path with
  | error k => simp [bind, Except.bind]
  | ok r =>
    simp only [bind, Except.bind, pure, Except.pure, Except.ok.injEq]
    exact ⟨fun h => ⟨r.2, by rw [← h]⟩, fun ⟨n, h⟩ => by rw [h]⟩

theorem openDirectory_eq_ok_iff {t : Tree} {path : PathParts} {l : Location} :
    t.openDirectory path = .ok l ↔ ∃ mode, t.find true path = .ok (l, .directory mode) := by
  unfold openDirectory
  cases t.find true path with
  | error k => simp [bind, Except.bind]
  | ok r =>
    obtain ⟨k, n⟩ := r
    cases n <;> simp [bind, Except.bind, Node.isDirectory, pure, Except.pure, throw, throwThe,
      MonadExceptOf.throw]

/-- A name in the directory that a path leads to is where the path with the name leads. -/
theorem resolve_concat {t t' : Tree} (ht : t.Fades t') {above : PathParts} {name : Bytes}
    (hname : IsPlain name) {d l : Location} {last : Bool} (hd : t.canonicalize above = .ok d)
    (h : t'.resolve last (above ++ [name]) = .ok l)
    (hlast : last = false ∨ ∀ target, t'.lookup (d ++ [name]) ≠ some (.symlink target)) :
    l = d ++ [name] ∧ t'.isDirectory d = true := by
  obtain ⟨n, hd⟩ := canonicalize_eq_ok_iff.mp hd
  obtain ⟨h1, h2⟩ := find_eq_ok_iff.mp hd
  obtain ⟨d', h3, h4, h5⟩ := (leads_of_resolve h).concat hname
  have : d' = d :=
    (leads_of_resolve h1).unique ht (by simp [h2]) h3 (ne_none_of_isDirectory h4)
  subst this
  exact ⟨h5 hlast, h4⟩

/-! ## What is below a directory and what is not -/

/-- Outside of `r` nothing was changed; what is below `r` may be anything. -/
def SameOutside (r : Location) (t t' : Tree) : Prop :=
  ∀ l, ¬ Below r l → t'.lookup l = t.lookup l

/-- Outside of `r` nothing was changed, although nodes may have been taken away. -/
def ShrinksOutside (r : Location) (t t' : Tree) : Prop :=
  ∀ l, ¬ Below r l → t'.lookup l = t.lookup l ∨ t'.lookup l = none

theorem SameOutside.refl (r : Location) (t : Tree) : SameOutside r t t := fun _ _ => rfl

theorem SameOutside.trans {r : Location} {t t' t'' : Tree} (h : SameOutside r t t')
    (h' : SameOutside r t' t'') : SameOutside r t t'' :=
  fun l hl => (h' l hl).trans (h l hl)

theorem SameOutside.shrinks {r : Location} {t t' : Tree} (h : SameOutside r t t') :
    ShrinksOutside r t t' := fun l hl => .inl (h l hl)

theorem ShrinksOutside.trans {r : Location} {t t' t'' : Tree} (h : ShrinksOutside r t t')
    (h' : ShrinksOutside r t' t'') : ShrinksOutside r t t'' := by
  intro l hl
  rcases h' l hl with e | e
  · rw [e]
    exact h l hl
  · exact .inr e

/-- What is gone outside stays gone, and what is left there is as it was. -/
theorem ShrinksOutside.sameOutside_trans_iff {r : Location} {t t' t'' : Tree}
    (h : ShrinksOutside r t t') (h' : ShrinksOutside r t' t'') :
    SameOutside r t t'' ↔ SameOutside r t t' ∧ SameOutside r t' t'' := by
  constructor
  · intro hs
    have hfirst : SameOutside r t t' := by
      intro k hk
      rcases h k hk with e | e
      · exact e
      · rw [e, ← hs k hk]
        rcases h' k hk with e' | e'
        · rw [e', e]
        · rw [e']
    exact ⟨hfirst, fun k hk => by rw [hs k hk, hfirst k hk]⟩
  · exact fun ⟨h₁, h₂⟩ => h₁.trans h₂

end Tree
end ContainerLayer
