import ContainerLayer.Proofs.Tree.Puts
import ContainerLayer.Proofs.Unpack.Ensures

/-
What preparing for an entry can do to a tree.

The directories that are missing on the way are made one by one (`Way`), and then there is
at most one change, at the place of the entry itself (`Placed`).  That is all
(`ensures_prepare`), also if the preparation fails, and whatever else holds of it is
proved by going through these cases.
-/

namespace ContainerLayer
namespace Unpack

open Tar ContainerLayer.Tree TreeWork

/-- The path leads to something inside of the directory that `root` leads to. -/
def Inside (root path : PathParts) (t : Tree) : Prop :=
  ∃ outer inner, t.canonicalize root = .ok outer ∧ t.canonicalize path = .ok inner ∧
    outer <+: inner

/-- `t'` is `t` with directories that were missing on the way to `path`, each of them made in
one that was inside. -/
inductive Way (root path : PathParts) (t : Tree) : Tree → Prop
  | start : Way root path t t
  | made {t₁ t₂ above name l} (h : Way root path t t₁) (hpre : above ++ [name] <+: path)
      (hin : Inside root above t₁) (hput : Puts t₁ (above ++ [name]) l t₂)
      (hd : t₂.isDirectory l = true) : Way root path t t₂

/-- `t'` is `t` with the change that an entry makes at its own path.  Only an entry with
content says where it is. -/
inductive Placed (path : PathParts) (t : Tree) : Option Location → Tree → Prop
  | nothing : Placed path t none t
  | put {l t' o} (hp : Puts t path l t') (ho : ∀ k, o = some k → k = l) : Placed path t o t'
  | replaced {k t₁ l t' o} (hd : Drops t path k t₁) (hp : Puts t₁ path l t')
      (ho : ∀ k, o = some k → k = l) : Placed path t o t'
  | directory {k t₁ l} (hk : t.resolve false path = .ok k) (h : t₁ = t ∨ Puts t path k t₁)
      (hd : t₁.isDirectory k = true) (hl : t₁.resolve true path = .ok l) (header : Header) :
      Placed path t none (applyMode header l t₁)

/-- `t'` is `t` with a directory at the path, made or found there, that has the mode of the
header. -/
inductive HasDirectory (header : Header) (path : PathParts) (t : Tree) : Tree → Prop
  | intro {k t₁ l} (hk : t.resolve false path = .ok k) (h : t₁ = t ∨ Puts t path k t₁)
      (hd : t₁.isDirectory k = true) (hl : t₁.resolve true path = .ok l) :
      HasDirectory header path t (applyMode header l t₁)

theorem HasDirectory.placed {header : Header} {path : PathParts} {t t' : Tree}
    (h : HasDirectory header path t t') : Placed path t none t' := by
  cases h with
  | intro hk h hd hl => exact .directory hk h hd hl header

/-- `t'` is `t` with an empty file at the path, in place of what was there. -/
def HasFile (path : PathParts) (t : Tree) (l : Location) (t' : Tree) : Prop :=
  Placed path t (some l) t' ∧ ∃ id, t'.lookup l = some (.file { id })

/-- `t'` is what a fault on the way leaves of such a change. -/
def Placing (path : PathParts) (t t' : Tree) : Prop := ∃ o, Placed path t o t'

theorem Placing.start (path : PathParts) (t : Tree) : Placing path t t := ⟨none, .nothing⟩

/-- `t'` is what preparing `t` for an entry with the given names can leave. -/
inductive Prepares (root : PathParts) (names : List Bytes) (t : Tree) :
    Option Location → Tree → Prop
  | way {t'} (h : Way root (root ++ names.dropLast) t t') : Prepares root names t none t'
  | placed {t₁ o t'} (hnames : names ≠ []) (h : Way root (root ++ names.dropLast) t t₁)
      (hin : Inside root (root ++ names.dropLast) t₁) (hp : Placed (root ++ names) t₁ o t') :
      Prepares root names t o t'

section Rules

variable {root path : PathParts} {t : Tree}

/-- Whatever was so before is so after the look. -/
theorem ensures_requireInside (P : Tree → Prop) (root path : PathParts) :
    Ensures P (requireInside root path) (fun _ t => P t ∧ Inside root path t) P := by
  refine ensures_bind (R := fun inner t => P t ∧ t.canonicalize path = .ok inner)
    (ensures_inspect (fun _ h => h) fun t a h e => ⟨h, e⟩) fun inner => ?_
  refine ensures_bind (R := fun outer t =>
      (P t ∧ t.canonicalize path = .ok inner) ∧ t.canonicalize root = .ok outer)
    (ensures_inspect (fun _ h => h.1) fun t a h e => ⟨h, e⟩) fun outer => ?_
  split
  · rename_i h
    exact ensures_pure fun t ht => ⟨ht.1.1, outer, inner, ht.2, ht.1.2, by simpa using h⟩
  · exact ensures_throw fun t ht => ht.1.1

/-- The directories to make are the path itself and those on the way to it. -/
theorem suffix_of_mem_missing {reversed directory : PathParts}
    (h : directory ∈ missing t reversed) : directory <:+ reversed := by
  induction reversed with
  | nil => cases h
  | cons name above ih =>
    unfold missing at h
    split at h
    · cases h
    · rcases List.mem_append.mp h with h | h
      · exact (ih h).trans (List.suffix_cons name above)
      · obtain rfl := List.mem_singleton.mp h
        exact List.suffix_refl _

theorem ensures_makeWay : Ensures (· = t) (makeWay root path) (fun _ => Way root path t)
    (Way root path t) := by
  refine ensures_bind (R := fun start t' => t' = t ∧ start = t)
    (ensures_get fun t' h => ⟨h, h⟩) fun start => ?_
  refine ensures_bind (R := fun _ => Way root path t) ?_ fun _ => ensures_pure fun _ h => h
  rintro _ ⟨rfl, rfl⟩
  refine ensures_forIn (P := Way root path start) (fun directory hdir => ?_) start .start
  refine ensures_bind (ensures_requireInside (Way root path start) root directory.tail.reverse)
    fun outer => ?_
  refine ensures_bind (R := fun _ => Way root path start) ?_ fun _ =>
    ensures_pure fun _ h => ⟨rfl, h⟩
  refine ensures_change (fun t h => h.1) fun t t' h e => ?_
  obtain ⟨hway, hin⟩ := h
  cases directory with
  | nil =>
    cases e
    exact hway
  | cons name above =>
    have hpre : above.reverse ++ [name] <+: path := by
      have := List.reverse_prefix.mpr (suffix_of_mem_missing hdir)
      rwa [List.reverse_reverse, List.reverse_cons] at this
    obtain ⟨_, _, _, hi, _⟩ := id hin
    rcases puts_of_makeDirectories hi e with rfl | ⟨l, hl, hd⟩
    · exact hway
    · exact .made hway hpre hin hl hd

theorem ensures_placeDirectory (header : Header) :
    Ensures (· = t) (placeDirectory header path) (fun _ => HasDirectory header path t)
      (Placing path t) := by
  -- between the two steps the directory is there, and perhaps it was made
  refine ensures_bind (R := fun _ t₁ => ∃ k, t.resolve false path = .ok k ∧
      (t₁ = t ∨ Puts t path k t₁) ∧ t₁.isDirectory k = true)
    (ensures_change (fun t' h => h ▸ .start path t) fun t' t₁ h e => ?_) fun _ => ?_
  · subst h
    split at e
    · rename_i hf
      cases e
      obtain ⟨h1, h2⟩ := find_eq_ok_iff.mp hf
      exact ⟨_, h1, .inl rfl, isDirectory_iff.mpr ⟨_, h2⟩⟩
    · obtain ⟨k, hp, hk⟩ := puts_of_makeDirectory e
      exact ⟨k, hp.1, .inr hp, hk⟩
  · refine ensures_bind (R := fun l t₁ => (∃ k, t.resolve false path = .ok k ∧
        (t₁ = t ∨ Puts t path k t₁) ∧ t₁.isDirectory k = true) ∧ t₁.resolve true path = .ok l)
      (ensures_inspect (fun t₁ h => ?_) fun t₁ l h e => ⟨h, e⟩) fun l => ?_
    · obtain ⟨k, _, rfl | hp, _⟩ := h
      · exact .start path _
      · exact ⟨none, .put hp fun _ e => by cases e⟩
    · refine ensures_modify fun t₁ h => ?_
      obtain ⟨⟨k, hk, h, hd⟩, hl⟩ := h
      exact .intro hk h hd hl

theorem ensures_placeHardLink (outer : Location) (target : Bytes) :
    Ensures (· = t) (placeHardLink outer target path) (fun _ => Placed path t none)
      (Placing path t) := by
  refine ensures_bind ((ensures_requireInside (· = t) outer _).mono (fun _ _ h => h)
    fun t' h => h ▸ .start path t) fun _ => ?_
  refine ensures_change (fun t' h => h.1 ▸ .start path t) fun t' t₁ h e => ?_
  obtain ⟨rfl, _⟩ := h
  obtain ⟨l, hl⟩ := puts_of_makeHardLink e
  exact .put hl fun _ e => by cases e

theorem ensures_placeSymlink (target : Bytes) :
    Ensures (· = t) (placeSymlink target path) (fun _ => Placed path t none)
      (Placing path t) := by
  refine ensures_change (fun t' h => h ▸ .start path t) fun t' t₁ h e => ?_
  subst h
  split at e
  · cases hu : t'.unlink path with
    | error k => simp only [hu, bind, Except.bind] at e; cases e
    | ok t₂ =>
      simp only [hu, bind, Except.bind] at e
      obtain ⟨k, hd⟩ := drops_of_unlink hu
      obtain ⟨l, hp⟩ := puts_of_makeSymlink e
      exact .replaced hd hp fun _ e => by cases e
  · obtain ⟨l, hp⟩ := puts_of_makeSymlink e
    exact .put hp fun _ e => by cases e

theorem ensures_placeFile :
    Ensures (· = t) (placeFile path) (HasFile path t) (Placing path t) := by
  refine ensures_bind (R := fun o _ => HasFile path t o.1 o.2)
    (ensures_inspect (fun t' h => h ▸ .start path t) fun t' o h e => ?_) ?_
  · subst h
    obtain ⟨l, t₁⟩ := o
    split at e
    · cases hu : t'.unlink path with
      | error k => simp only [hu, bind, Except.bind] at e; cases e
      | ok t₂ =>
        simp only [hu, bind, Except.bind] at e
        obtain ⟨k, hd⟩ := drops_of_unlink hu
        exact ⟨.replaced hd (puts_of_createFile e) fun _ e => (Option.some.inj e).symm,
          lookup_of_createFile e⟩
    · exact ⟨.put (puts_of_createFile e) fun _ e => (Option.some.inj e).symm,
        lookup_of_createFile e⟩
  · intro h
    obtain ⟨l, t₁⟩ := h
    refine ensures_bind (R := fun _ => HasFile path t l) ?_ fun _ => ensures_pure fun _ h => h
    refine ensures_set ?_
    exact fun _ h => h

theorem ensures_targetOf (P : Tree → Prop) (e : Entry) :
    Ensures P (targetOf e) (fun _ => P) P := by
  unfold targetOf
  split
  · exact ensures_throw fun _ h => h
  · split
    · exact ensures_throw fun _ h => h
    · exact ensures_pure fun _ h => h

theorem ensures_place (outer : Location) (e : Entry) :
    Ensures (· = t) (place outer e path) (Placed path t) (Placing path t) := by
  have htarget : Ensures (· = t) (targetOf e) (fun _ => (· = t))
      (Placing path t) :=
    (ensures_targetOf (· = t) e).mono (fun _ _ h => h) fun t' h => h ▸ .start path t
  have hnone : ∀ {w : TreeWork Unit}, Ensures (· = t) w (fun _ => Placed path t none)
      (Placing path t) →
      Ensures (· = t) (do w; return none) (Placed path t) (Placing path t) :=
    fun h => ensures_bind h fun _ => ensures_pure fun _ h => h
  unfold place
  split
  · exact hnone ((ensures_placeDirectory e.header).mono (fun _ _ h => h.placed) fun _ h => h)
  split
  · exact ensures_bind htarget fun target => hnone (ensures_placeHardLink outer target)
  split
  · exact ensures_bind htarget fun target => hnone (ensures_placeSymlink target)
  split
  · exact ensures_pure fun t' h => h ▸ .nothing
  · exact ensures_bind ensures_placeFile fun l => ensures_pure fun _ h => h.1

/-- Nothing else comes of preparing for an entry, whether it fails or not. -/
theorem ensures_prepare (e : Entry) :
    Ensures (· = t) (prepare root e) (Prepares root (Path.names e.path) t)
      (fun t' => ∃ o, Prepares root (Path.names e.path) t o t') := by
  unfold prepare
  dsimp only
  by_cases hnames : Path.names e.path = []
  · rw [if_pos hnames]
    exact ensures_pure fun t' h => h ▸ .way .start
  · rw [if_neg hnames]
    refine ensures_bind (ensures_makeWay.mono (fun _ _ h => h) fun t' h => ⟨none, .way h⟩)
      fun _ => ?_
    refine ensures_bind ((ensures_requireInside _ root _).mono (fun _ _ h => h)
      fun t' h => ⟨none, .way h⟩) fun outer => ?_
    intro t₁ h
    obtain ⟨hway, hin⟩ := h
    refine (ensures_place outer e).mono (fun o t' hp => ?_) (fun t' hp => ?_) t₁ rfl
    · exact .placed hnames hway hin hp
    · obtain ⟨o, hp⟩ := hp
      exact ⟨o, .placed hnames hway hin hp⟩

end Rules

end Unpack
end ContainerLayer
