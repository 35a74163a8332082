import ContainerLayer.Proofs.Tar.Finding
import ContainerLayer.Proofs.Tar.Naming
import ContainerLayer.Tar.Writer

/-
What the writer of archives writes, and what is read from it.

A name goes into its header, or into a member of its own in front of the entry.  Either
way reading takes in what stands in front of the header, and comes to a name that is the
same up to its spelling.
-/

namespace ContainerLayer
namespace Tar

open Tape Header

/-- The header of extension records of the given length. -/
def extensionHeader (length : Nat) : Header :=
  ((Header.newUstar.setSize length).setKind .extension).setChecksum

/-- A path was put into a header, perhaps with a long name in front of it. -/
inductive PathWritten (h : Header) (path : Bytes) : Header → Bytes → Prop
  | whole {h' : Header} (e : h.setPath .entry path = (h', none)) : PathWritten h path h' []
  | cut {h₁ h' : Header} {d : NamingDefect} (e : h.setPath .entry path = (h₁, some d))
      (long : longFrom ≤ path.length) (e' : h₁.setPath .cutEntry (cutName path) = (h', none)) :
      PathWritten h path h' (memberBytes (longHeader .longName path.length) (path ++ [0]))

/-- A link name was put into a header, perhaps with a long link name in front of it. -/
inductive LinkWritten (h : Header) (name : Bytes) : Header → Bytes → Prop
  | whole {h' : Header} (e : h.setLinkName name = (h', none)) : LinkWritten h name h' []
  | cut {h' : Header} {d : NamingDefect} (e : h.setLinkName name = (h', some d))
      (long : longFrom ≤ name.length) :
      LinkWritten h name h' (memberBytes (longHeader .longLink name.length) (name ++ [0]))

/-- There is one way to write a path. -/
theorem PathWritten.det {h h₁ h₂ : Header} {path o₁ o₂ : Bytes} (hp : PathWritten h path h₁ o₁)
    (hp' : PathWritten h path h₂ o₂) : h₁ = h₂ ∧ o₁ = o₂ := by
  cases hp with
  | whole e =>
    cases hp' with
    | whole k => exact ⟨congrArg Prod.fst (e.symm.trans k), rfl⟩
    | cut k k' => cases e.symm.trans k
  | cut e _ e' =>
    cases hp' with
    | whole k => cases e.symm.trans k
    | cut k _ k' =>
      cases e.symm.trans k
      exact ⟨congrArg Prod.fst (e'.symm.trans k'), rfl⟩

theorem LinkWritten.det {h h₁ h₂ : Header} {name o₁ o₂ : Bytes} (hl : LinkWritten h name h₁ o₁)
    (hl' : LinkWritten h name h₂ o₂) : h₁ = h₂ ∧ o₁ = o₂ := by
  cases hl with
  | whole e =>
    cases hl' with
    | whole k => exact ⟨congrArg Prod.fst (e.symm.trans k), rfl⟩
    | cut k => cases e.symm.trans k
  | cut e =>
    cases hl' with
    | whole k => cases e.symm.trans k
    | cut k => exact ⟨congrArg Prod.fst (e.symm.trans k), rfl⟩

variable {σ : Type} [Reader σ] {c c' : Spot σ} {u : Unit} {h h' : Header} {out : Bytes}

theorem writeMember_plays_iff {content : Bytes} :
    (writeMember h content).Plays c u c' out ↔ c' = c ∧ out = memberBytes h content := by
  constructor
  · intro hp
    obtain ⟨_, c₁, o₁, o₂, h₁, h₂, rfl⟩ := plays_bind_iff.mp hp
    obtain ⟨rfl, rfl⟩ := plays_write_iff.mp h₁
    obtain ⟨_, c₂, o₃, o₄, h₃, h₄, rfl⟩ := plays_bind_iff.mp h₂
    obtain ⟨rfl, rfl⟩ := plays_write_iff.mp h₃
    obtain ⟨rfl, rfl⟩ := plays_write_iff.mp h₄
    exact ⟨rfl, rfl⟩
  · rintro ⟨rfl, rfl⟩
    have hwrite : ∀ b : Bytes, (Tape.write b).Plays c' () c' b :=
      fun b => plays_write_iff.mpr ⟨rfl, rfl⟩
    exact (hwrite _).bind ((hwrite _).bind (hwrite _))

theorem writePath_plays_iff {path : Bytes} :
    (writePath h path).Plays c h' c' out ↔ c' = c ∧ PathWritten h path h' out := by
  unfold writePath
  constructor
  · intro hp
    split at hp
    · rename_i h₁ e
      obtain ⟨rfl, rfl, rfl⟩ := plays_pure_iff.mp hp
      exact ⟨rfl, .whole e⟩
    rename_i h₁ d e
    split at hp
    · exact absurd hp not_plays_throw
    rename_i hlong
    split at hp
    · exact absurd hp not_plays_throw
    rename_i h₂ e'
    obtain ⟨_, c₁, o₁, o₂, h₁, h₂, rfl⟩ := plays_bind_iff.mp hp
    obtain ⟨rfl, rfl⟩ := writeMember_plays_iff.mp h₁
    obtain ⟨rfl, rfl, rfl⟩ := plays_pure_iff.mp h₂
    rw [List.append_nil]
    exact ⟨rfl, .cut e (Nat.le_of_not_lt hlong) e'⟩
  · rintro ⟨rfl, hp⟩
    cases hp with
    | whole e =>
      rw [e]
      exact plays_pure _ _
    | cut e long e' =>
      rw [e]
      dsimp only
      rw [if_neg (Nat.not_lt.mpr long), e']
      exact plays_bind_iff.mpr ⟨(), c', _, [], writeMember_plays_iff.mpr ⟨rfl, rfl⟩, plays_pure _ _,
        (List.append_nil _).symm⟩

theorem writeLinkName_plays_iff {name : Bytes} :
    (writeLinkName h name).Plays c h' c' out ↔ c' = c ∧ LinkWritten h name h' out := by
  unfold writeLinkName
  constructor
  · intro hp
    split at hp
    · rename_i h₁ e
      obtain ⟨rfl, rfl, rfl⟩ := plays_pure_iff.mp hp
      exact ⟨rfl, .whole e⟩
    rename_i h₁ d e
    split at hp
    · exact absurd hp not_plays_throw
    rename_i hlong
    obtain ⟨_, c₁, o₁, o₂, h₁, h₂, rfl⟩ := plays_bind_iff.mp hp
    obtain ⟨rfl, rfl⟩ := writeMember_plays_iff.mp h₁
    obtain ⟨rfl, rfl, rfl⟩ := plays_pure_iff.mp h₂
    rw [List.append_nil]
    exact ⟨rfl, .cut e (Nat.le_of_not_lt hlong)⟩
  · rintro ⟨rfl, hl⟩
    cases hl with
    | whole e =>
      rw [e]
      exact plays_pure _ _
    | cut e long =>
      rw [e]
      dsimp only
      rw [if_neg (Nat.not_lt.mpr long)]
      exact plays_bind_iff.mpr ⟨(), c', _, [], writeMember_plays_iff.mpr ⟨rfl, rfl⟩, plays_pure _ _,
        (List.append_nil _).symm⟩

theorem good_setChecksum {h : Header} {n : Nat} (hn : n < limit)
    (hg : h.get .size = Number.toField 12 n) : h.setChecksum.Good n := by
  refine ⟨h.verify_setChecksum, h.isZero_setChecksum, number_of_get hn ?_ _⟩
  exact (get_put_of_apart h _ (by decide)).trans hg

theorem get_size_setSize_setKind (h : Header) (n : Nat) (k : EntryKind) :
    ((h.setSize n).setKind k).get .size = Number.toField 12 n :=
  (get_put_of_apart _ _ (by decide)).trans (h.get_setSize n)

/-! ## Members in front of an entry -/

theorem good_extensionHeader {n : Nat} (hn : n < limit) : (extensionHeader n).Good n :=
  good_setChecksum hn (get_size_setSize_setKind _ n _)

theorem kind_extensionHeader (n : Nat) : (extensionHeader n).kind = .extension :=
  kind_setKind_setChecksum _ (by decide)

theorem good_longHeader (k : EntryKind) {n : Nat} (hn : n + 1 < limit) :
    (longHeader k n).Good (n + 1) :=
  good_setChecksum hn (get_size_setSize_setKind _ (n + 1) _)

theorem kind_longHeader {k : EntryKind} (hk : EntryKind.ofCode k.code = k) (n : Nat) :
    (longHeader k n).kind = k :=
  kind_setKind_setChecksum _ hk

/-- The fields that are set in the headers of members in front of an entry. -/
def frontFields : List Field := [.name, .mode, .uid, .gid, .size, .mtime, .kind, .checksum]

theorem dialect_extensionHeader (n : Nat) : (extensionHeader n).dialect ≠ .old := by
  have hsame : SameBut frontFields (blank.put .magic ustarMagic) (extensionHeader n) :=
    ((((SameBut.refl _ _).trans (sameBut_put (f := .mtime) (by simp [frontFields]) _ _)).trans
      (sameBut_put (f := .size) (by simp [frontFields]) _ _)).trans
      (sameBut_put (f := .kind) (by simp [frontFields]) _ _)).trans
      (sameBut_setChecksum (by simp [frontFields]) _)
  rw [hsame.dialect (by decide), dialect, get_put blank .magic rfl]
  decide

theorem dialect_longHeader (k : EntryKind) (n : Nat) : (longHeader k n).dialect ≠ .old := by
  have hput : ∀ f ∈ frontFields, ∀ (h : Header) b, SameBut frontFields h (h.put f b) :=
    fun f hf h b => sameBut_put hf h b
  have hsame : SameBut frontFields (blank.put .magic gnuMagic) (longHeader k n) :=
    ((((((((hput .mtime (by simp [frontFields]) _ _).trans
      (hput .name (by simp [frontFields]) _ _)).trans
      (hput .mode (by simp [frontFields]) _ _)).trans
      (hput .uid (by simp [frontFields]) _ _)).trans
      (hput .gid (by simp [frontFields]) _ _)).trans
      (hput .mtime (by simp [frontFields]) _ _)).trans
      (hput .size (by simp [frontFields]) _ _)).trans
      (hput .kind (by simp [frontFields]) _ _)).trans
      (hput .checksum (by simp [frontFields]) _ _)
  rw [hsame.dialect (by decide), dialect, get_put blank .magic rfl]
  decide

theorem withoutZero_concat (b : Bytes) : Entry.withoutZero (b ++ [0]) = b := by
  simp [Entry.withoutZero]

/-! ## Names -/

open ContainerLayer.Path

variable {h h' : Header}

theorem PathWritten.same {path o : Bytes} (hp : PathWritten h path h' o) :
    SameBut (pathFields h.dialect) h h' := by
  cases hp with
  | whole e =>
    have hs := sameBut_setPath h .entry path
    rw [e] at hs
    exact hs
  | @cut h₁ _ d e _ e' =>
    have hs := sameBut_setPath h .entry path
    rw [e] at hs
    have hs' := sameBut_setPath h₁ .cutEntry (cutName path)
    rw [e', hs.dialect (apart_pathFields (by decide) (by decide) _)] at hs'
    exact hs.trans hs'

/-- The long name that stands in front of a header whose name was written with `o` in front
of it. -/
def longOf (name o : Bytes) : Option Bytes := if o = [] then none else some (name ++ [0])

theorem longOf_memberBytes (name : Bytes) (h : Header) (content : Bytes) :
    longOf name (memberBytes h content) = some (name ++ [0]) := by
  have hlength := length_memberBytes h content
  refine if_neg fun e => ?_
  rw [e, List.length_nil] at hlength
  omega

/-- The path of an entry with the given long name in front of its header. -/
def pathOf (longName : Option Bytes) (h : Header) : Bytes :=
  (longName.map Entry.withoutZero).getD h.path

/-- What stands in front of the header for the path is taken in, and gives the path. -/
theorem PathWritten.passes {path o : Bytes} (hp : PathWritten h path h' o) (ho : o.length < limit)
    {p : Preface} (hn : p.longName = none) :
    p.Passes o { p with longName := longOf path o }
      ∧ h.ComesAs path (pathOf (longOf path o) h') := by
  cases hp with
  | whole e =>
    refine ⟨?_, comesAs_setPath e⟩
    show p.Passes [] { p with longName := none }
    rw [← hn]
    exact p.passes_nil
  | cut e _ e' =>
    rw [length_memberBytes, List.length_append] at ho
    have hg : (longHeader .longName path.length).Good (path ++ [0]).length := by
      rw [List.length_append]
      exact good_longHeader .longName (by simp only [List.length_singleton] at ho; omega)
    rw [longOf_memberBytes]
    refine ⟨(Preface.Takes.longName hn).passes (kind_longHeader (by decide) _) hg
      (dialect_longHeader _ _), fun hb => ?_, fun _ => ?_⟩
    · have hwhole := hb.setPath
      rw [e] at hwhole
      cases hwhole
    · show Alike path (Entry.withoutZero (path ++ [0]))
      rw [withoutZero_concat]
      exact .refl path

theorem LinkWritten.same {name o : Bytes} (hp : LinkWritten h name h' o) :
    SameBut [.linkName] h h' := by
  have hs : SameBut [.linkName] h (h.setLinkName name).1 :=
    sameBut_setLinkName List.mem_cons_self h name
  cases hp with
  | whole e =>
    rw [e] at hs
    exact hs
  | cut e =>
    rw [e] at hs
    exact hs

/-- The targets are the same up to their spelling.  The root has no spelling without a slash
at its end, so a target such as `/.` becomes `/`. -/
structure SameTarget (t u : Bytes) : Prop where
  steps : components u = components t
  slash : endsWithSlash u = endsWithSlash t
    ∨ components t = [.root] ∧ endsWithSlash t = false ∧ u = [Path.slash]

/-- The link name of an entry with the given long link name in front of its header. -/
def linkNameOf (longLink : Option Bytes) (h : Header) : Option Bytes :=
  (longLink.map Entry.withoutZero).or h.linkName

theorem LinkWritten.passes {target o : Bytes} (hp : LinkWritten h target h' o)
    (ho : o.length < limit) {p : Preface} (hn : p.longLink = none) :
    p.Passes o { p with longLink := longOf target o }
      ∧ ∃ text, linkNameOf (longOf target o) h' = some text ∧ SameTarget target text := by
  cases hp with
  | whole e =>
    refine ⟨?_, ?_⟩
    · show p.Passes [] { p with longLink := none }
      rw [← hn]
      exact p.passes_nil
    · obtain ⟨text, hget, hc, hs⟩ := linkName_setLinkName e
      exact ⟨text, hget, hc, hs⟩
  | cut e =>
    rw [length_memberBytes, List.length_append] at ho
    have hg : (longHeader .longLink target.length).Good (target ++ [0]).length := by
      rw [List.length_append]
      exact good_longHeader .longLink (by simp only [List.length_singleton] at ho; omega)
    rw [longOf_memberBytes]
    refine ⟨(Preface.Takes.longLink hn).passes (kind_longHeader (by decide) _) hg
      (dialect_longHeader _ _), target, ?_, rfl, .inl rfl⟩
    show some (Entry.withoutZero (target ++ [0])) = some target
    rw [withoutZero_concat]

end Tar
end ContainerLayer
