import ContainerLayer.Proofs.Path
import ContainerLayer.Proofs.Tree.Staying
import ContainerLayer.Proofs.Unpack.Preparing

/-
Unpacking changes nothing but what is below the directory it unpacks to.

The changes all go through a path whose directory was found to be inside just
before, so the one node that each of them makes, drops or alters is inside, too.
The tree stays a closed one on the way, and the directory stays where it is.
-/

namespace ContainerLayer
namespace Unpack

open Tar ContainerLayer.Tree TreeWork

/-- A closed tree that differs from `t₀` at most below `r`, and in which `root` still leads
nowhere but to `r`. -/
structure Confined (root : PathParts) (r : Location) (t₀ t : Tree) : Prop where
  closed : t.Closed
  same : SameOutside r t₀ t
  only : t.OnlyTo root r

namespace Confined

variable {root : PathParts} {r : Location} {t₀ t t' : Tree}

theorem puts (h : Confined root r t₀ t) (hroot : t.Present root) {path : PathParts}
    {l : Location} (hp : Puts t path l t') (hl : Below r l) : Confined root r t₀ t' :=
  ⟨hp.closed h.closed, h.same.trans (hp.sameOutside hl), h.only.of_present hroot hp.fades⟩

theorem drops (h : Confined root r t₀ t) {path : PathParts} {l : Location}
    (hp : Drops t path l t') (hl : Below r l) : Confined root r t₀ t' :=
  ⟨hp.closed h.closed, h.same.trans (hp.sameOutside hl), h.only.of_covers hp.covers⟩

theorem setMode (h : Confined root r t₀ t) {l : Location} (hl : Below r l) (mode : Nat) :
    Confined root r t₀ (t.setMode l mode) :=
  ⟨h.closed.setMode l mode, fun k hk => by
    rw [lookup_setMode_ne (by rintro rfl; exact hk hl), h.same k hk],
    h.only.of_covers (covers_setMode t l mode)⟩

theorem setData (h : Confined root r t₀ t) {l : Location} (hl : Below r l) (data : Bytes) :
    Confined root r t₀ (t.setData l data) :=
  ⟨h.closed.setData l data, fun k hk => by
    rw [lookup_setData_ne (by rintro rfl; exact hk hl), h.same k hk],
    h.only.of_covers (covers_setData t l data)⟩

theorem setMtime (h : Confined root r t₀ t) {l : Location} (hl : Below r l) (mtime : Int) :
    Confined root r t₀ (t.setMtime l mtime) :=
  ⟨h.closed.setMtime l mtime, fun k hk => by
    rw [lookup_setMtime_ne (by rintro rfl; exact hk hl), h.same k hk],
    h.only.of_covers (covers_setMtime t l mtime)⟩

theorem applyMode (h : Confined root r t₀ t) {l : Location} (hl : Below r l) (header : Header) :
    Confined root r t₀ (applyMode header l t) := by
  unfold Unpack.applyMode
  cases modeOf header with
  | none => exact h
  | some mode => exact h.setMode hl mode

theorem fill (h : Confined root r t₀ t) {l : Location} (hl : Below r l) (header : Header)
    (data : Bytes) (complete : Bool) : Confined root r t₀ (fill header l data complete t) := by
  have hd := h.setData hl data
  unfold Unpack.fill
  cases complete with
  | false => exact hd
  | true =>
    cases mtimeOf header with
    | none => exact hd.applyMode hl header
    | some mtime => exact (hd.setMtime hl mtime).applyMode hl header

end Confined

section Inside

variable {root : PathParts} {r : Location} {t₀ t t' : Tree}

/-- Where a path leads that is inside. -/
theorem Inside.exists_prefix {path : PathParts} (h : Inside root path t)
    (hroot : t.OnlyTo root r) : ∃ d, t.canonicalize path = .ok d ∧ r <+: d := by
  obtain ⟨outer, d, ho, hd, hpre⟩ := h
  rw [hroot.eq_of_canonicalize ho] at hpre
  exact ⟨d, hd, hpre⟩

/-- A directory that is made in a directory inside is inside. -/
theorem Way.confined {path : PathParts} (h : Way root path t t') (ht : Confined root r t₀ t) :
    Confined root r t₀ t' := by
  induction h with
  | start => exact ht
  | made _ _ hin hput _ ih =>
    obtain ⟨above, name, _, hpath, hname, _, _⟩ :=
      ih.closed.exists_concat_of_resolve hput.1 hput.2.1
    obtain ⟨rfl, hlast⟩ := List.append_inj' hpath rfl
    obtain rfl := List.singleton_inj.mp hlast
    obtain ⟨d, hd, hr⟩ := hin.exists_prefix ih.only
    obtain ⟨_, _, ho, _⟩ := hin
    exact ih.puts (present_of_canonicalize ho) hput
      (below_of_resolve (Fades.refl _) hname hd hr hput.1)

/-- What is placed in a directory inside is inside. -/
theorem Placed.confined {more : PathParts} {name : Bytes} (hname : IsPlain name)
    {o : Option Location} (h : Placed (root ++ more ++ [name]) t o t')
    (ht : Confined root r t₀ t) (hin : Inside root (root ++ more) t) :
    Confined root r t₀ t' ∧ ∀ l, o = some l → Below r l := by
  obtain ⟨d, hd, hr⟩ := hin.exists_prefix ht.only
  have hbelow : ∀ {u l}, t.Fades u → u.resolve false (root ++ more ++ [name]) = .ok l → Below r l :=
    fun hu hl => below_of_resolve hu hname hd hr hl
  cases h with
  | nothing => exact ⟨ht, fun _ e => by cases e⟩
  | put hp ho =>
    have hl := hbelow (Fades.refl t) hp.1
    exact ⟨ht.puts hp.present.of_append hp hl, fun k e => ho k e ▸ hl⟩
  | replaced hdrop hp ho =>
    have hl := hbelow hdrop.fades hp.1
    exact ⟨(ht.drops hdrop (hbelow (Fades.refl t) hdrop.1)).puts hp.present.of_append hp hl,
      fun k e => ho k e ▸ hl⟩
  | @directory k t₁ l hk h hdir hl header =>
    obtain ⟨rfl, _⟩ := resolve_concat (Fades.refl t) hname hd hk (.inl rfl)
    obtain ⟨mode, hmode⟩ := isDirectory_iff.mp hdir
    -- the mode is set where the path leads to, and that is the directory itself
    have hplace : t.Fades t₁ → Below r l := fun hf => by
      rw [(resolve_concat hf hname hd hl (.inr (by simp [hmode]))).1]
      exact below_concat hr name
    refine ⟨?_, fun _ e => by cases e⟩
    rcases h with rfl | hp
    · exact ht.applyMode (hplace (Fades.refl _)) header
    · exact (ht.puts hp.present.of_append hp (below_concat hr name)).applyMode (hplace hp.fades) header

/-- An entry changes nothing outside of the directory that it is unpacked to. -/
theorem Prepares.confined {names : List Bytes} (hplain : ∀ name ∈ names, IsPlain name)
    {o : Option Location} (h : Prepares root names t o t') (ht : Confined root r t₀ t) :
    Confined root r t₀ t' ∧ ∀ l, o = some l → Below r l := by
  cases h with
  | way h => exact ⟨h.confined ht, fun _ e => by cases e⟩
  | placed hnames h hin hp =>
    rw [← List.dropLast_concat_getLast hnames, ← List.append_assoc] at hp
    exact hp.confined (hplain _ (List.getLast_mem hnames)) (h.confined ht) hin

end Inside

end Unpack
end ContainerLayer
