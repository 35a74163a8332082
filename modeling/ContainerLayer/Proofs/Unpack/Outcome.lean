import ContainerLayer.Proofs.Stream.Endings
import ContainerLayer.Proofs.Unpack.Confined

/-
What comes of unpacking an entry, whatever its content turns out to be.

The tree is prepared first and the content is read then, so all that the stream can
still do is to decide which bytes end up in the file.
-/

namespace ContainerLayer
namespace Unpack

open Tar ContainerLayer.Tree TreeWork

/-- `t'` is what unpacking `e` into `t` leaves, with `fault` if that fails. -/
inductive Unpacks (root : PathParts) (e : Entry) (t : Tree) : Option Fault → Tree → Prop
  | failed {f t'} (h : (prepare root e).run t = (.error f, t')) : Unpacks root e t (some f) t'
  | placed {t'} (h : (prepare root e).run t = (.ok none, t')) : Unpacks root e t none t'
  | filled {l t'} (h : (prepare root e).run t = (.ok (some l), t')) (data : Bytes)
      (fault : Option Fault) : Unpacks root e t fault (fill e.header l data fault.isNone t')

theorem returns_readStored (acc : List Bytes) (n : Nat) :
    Tape.Returns (fun _ => True) (readStored acc n) := by
  fun_induction readStored acc n with
  | case1 acc => exact Tape.returns_pure trivial
  | case2 acc n hn ih =>
    refine (Tape.returns_attempt _ _).bind fun r _ => ?_
    cases r with
    | error f => exact Tape.returns_pure trivial
    | ok b =>
      dsimp only
      split
      · exact Tape.returns_pure trivial
      · rename_i hb
        exact ih b hb

theorem returns_readContent (acc : List Bytes) (c : Content) :
    Tape.Returns (fun _ => True) (readContent acc c) := by
  induction c generalizing acc with
  | nil => exact Tape.returns_pure trivial
  | cons segment rest ih =>
    cases segment with
    | gap n =>
      unfold readContent
      split
      · exact Tape.returns_pure trivial
      · exact ih _
    | stored n =>
      refine (returns_readStored acc n).bind ?_
      rintro ⟨acc, fault⟩ _
      cases fault with
      | none => exact ih acc
      | some f => exact Tape.returns_pure trivial

theorem returns_entry (root : PathParts) (e : Entry) (t : Tree) :
    Tape.Returns (fun r => Unpacks root e t r.1 r.2) (entry root e t) := by
  unfold entry
  split
  · rename_i f t' h
    exact Tape.returns_pure (.failed h)
  · rename_i t' h
    exact Tape.returns_pure (.placed h)
  · rename_i l t' h
    refine (returns_readContent [] e.content).bind fun r _ => ?_
    exact Tape.returns_pure (.filled h _ r.2)

/-- The tree was prepared, and then perhaps something was written into the one file. -/
theorem Unpacks.exists_prepares {root : PathParts} {e : Entry} {t t' : Tree} {fault : Option Fault}
    (h : Unpacks root e t fault t') : ∃ o t₁, Prepares root (Path.names e.path) t o t₁ ∧
      (t' = t₁ ∨ ∃ l data, o = some l ∧ t' = fill e.header l data fault.isNone t₁) := by
  have hp := (ensures_prepare e : Ensures (· = t) (prepare root e) _ _) t rfl
  cases h with
  | failed h =>
    rw [h] at hp
    obtain ⟨o, hp⟩ := hp
    exact ⟨o, t', hp, .inl rfl⟩
  | placed h =>
    rw [h] at hp
    exact ⟨none, t', hp, .inl rfl⟩
  | @filled l t₁ h data fault =>
    rw [h] at hp
    exact ⟨some l, t₁, hp, .inr ⟨l, data, rfl, rfl⟩⟩

/-- An entry is unpacked inside of the directory that `root` leads to. -/
theorem Unpacks.confined {root : PathParts} {e : Entry} {t t' : Tree} {fault : Option Fault}
    (h : Unpacks root e t fault t') (ht : t.Closed) {r : Location} (hroot : t.OnlyTo root r) :
    Confined root r t t' := by
  obtain ⟨o, t₁, hp, h⟩ := h.exists_prepares
  obtain ⟨hc, hl⟩ := hp.confined (fun _ => Path.isPlain_of_mem_names)
    ⟨ht, SameOutside.refl r t, hroot⟩
  rcases h with rfl | ⟨l, data, ho, rfl⟩
  · exact hc
  · exact hc.fill (hl l ho) e.header data _

end Unpack
end ContainerLayer
