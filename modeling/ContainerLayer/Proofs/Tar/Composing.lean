import ContainerLayer.Proofs.Tar.Extent

/-
Properties of programs that read archives.

A property that holds of every step that reads and is kept when programs are put together
(`Tape.Composes`) holds of reading an entry, since nothing else is done for that.
-/

namespace ContainerLayer

open Tar

/-- A property of programs that is kept when they are put together, and holds of those that
read. -/
structure Tape.Composes (P : (α : Type) → Tape α → Prop) : Prop where
  pure : ∀ {α : Type} (a : α), P α (pure a)
  throw : ∀ {α : Type} (f : Fault), P α (throw f)
  bind : ∀ {α β : Type} {w : Tape α} {k : α → Tape β}, P α w → (∀ a, P β (k a)) → P β (w >>= k)
  position : P Nat Tape.position
  gather : ∀ n patient, P Bytes (Tape.gather n patient)
  skip : ∀ n early, P Unit (Tape.skip n early)

namespace Tape.Composes

variable {P : (α : Type) → Tape α → Prop} (h : Tape.Composes P)

include h

theorem check {α : Type} (r : Except Defect α) : P α (Defect.check r) := by
  cases r with
  | ok a => exact h.pure a
  | error d => exact h.throw d.fault

theorem readHeader (start : Nat) : P _ (readHeader start) := by
  unfold Tar.readHeader
  refine h.bind h.position fun p => h.bind (h.skip _ _) fun _ =>
    h.bind (h.gather 512 false) fun b => ?_
  split
  · exact h.pure _
  split
  · exact h.pure _
  · exact h.throw _

theorem readMember (start : Nat) (extensions : Option Bytes) :
    P _ (readMember start extensions) := by
  unfold Tar.readMember
  refine h.bind (h.readHeader start) fun r => ?_
  cases r with
  | none => exact h.pure none
  | some header => exact h.bind (h.check _) fun m => h.pure (some m)

theorem addBlocks (start next : Nat) (hnext : Behind start next) (m : SparseMap) :
    P _ (m.addBlocks start next hnext) := by
  induction hd : limit - next using Nat.strongRecOn generalizing next m with
  | ind d ih =>
    unfold SparseMap.addBlocks
    refine h.bind (h.gather 512 false) fun block => ?_
    split
    · exact h.throw _
    split
    · exact h.throw _
    split
    · refine h.bind (h.check _) fun m' => ?_
      dsimp only
      split
      · exact ih (limit - (next + 512)) (by omega) _ _ _ rfl
      · exact h.pure _
    · exact h.throw _

theorem readSparse (start : Nat) (e : { e : Entry // Behind start e.next }) :
    P _ (readSparse start e) := by
  unfold Tar.readSparse
  dsimp only
  split
  · exact h.pure e
  split
  · exact h.throw _
  refine h.bind (h.check _) fun m => ?_
  split
  · exact h.bind (h.addBlocks start _ _ m) fun r => h.check _
  · exact h.check _

theorem readEntryAfter (p : Preface) (start : Nat) : P _ (readEntryAfter p start) := by
  induction hr : p.room using Nat.strongRecOn generalizing p start with
  | ind room ih =>
    obtain ⟨k, hk, hnone, hsome⟩ := readEntryAfter_eq p start
    rw [hk]
    refine h.bind (h.readMember start p.extensions) fun m => ?_
    cases m with
    | none =>
      rw [hnone]
      split
      · exact h.pure none
      · exact h.throw _
    | some m =>
      rcases hsome m with ⟨f, hm⟩ | ⟨p', hp', hm⟩ | ⟨e, -, -, -, hm⟩
      · rw [hm]
        exact h.throw f
      · rw [hm]
        refine h.bind (h.gather m.1.size true) fun b =>
          h.bind (ih (p' b).room ?_ (p' b) m.1.next rfl) fun r => h.pure _
        rw [← hr]
        exact (hp' b).1
      · rw [hm]
        exact h.bind (h.readSparse start e) fun e' => h.pure _

theorem readEntry (start : Nat) : P _ (readEntry start) := h.readEntryAfter {} start

end Tape.Composes
end ContainerLayer
