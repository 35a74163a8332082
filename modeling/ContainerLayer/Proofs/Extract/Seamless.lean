import ContainerLayer.Proofs.Extract.History
import ContainerLayer.Proofs.Stream.Seamless
import ContainerLayer.Proofs.Tar.Composing

/-
Applying an archive does not depend on how it is handed out.

Headers, names and records are gathered, and the content of a file is written down piece by
piece, so that in the end the file holds all of them.  Where the reader fails, what it gave
before is in the file all the same.  So the outcome and the tree depend only on the bytes and on
what is behind them (`applyArchive_eq`).
-/

namespace ContainerLayer

open Tape

namespace Tar

theorem composes_seamless : Tape.Composes fun _ w => Seamless w where
  pure := seamless_pure
  throw := seamless_throw
  bind := Seamless.bind
  position := seamless_position
  gather := seamless_gather
  skip := seamless_skip

theorem seamless_readEntry (start : Nat) : Seamless (readEntry start) :=
  composes_seamless.readEntry start

end Tar

namespace Unpack

open Tar

/-- The fault of a stretch of content that is not all there. -/
def entireFault : Fault := .other "failed to write entire file"

/-- Reading stored content comes to what the bytes and their end say, in some pieces. -/
theorem comes_readStored (acc : List Bytes) (n position : Nat) (b : Batch) :
    ∃ chunks b', Comes (readStored acc n) position b
        (.ok ((chunks, if n ≤ b.left.length then none else some (b.faultOr entireFault)),
          position + (b.left.take n).length)) b'
      ∧ chunks.reverse.flatten = acc.reverse.flatten ++ b.left.take n
      ∧ b'.Alike ⟨[b.left.drop n], b.fault⟩ := by
  induction n, b using Batch.read_induction (fun n => min n chunk)
    (fun n hn => by unfold chunk; omega) generalizing acc position with
  | zero b =>
    rw [readStored, dif_pos rfl, if_pos (Nat.zero_le _)]
    exact ⟨acc, b, comes_pure _ _ _, (List.append_nil _).symm, b.alike_drop_zero⟩
  | piece n b x b₁ hn hx hlen e hsplit ih =>
    have hread := comes_attempt (min n chunk) true position b
    rw [e] at hread
    obtain ⟨chunks, b₂, hmore, hchunks, halike⟩ := ih (x :: acc) (position + x.length)
    refine ⟨chunks, b₂, ?_, ?_, halike.trans (hsplit.alike_drop hlen)⟩
    · rw [readStored, dif_neg hn]
      refine hread.bind ?_
      dsimp only
      rw [dif_neg hx]
      rw [hsplit.faultOr, Nat.add_assoc, ← List.length_append, ← hsplit.take hlen] at hmore
      by_cases hle : n ≤ b.left.length
      · rw [if_pos (hsplit.le_iff.mpr hle)] at hmore
        rwa [if_pos hle]
      · rw [if_neg (fun h => hle (hsplit.le_iff.mp h))] at hmore
        rwa [if_neg hle]
    · rw [hchunks, hsplit.take hlen]
      simp
  | ending n b hn hle hnil e =>
    have hread := comes_attempt (min n chunk) true position b
    rw [e] at hread
    refine ⟨acc, _, ?_, ?_, Batch.alike_drop_of_nil hnil n⟩
    · rw [readStored, dif_neg hn, if_neg hle, hnil, List.take_nil]
      rcases b.ending_cases entireFault with ⟨hend, hfault⟩ | ⟨k, hend, hfault⟩
      · rw [hend] at hread
        rw [hfault]
        refine hread.bind ?_
        dsimp only
        rw [dif_pos rfl]
        exact comes_pure _ _ _
      · rw [hend] at hread
        rw [hfault]
        exact hread.bind (comes_pure _ _ _)
    · rw [hnil, List.take_nil, List.append_nil]

/-- The same content in perhaps other pieces, and the same fault. -/
def SameContent (r r' : List Bytes × Option Fault) : Prop :=
  r.1.reverse.flatten = r'.1.reverse.flatten ∧ r.2 = r'.2

theorem agrees_readStored {acc acc' : List Bytes}
    (hacc : acc.reverse.flatten = acc'.reverse.flatten) (n : Nat) :
    Agrees SameContent (readStored acc n) (readStored acc' n) := by
  refine agrees_of_comes fun position b b' hb => ?_
  obtain ⟨chunks, c, hc, hchunks, halike⟩ := comes_readStored acc n position b
  obtain ⟨chunks', c', hc', hchunks', halike'⟩ := comes_readStored acc' n position b'
  rw [← hb.left, ← hb.faultOr] at hc'
  rw [← hb.left, ← hacc, ← hchunks] at hchunks'
  rw [← hb.left, ← hb.fault] at halike'
  exact ⟨_, _, c, c', hc, hc', .ok ⟨hchunks'.symm, rfl⟩ _, halike.trans halike'.symm⟩

theorem agrees_readContent {acc acc' : List Bytes}
    (hacc : acc.reverse.flatten = acc'.reverse.flatten) (content : Content) :
    Agrees SameContent (readContent acc content) (readContent acc' content) := by
  induction content generalizing acc acc' with
  | nil => exact agrees_pure ⟨hacc, rfl⟩
  | cons s rest ih =>
    cases s with
    | gap n =>
      unfold readContent
      split
      · exact agrees_pure ⟨hacc, rfl⟩
      · refine ih ?_
        simp [hacc]
    | stored n =>
      unfold readContent
      refine (agrees_readStored hacc n).bind fun r r' hr => ?_
      obtain ⟨chunks, fault⟩ := r
      obtain ⟨chunks', fault'⟩ := r'
      obtain ⟨hchunks, hfault⟩ := hr
      dsimp only at hchunks hfault
      subst hfault
      cases fault with
      | none => exact ih hchunks
      | some f => exact agrees_pure ⟨hchunks, rfl⟩

theorem seamless_entry (root : PathParts) (e : Entry) (t : Tree) :
    Seamless (entry root e t) := by
  unfold entry
  split
  · exact seamless_pure _
  · exact seamless_pure _
  · refine (agrees_readContent rfl e.content).bind fun r r' hr => ?_
    obtain ⟨chunks, fault⟩ := r
    obtain ⟨chunks', fault'⟩ := r'
    obtain ⟨hchunks, hfault⟩ := hr
    dsimp only at hchunks hfault ⊢
    rw [hchunks, hfault]
    exact seamless_pure _

end Unpack

namespace Extract

open Tar

theorem seamless_applyEntry (root : PathParts) (e : Entry) (p : Progress) :
    Seamless (applyEntry root e p) := by
  unfold applyEntry
  dsimp only
  split
  · split <;> exact seamless_pure _
  · split
    · exact seamless_pure _
    · refine (Unpack.seamless_entry root e p.tree).bind fun r => ?_
      obtain ⟨fault, tree⟩ := r
      cases fault <;> exact seamless_pure _

/-- Entries are applied as the bytes and their end say. -/
theorem applyEntries_eq (root : PathParts) (start position : Nat) (p : Progress) {b b' : Batch}
    (hb : b.Alike b') :
    (Relay.run (applyEntries root start position p) b).result
      = (Relay.run (applyEntries root start position p) b').result := by
  induction hd : limit - start using Nat.strongRecOn generalizing start position p b b' with
  | ind d ih =>
    rw [result_applyEntries, result_applyEntries]
    obtain ⟨hread, hrest⟩ := seamless_readEntry start position b b' hb
    revert hread hrest
    generalize Relay.run ((readEntry start).run position) b = o
    generalize Relay.run ((readEntry start).run position) b' = o'
    obtain ⟨r, _, rest⟩ := o
    obtain ⟨r', _, rest'⟩ := o'
    intro hread hrest
    cases hread with
    | error f => rfl
    | @ok e e' he position' =>
      subst he
      cases e with
      | none => rfl
      | some e =>
        obtain ⟨e, hnext⟩ := e
        dsimp only
        obtain ⟨happly, hrest'⟩ := seamless_applyEntry root e p position' rest rest' hrest
        revert happly hrest'
        generalize Relay.run ((applyEntry root e p).run position') rest = o
        generalize Relay.run ((applyEntry root e p).run position') rest' = o'
        obtain ⟨r, _, rest₁⟩ := o
        obtain ⟨r', _, rest₁'⟩ := o'
        intro happly hrest'
        cases happly with
        | error f => rfl
        | @ok a a' ha position'' =>
          subst ha
          obtain ⟨failure, after⟩ := a
          cases failure with
          | some err => rfl
          | none =>
            have h₁ := hnext.1
            have h₂ := hnext.2
            exact ih _ (by omega) e.next position'' after hrest' rfl

/-- Applying an archive comes to the same on batches that are alike. -/
theorem applyArchive_eq (root : PathParts) (t : Tree) {b b' : Batch} (hb : b.Alike b') :
    (Relay.run (applyArchive root t) b).result = (Relay.run (applyArchive root t) b').result :=
  applyEntries_eq root 0 0 _ hb

end Extract
end ContainerLayer
