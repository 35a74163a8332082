import ContainerLayer.Proofs.Filter.Rendering

/-
How far a filter moves in its archive.

A program that plays takes bytes from the front of what its reader hands out, and its position
goes up by as many.  `Tape.Moves` says so, and that the number of bytes and the result are
related; it holds of a program that is put together from others if it holds of these.

Whatever is done with an entry, and whatever the decision made of its header, no more is read
of its content than what is stored of it.  So the next header always lies ahead.
-/

namespace ContainerLayer

open Tar

namespace Tape

variable {α β σ : Type} [Reader σ] {I : σ → Prop} {output : σ → Bytes}

/-- Whenever the program plays, it takes a number of bytes that has `Q` together with the
result. -/
def Moves (I : σ → Prop) (output : σ → Bytes) (Q : Nat → α → Prop) (w : Tape α) : Prop :=
  ∀ (c c' : Spot σ) (a : α) (out : Bytes), I c.reader → w.Plays c a c' out →
    I c'.reader ∧ ∃ b, output c.reader = b ++ output c'.reader
      ∧ c'.position = c.position + b.length ∧ Q b.length a

variable {Q : Nat → α → Prop} {R : Nat → β → Prop}

/-- A program that stays where it is. -/
theorem moves_of_stays {w : Tape α}
    (h : ∀ {c c' : Spot σ} {a : α} {out : Bytes}, w.Plays c a c' out → c' = c) :
    Moves I output (fun n _ => n = 0) w := by
  intro c c' a out hc hp
  obtain rfl := h hp
  exact ⟨hc, [], rfl, rfl, rfl⟩

theorem moves_pure {a : α} (h : Q 0 a) : Moves I output Q (pure a) := by
  intro c c' a' out hc hp
  obtain ⟨rfl, rfl, rfl⟩ := plays_pure_iff.mp hp
  exact ⟨hc, [], rfl, rfl, h⟩

theorem moves_throw (f : Fault) : Moves I output Q (throw f) :=
  fun _ _ _ _ _ hp => absurd hp not_plays_throw

theorem moves_write (b : Bytes) : Moves I output (fun n _ => n = 0) (write b) :=
  moves_of_stays fun hp => (plays_write_iff.mp hp).1

theorem Moves.bind {w : Tape α} {f : α → Tape β} (hw : Moves I output Q w)
    (hf : ∀ n a, Q n a → Moves I output (fun m => R (n + m)) (f a)) :
    Moves I output R (w >>= f) := by
  intro c c'' b out hc hp
  obtain ⟨a, c', o₁, o₂, h₁, h₂, rfl⟩ := plays_bind_iff.mp hp
  obtain ⟨hc', x, hx, hpos, ha⟩ := hw c c' a o₁ hc h₁
  obtain ⟨hc'', y, hy, hpos', hb⟩ := hf _ a ha c' c'' b o₂ hc' h₂
  refine ⟨hc'', x ++ y, ?_, ?_, ?_⟩
  · rw [hx, hy, List.append_assoc]
  · rw [hpos', hpos, List.length_append, Nat.add_assoc]
  · rw [List.length_append]
    exact hb

theorem Moves.mono {Q' : Nat → α → Prop} {w : Tape α} (hw : Moves I output Q w)
    (h : ∀ n a, Q n a → Q' n a) : Moves I output Q' w := by
  intro c c' a out hc hp
  obtain ⟨hc', b, hb, hpos, ha⟩ := hw c c' a out hc hp
  exact ⟨hc', b, hb, hpos, h _ _ ha⟩

/-- A step in front that stays where it is. -/
theorem Moves.after_stay {w : Tape α} {f : α → Tape β}
    (hw : Moves I output (fun n _ => n = 0) w) (hf : ∀ a, Moves I output R (f a)) :
    Moves I output R (w >>= f) := by
  refine hw.bind fun n a hn => ?_
  subst hn
  refine (hf a).mono fun m b hm => ?_
  rwa [Nat.zero_add]

/-- A step behind that stays where it is. -/
theorem Moves.before_stay {P : Nat → Prop} {w : Tape α} {f : α → Tape β}
    (hw : Moves I output (fun n _ => P n) w)
    (hf : ∀ a, Moves I output (fun n _ => n = 0) (f a)) :
    Moves I output (fun n _ => P n) (w >>= f) := by
  refine hw.bind fun n a hn => (hf a).mono fun m b hm => ?_
  subst hm
  exact hn

variable (h : Reader.Hands I output)

include h in
theorem moves_read (n : Nat) (patient : Bool) :
    Moves I output (fun m b => m = b.length ∧ m ≤ n) (read n patient) := by
  intro c c' b out hc hp
  obtain ⟨-, hc', hlen, hout, hpos, -⟩ := of_read_plays h hc hp
  exact ⟨hc', b, hout, hpos, rfl, hlen⟩

include h in
theorem moves_gather (n : Nat) (patient : Bool) :
    Moves I output (fun m _ => m ≤ n) (gather n patient) := by
  intro c c' b out hc hp
  obtain ⟨-, hc', rfl, hrest, hpos⟩ := of_gather_plays h hc hp
  refine ⟨hc', _, ?_, hpos, List.length_take_le _ _⟩
  rw [hrest, List.take_append_drop]

end Tape

/-! ## Content -/

namespace Tar

namespace Content

open Tape

variable {σ : Type} [Reader σ] {I : σ → Prop} {output : σ → Bytes}

variable (h : Reader.Hands I output)

include h in
/-- What a read takes from the tape is no longer to come. -/
theorem moves_read (n : Nat) (content : Content) :
    Moves I output (fun m r => m + onTape r.2 ≤ onTape content) (Content.read n content) := by
  induction content with
  | nil => exact moves_pure (Nat.le_refl 0)
  | cons s rest ih =>
    cases s with
    | stored k =>
      unfold Content.read
      split
      · refine ih.mono fun m r hm => ?_
        rw [onTape_stored]
        omega
      · refine (Tape.moves_read h (min n k) true).bind fun m b hm => ?_
        obtain ⟨rfl, hle⟩ := hm
        split
        · rename_i hb
          subst hb
          refine ih.mono fun m r hm => ?_
          rw [onTape_stored, List.length_nil]
          omega
        · refine moves_pure ?_
          rw [onTape_stored, onTape_stored]
          omega
    | gap k =>
      unfold Content.read
      split
      · refine ih.mono fun m r hm => ?_
        rwa [onTape_gap]
      · refine moves_pure ?_
        rw [onTape_gap, onTape_gap]
        omega

include h in
theorem moves_collect (content : Content) :
    Moves I output (fun m _ => m ≤ onTape content) (collect content) := by
  induction content with
  | nil => exact moves_pure (Nat.le_refl 0)
  | cons s rest ih =>
    cases s with
    | stored k =>
      refine (moves_gather h k true).bind fun m b hm => ih.bind fun m' r hm' => moves_pure ?_
      rw [onTape_stored]
      omega
    | gap k =>
      refine ih.bind fun m r hm => moves_pure ?_
      rw [onTape_gap]
      omega

include h in
/-- Copying takes no more from the tape than what is stored. -/
theorem moves_forEach {sink : Bytes → Tape Unit} (n k : Nat)
    (hsink : ∀ b, Moves I output (fun m _ => m = 0) (sink b)) (content : Content) :
    Moves I output (fun m _ => m ≤ onTape content)
      ((Exact.forEach (m := StateT Content Tape) Content.read n
        (fun b => StateT.lift (sink b)) ⟨k⟩).run content) := by
  induction k using Nat.strongRecOn generalizing content with
  | ind k ih =>
    rw [Exact.forEach]
    split
    · exact moves_pure (Nat.zero_le _)
    · rename_i hk
      rw [StateT.run_bind]
      refine (moves_read h _ content).bind fun m r hm => ?_
      obtain ⟨b, content₁⟩ := r
      dsimp only at hm ⊢
      split
      · exact moves_throw _
      · rename_i y hy
        have hlt : y.remaining < k := Exact.accept_lt hy hk
        have hlift : Moves I output (fun m r => m = 0 ∧ r.2 = content₁)
            ((StateT.lift (sink b) : StateT Content Tape Unit).run content₁) :=
          (hsink b).bind fun m u hm => moves_pure ⟨hm, rfl⟩
        rw [StateT.run_bind]
        refine hlift.bind fun m' r hr => ?_
        obtain ⟨rfl, rfl⟩ := hr
        refine (ih y.remaining hlt r.2).mono fun m'' _ hm'' => ?_
        omega

end Content
end Tar

/-! ## Entries -/

namespace EntryHeader

open Tar Tape

variable {σ : Type} [Reader σ] {I : σ → Prop} {output : σ → Bytes} (h : Reader.Hands I output)

include h in
theorem moves_copyContent (e : EntryHeader) {sink : Bytes → Tape Unit}
    (hsink : ∀ b, Moves I output (fun m _ => m = 0) (sink b)) (content : Content) :
    Moves I output (fun m _ => m ≤ Content.onTape content) (e.copyContent sink content) :=
  (Content.moves_forEach h copySize e.size hsink content).before_stay fun _ => moves_pure rfl

include h in
theorem moves_dropContent (e : EntryHeader) (content : Content) :
    Moves I output (fun m _ => m ≤ Content.onTape content) (e.dropContent content) :=
  (e.moves_copyContent h (fun _ => moves_pure rfl) content).before_stay fun _ => moves_pure rfl

include h in
theorem moves_appendMember (e : EntryHeader) (content : Content) :
    Moves I output (fun m _ => m ≤ Content.onTape content) (e.appendMember content) := by
  unfold appendMember
  split
  · refine (e.moves_dropContent h content).before_stay fun _ => ?_
    refine (moves_of_stays fun hp => (writePath_plays_iff.mp hp).1).after_stay fun _ => ?_
    refine (moves_of_stays fun hp => (writeLinkName_plays_iff.mp hp).1).after_stay fun _ => ?_
    exact moves_write _
  · refine (moves_of_stays fun hp => (writePath_plays_iff.mp hp).1).after_stay fun _ => ?_
    refine (moves_write _).after_stay fun _ => ?_
    exact (e.moves_copyContent h moves_write content).before_stay fun _ => moves_write _

include h in
theorem moves_append (e : EntryHeader) (content : Content) :
    Moves I output (fun m _ => m ≤ Content.onTape content) (e.append content) := by
  unfold append
  split
  · exact e.moves_appendMember h content
  · exact (moves_of_stays fun hp => (writeMember_plays_iff.mp hp).1).after_stay fun _ =>
      e.moves_appendMember h content

include h in
/-- Records are read from the content of the entry, and leave nothing of it. -/
theorem moves_extensionsOf (e : Entry) :
    Moves I output (fun m r => m + Content.onTape r.2 ≤ Content.onTape e.content)
      (extensionsOf e) := by
  unfold extensionsOf
  split
  · exact moves_pure (Nat.le_of_eq (Nat.zero_add _))
  split
  · exact (Content.moves_collect h e.content).bind fun m b hm => moves_pure hm
  · exact moves_pure (Nat.le_of_eq (Nat.zero_add _))

include h in
theorem moves_ofEntry (e : Entry) :
    Moves I output (fun m r => m + Content.onTape r.2 ≤ Content.onTape e.content) (ofEntry e) := by
  refine (moves_extensionsOf h e).bind fun m r hm => ?_
  obtain ⟨data, content⟩ := r
  dsimp only
  split
  · exact moves_throw _
  · exact moves_pure hm

end EntryHeader

namespace Filter

open Tar Tape

variable {σ : Type} [Reader σ] {I : σ → Prop} {output : σ → Bytes} (h : Reader.Hands I output)

include h in
theorem moves_handle (keep : Bool) (e : EntryHeader) (content : Content) :
    Moves I output (fun m _ => m ≤ Content.onTape content) (handle keep e content) := by
  cases keep with
  | true => exact e.moves_append h content
  | false => exact e.moves_dropContent h content

end Filter
end ContainerLayer
