import ContainerLayer.Filter
import ContainerLayer.Proofs.Tar.Composing

/-
Programs that stop at the first fault.

A program heeds faults if a read or a write that fails ends it at once, with that fault.  All
that a filter does is put together from such programs, so its producer asks for nothing more
once something has failed, and comes to the very fault that it was told of.
-/

namespace ContainerLayer

open Tar

namespace Relay

variable {α β : Type}

/-- A fault ends the relay at once, with a result that `Q` relates to it. -/
def Stops {γ : Type} (Q : Fault → α → Prop) (next : Except Fault γ → Relay α) : Prop :=
  ∀ f, ∃ a, next (.error f) = done a ∧ Q f a

/-- A read or a write that fails ends the relay at once. -/
def Heeds (Q : Fault → α → Prop) : Relay α → Prop
  | done _ => True
  | read _ _ next => Stops Q next ∧ ∀ b, Heeds Q (next (.ok b))
  | write _ next => Stops Q next ∧ Heeds Q (next (.ok ()))

variable {Q : Fault → α → Prop} {R : Fault → β → Prop} {k : α → Relay β}

theorem Stops.heeds {γ : Type} {next : Except Fault γ → Relay α} (h : Stops Q next) (f : Fault) :
    Heeds Q (next (.error f)) := by
  obtain ⟨a, ha, -⟩ := h f
  rw [ha]
  trivial

/-- What comes behind may turn the result for the fault into another one, and do nothing else. -/
theorem Stops.bind {γ : Type} {next : Except Fault γ → Relay α} (h : Stops Q next)
    (hk : ∀ f a, Q f a → ∃ b, k a = done b ∧ R f b) : Stops R fun r => (next r).bind k := by
  intro f
  obtain ⟨a, ha, hq⟩ := h f
  obtain ⟨b, hb, hr⟩ := hk f a hq
  refine ⟨b, ?_, hr⟩
  dsimp only
  rw [ha]
  exact hb

theorem Heeds.bind {p : Relay α} (hp : Heeds Q p)
    (hfault : ∀ f a, Q f a → ∃ b, k a = done b ∧ R f b) (hk : ∀ a, Heeds R (k a)) :
    Heeds R (p.bind k) := by
  induction p with
  | done a => exact hk a
  | read n patient next ih => exact ⟨hp.1.bind hfault, fun b => ih _ (hp.2 b)⟩
  | write b next ih => exact ⟨hp.1.bind hfault, ih _ hp.2⟩

end Relay

namespace Tape

variable {α β : Type}

/-- A read or a write that fails ends the program at once with its fault. -/
def Heeds (w : Tape α) : Prop := ∀ position, Relay.Heeds (fun f r => r = .error f) (w.run position)

theorem heeds_pure (a : α) : Heeds (pure a) := fun _ => trivial

theorem heeds_throw (f : Fault) : Heeds (throw f : Tape α) := fun _ => trivial

theorem Heeds.bind {w : Tape α} {k : α → Tape β} (hw : Heeds w) (hk : ∀ a, Heeds (k a)) :
    Heeds (w >>= k) := by
  intro position
  refine Relay.Heeds.bind (hw position) ?_ fun r => ?_
  · rintro f _ rfl
    exact ⟨.error f, rfl, rfl⟩
  · cases r with
    | error f => trivial
    | ok r => exact hk r.1 r.2

theorem heeds_position : Heeds Tape.position := fun _ => trivial

theorem heeds_read (n : Nat) (patient : Bool) : Heeds (read n patient) :=
  fun _ => ⟨fun f => ⟨.error f, rfl, rfl⟩, fun _ => trivial⟩

theorem heeds_write (b : Bytes) : Heeds (write b) :=
  fun _ => ⟨fun f => ⟨.error f, rfl, rfl⟩, trivial⟩

theorem heeds_gather (n : Nat) (patient : Bool) : Heeds (gather n patient) := by
  induction n using Nat.strongRecOn with
  | ind n ih =>
    rw [gather]
    split
    · exact heeds_pure _
    refine (heeds_read n patient).bind fun b => ?_
    split
    · exact heeds_pure _
    · rename_i hn hb
      have hpos : 0 < b.length := List.length_pos_iff.mpr hb
      exact (ih (n - b.length) (by omega)).bind fun more => heeds_pure _

theorem heeds_skip (n : Nat) (early : Fault) : Heeds (skip n early) := by
  induction n using Nat.strongRecOn with
  | ind n ih =>
    rw [skip]
    split
    · exact heeds_pure _
    refine (heeds_read (min n 32768) false).bind fun b => ?_
    split
    · exact heeds_throw _
    · rename_i hn hb
      have hpos : 0 < b.length := List.length_pos_iff.mpr hb
      exact ih (n - b.length) (by omega)

theorem composes_heeds : Composes fun _ w => Heeds w where
  pure := heeds_pure
  throw := heeds_throw
  bind := Heeds.bind
  position := heeds_position
  gather := heeds_gather
  skip := heeds_skip

end Tape

open Tape

namespace Tar

theorem Content.heeds_read (n : Nat) (content : Content) : Heeds (Content.read n content) := by
  induction content with
  | nil => exact heeds_pure _
  | cons s rest ih =>
    cases s with
    | stored k =>
      unfold Content.read
      split
      · exact ih
      refine (Tape.heeds_read (min n k) true).bind fun b => ?_
      split
      · exact ih
      · exact heeds_pure _
    | gap k =>
      unfold Content.read
      split
      · exact ih
      · exact heeds_pure _

theorem Content.heeds_collect (content : Content) : Heeds (collect content) := by
  induction content with
  | nil => exact heeds_pure _
  | cons s rest ih =>
    cases s with
    | stored k => exact (heeds_gather k true).bind fun b => ih.bind fun r => heeds_pure _
    | gap k => exact ih.bind fun r => heeds_pure _

theorem Content.heeds_forEach {sink : Bytes → Tape Unit} (n k : Nat)
    (hsink : ∀ b, Heeds (sink b)) (content : Content) :
    Heeds ((Exact.forEach (m := StateT Content Tape) Content.read n
      (fun b => StateT.lift (sink b)) ⟨k⟩).run content) := by
  induction k using Nat.strongRecOn generalizing content with
  | ind k ih =>
    rw [Exact.forEach]
    split
    · exact heeds_pure _
    · rename_i hk
      rw [StateT.run_bind]
      refine (Content.heeds_read _ content).bind fun r => ?_
      dsimp only
      split
      · exact heeds_throw _
      · rename_i y hy
        rw [StateT.run_bind]
        exact Heeds.bind ((hsink r.1).bind fun u => heeds_pure _) fun r' =>
          ih y.remaining (Exact.accept_lt hy hk) r'.2

theorem heeds_writeMember (h : Header) (content : Bytes) : Heeds (writeMember h content) :=
  (heeds_write _).bind fun _ => (heeds_write _).bind fun _ => heeds_write _

theorem heeds_writePath (h : Header) (path : Bytes) : Heeds (writePath h path) := by
  unfold writePath
  split
  · exact heeds_pure _
  split
  · exact heeds_throw _
  split
  · exact heeds_throw _
  · exact (heeds_writeMember _ _).bind fun _ => heeds_pure _

theorem heeds_writeLinkName (h : Header) (name : Bytes) : Heeds (writeLinkName h name) := by
  unfold writeLinkName
  split
  · exact heeds_pure _
  split
  · exact heeds_throw _
  · exact (heeds_writeMember _ _).bind fun _ => heeds_pure _

end Tar

namespace EntryHeader

theorem heeds_extensionsOf (e : Entry) : Heeds (extensionsOf e) := by
  unfold extensionsOf
  split
  · exact heeds_pure _
  split
  · exact (Content.heeds_collect e.content).bind fun b => heeds_pure _
  · exact heeds_pure _

theorem heeds_ofEntry (e : Entry) : Heeds (ofEntry e) := by
  refine (heeds_extensionsOf e).bind fun r => ?_
  dsimp only
  split
  · exact heeds_throw _
  · exact heeds_pure _

theorem heeds_copyContent (e : EntryHeader) {sink : Bytes → Tape Unit}
    (hsink : ∀ b, Heeds (sink b)) (content : Content) : Heeds (e.copyContent sink content) :=
  (Content.heeds_forEach copySize e.size hsink content).bind fun _ => heeds_pure _

theorem heeds_dropContent (e : EntryHeader) (content : Content) : Heeds (e.dropContent content) :=
  (e.heeds_copyContent (fun _ => heeds_pure _) content).bind fun _ => heeds_pure _

theorem heeds_appendMember (e : EntryHeader) (content : Content) :
    Heeds (e.appendMember content) := by
  unfold appendMember
  split
  · exact (e.heeds_dropContent content).bind fun _ => (heeds_writePath _ _).bind fun _ =>
      (heeds_writeLinkName _ _).bind fun _ => heeds_write _
  · exact (heeds_writePath _ _).bind fun _ => (heeds_write _).bind fun _ =>
      (e.heeds_copyContent heeds_write content).bind fun _ => heeds_write _

theorem heeds_append (e : EntryHeader) (content : Content) : Heeds (e.append content) := by
  unfold append
  split
  · exact e.heeds_appendMember content
  · exact (heeds_writeMember _ _).bind fun _ => e.heeds_appendMember content

end EntryHeader

namespace Filter

variable {δ : Type}

theorem heeds_nextEntry (start : Nat) : Heeds (nextEntry start) := by
  refine (composes_heeds.readEntry start).bind fun e => ?_
  cases e with
  | none => exact heeds_pure none
  | some e => exact (EntryHeader.heeds_ofEntry e.1).bind fun r => heeds_pure _

theorem heeds_handle (keep : Bool) (header : EntryHeader) (content : Content) :
    Heeds (handle keep header content) := by
  cases keep with
  | true => exact header.heeds_append content
  | false => exact header.heeds_dropContent content

/-- The producer comes to the fault. -/
def Reports (f : Fault) (r : Except Fault FilterStats × δ) : Prop := r.1 = .error f

theorem heeds_copyEntries (decide : Decision δ) (start position : Nat) (stats : FilterStats)
    (d : δ) : Relay.Heeds Reports (copyEntries decide start position stats d) := by
  induction hk : Tar.limit - start using Nat.strongRecOn generalizing start position stats d with
  | ind k ih =>
    rw [copyEntries]
    refine Relay.Heeds.bind (heeds_nextEntry start position) ?_ fun r => ?_
    · rintro f _ rfl
      exact ⟨_, rfl, rfl⟩
    rcases r with f | ⟨_ | ⟨header, content, next, hnext⟩, position⟩
    · trivial
    · trivial
    dsimp only
    refine Relay.Heeds.bind (heeds_handle _ _ content position) ?_ fun r => ?_
    · rintro f _ rfl
      exact ⟨_, rfl, rfl⟩
    cases r with
    | error f => trivial
    | ok r =>
      have h₁ := hnext.1
      have h₂ := hnext.2
      exact ih (Tar.limit - next) (by omega) _ _ _ _ rfl

theorem heeds_produce (decide : Decision δ) (d : δ) : Relay.Heeds Reports (produce decide d) := by
  refine Relay.Heeds.bind (heeds_copyEntries decide 0 0 {} d) ?_ fun r => ?_
  · rintro f ⟨_, d⟩ rfl
    exact ⟨_, rfl, rfl⟩
  obtain ⟨outcome, d⟩ := r
  cases outcome with
  | error f => trivial
  | ok stats =>
    refine Relay.Heeds.bind (heeds_write Tar.trailer 0) ?_ fun r => ?_
    · rintro f _ rfl
      exact ⟨_, rfl, rfl⟩
    · cases r <;> trivial

end Filter
end ContainerLayer
