import ContainerLayer.Proofs.Applier.Accounting
import ContainerLayer.Proofs.Extract.Seamless
import ContainerLayer.Proofs.Filter.Delivery
import ContainerLayer.Proofs.Filter.Feeding

/-
Applying a layer while it is filtered.

One party filters a layer, another applies what the first hands out.  If the second fails, it
cancels the filter and waits for the first to go; otherwise it reads the output to its end, and
takes the layer back.  `Streaming.turn` is one turn of either of them.

What comes of it is what comes of doing one thing after the other (`applyInTurn`): filter the
layer and keep all that is written, then apply that.  This holds for every way in which the two
take turns, and if both have turns again and again, they come to that.  A descriptor that it comes
to is that of all of the layer.
-/

namespace ContainerLayer
namespace Applier

open Filtered

/-- What is returned, going by what came of the entries, what came of the filter, and the layer
that it hands back. -/
def described (applied : Except LayerError Nat × Tree) (filtered : Except Fault FilterStats)
    (layer : Layer) : Except LayerError Descriptor × Tree :=
  match applied, filtered with
  | (.error e, t), _ => (.error e, t)
  | (.ok _, t), .error f => (.error (.stream (.shared f)), t)
  | (.ok _, t), .ok _ => (layer.complete, t)

/-- Filters the layer to its end, and then applies what was written; behind that stands the
fault of the filter, if it failed. -/
def applyInTurn (start : String) (root : PathParts) (layer : Layer) (t : Tree) :
    Except LayerError Descriptor × Tree :=
  let filtered := (Filter.produce (stripDecision (Bytes.ofText start)) ()).run layer
  let applied := (Extract.applyArchive root t).run
    (⟨[filtered.written], faultOf filtered.result.1⟩ : Batch)
  described applied.result filtered.result.1 filtered.rest

/-- How far the party has come that applies a layer. -/
inductive Stage where
  | applying (p : Relay (Except LayerError Nat × Tree))
  /-- All entries are applied, and what is left of the output is read. -/
  | draining (t : Tree)
  /-- The work has failed, and the source of the filter is to be canceled. -/
  | canceling (e : LayerError) (t : Tree)
  /-- The pipe is to be closed, too. -/
  | closing (e : LayerError) (t : Tree)
  /-- The other party has to go first. -/
  | joining (e : Option LayerError) (t : Tree)
  | finished (outcome : Except LayerError Descriptor) (t : Tree)

/-- The two parties at work. -/
structure Streaming where
  working : Working Layer Unit
  stage : Stage

namespace Streaming

/-- One turn of the party that applies the layer.  Reads of a pipe are never interrupted, so
patient reads are like others here. -/
def apply (s : Streaming) : Streaming :=
  match s.stage with
  | .applying (.done (.ok _, t)) => { s with stage := .draining t }
  | .applying (.done (.error e, t)) => { s with stage := .canceling e t }
  | .applying (.read n _ next) =>
    match s.working.read n with
    | (none, _) => s
    | (some r, working) => { working, stage := .applying (next r) }
  | .applying (.write _ next) => { s with stage := .applying (next (.ok ())) }
  | .draining t =>
    match s.working.read Layer.drainSize with
    | (none, _) => s
    | (some (.ok b), working) =>
      { working, stage := if b = [] then .joining none t else .draining t }
    | (some (.error f), working) => { working, stage := .canceling (.stream f) t }
  | .canceling e t =>
    { working := { s.working with filtered := s.working.filtered.poison (.other e.message) },
      stage := .closing e t }
  | .closing e t =>
    let filtered := s.working.filtered
    { working := { s.working with
        filtered := { filtered with pipe := filtered.pipe.fail (.other e.message) } },
      stage := .joining (some e) t }
  | .joining e t =>
    match s.working.finish?, e with
    | none, _ => s
    | some _, some e => { s with stage := .finished (.error e) t }
    | some (.error f, _), none => { s with stage := .finished (.error (.stream f)) t }
    | some (.ok _, layer), none => { s with stage := .finished layer.complete t }
  | .finished _ _ => s

def turn (s : Streaming) : Filter.Side → Streaming
  | .producer => { s with working := s.working.produce }
  | .consumer => s.apply

def start (start : String) (root : PathParts) (layer : Layer) (t : Tree) : Streaming where
  working := { filtered := Filtered.start layer (stripDecision (Bytes.ofText start)) () }
  stage := .applying (Extract.applyArchive root t)

/-! ## What both parties keep -/

variable {x : Except LayerError Nat × Tree} {result : Except Fault FilterStats × Unit}
  {rest : Cancelable Layer} {f : Filtered Layer Unit} {w : Working Layer Unit}

/-- What holds of the filter while the other party is at a stage, if applying the entries comes
to `x`. -/
def Stands (x : Except LayerError Nat × Tree) (result : Except Fault FilterStats × Unit)
    (rest : Cancelable Layer) (f : Filtered Layer Unit) : Stage → Prop
  | .applying p => ∃ more, f.Due result rest more ∧ p.Yields (faultOf result.1) more x
  | .draining t => (∃ more, f.Due result rest more) ∧ ∃ n, x = (.ok n, t)
  | .canceling e t => described x result.1 rest.inner = (.error e, t)
  | .closing e t => described x result.1 rest.inner = (.error e, t)
  | .joining e t => f.pipe.isClosed = true ∧ match e with
    | some e => described x result.1 rest.inner = (.error e, t)
    | none => (∃ more, f.Due result rest more) ∧ ∃ n, x = (.ok n, t)
  | .finished outcome t => described x result.1 rest.inner = (outcome, t)

theorem Stands.turn {stage : Stage} (h : Stands x result rest f stage) :
    Stands x result rest f.turn stage := by
  cases stage with
  | applying p =>
    obtain ⟨more, hdue, hy⟩ := h
    exact ⟨more, hdue.turn, hy⟩
  | draining t =>
    obtain ⟨⟨more, hdue⟩, hx⟩ := h
    exact ⟨⟨more, hdue.turn⟩, hx⟩
  | canceling e t => exact h
  | closing e t => exact h
  | joining e t =>
    obtain ⟨hclosed, h⟩ := h
    refine ⟨isClosed_turn_of_closed hclosed, ?_⟩
    cases e with
    | some e => exact h
    | none =>
      obtain ⟨⟨more, hdue⟩, hx⟩ := h
      exact ⟨⟨more, hdue.turn⟩, hx⟩
  | finished outcome t => exact h

/-- The producer works as it should, and the stage fits. -/
structure Sound (x : Except LayerError Nat × Tree) (result : Except Fault FilterStats × Unit)
    (rest : Cancelable Layer) (s : Streaming) : Prop where
  sane : s.working.Sane
  stands : Stands x result rest s.working.filtered s.stage

variable {s : Streaming}

theorem Sound.produce (h : Sound x result rest s) : Sound x result rest (s.turn .producer) := by
  refine ⟨h.sane.produce, ?_⟩
  show Stands x result rest s.working.produce.filtered s.stage
  rcases h.sane.filtered_produce with e | e
  · rw [e]
    exact h.stands
  · rw [e]
    exact h.stands.turn

/-- What a read of the output leaves. -/
theorem exists_read {n : Nat} {r : Except Fault Bytes} {w' : Working Layer Unit} (hs : w.Sane)
    (hr : w.read n = (some r, w')) :
    ∃ pipe, w.filtered.pipe.read n = (some r, pipe)
      ∧ w' = { w with filtered := { w.filtered with pipe } } ∧ w'.Sane := by
  obtain ⟨pipe, hpipe⟩ := Working.exists_read hr
  have hw' : w' = { w with filtered := { w.filtered with pipe } } := by
    have := congrArg Prod.snd hr
    unfold Working.read at this
    rw [hpipe] at this
    exact this.symm
  refine ⟨pipe, hpipe, hw', ?_⟩
  rw [hw']
  refine hs.of_pipe fun hc => ?_
  unfold Pipe.isClosed at hc ⊢
  rwa [Pipe.closing_read hpipe]

theorem Sound.apply_applying {p : Relay (Except LayerError Nat × Tree)} {w : Working Layer Unit}
    (h : Sound x result rest ⟨w, .applying p⟩) : Sound x result rest (apply ⟨w, .applying p⟩) := by
  obtain ⟨hs, more, hdue, hy⟩ := h
  cases p with
  | done o =>
    obtain ⟨outcome, t⟩ := o
    obtain rfl := hy.done
    cases outcome with
    | ok n => exact ⟨hs, ⟨more, hdue⟩, n, rfl⟩
    | error e => exact ⟨hs, rfl⟩
  | read n patient next =>
    unfold apply
    dsimp only
    cases hr : w.read n with
    | mk r w' =>
      cases r with
      | none => exact ⟨hs, more, hdue, hy⟩
      | some r =>
        obtain ⟨pipe, hpipe, hw', hs'⟩ := exists_read hs hr
        obtain ⟨later, hdue, hy⟩ := hdue.feeds hy hpipe
        refine ⟨hs', later, ?_, hy⟩
        rw [hw']
        exact hdue
  | write b next => exact ⟨hs, more, hdue, hy.write⟩

theorem Sound.apply_draining {t : Tree} {w : Working Layer Unit}
    (h : Sound x result rest ⟨w, .draining t⟩) : Sound x result rest (apply ⟨w, .draining t⟩) := by
  obtain ⟨hs, ⟨more, hdue⟩, n, hx⟩ := h
  unfold apply
  dsimp only
  cases hr : w.read Layer.drainSize with
  | mk r w' =>
    cases r with
    | none => exact ⟨hs, ⟨more, hdue⟩, n, hx⟩
    | some r =>
      obtain ⟨pipe, hpipe, hw', hs'⟩ := exists_read hs hr
      cases r with
      | error f =>
        obtain ⟨-, -, g, hg, rfl⟩ := hdue.fault hpipe
        refine ⟨hs', ?_⟩
        show described x result.1 rest.inner = _
        rw [hg, hx]
        rfl
      | ok b =>
        obtain ⟨later, -, hlater⟩ := hdue.read hpipe
        refine ⟨hs', ?_⟩
        dsimp only
        rw [hw']
        split
        · rename_i hb
          obtain ⟨-, hclosing, -, -, hclean⟩ := Pipe.of_read_ok hpipe
          refine ⟨?_, ⟨later, hlater⟩, n, hx⟩
          show pipe.isClosed = true
          unfold Pipe.isClosed
          rw [hclosing, (hclean (by decide) hb).1]
          rfl
        · exact ⟨⟨later, hlater⟩, n, hx⟩

theorem Sound.apply_joining {e : Option LayerError} {t : Tree} {w : Working Layer Unit}
    (h : Sound x result rest ⟨w, .joining e t⟩) :
    Sound x result rest (apply ⟨w, .joining e t⟩) := by
  obtain ⟨hs, hclosed, hstands⟩ := h
  unfold apply
  dsimp only
  cases hf : w.finish? with
  | none => exact ⟨hs, hclosed, hstands⟩
  | some r =>
    cases e with
    | some e => exact ⟨hs, hstands⟩
    | none =>
      obtain ⟨⟨more, hdue⟩, n, hx⟩ := hstands
      obtain ⟨k, hk⟩ := Option.isSome_iff_exists.mp hclosed
      obtain ⟨hproducer, hsource, -⟩ := hdue.of_closed hk
      have hfinish : w.filtered.finish? = some r := by
        unfold Working.finish? at hf
        split at hf
        · exact hf
        · cases hf
      rw [finish?_of_ended hproducer, hsource] at hfinish
      cases hfinish
      subst hx
      cases hresult : result.1 with
      | ok stats =>
        refine ⟨hs, ?_⟩
        show described _ result.1 _ = _
        rw [hresult]
        rfl
      | error f =>
        refine ⟨hs, ?_⟩
        show described _ result.1 _ = _
        rw [hresult]
        rfl

theorem Sound.apply (h : Sound x result rest s) : Sound x result rest (s.turn .consumer) := by
  obtain ⟨w, stage⟩ := s
  cases stage with
  | applying p => exact h.apply_applying
  | draining t => exact h.apply_draining
  | canceling e t => exact ⟨h.sane.of_pipe id, h.stands⟩
  | closing e t => exact ⟨h.sane.of_pipe fun _ => rfl, rfl, h.stands⟩
  | joining e t => exact h.apply_joining
  | finished outcome t => exact h

theorem Sound.turn (h : Sound x result rest s) (who : Filter.Side) :
    Sound x result rest (s.turn who) := by
  cases who with
  | producer => exact h.produce
  | consumer => exact h.apply

theorem Sound.turns (h : Sound x result rest s) (turns : List Filter.Side) :
    Sound x result rest (turns.foldl Streaming.turn s) := by
  induction turns generalizing s with
  | nil => exact h
  | cons who turns ih => exact ih (h.turn who)

/-! ## The work comes to its end -/

def Done (s : Streaming) : Prop := ∃ outcome t, s.stage = .finished outcome t

/-- A stage leads to the end if the party that applies the layer gets on from it, or has to wait
for a producer that does not wait in turn. -/
theorem inevitable_of_stage {stage : Stage} {P : Working Layer Unit → Prop}
    (hsane : ∀ w, P w → w.Sane) (hproduce : ∀ w, P w → P w.produce)
    (happly : ∀ w, P w → (apply ⟨w, stage⟩ = ⟨w, stage⟩ ∧ ¬ w.Waits)
      ∨ Inevitable Streaming.turn some Done (apply ⟨w, stage⟩))
    {w : Working Layer Unit} (hw : P w) : Inevitable Streaming.turn some Done ⟨w, stage⟩ := by
  have hacc := (hsane w hw).acc
  induction hacc with
  | intro w _ ih =>
    by_cases hwaits : w.Waits
    · have hnext := (happly w hw).resolve_left fun h => h.2 hwaits
      refine .closer .consumer (fun who hne => ?_) fun who hwho => ?_
      · cases who with
        | producer =>
          refine absurd ?_ hne
          show (⟨w.produce, stage⟩ : Streaming) = ⟨w, stage⟩
          rw [Working.produce_of_waits hwaits]
        | consumer => exact hnext
      · cases hwho
        exact hnext
    · have hnext : Inevitable Streaming.turn some Done ⟨w.produce, stage⟩ :=
        ih w.produce ⟨hwaits, rfl⟩ (hproduce w hw)
      refine .closer .producer (fun who hne => ?_) fun who hwho => ?_
      · cases who with
        | producer => exact hnext
        | consumer =>
          rcases happly w hw with ⟨e, -⟩ | h
          · exact absurd e hne
          · exact h
      · cases hwho
        exact hnext

theorem open_of_waits {w : Working Layer Unit} (hw : w.Waits)
    (hg : w.gone = false) : w.filtered.pipe.closing = none := by
  rcases hw with hgone | ⟨left, c, next, -, ha⟩
  · cases hg.symm.trans hgone
  · cases Pipe.looks_of_eq ha with
    | waits hopen _ _ => exact hopen

/-- If there is nothing to read from an open pipe, the producer does not wait. -/
theorem not_waits_of_read {n : Nat} {w w' : Working Layer Unit} (hs : w.Sane)
    (hr : w.read n = (none, w')) : ¬ w.Waits := by
  intro hw
  obtain ⟨pipe, hpipe⟩ := Working.exists_read hr
  obtain ⟨-, hopen, hp⟩ := Pipe.eq_of_read_none hpipe
  cases hg : w.gone with
  | false => exact Working.pending_of_waits hw hg hp
  | true =>
    obtain ⟨k, hk⟩ := hs.exists_closing hg
    cases hopen.symm.trans hk

theorem inevitable_joining {e : Option LayerError} {t : Tree} {w : Working Layer Unit}
    (h : Sound x result rest ⟨w, .joining e t⟩) :
    Inevitable Streaming.turn some Done ⟨w, .joining e t⟩ := by
  refine inevitable_of_stage (P := fun w => Sound x result rest ⟨w, .joining e t⟩)
    (fun _ h => h.sane) (fun _ h => h.produce) (fun w h => ?_) h
  obtain ⟨hs, hclosed, -⟩ := h
  cases hf : w.finish? with
  | some r =>
    refine .inr (.reached ?_)
    unfold apply
    dsimp only
    rw [hf]
    cases e with
    | some e => exact ⟨_, _, rfl⟩
    | none =>
      obtain ⟨outcome, layer⟩ := r
      cases outcome <;> exact ⟨_, _, rfl⟩
  | none =>
    left
    constructor
    · unfold apply
      dsimp only
      rw [hf]
    · intro hw
      cases hg : w.gone with
      | false =>
        have hclosed : w.filtered.pipe.isClosed = true := hclosed
        unfold Pipe.isClosed at hclosed
        rw [open_of_waits hw hg] at hclosed
        cases hclosed
      | true =>
        have hsome := hs.isSome_finish? hg
        rw [hf] at hsome
        cases hsome

theorem inevitable_closing {e : LayerError} {t : Tree} {w : Working Layer Unit}
    (h : Sound x result rest ⟨w, .closing e t⟩) :
    Inevitable Streaming.turn some Done ⟨w, .closing e t⟩ := by
  refine inevitable_of_stage (P := fun w => Sound x result rest ⟨w, .closing e t⟩)
    (fun _ h => h.sane) (fun _ h => h.produce) (fun _ h => .inr ?_) h
  exact inevitable_joining h.apply

theorem inevitable_canceling {e : LayerError} {t : Tree} {w : Working Layer Unit}
    (h : Sound x result rest ⟨w, .canceling e t⟩) :
    Inevitable Streaming.turn some Done ⟨w, .canceling e t⟩ := by
  refine inevitable_of_stage (P := fun w => Sound x result rest ⟨w, .canceling e t⟩)
    (fun _ h => h.sane) (fun _ h => h.produce) (fun _ h => .inr ?_) h
  exact inevitable_closing h.apply

theorem inevitable_draining {t : Tree} {w : Working Layer Unit}
    (h : Sound x result rest ⟨w, .draining t⟩) :
    Inevitable Streaming.turn some Done ⟨w, .draining t⟩ := by
  obtain ⟨more, hmore⟩ := h.stands.1
  -- each read that returns bytes leaves fewer of them
  induction hk : more.length using Nat.strongRecOn generalizing w more with
  | ind k ih =>
    refine inevitable_of_stage
      (P := fun w => Sound x result rest ⟨w, .draining t⟩ ∧ w.filtered.Due result rest more)
      (fun _ h => h.1.sane) (fun w h => ⟨h.1.produce, ?_⟩) (fun w h => ?_) ⟨h, hmore⟩
    · rcases h.1.sane.filtered_produce with e | e
      · rw [e]
        exact h.2
      · rw [e]
        exact h.2.turn
    · obtain ⟨h, hdue⟩ := h
      have hnext : Sound x result rest (apply ⟨w, .draining t⟩) := h.apply
      unfold apply at hnext ⊢
      dsimp only at hnext ⊢
      cases hr : w.read Layer.drainSize with
      | mk r w' =>
        rw [hr] at hnext
        cases r with
        | none => exact .inl ⟨rfl, not_waits_of_read h.sane hr⟩
        | some r =>
          right
          cases r with
          | error f => exact inevitable_canceling hnext
          | ok b =>
            dsimp only at hnext ⊢
            by_cases hb : b = []
            · rw [if_pos hb] at hnext ⊢
              exact inevitable_joining hnext
            · rw [if_neg hb] at hnext ⊢
              obtain ⟨pipe, hpipe, hw', -⟩ := exists_read h.sane hr
              obtain ⟨later, hsplit, hlater⟩ := hdue.read hpipe
              have hlt := List.length_pos_iff.mpr hb
              have hlen := congrArg List.length hsplit
              rw [List.length_append] at hlen
              refine ih later.length (by omega) hnext later ?_ rfl
              rw [hw']
              exact hlater

theorem inevitable_applying {p : Relay (Except LayerError Nat × Tree)} {w : Working Layer Unit}
    (h : Sound x result rest ⟨w, .applying p⟩) :
    Inevitable Streaming.turn some Done ⟨w, .applying p⟩ := by
  induction p generalizing w with
  | done o =>
    refine inevitable_of_stage (P := fun w => Sound x result rest ⟨w, .applying (.done o)⟩)
      (fun _ h => h.sane) (fun _ h => h.produce) (fun w h => .inr ?_) h
    have hnext : Sound x result rest (apply ⟨w, .applying (.done o)⟩) := h.apply
    obtain ⟨outcome, t⟩ := o
    cases outcome with
    | ok n => exact inevitable_draining hnext
    | error e => exact inevitable_canceling hnext
  | read n patient next ih =>
    refine inevitable_of_stage
      (P := fun w => Sound x result rest ⟨w, .applying (.read n patient next)⟩)
      (fun _ h => h.sane) (fun _ h => h.produce) (fun w h => ?_) h
    have hnext : Sound x result rest (apply ⟨w, .applying (.read n patient next)⟩) := h.apply
    unfold apply at hnext ⊢
    dsimp only at hnext ⊢
    cases hr : w.read n with
    | mk r w' =>
      rw [hr] at hnext
      cases r with
      | none => exact .inl ⟨rfl, not_waits_of_read h.sane hr⟩
      | some r => exact .inr (ih r hnext)
  | write b next ih =>
    refine inevitable_of_stage
      (P := fun w => Sound x result rest ⟨w, .applying (.write b next)⟩)
      (fun _ h => h.sane) (fun _ h => h.produce) (fun _ h => .inr ?_) h
    exact ih (.ok ()) h.apply

end Streaming

/-! ## One after the other, and both at once -/

/-- Whatever pieces the output of a filter comes in, applying it comes to the same. -/
theorem yields_applyArchive (root : PathParts) (t : Tree) (written : Bytes) (fault : Option Fault) :
    (Extract.applyArchive root t).Yields fault written
      ((Extract.applyArchive root t).run (⟨[written], fault⟩ : Batch)).result := by
  intro pieces _ hflat
  refine Extract.applyArchive_eq root t ⟨?_, rfl⟩
  show pieces.flatten = [written].flatten
  rw [hflat, List.flatten_singleton]

theorem due_start (start : String) (layer : Layer) :
    let o := (Filter.produce (stripDecision (Bytes.ofText start)) ()).run layer
    (Filtered.start layer (stripDecision (Bytes.ofText start)) ()).Due o.result ⟨o.rest, none⟩
      o.written := by
  have h : (Filtered.start layer (stripDecision (Bytes.ofText start)) ()).Due _ _ _ :=
    Filtered.due_start
  rwa [Relay.run_cancelable] at h

theorem Streaming.sound_start (start : String) (root : PathParts) (layer : Layer) (t : Tree) :
    let o := (Filter.produce (stripDecision (Bytes.ofText start)) ()).run layer
    (Streaming.start start root layer t).Sound
      ((Extract.applyArchive root t).run (⟨[o.written], faultOf o.result.1⟩ : Batch)).result
      o.result ⟨o.rest, none⟩ :=
  ⟨Working.sane_start _ _, _, due_start start layer, yields_applyArchive root t _ _⟩

/-- Letting the filter go on as far as it can in front of every read comes to the same. -/
theorem applyMoved_eq (start : String) (root : PathParts) (layer : Layer) (t : Tree) :
    applyMoved start root layer t = applyInTurn start root layer t := by
  have hrun := (due_start start layer).run (yields_applyArchive root t _ _)
  unfold applyMoved applyInTurn
  dsimp only at hrun ⊢
  generalize (Filter.produce (stripDecision (Bytes.ofText start)) ()).run layer = o at hrun ⊢
  generalize (Extract.applyArchive root t).run
    (Filtered.start layer (stripDecision (Bytes.ofText start)) ()) = applied at hrun ⊢
  obtain ⟨hresult, more, hdue⟩ := hrun
  obtain ⟨hfault, hfinish⟩ := hdue.drain
  rw [← hresult, hfault, hfinish]
  obtain ⟨⟨outcome, t'⟩, _, rest⟩ := applied
  cases outcome with
  | error e => rfl
  | ok n =>
    cases o.result.1 with
    | ok stats => rfl
    | error f => rfl

theorem tree_described (x : Except LayerError Nat × Tree) (r : Except Fault FilterStats)
    (layer : Layer) : (described x r layer).2 = x.2 := by
  obtain ⟨outcome, t⟩ := x
  cases outcome <;> cases r <;> rfl

/-- What is returned in the end describes the whole content of the blob, whatever the filter left
of it. -/
theorem exists_content_of_applyInTurn {start : String} {root : PathParts} {t : Tree}
    {c : Compression} {blob : Bytes} {u : Unpacked} (hu : c.unpacked blob = .ok u) {d : Descriptor}
    (h : (applyInTurn start root (Layer.ofStream u) t).1 = .ok d) :
    ∃ stream, c.content? blob = some stream ∧ d = Layer.describe stream := by
  have haccounts := (Layer.keeps_accounts u).run
    (Filter.produce (stripDecision (Bytes.ofText start)) ())
    (Layer.accounts_ofStream (Compression.unbroken_of_unpacked hu))
  unfold applyInTurn described at h
  dsimp only at h
  split at h
  · cases h
  · cases h
  · obtain ⟨stream, hstream, hd⟩ := Layer.exists_of_complete haccounts h
    exact ⟨stream, (Compression.content?_eq hu).trans hstream, hd⟩

/-- Applying a layer while it is filtered comes to what filtering it first and applying the
outcome then comes to: to the same tree, and to the same descriptor or fault.  This holds however
the filter and the other party take turns, and if both have turns again and again, they come to
that.  The tree is the one after applying all that the filter has written, even if it fails in
the end; how the output is cut on its way makes no difference; and the descriptor is that of all
that the blob of the layer decompresses to. -/
theorem streaming_eq_batch (start : String) (root : PathParts) (layer : Layer) (t : Tree) :
    let filtered := (Filter.produce (stripDecision (Bytes.ofText start)) ()).run layer
    let fault := faultOf filtered.result.1
    let s₀ := Streaming.start start root layer t
    applyMoved start root layer t = applyInTurn start root layer t
      ∧ (∀ (turns : List Filter.Side) outcome t',
        (turns.foldl Streaming.turn s₀).stage = .finished outcome t' →
          (outcome, t') = applyInTurn start root layer t)
      ∧ (∀ schedule, Fair some schedule → ∃ m, (along Streaming.turn schedule s₀ m).stage
        = .finished (applyInTurn start root layer t).1 (applyInTurn start root layer t).2)
      ∧ (∀ pieces : List Bytes, pieces.flatten = filtered.written →
        let applied := (Extract.applyArchive root t).run (⟨pieces, fault⟩ : Batch)
        (applyInTurn start root layer t).2 = applied.result.2
          ∧ applyInTurn start root layer t
            = described applied.result filtered.result.1 filtered.rest)
      ∧ ∀ (c : Compression) (blob : Bytes) (u : Unpacked) (d : Descriptor),
        c.unpacked blob = .ok u → layer = Layer.ofStream u →
          (applyInTurn start root layer t).1 = .ok d →
            ∃ stream, c.content? blob = some stream ∧ d = Layer.describe stream := by
  intro filtered fault s₀
  have hsound := Streaming.sound_start start root layer t
  have hfinished : ∀ (turns : List Filter.Side) outcome t',
      (turns.foldl Streaming.turn s₀).stage = .finished outcome t' →
        (outcome, t') = applyInTurn start root layer t := by
    intro turns outcome t' hstage
    have hstands := (hsound.turns turns).stands
    rw [show (turns.foldl Streaming.turn (Streaming.start start root layer t)).stage = _
      from hstage] at hstands
    exact hstands.symm
  refine ⟨applyMoved_eq start root layer t, hfinished, fun schedule hfair => ?_,
    fun pieces hflat => ?_, ?_⟩
  · obtain ⟨m, -, outcome, t', hstage⟩ :=
      (Streaming.inevitable_applying hsound).exists_along hfair
        (show along Streaming.turn schedule s₀ 0 = _ from rfl)
    refine ⟨m, ?_⟩
    rw [hstage, ← hfinished _ outcome t' hstage]
  · have hbatch : Batch.Alike ⟨pieces, fault⟩ ⟨[filtered.written], fault⟩ := by
      refine ⟨?_, rfl⟩
      show pieces.flatten = [filtered.written].flatten
      rw [hflat, List.flatten_singleton]
    have happlied := Extract.applyArchive_eq root t hbatch
    have hdescribed : applyInTurn start root layer t = described
        ((Extract.applyArchive root t).run (⟨pieces, fault⟩ : Batch)).result
        filtered.result.1 filtered.rest := by
      rw [happlied]
      rfl
    refine ⟨?_, hdescribed⟩
    rw [hdescribed, tree_described]
  · rintro c blob u d hu rfl hd
    exact exists_content_of_applyInTurn hu hd

/-! ## A layer that ends in the middle of a header -/

/-- A file below `Files`, and the front of a header behind it. -/
def brokenLayer : Layer :=
  Layer.ofStream (.plain (Source.ofBytes
    ((((Tar.Header.newGnu.put .name (ascii "Files/a")).setSize 1).setKind .regular).setChecksum.bytes
      ++ (ascii "x" ++ Bytes.padding 1) ++ ascii "cut")))

/-- A directory to apply it to. -/
def oneDirectory : Tree where
  nodes := [([], .directory 0o755), ([ascii "root"], .directory 0o755)]

/-- The two parties have every other turn. -/
def everyOther (n : Nat) : Filter.Side := if n % 2 = 0 then .producer else .consumer

theorem fair_everyOther : Fair some everyOther := by
  intro who n
  cases who with
  | producer => exact ⟨2 * n, by omega, by rw [everyOther, if_pos (by omega)]⟩
  | consumer => exact ⟨2 * n + 1, by omega, by rw [everyOther, if_neg (by omega)]⟩

/-- The text of the error that was returned. -/
def messageOf (o : Except LayerError Descriptor × Tree) : Option String :=
  match o.1 with
  | .error e => some e.message
  | .ok _ => none

/-- What a file of the tree holds. -/
def dataAt (o : Except LayerError Descriptor × Tree) (l : Location) : Option Bytes :=
  match o.2.lookup l with
  | some (.file f) => some f.data
  | _ => none

theorem exists_error_of_messageOf {o : Except LayerError Descriptor × Tree} {text : String}
    (h : messageOf o = some text) : ∃ e, o.1 = .error e ∧ e.message = text := by
  unfold messageOf at h
  split at h
  · rename_i e he
    exact ⟨e, he, Option.some.inj h⟩
  · cases h

theorem exists_file_of_dataAt {o : Except LayerError Descriptor × Tree} {l : Location}
    {data : Bytes} (h : dataAt o l = some data) :
    ∃ f, o.2.lookup l = some (.file f) ∧ f.data = data := by
  unfold dataAt at h
  split at h
  · rename_i f hf
    exact ⟨f, hf, Option.some.inj h⟩
  · cases h

theorem applyInTurn_brokenLayer :
    (∃ e, (applyInTurn "Files/" [ascii "root"] brokenLayer oneDirectory).1 = .error e
        ∧ e.message = "failed to read entire block")
      ∧ ∃ f, (applyInTurn "Files/" [ascii "root"] brokenLayer oneDirectory).2.lookup
          [ascii "root", ascii "a"] = some (.file f) ∧ f.data = ascii "x" :=
  ⟨exists_error_of_messageOf (by decide +kernel), exists_file_of_dataAt (by decide +kernel)⟩

/-- The fault of the filter is what comes of it, and the file is there. -/
theorem streaming_eq_batch_brokenLayer :
    Fair some everyOther ∧ ∃ m e t f,
      (along Streaming.turn everyOther
        (Streaming.start "Files/" [ascii "root"] brokenLayer oneDirectory) m).stage
          = .finished (.error e) t
        ∧ e.message = "failed to read entire block"
        ∧ t.lookup [ascii "root", ascii "a"] = some (.file f) ∧ f.data = ascii "x" := by
  obtain ⟨⟨e, he, htext⟩, f, hf, hdata⟩ := applyInTurn_brokenLayer
  obtain ⟨-, -, hfair, -⟩ :=
    streaming_eq_batch "Files/" [ascii "root"] brokenLayer oneDirectory
  obtain ⟨m, hm⟩ := hfair everyOther fair_everyOther
  rw [he] at hm
  exact ⟨fair_everyOther, m, e, _, f, hm, htext, hf, hdata⟩

end Applier
end ContainerLayer
