import ContainerLayer.Proofs.Stream.Changes
import ContainerLayer.Proofs.Stream.Draining
import ContainerLayer.Stream.Cancelable
import Mathlib.Logic.Function.Iterate

/-
Loops that try again.

A loop makes one call after the other, and makes the same call again whenever it was interrupted.
Other parties may go on in between.  Such a loop never ends at an end that hands out an
interrupted fault as it is (`Loop.runs_forever`).  A shared fault is not interrupted any more,
however often it is handed over, so at an end that was failed by one of its parties every loop
comes to its end with the first call.
-/

namespace ContainerLayer

theorem FaultKind.lasting_eq (k : FaultKind) :
    k.lasting = if k = .interrupted then .other else k := by
  unfold lasting
  split
  · rfl
  · rename_i h
    rw [if_neg h]

namespace Fault

theorem text_iterate_shared (n : Nat) (e : Fault) : (shared^[n] e).text = e.text := by
  induction n with
  | zero => rfl
  | succ n ih => rw [Function.iterate_succ_apply', text_shared, ih]

/-- The first time a fault is handed over settles its kind. -/
theorem kind_iterate_shared (n : Nat) (e : Fault) :
    (shared^[n + 1] e).kind = e.kind.lasting := by
  induction n with
  | zero => rfl
  | succ n ih =>
    rw [Function.iterate_succ_apply', kind_shared, ih, FaultKind.lasting_lasting]

end Fault

namespace Retrying

variable {σ ℓ κ α ρ : Type}

/-- A loop by what it does next: `ask` is the call it makes, and `next` how it goes on, or what
it comes to, once the call has succeeded. -/
structure Loop (ℓ κ α ρ : Type) where
  ask : ℓ → κ
  next : ℓ → α → ℓ ⊕ Except Fault ρ

/-- Something that calls are made of.  A call that comes to nothing yet has to wait. -/
structure Port (σ κ α : Type) where
  call : κ → σ → Option (Except Fault α) × σ
  /-- What its other parties do with it. -/
  Others : σ → σ → Prop

inductive Stage (ℓ ρ : Type) where
  | under (l : ℓ)
  | over (r : Except Fault ρ)

namespace Loop

variable (L : Loop ℓ κ α ρ) (P : Port σ κ α)

/-- How a loop goes on from the outcome of its call. -/
def step (l : ℓ) : Option (Except Fault α) → Stage ℓ ρ
  | none => .under l
  | some (.ok a) =>
    match L.next l a with
    | .inl l => .under l
    | .inr r => .over r
  | some (.error f) => if f.isInterrupted then .under l else .over (.error f)

def turn (l : ℓ) (s : σ) : Stage ℓ ρ × σ :=
  (L.step l (P.call (L.ask l) s).1, (P.call (L.ask l) s).2)

/-- What can become of a loop by `k` calls, while other parties go on. -/
inductive Runs : (k : Nat) → Stage ℓ ρ → σ → Stage ℓ ρ → σ → Prop
  | rest {g : Stage ℓ ρ} {s : σ} : Runs 0 g s g s
  | turn {l : ℓ} {s s' : σ} {k : Nat} {g : Stage ℓ ρ}
    (h : Runs k (L.turn P l s).1 (L.turn P l s).2 g s') : Runs (k + 1) (.under l) s g s'
  | others {g g' : Stage ℓ ρ} {s s' s'' : σ} {k : Nat} (ho : P.Others s s')
    (h : Runs k g s' g' s'') : Runs k g s g' s''

/-- Whatever the other parties do, the next call is the last one, and the fault that it ends the
loop with is one of those in `I`, handed out. -/
def EndsAtOnce (I : Fault → Prop) (l : ℓ) (s : σ) : Prop :=
  ∀ k g s', L.Runs P k (.under l) s g s' →
    k = 0 ∧ g = .under l ∧ (∃ f, I f ∧ (L.turn P l s').1 = .over (.error (.shared f)))
      ∨ k = 1 ∧ ∃ f, I f ∧ g = .over (.error (.shared f))

variable {L P}

/-- An end that hands out an interrupted fault as it is keeps a loop going for ever. -/
theorem runs_forever {l : ℓ} {s : σ} {f : Fault} (hf : f.isInterrupted = true)
    (hcall : P.call (L.ask l) s = (some (.error f), s)) (k : Nat) :
    L.Runs P k (.under l) s (.under l) s := by
  have hturn : L.turn P l s = (.under l, s) := by
    rw [turn, hcall, step, if_pos hf]
  induction k with
  | zero => exact .rest
  | succ k ih =>
    refine .turn ?_
    rwa [hturn]

theorem Runs.of_over {k : Nat} {r : Except Fault ρ} {s s' : σ} {g : Stage ℓ ρ}
    (h : L.Runs P k (.over r) s g s') : k = 0 ∧ g = .over r := by
  generalize hg : Stage.over r = g₀ at h
  induction h with
  | rest => exact ⟨rfl, rfl⟩
  | turn => cases hg
  | others ho h ih => exact ih hg

end Loop

/-- The states `Q` of a port are poisoned: every call fails with one of the faults in `I`, handed
out, and other parties can do nothing about it. -/
structure Port.Poisoned (P : Port σ κ α) (I : Fault → Prop) (Q : σ → Prop) : Prop where
  call : ∀ a s, Q s → ∃ f, I f ∧ (P.call a s).1 = some (.error (.shared f))
  others : ∀ s s', Q s → P.Others s s' → Q s'

theorem Port.Poisoned.endsAtOnce {P : Port σ κ α} {I : Fault → Prop} {Q : σ → Prop}
    (h : P.Poisoned I Q) (L : Loop ℓ κ α ρ) (l : ℓ) {s : σ} (hs : Q s) :
    L.EndsAtOnce P I l s := by
  have hturn : ∀ s, Q s → ∃ f, I f ∧ (L.turn P l s).1 = .over (.error (.shared f)) := by
    intro s hs
    obtain ⟨f, hf, hcall⟩ := h.call (L.ask l) s hs
    refine ⟨f, hf, ?_⟩
    rw [Loop.turn, hcall, Loop.step, if_neg (by rw [Fault.isInterrupted_shared]; decide)]
  -- on the run, since what other parties do in front of the call leaves the port poisoned
  intro k g s' hruns
  generalize hg : Stage.under l = g₀ at hruns
  induction hruns with
  | rest => exact .inl ⟨rfl, rfl, hturn _ hs⟩
  | turn hrest =>
    cases hg
    obtain ⟨f, hf, hover⟩ := hturn _ hs
    rw [hover] at hrest
    obtain ⟨rfl, rfl⟩ := hrest.of_over
    exact .inr ⟨rfl, f, hf, rfl⟩
  | others ho _ ih => exact ih (h.others _ _ hs ho) hg

/-! ## The ends -/

/-- Reads of a reader. -/
def reading [Reader σ] (others : σ → σ → Prop) : Port σ Nat Bytes where
  call n s := (some (Reader.read n s).1, (Reader.read n s).2)
  Others := others

/-- Reads of a reader that other parties cancel with the faults in `I`. -/
def canceling [Reader σ] (I : Fault → Prop) : Port (Cancelable σ) Nat Bytes :=
  reading fun s s' => ∃ f, I f ∧ s' = s.cancel f

/-- What other parties do with a pipe, if they fail it with the faults in `I` only. -/
def Tampers (I : Fault → Prop) (p p' : Pipe) : Prop :=
  (∃ put got, p.Change put got p') ∧ ∀ f, p'.closing = some (.failed f) → I f

/-- Reads of a pipe, with room for a byte at least. -/
def pipeReading (I : Fault → Prop) : Port Pipe { n : Nat // n ≠ 0 } Bytes where
  call n p := p.read n
  Others := Tampers I

/-- Writes of some data to a pipe.  A write that is under way goes on where it was. -/
def pipeWriting (I : Fault → Prop) :
    Port (Pipe × Option Pipe.Call) { data : Bytes // data ≠ [] } Nat where
  call data s :=
    match Pipe.advance (s.2.getD (.entering data)) s.1 with
    | (.waits c, p) => (none, p, some c)
    | (.returns r, p) => (some r, p, none)
  Others s s' := Tampers I s.1 s'.1 ∧ s'.2 = s.2

section

variable {I : Fault → Prop}

theorem Tampers.failed {p p' : Pipe} (h : Tampers I p p')
    (hp : ∃ f, I f ∧ p.closing = some (.failed f)) : ∃ f, I f ∧ p'.closing = some (.failed f) := by
  obtain ⟨⟨put, got, hchange⟩, hI⟩ := h
  obtain ⟨f, -, hf⟩ := hp
  obtain ⟨-, -, g, hg⟩ := hchange.of_failed hf
  exact ⟨g, hI g hg, hg⟩

theorem poisoned_canceling [Reader σ] :
    (canceling (σ := σ) I).Poisoned I fun s => ∃ f, I f ∧ s.canceled = some f where
  call n s := by
    rintro ⟨f, hf, hs⟩
    refine ⟨f, hf, congrArg some ?_⟩
    exact congrArg Prod.fst (Cancelable.read_of_canceled hs n)
  others s s' := by
    rintro - ⟨g, hg, rfl⟩
    exact ⟨g, hg, rfl⟩

theorem poisoned_pipeReading :
    (pipeReading I).Poisoned I fun p => ∃ f, I f ∧ p.closing = some (.failed f) where
  call n p := by
    rintro ⟨f, hf, hp⟩
    exact ⟨f, hf, congrArg Prod.fst (Pipe.read_failed n.2 hp)⟩
  others p p' hp ho := ho.failed hp

/-- A write that is under way has something to do. -/
theorem poisoned_pipeWriting :
    (pipeWriting I).Poisoned I fun s =>
      (∃ f, I f ∧ s.1.closing = some (.failed f)) ∧ s.2 ≠ some (.entering []) where
  call data s := by
    rintro ⟨⟨f, hf, hp⟩, hcall⟩
    have hne : s.2.getD (.entering data) ≠ .entering [] := by
      cases hunder : s.2 with
      | none => exact fun e => data.2 (Pipe.Call.entering.inj e)
      | some c => exact fun e => hcall (hunder.trans (congrArg some e))
    refine ⟨f, hf, ?_⟩
    rw [pipeWriting]
    dsimp only
    rw [Pipe.advance_failed hne hp]
  others s s' := by
    rintro ⟨hp, hcall⟩ ⟨ho, hsame⟩
    exact ⟨ho.failed hp, hsame ▸ hcall⟩

end

/-! ## The loops -/

/-- Copying: reads until the end, puts each chunk where it belongs, and says in the end what came
of it. -/
def copying {ω : Type} (ask : κ) (put : Bytes → ω → Except Fault ω) (finish : ω → ρ) :
    Loop ω κ Bytes ρ where
  ask _ := ask
  next w b :=
    if b = [] then .inr (.ok (finish w))
    else
      match put b w with
      | .ok w => .inl w
      | .error f => .inr (.error f)

/-- Reading to the end. -/
def gathering (ask : κ) : Loop (List Bytes) κ Bytes Bytes :=
  copying ask (fun b acc => .ok (b :: acc)) fun acc => acc.reverse.flatten

/-- Writing all of some data. -/
def writingAll : Loop { data : Bytes // data ≠ [] } { data : Bytes // data ≠ [] } Nat Unit where
  ask left := left
  next left n :=
    if n = 0 then .inr (.error (.raised .writeZero "failed to write whole buffer"))
    else if h : left.1.length ≤ n then .inr (.ok ())
    else .inl ⟨left.1.drop n, mt List.drop_eq_nil_iff.mp h⟩

theorem drainOnto_runs [Reader σ] [Finite σ] (others : σ → σ → Prop) (n : Nat)
    (acc : List Bytes) (s : σ) :
    ∃ k, (gathering n).Runs (reading others) k (.under acc) s
      (.over (Reader.drainOnto n acc s).result) (Reader.drainOnto n acc s).rest := by
  have hturn : ∀ {acc : List Bytes} {s s' : σ} {r : Except Fault Bytes}, Reader.read n s = (r, s') →
      (gathering n).turn (reading others) acc s = ((gathering n).step acc (some r), s') := by
    intro acc s s' r hread
    show ((gathering n).step acc (some (Reader.read n s).1), (Reader.read n s).2) = _
    rw [hread]
  fun_induction Reader.drainOnto n acc s with
  | case1 acc s s' hread =>
    refine ⟨1, .turn ?_⟩
    rw [hturn hread]
    exact .rest
  | case2 acc s b s' hread hb _ ih =>
    obtain ⟨k, hruns⟩ := ih
    have hstep : (gathering n).step acc (some (.ok b)) = .under (b :: acc) := by
      simp only [Loop.step, gathering, copying, if_neg hb]
    refine ⟨k + 1, .turn ?_⟩
    rwa [hturn hread, hstep]
  | case3 acc s f s' hread hf _ ih =>
    obtain ⟨k, hruns⟩ := ih
    refine ⟨k + 1, .turn ?_⟩
    rwa [hturn hread, Loop.step, if_pos hf]
  | case4 acc s f s' hread hf =>
    refine ⟨1, .turn ?_⟩
    rw [hturn hread, Loop.step, if_neg hf]
    exact .rest

/-- Writes to a pipe never fail with an interruption. -/
theorem isInterrupted_of_advance {c : Pipe.Call} {p p' : Pipe} {f : Fault}
    (h : Pipe.advance c p = (.returns (.error f), p')) : f.isInterrupted = false := by
  obtain ⟨k, hk, hc⟩ : ∃ k, p.closing = some k ∧ c ≠ .entering [] := by
    cases Pipe.looks_of_eq h with
    | fails f hk hc => exact ⟨_, hk, hc⟩
  cases k with
  | failed g =>
    rw [Pipe.advance_failed hc hk] at h
    cases h
    exact Fault.isInterrupted_shared g
  | clean =>
    cases c with
    | sent n =>
      rw [Pipe.advance_sent_clean hk] at h
      cases h
    | entering data =>
      rw [Pipe.advance_entering_closed (fun e => hc (e ▸ rfl)) hk] at h
      cases h
      rfl

section WritingAll

variable {I : Fault → Prop} {left : Bytes} {hleft : left ≠ []} {c c' : Pipe.Call} {p p' : Pipe}
  {under : Option Pipe.Call}

theorem turn_writingAll_waits (hunder : under.getD (.entering left) = c)
    (h : Pipe.advance c p = (.waits c', p')) :
    writingAll.turn (pipeWriting I) ⟨left, hleft⟩ (p, under)
      = (.under ⟨left, hleft⟩, p', some c') := by
  simp only [Loop.turn, pipeWriting, writingAll, hunder, h, Loop.step]

theorem turn_writingAll_returns {r : Except Fault Nat}
    (hunder : under.getD (.entering left) = c) (h : Pipe.advance c p = (.returns r, p')) :
    writingAll.turn (pipeWriting I) ⟨left, hleft⟩ (p, under)
      = (writingAll.step ⟨left, hleft⟩ (some r), p', none) := by
  simp only [Loop.turn, pipeWriting, writingAll, hunder, h]

end WritingAll

/-- Where writes in a row have come to, as a stage of the loop. -/
def Reached : Pipe.Progress.All × Pipe → Stage { data : Bytes // data ≠ [] } Unit →
    Pipe × Option Pipe.Call → Prop
  | (.waits left c, p), g, s => ∃ h : left ≠ [], g = .under ⟨left, h⟩ ∧ s = (p, some c)
  | (.returns r, p), g, s => g = .over r ∧ s = (p, none)

theorem advanceAll_runs (I : Fault → Prop) (left : Bytes) (hleft : left ≠ []) (c : Pipe.Call)
    (p : Pipe) (under : Option Pipe.Call) (hunder : under.getD (.entering left) = c) :
    ∃ k g s, writingAll.Runs (pipeWriting I) k (.under ⟨left, hleft⟩) (p, under) g s
      ∧ Reached (Pipe.advanceAll left c p) g s := by
  fun_induction Pipe.advanceAll left c p generalizing under with
  | case1 left c p c' p' h =>
    refine ⟨1, _, _, .turn .rest, hleft, ?_⟩
    rw [turn_writingAll_waits hunder h]
    exact ⟨rfl, rfl⟩
  | case2 left c p f p' h =>
    refine ⟨1, _, _, .turn .rest, ?_⟩
    rw [turn_writingAll_returns hunder h, Loop.step,
      if_neg (by rw [isInterrupted_of_advance h]; decide)]
    exact ⟨rfl, rfl⟩
  | case3 left c p p' h =>
    refine ⟨1, _, _, .turn .rest, ?_⟩
    rw [turn_writingAll_returns hunder h]
    exact ⟨rfl, rfl⟩
  | case4 left c p n p' h hn hle =>
    refine ⟨1, _, _, .turn .rest, ?_⟩
    rw [turn_writingAll_returns hunder h]
    simp only [Loop.step, writingAll, if_neg hn, dif_pos hle]
    exact ⟨rfl, rfl⟩
  | case5 left c p n p' h hn hle ih =>
    have hrest : left.drop n ≠ [] := mt List.drop_eq_nil_iff.mp hle
    -- the write of what is left begins anew, while none is under way
    obtain ⟨k, g, s, hruns, hreached⟩ := ih hrest none rfl
    refine ⟨k + 1, g, s, .turn ?_, hreached⟩
    rw [turn_writingAll_returns hunder h]
    simpa only [Loop.step, writingAll, if_neg hn, dif_neg hle] using hruns

theorem writeAll_runs (I : Fault → Prop) (data : Bytes) (hdata : data ≠ []) (p : Pipe) :
    ∃ k g s, writingAll.Runs (pipeWriting I) k (.under ⟨data, hdata⟩) (p, none) g s
      ∧ Reached (Pipe.writeAll data p) g s := by
  rw [Pipe.writeAll, if_neg hdata]
  exact advanceAll_runs I data hdata (.entering data) p none rfl

/-- However often a fault is handed over, it keeps its text, and it keeps its kind unless that
says that something was interrupted.  So no loop tries again at an end that was failed: its next
call is its last one, whatever fault the end was failed with, and whatever faults replace that.
Reading to the end and writing all of some data are such loops. -/
theorem shared_endsAtOnce :
    (∀ (e : Fault) (n : Nat), let handed := Fault.shared^[n + 1] e
      handed.text = e.text ∧ handed.kind ≠ .interrupted
        ∧ handed.kind = if e.kind = .interrupted then .other else e.kind)
    ∧ (∀ (I : Fault → Prop) (f : Fault), I f → ∀ {ℓ ρ : Type} (l : ℓ),
      (∀ {σ : Type} [Reader σ] (L : Loop ℓ Nat Bytes ρ) (s : Cancelable σ),
        s.canceled = some f → L.EndsAtOnce (canceling I) I l s)
      ∧ (∀ (L : Loop ℓ { n : Nat // n ≠ 0 } Bytes ρ) (p : Pipe),
        p.closing = some (.failed f) → L.EndsAtOnce (pipeReading I) I l p)
      ∧ ∀ (L : Loop ℓ { data : Bytes // data ≠ [] } Nat ρ) (p : Pipe) (under : Option Pipe.Call),
        p.closing = some (.failed f) → under ≠ some (.entering []) →
          L.EndsAtOnce (pipeWriting I) I l (p, under))
    ∧ (∀ {σ : Type} [Reader σ] [Finite σ] (others : σ → σ → Prop) (n : Nat) (acc : List Bytes)
      (s : σ), ∃ k, (gathering n).Runs (reading others) k (.under acc) s
        (.over (Reader.drainOnto n acc s).result) (Reader.drainOnto n acc s).rest)
    ∧ ∀ (I : Fault → Prop) (data : Bytes) (hdata : data ≠ []) (p : Pipe), ∃ k g s,
      writingAll.Runs (pipeWriting I) k (.under ⟨data, hdata⟩) (p, none) g s
        ∧ Reached (Pipe.writeAll data p) g s := by
  refine ⟨fun e n => ?_, fun I f hf ℓ ρ l => ⟨fun L s hs => ?_, fun L p hp => ?_,
    fun L p under hp hunder => ?_⟩, drainOnto_runs, writeAll_runs⟩
  · intro handed
    have hkind : handed.kind = e.kind.lasting := Fault.kind_iterate_shared n e
    refine ⟨Fault.text_iterate_shared (n + 1) e, ?_, ?_⟩
    · rw [hkind]
      exact FaultKind.lasting_ne_interrupted e.kind
    · rw [hkind, FaultKind.lasting_eq]
  · exact poisoned_canceling.endsAtOnce L l ⟨f, hf, hs⟩
  · exact poisoned_pipeReading.endsAtOnce L l ⟨f, hf, hp⟩
  · exact poisoned_pipeWriting.endsAtOnce L l ⟨⟨f, hf, hp⟩, hunder⟩

/-- A reader that was canceled with an interruption. -/
example (s : Source) :
    let canceled := Cancelable.cancel (.ofKind .interrupted) ⟨s, none⟩
    (gathering 8).turn (canceling fun _ => True) [] canceled
      = (.over (.error (.shared (.ofKind .interrupted))), canceled) := rfl

end Retrying
end ContainerLayer
