import ContainerLayer.Proofs.Stream.Endings
import ContainerLayer.Proofs.Stream.Giving

/-
Programs that come to their end.

`w.Plays c a c' out` says that `w`, started at the spot `c`, ends at `c'` with the result
`a` and has written `out`.  A spot is a position with a reader.  A program that only reads,
and reads in ways that do not depend on where reads are cut, plays on every reader as it
does on `Whole`, a reader without any cuts (`Reads`).
-/

namespace ContainerLayer

/-- A position on a tape with a reader of what follows. -/
structure Spot (σ : Type) where
  position : Nat
  reader : σ

namespace Tape

variable {α β σ : Type} [Reader σ]

/-- Started at `c`, the program ends at `c'` with `a`, and has written `out`. -/
def Plays (w : Tape α) (c : Spot σ) (a : α) (c' : Spot σ) (out : Bytes) : Prop :=
  (Relay.run (w.run c.position) c.reader).result = .ok (a, c'.position)
    ∧ (Relay.run (w.run c.position) c.reader).rest = c'.reader
    ∧ (Relay.run (w.run c.position) c.reader).written = out

variable {c c' c'' : Spot σ} {a a' : α} {b : β} {out out' : Bytes}

theorem Plays.det {w : Tape α} (h : w.Plays c a c' out) (h' : w.Plays c a' c'' out') :
    a = a' ∧ c' = c'' ∧ out = out' := by
  obtain ⟨h₁, h₂, h₃⟩ := h
  obtain ⟨k₁, k₂, k₃⟩ := h'
  have e := h₁.symm.trans k₁
  cases c'
  cases c''
  simp only [Except.ok.injEq, Prod.mk.injEq] at e
  exact ⟨e.1, by rw [Spot.mk.injEq]; exact ⟨e.2, h₂.symm.trans k₂⟩, h₃.symm.trans k₃⟩

theorem plays_pure_iff : (pure a : Tape α).Plays c a' c' out ↔ a' = a ∧ c' = c ∧ out = [] := by
  constructor
  · intro h
    obtain ⟨h₁, h₂, h₃⟩ := h
    cases c
    cases c'
    cases h₁
    cases h₂
    cases h₃
    exact ⟨rfl, rfl, rfl⟩
  · intro h
    obtain ⟨rfl, rfl, rfl⟩ := h
    exact ⟨rfl, rfl, rfl⟩

theorem plays_pure (a : α) (c : Spot σ) : (pure a : Tape α).Plays c a c [] :=
  plays_pure_iff.mpr ⟨rfl, rfl, rfl⟩

theorem not_plays_throw {f : Fault} : ¬ (throw f : Tape α).Plays c a c' out := by
  intro h
  obtain ⟨h, _⟩ := h
  cases h

theorem written_runOnto (acc : List Bytes) (p : Relay α) (s : σ) :
    (Relay.runOnto acc p s).written = acc.reverse.flatten ++ (p.run s).written := by
  rw [Relay.runOnto_eq]
  simp [Relay.Outcome.written]

/-- A program in two steps plays as the one and then the other. -/
theorem plays_bind_iff {w : Tape α} {f : α → Tape β} :
    (w >>= f).Plays c b c'' out ↔
      ∃ a c' o₁ o₂, w.Plays c a c' o₁ ∧ (f a).Plays c' b c'' o₂ ∧ out = o₁ ++ o₂ := by
  unfold Plays
  rw [run_bind, Relay.run_bind]
  have hw : ∀ o₁ o₂ : List Bytes, (o₂ ++ o₁).reverse.flatten
      = o₁.reverse.flatten ++ o₂.reverse.flatten := by simp
  constructor
  · intro h
    obtain ⟨h₁, h₂, h₃⟩ := h
    cases hr : (Relay.run (w.run c.position) c.reader).result with
    | error k =>
      rw [hr] at h₁
      cases h₁
    | ok r =>
      obtain ⟨a, position⟩ := r
      rw [hr] at h₁ h₂ h₃
      refine ⟨a, ⟨position, (Relay.run (w.run c.position) c.reader).rest⟩, _, _, ⟨rfl, rfl, rfl⟩,
        ⟨h₁, h₂, rfl⟩, ?_⟩
      rw [← h₃]
      exact hw _ _
  · intro h
    obtain ⟨a, c', o₁, o₂, ⟨h₁, h₂, h₃⟩, ⟨k₁, k₂, k₃⟩, rfl⟩ := h
    rw [h₁, h₂]
    refine ⟨k₁, k₂, ?_⟩
    rw [← h₃, ← k₃]
    exact hw _ _

theorem Plays.bind {w : Tape α} {f : α → Tape β} {o₁ o₂ : Bytes} (h : w.Plays c a c' o₁)
    (k : (f a).Plays c' b c'' o₂) : (w >>= f).Plays c b c'' (o₁ ++ o₂) :=
  plays_bind_iff.mpr ⟨a, c', o₁, o₂, h, k, rfl⟩

/-- A first step that writes nothing. -/
theorem Plays.bind_nil {w : Tape α} {f : α → Tape β} (h : w.Plays c a c' [])
    (k : (f a).Plays c' b c'' out) : (w >>= f).Plays c b c'' out := h.bind k

/-- A first step that writes nothing is known to come to `a`. -/
theorem Plays.bind_iff {w : Tape α} {f : α → Tape β} (h : w.Plays c a c' []) :
    (w >>= f).Plays c b c'' out ↔ (f a).Plays c' b c'' out := by
  constructor
  · intro hp
    obtain ⟨a', d, o₁, o₂, h₁, h₂, rfl⟩ := plays_bind_iff.mp hp
    obtain ⟨rfl, rfl, rfl⟩ := h.det h₁
    exact h₂
  · exact h.bind_nil

theorem plays_position_iff {n : Nat} :
    position.Plays c n c' out ↔ n = c.position ∧ c' = c ∧ out = [] := by
  constructor
  · intro h
    obtain ⟨h₁, h₂, h₃⟩ := h
    cases c
    cases c'
    cases h₁
    cases h₂
    cases h₃
    exact ⟨rfl, rfl, rfl⟩
  · intro h
    obtain ⟨rfl, rfl, rfl⟩ := h
    exact ⟨rfl, rfl, rfl⟩

theorem plays_write_iff {b : Bytes} {u : Unit} :
    (write b).Plays c u c' out ↔ c' = c ∧ out = b := by
  have hb : (Relay.Outcome.written (Relay.run ((write b).run c.position) c.reader)) = b := by
    show [b].reverse.flatten = b
    simp
  constructor
  · intro h
    obtain ⟨h₁, h₂, h₃⟩ := h
    rw [hb] at h₃
    cases c
    cases c'
    cases h₁
    cases h₂
    exact ⟨rfl, h₃.symm⟩
  · intro h
    obtain ⟨rfl, rfl⟩ := h
    exact ⟨rfl, rfl, hb⟩

/-! ## Reading what a reader hands out -/

section Hands

variable {I : σ → Prop} {output : σ → Bytes} (h : Reader.Hands I output)
variable {n : Nat} {patient : Bool}

theorem run_read (n : Nat) (patient : Bool) (position : Nat) :
    (read n patient).run position = .read n patient fun
      | .ok b => .done (.ok (b, position + b.length))
      | .error f => .done (.error f) := by
  refine congrArg (Relay.read n patient) (funext fun r => ?_)
  cases r <;> rfl

include h in
theorem of_read_plays {b : Bytes} (hc : I c.reader) (hp : (read n patient).Plays c b c' out) :
    out = [] ∧ I c'.reader ∧ b.length ≤ n ∧ output c.reader = b ++ output c'.reader
      ∧ c'.position = c.position + b.length ∧ (n ≠ 0 → b = [] → output c.reader = []) := by
  obtain ⟨h₁, h₂, h₃⟩ := hp
  rw [run_read, Relay.run, Relay.runOnto] at h₁ h₂ h₃
  cases ha : Relay.answer n patient c.reader with
  | mk r s =>
    rw [ha] at h₁ h₂ h₃
    cases r with
    | error f => cases h₁
    | ok b' =>
      obtain ⟨position', s'⟩ := c'
      cases h₁
      cases h₂
      cases h₃
      obtain ⟨hs, hlen, hout, hnil⟩ := h.of_answer hc ha
      exact ⟨rfl, hs, hlen, hout, rfl, hnil⟩

include h in
/-- Gathering reads as much as is asked for, if there is as much. -/
theorem of_gather_plays {b : Bytes} (hc : I c.reader)
    (hp : (gather n patient).Plays c b c' out) :
    out = [] ∧ I c'.reader ∧ b = (output c.reader).take n
      ∧ output c'.reader = (output c.reader).drop n
      ∧ c'.position = c.position + b.length := by
  induction n using Nat.strongRecOn generalizing c b out with
  | ind n ih =>
    rw [gather] at hp
    split at hp
    · subst n
      obtain ⟨rfl, rfl, rfl⟩ := plays_pure_iff.mp hp
      exact ⟨rfl, hc, rfl, rfl, rfl⟩
    · rename_i hn
      obtain ⟨b₁, c₁, o₁, o₂, h₁, h₂, rfl⟩ := plays_bind_iff.mp hp
      obtain ⟨rfl, hc₁, hlen, hout, hpos, hnil⟩ := of_read_plays h hc h₁
      by_cases hb : b₁ = []
      · rw [dif_pos hb] at h₂
        obtain ⟨rfl, rfl, rfl⟩ := plays_pure_iff.mp h₂
        have he := hnil hn hb
        rw [hb, List.nil_append] at hout
        rw [hb] at hpos
        refine ⟨rfl, hc₁, by rw [he, List.take_nil], by rw [← hout, he, List.drop_nil], hpos⟩
      · rw [dif_neg hb] at h₂
        obtain ⟨b₂, c₂, o₃, o₄, h₃, h₄, rfl⟩ := plays_bind_iff.mp h₂
        obtain ⟨rfl, rfl, rfl⟩ := plays_pure_iff.mp h₄
        have hb0 : 0 < b₁.length := List.length_pos_iff.mpr hb
        obtain ⟨rfl, hc₂, rfl, hrest, hpos₂⟩ := ih (n - b₁.length) (by omega) hc₁ h₃
        refine ⟨rfl, hc₂, ?_, ?_, ?_⟩
        · rw [hout, List.take_append, List.take_of_length_le hlen]
        · rw [hrest, hout, List.drop_append, List.drop_eq_nil_of_le hlen, List.nil_append]
        · rw [hpos₂, hpos, List.length_append, Nat.add_assoc]

include h in
/-- Skipping goes on by as much as is asked for. -/
theorem of_skip_plays {early : Fault} {u : Unit} (hc : I c.reader)
    (hp : (skip n early).Plays c u c' out) :
    out = [] ∧ I c'.reader ∧ n ≤ (output c.reader).length
      ∧ output c'.reader = (output c.reader).drop n ∧ c'.position = c.position + n := by
  induction n using Nat.strongRecOn generalizing c out with
  | ind n ih =>
    rw [skip] at hp
    split at hp
    · subst n
      obtain ⟨-, rfl, rfl⟩ := plays_pure_iff.mp hp
      exact ⟨rfl, hc, Nat.zero_le _, rfl, rfl⟩
    · rename_i hn
      obtain ⟨b, c₁, o₁, o₂, h₁, h₂, rfl⟩ := plays_bind_iff.mp hp
      obtain ⟨rfl, hc₁, hlen, hout, hpos, -⟩ := of_read_plays h hc h₁
      by_cases hb : b = []
      · rw [dif_pos hb] at h₂
        exact absurd h₂ not_plays_throw
      · rw [dif_neg hb] at h₂
        have hb0 : 0 < b.length := List.length_pos_iff.mpr hb
        have hle : b.length ≤ n := Nat.le_trans hlen (Nat.min_le_left n 32768)
        obtain ⟨rfl, hc₂, hmore, hrest, hpos₂⟩ := ih (n - b.length) (by omega) hc₁ h₂
        refine ⟨rfl, hc₂, ?_, ?_, by omega⟩
        · rw [hout, List.length_append]
          omega
        · rw [hrest, hout, List.drop_append, List.drop_eq_nil_of_le hle, List.nil_append]

end Hands

section Gives

variable {I : σ → Prop} {output : σ → Bytes} (h : Reader.Gives I output)

include h in
theorem read_plays (n : Nat) (patient : Bool) {c : Spot σ} (hc : I c.reader) :
    ∃ b c', (read n patient).Plays c b c' [] := by
  obtain ⟨b, hb, -, -⟩ := h.read_ok n c.reader hc
  refine ⟨b, ⟨c.position + b.length, (Reader.read n c.reader).2⟩, ?_⟩
  unfold Plays
  rw [run_read, Relay.run, Relay.runOnto, h.answer_eq n patient hc]
  dsimp only
  rw [hb]
  exact ⟨rfl, rfl, rfl⟩

include h in
theorem gather_plays (n : Nat) (patient : Bool) {c : Spot σ} (hc : I c.reader) :
    ∃ b c', (gather n patient).Plays c b c' [] := by
  induction n using Nat.strongRecOn generalizing c with
  | ind n ih =>
    rw [gather]
    split
    · exact ⟨[], c, plays_pure [] c⟩
    · obtain ⟨b, c₁, hread⟩ := read_plays h n patient hc
      by_cases hb : b = []
      · refine ⟨[], c₁, hread.bind_nil ?_⟩
        rw [dif_pos hb]
        exact plays_pure [] c₁
      · have hb0 : 0 < b.length := List.length_pos_iff.mpr hb
        obtain ⟨more, c₂, hmore⟩ :=
          ih (n - b.length) (by omega) (of_read_plays h.hands hc hread).2.1
        refine ⟨b ++ more, c₂, hread.bind_nil ?_⟩
        rw [dif_neg hb]
        exact hmore.bind_nil (plays_pure _ c₂)

include h in
theorem skip_plays {n : Nat} (early : Fault) {c : Spot σ} (hc : I c.reader)
    (hn : n ≤ (output c.reader).length) : ∃ c', (skip n early).Plays c () c' [] := by
  induction n using Nat.strongRecOn generalizing c with
  | ind n ih =>
    rw [skip]
    split
    · exact ⟨c, plays_pure () c⟩
    · rename_i hpos
      obtain ⟨b, c₁, hread⟩ := read_plays h (min n 32768) false hc
      obtain ⟨-, hc₁, -, hout, -, hnil⟩ := of_read_plays h.hands hc hread
      by_cases hb : b = []
      · rw [hnil (by omega) hb] at hn
        simp only [List.length_nil] at hn
        omega
      · have hb0 : 0 < b.length := List.length_pos_iff.mpr hb
        rw [hout, List.length_append] at hn
        obtain ⟨c₂, hskip⟩ := ih (n - b.length) (by omega) hc₁ (by omega)
        refine ⟨c₂, hread.bind_nil ?_⟩
        rw [dif_neg hb]
        exact hskip

end Gives

end Tape

/-- A reader that hands out all that it is asked for, as long as there is something left. -/
structure Whole where
  left : Bytes

namespace Whole

instance : Reader Whole where
  read n w := (.ok (w.left.take n), ⟨w.left.drop n⟩)
  patience _ := 0
  patience_lt _ _ _ h _ := by cases h

theorem gives : Reader.Gives (fun _ => True) Whole.left where
  keeps _ _ _ := trivial
  read_ok n w _ := ⟨w.left.take n, rfl, List.length_take_le _ _, (List.take_append_drop _ _).symm⟩
  eq_nil n w _ hn he := by
    have he : w.left.take n = [] := Except.ok.inj he
    rcases List.take_eq_nil_iff.mp he with h | h
    · exact absurd h hn
    · exact h

end Whole

/-- The spot with all that is to come on a reader without cuts. -/
def Spot.whole {σ : Type} (output : σ → Bytes) (c : Spot σ) : Spot Whole :=
  ⟨c.position, ⟨output c.reader⟩⟩

namespace Tape

variable {α β : Type}

theorem gather_whole (n : Nat) (patient : Bool) (position : Nat) (b : Bytes) :
    (gather n patient).Plays (⟨position, ⟨b⟩⟩ : Spot Whole) (b.take n)
      ⟨position + (b.take n).length, ⟨b.drop n⟩⟩ [] := by
  obtain ⟨b₁, ⟨position', ⟨b'⟩⟩, hplays⟩ :=
    gather_plays Whole.gives n patient (c := ⟨position, ⟨b⟩⟩) trivial
  obtain ⟨-, -, rfl, hrest, hpos⟩ := of_gather_plays Whole.gives.hands trivial hplays
  cases hrest
  cases hpos
  exact hplays

theorem skip_whole {n : Nat} (early : Fault) (position : Nat) {b : Bytes} (hn : n ≤ b.length) :
    (skip n early).Plays (⟨position, ⟨b⟩⟩ : Spot Whole) () ⟨position + n, ⟨b.drop n⟩⟩ [] := by
  obtain ⟨⟨position', ⟨b'⟩⟩, hplays⟩ :=
    skip_plays Whole.gives early (c := ⟨position, ⟨b⟩⟩) trivial hn
  obtain ⟨-, -, -, hrest, hpos⟩ := of_skip_plays Whole.gives.hands trivial hplays
  cases hrest
  cases hpos
  exact hplays

end Tape

/-! ## Programs that only read -/

namespace Relay

/-- The relay writes nothing, and its results that are no faults have `Q`. -/
def Gets {α : Type} (Q : α → Prop) : Relay (Except Fault (α × Nat)) → Prop
  | done (.ok (a, _)) => Q a
  | done (.error _) => True
  | read _ _ next => ∀ r, Gets Q (next r)
  | write _ _ => False

theorem Gets.bind {α β : Type} {Q : α → Prop} {R : β → Prop} {p : Relay (Except Fault (α × Nat))}
    {k : Except Fault (α × Nat) → Relay (Except Fault (β × Nat))} (hp : p.Gets Q)
    (hok : ∀ a position, Q a → (k (.ok (a, position))).Gets R)
    (herror : ∀ f, (k (.error f)).Gets R) : (p.bind k).Gets R := by
  induction p with
  | done r =>
    cases r with
    | error f => exact herror f
    | ok r => exact hok r.1 r.2 hp
  | read n w next ih => exact fun r => ih r (hp r)
  | write b next ih => exact hp.elim

end Relay

namespace Tape

/-- The program writes nothing, and its results have `Q`. -/
def Gets {α : Type} (Q : α → Prop) (w : Tape α) : Prop := ∀ position, (w.run position).Gets Q

variable {α β : Type} {Q : α → Prop} {R : β → Prop}

theorem gets_pure {a : α} (h : Q a) : Gets Q (pure a) := fun _ => h

theorem gets_throw (f : Fault) : Gets Q (throw f) := fun _ => trivial

theorem gets_position : Gets (fun _ => True) position := fun _ => trivial

theorem gets_attempt (n : Nat) (patient : Bool) : Gets (fun _ => True) (attempt n patient) := by
  intro position r
  cases r <;> trivial

theorem Gets.bind {w : Tape α} {f : α → Tape β} (hw : Gets Q w) (hf : ∀ a, Q a → Gets R (f a)) :
    Gets R (w >>= f) := by
  intro position
  rw [run_bind]
  exact (hw position).bind (fun a position' ha => hf a ha position') fun _ => trivial

theorem gets_read (n : Nat) (patient : Bool) : Gets (fun _ => True) (read n patient) := by
  refine (gets_attempt n patient).bind fun r _ => ?_
  cases r with
  | ok b => exact gets_pure trivial
  | error f => exact gets_throw f

theorem gets_gather (n : Nat) (patient : Bool) : Gets (fun _ => True) (gather n patient) := by
  induction n using Nat.strongRecOn with
  | ind n ih =>
    rw [gather]
    split
    · exact gets_pure trivial
    · refine (gets_read n patient).bind fun b _ => ?_
      split
      · exact gets_pure trivial
      · rename_i hn hb
        have : 0 < b.length := List.length_pos_iff.mpr hb
        exact (ih (n - b.length) (by omega)).bind fun _ _ => gets_pure trivial

theorem gets_skip (n : Nat) (early : Fault) : Gets (fun _ => True) (skip n early) := by
  induction n using Nat.strongRecOn with
  | ind n ih =>
    rw [skip]
    split
    · exact gets_pure trivial
    · refine (gets_read _ false).bind fun b _ => ?_
      split
      · exact gets_throw early
      · rename_i hn hb
        have : 0 < b.length := List.length_pos_iff.mpr hb
        exact ih (n - b.length) (by omega)

theorem Gets.of_plays {σ : Type} [Reader σ] {w : Tape α} (hw : Gets Q w) {c c' : Spot σ} {a : α}
    {out : Bytes} (h : w.Plays c a c' out) : Q a ∧ out = [] := by
  have hrun : ∀ (p : Relay (Except Fault (α × Nat))) (acc : List Bytes) (s : σ), p.Gets Q →
      (Relay.runOnto acc p s).writes = acc
        ∧ ∀ a position, (Relay.runOnto acc p s).result = .ok (a, position) → Q a := by
    intro p
    induction p with
    | done r =>
      intro acc s hp
      refine ⟨rfl, ?_⟩
      rintro a position rfl
      exact hp
    | read n w next ih => exact fun acc s hp => ih _ acc _ (hp _)
    | write b next ih => exact fun acc s hp => hp.elim
  obtain ⟨h₁, h₂, h₃⟩ := h
  obtain ⟨hwrites, hresult⟩ := hrun _ [] c.reader (hw c.position)
  refine ⟨hresult _ _ h₁, ?_⟩
  rw [← h₃]
  show ((Relay.runOnto [] _ _).writes).reverse.flatten = []
  rw [hwrites]
  rfl

/-- The program only reads, its results have `Q`, and whenever it plays it does so on all of
what the reader hands out, which is enough if no read fails. -/
structure Reads (Q : α → Prop) (w : Tape α) : Prop where
  gets : Gets Q w
  whole : ∀ {σ : Type} [Reader σ] {I : σ → Prop} {output : σ → Bytes}, Reader.Hands I output →
    ∀ {c c' : Spot σ} {a out}, I c.reader → w.Plays c a c' out →
      I c'.reader ∧ w.Plays (c.whole output) a (c'.whole output) out
  cut : ∀ {σ : Type} [Reader σ] {I : σ → Prop} {output : σ → Bytes}, Reader.Gives I output →
    ∀ {c : Spot σ} {a d out}, I c.reader → w.Plays (c.whole output) a d out →
      ∃ c', w.Plays c a c' out

theorem reads_pure {a : α} (ha : Q a) : Reads Q (pure a) where
  gets := gets_pure ha
  whole _ c c' a' out hc hp := by
    obtain ⟨rfl, rfl, rfl⟩ := plays_pure_iff.mp hp
    exact ⟨hc, plays_pure _ _⟩
  cut _ c a' d out _ hp := by
    obtain ⟨rfl, rfl, rfl⟩ := plays_pure_iff.mp hp
    exact ⟨c, plays_pure _ _⟩

theorem reads_throw (f : Fault) : Reads Q (throw f : Tape α) :=
  ⟨gets_throw f, fun _ _ _ _ _ _ hp => absurd hp not_plays_throw,
    fun _ _ _ _ _ _ hp => absurd hp not_plays_throw⟩

theorem reads_position : Reads (fun _ => True) position where
  gets := gets_position
  whole _ c c' a' out hc hp := by
    obtain ⟨rfl, rfl, rfl⟩ := plays_position_iff.mp hp
    exact ⟨hc, plays_position_iff.mpr ⟨rfl, rfl, rfl⟩⟩
  cut _ c a' d out _ hp := by
    obtain ⟨rfl, rfl, rfl⟩ := plays_position_iff.mp hp
    exact ⟨c, plays_position_iff.mpr ⟨rfl, rfl, rfl⟩⟩

theorem reads_gather (n : Nat) (patient : Bool) : Reads (fun _ => True) (gather n patient) where
  gets := gets_gather n patient
  whole {_ _ _ output} h c c' b out hc hp := by
    obtain ⟨rfl, hc', rfl, hrest, hpos⟩ := of_gather_plays h hc hp
    refine ⟨hc', ?_⟩
    rw [Spot.whole, Spot.whole, hrest, hpos]
    exact gather_whole n patient c.position (output c.reader)
  cut {_ _ _ output} h c b d out hc hp := by
    obtain ⟨b', c', hplays⟩ := gather_plays h n patient hc
    obtain ⟨-, -, rfl, -, -⟩ := of_gather_plays h.hands hc hplays
    obtain ⟨rfl, -, rfl⟩ := (gather_whole n patient c.position (output c.reader)).det hp
    exact ⟨c', hplays⟩

theorem reads_skip (n : Nat) (early : Fault) : Reads (fun _ => True) (skip n early) where
  gets := gets_skip n early
  whole {_ _ _ output} h c c' u out hc hp := by
    obtain ⟨rfl, hc', hn, hrest, hpos⟩ := of_skip_plays h hc hp
    refine ⟨hc', ?_⟩
    rw [Spot.whole, Spot.whole, hrest, hpos]
    exact skip_whole early c.position hn
  cut {_ _ _ output} h c u d out hc hp := by
    obtain ⟨rfl, -, hn, -, -⟩ := of_skip_plays Whole.gives.hands trivial hp
    exact skip_plays h early hc hn

theorem Reads.bind {w : Tape α} {f : α → Tape β} (hw : Reads Q w) (hf : ∀ a, Q a → Reads R (f a)) :
    Reads R (w >>= f) where
  gets := hw.gets.bind fun a ha => (hf a ha).gets
  whole h c c'' b out hc hp := by
    obtain ⟨a, c', o₁, o₂, h₁, h₂, rfl⟩ := plays_bind_iff.mp hp
    have ha := (hw.gets.of_plays h₁).1
    obtain ⟨hc', h₁'⟩ := hw.whole h hc h₁
    obtain ⟨hc'', h₂'⟩ := (hf a ha).whole h hc' h₂
    exact ⟨hc'', h₁'.bind h₂'⟩
  cut h c b d out hc hp := by
    obtain ⟨a, d', o₁, o₂, h₁, h₂, rfl⟩ := plays_bind_iff.mp hp
    have ha := (hw.gets.of_plays h₁).1
    obtain ⟨c', h₁'⟩ := hw.cut h hc h₁
    obtain ⟨hc', h₁''⟩ := hw.whole h.hands hc h₁'
    obtain ⟨-, rfl, -⟩ := h₁.det h₁''
    obtain ⟨c'', h₂'⟩ := (hf a ha).cut h hc' h₂
    exact ⟨c'', h₁'.bind h₂'⟩

section Transfer

variable {σ : Type} [Reader σ] {I : σ → Prop} {output : σ → Bytes}
variable {w : Tape α} {a : α} {c c' : Spot σ} {out : Bytes}

theorem Reads.plays (h : Reader.Hands I output) (hw : Reads Q w) (hc : I c.reader)
    (hp : w.Plays c a c' out) :
    Q a ∧ out = [] ∧ I c'.reader ∧ w.Plays (c.whole output) a (c'.whole output) [] := by
  obtain ⟨ha, rfl⟩ := hw.gets.of_plays hp
  obtain ⟨hc', hp'⟩ := hw.whole h hc hp
  exact ⟨ha, rfl, hc', hp'⟩

/-- What plays on all of what a reader gives plays on the reader. -/
theorem Reads.of_whole (h : Reader.Gives I output) (hw : Reads Q w) (hc : I c.reader)
    {d : Spot Whole} (hp : w.Plays (c.whole output) a d out) :
    ∃ c', w.Plays c a c' out ∧ I c'.reader ∧ c'.whole output = d := by
  obtain ⟨c', hp'⟩ := hw.cut h hc hp
  obtain ⟨hc', hp''⟩ := hw.whole h.hands hc hp'
  exact ⟨c', hp', hc', (hp.det hp'').2.1.symm⟩

end Transfer

end Tape
end ContainerLayer
