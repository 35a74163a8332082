import ContainerLayer.Stream.Source
import ContainerLayer.Proofs.Stream.Keeping

/-
Readers that never fail.

A source that consists of data hands out a fixed string of bytes, however it is cut
into reads (`Reader.Gives`).  Reading such a reader to the end gives exactly that
string.
-/

namespace ContainerLayer
namespace Reader

variable {σ : Type} [Reader σ]

/-- While `I` holds, reads hand out `output` from the front, and only its end looks like one. -/
structure Gives (I : σ → Prop) (output : σ → Bytes) : Prop where
  keeps : Keeps I
  read_ok : ∀ n s, I s → ∃ b, (read n s).1 = .ok b ∧ b.length ≤ n ∧
    output s = b ++ output (read n s).2
  eq_nil : ∀ n s, I s → n ≠ 0 → (read n s).1 = .ok [] → output s = []

/-- While `I` holds, reads hand out `output` from the front, only its end looks like one, and
a read that fails takes nothing of it. -/
structure Hands (I : σ → Prop) (output : σ → Bytes) : Prop where
  keeps : Keeps I
  of_ok : ∀ n s b, I s → (read n s).1 = .ok b →
    b.length ≤ n ∧ output s = b ++ output (read n s).2
  of_error : ∀ n s f, I s → (read n s).1 = .error f → output (read n s).2 = output s
  eq_nil : ∀ n s, I s → n ≠ 0 → (read n s).1 = .ok [] → output s = []

namespace Hands

variable {I : σ → Prop} {output : σ → Bytes} (h : Hands I output)

include h in
theorem of_readPatiently {n : Nat} {s s' : σ} {b : Bytes} (hs : I s)
    (e : Reader.readPatiently n s = (.ok b, s')) :
    I s' ∧ b.length ≤ n ∧ output s = b ++ output s' ∧ (n ≠ 0 → b = [] → output s = []) := by
  fun_induction Reader.readPatiently n s with
  | case1 s b' s₁ hr =>
    cases e
    have hkeeps := h.keeps n s hs
    obtain ⟨hlen, hout⟩ := h.of_ok n s b hs (by rw [hr])
    rw [hr] at hkeeps hout
    refine ⟨hkeeps, hlen, hout, ?_⟩
    rintro hn rfl
    exact h.eq_nil n s hs hn (by rw [hr])
  | case2 s f s₁ hr hf hlt ih =>
    have hkeeps := h.keeps n s hs
    have hout := h.of_error n s f hs (by rw [hr])
    rw [hr] at hkeeps hout
    have hout : output s₁ = output s := hout
    rw [← hout]
    exact ih hkeeps e
  | case3 s f s₁ hr hf => cases e

include h in
theorem of_answer {n : Nat} {patient : Bool} {s s' : σ} {b : Bytes} (hs : I s)
    (e : Relay.answer n patient s = (.ok b, s')) :
    I s' ∧ b.length ≤ n ∧ output s = b ++ output s' ∧ (n ≠ 0 → b = [] → output s = []) := by
  unfold Relay.answer at e
  split at e
  · exact h.of_readPatiently hs e
  · have hkeeps := h.keeps n s hs
    have hok : (read n s).1 = .ok b := by rw [e]
    obtain ⟨hlen, hout⟩ := h.of_ok n s b hs hok
    rw [e] at hkeeps hout
    refine ⟨hkeeps, hlen, hout, ?_⟩
    rintro hn rfl
    exact h.eq_nil n s hs hn hok

include h in
/-- Whether or not it is canceled, a reader hands out what the reader inside does. -/
theorem cancelable : Hands (fun s : Cancelable σ => I s.inner) (fun s => output s.inner) where
  keeps := h.keeps.cancelable
  of_ok n s b hs hb := by
    cases hc : s.canceled with
    | some f =>
      rw [show read n s = s.read n from rfl, Cancelable.read_of_canceled hc] at hb
      cases hb
    | none =>
      rw [show read n s = s.read n from rfl, Cancelable.read_of_open hc] at hb ⊢
      exact h.of_ok n s.inner b hs hb
  of_error n s f hs hf := by
    cases hc : s.canceled with
    | some f => rw [show read n s = s.read n from rfl, Cancelable.read_of_canceled hc]
    | none =>
      rw [show read n s = s.read n from rfl, Cancelable.read_of_open hc] at hf ⊢
      exact h.of_error n s.inner f hs hf
  eq_nil n s hs hn he := by
    cases hc : s.canceled with
    | some f =>
      rw [show read n s = s.read n from rfl, Cancelable.read_of_canceled hc] at he
      cases he
    | none =>
      rw [show read n s = s.read n from rfl, Cancelable.read_of_open hc] at he
      exact h.eq_nil n s.inner hs hn he

end Hands

namespace Gives

variable {I : σ → Prop} {output : σ → Bytes} (h : Gives I output)

include h in
theorem hands : Hands I output where
  keeps := h.keeps
  of_ok n s b hs hb := by
    obtain ⟨b', hb', hlen, hout⟩ := h.read_ok n s hs
    cases hb.symm.trans hb'
    exact ⟨hlen, hout⟩
  of_error n s f hs hf := by
    obtain ⟨b', hb', -, -⟩ := h.read_ok n s hs
    cases hf.symm.trans hb'
  eq_nil := h.eq_nil

include h in
theorem readPatiently_eq (n : Nat) {s : σ} (hs : I s) :
    Reader.readPatiently n s = Reader.read n s := by
  obtain ⟨b, hb, _⟩ := h.read_ok n s hs
  unfold Reader.readPatiently
  split
  · rename_i b' s' e
    rw [e]
  · rename_i f s' e
    rw [e] at hb
    cases hb

include h in
theorem answer_eq (n : Nat) (patient : Bool) {s : σ} (hs : I s) :
    Relay.answer n patient s = Reader.read n s := by
  unfold Relay.answer
  split
  · exact h.readPatiently_eq n hs
  · rfl

include h in
theorem drainOnto [Finite σ] {n : Nat} (hn : n ≠ 0) (acc : List Bytes) {s : σ} (hs : I s) :
    (Reader.drainOnto n acc s).fault = none ∧
      (Reader.drainOnto n acc s).data = acc.reverse.flatten ++ output s := by
  fun_induction Reader.drainOnto n acc s with
  | case1 acc s s' e =>
    rw [h.eq_nil n s hs hn (by rw [e]), List.append_nil]
    exact ⟨rfl, rfl⟩
  | case2 acc s b s' e _ _ ih =>
    have hs' := h.keeps n s hs
    obtain ⟨b', hb', _, hout⟩ := h.read_ok n s hs
    rw [e] at hs' hb' hout
    cases hb'
    obtain ⟨h₁, h₂⟩ := ih hs'
    refine ⟨h₁, ?_⟩
    rw [h₂, hout]
    simp
  | case3 acc s f s' e _ _ _ =>
    obtain ⟨b, hb, _⟩ := h.read_ok n s hs
    rw [e] at hb
    cases hb
  | case4 acc s f s' e _ =>
    obtain ⟨b, hb, _⟩ := h.read_ok n s hs
    rw [e] at hb
    cases hb

include h in
/-- Reading to the end gives all of the output. -/
theorem drain [Finite σ] {s : σ} (hs : I s) :
    (Reader.drain s).fault = none ∧ (Reader.drain s).data = output s :=
  h.drainOnto (by decide) [] hs

end Gives
end Reader

namespace Source

/-- The source consists of data alone. -/
def OnlyData (s : Source) : Prop := ∀ p ∈ s, ∃ b, p = .data b

theorem onlyData_ofBytes (b : Bytes) : OnlyData (ofBytes b) := by
  intro p hp
  exact ⟨b, List.mem_singleton.mp hp⟩

theorem OnlyData.read {n : Nat} {s : Source} (h : OnlyData s) :
    OnlyData (read n s).2 ∧
      ∃ b, (Source.read n s).1 = .ok b ∧ (n ≠ 0 → b = [] → s.remaining = []) := by
  fun_induction Source.read n s with
  | case1 => exact ⟨h, [], rfl, fun _ _ => rfl⟩
  | case2 p r hn => exact ⟨h, [], rfl, fun h => absurd hn h⟩
  | case3 r hn ih =>
    obtain ⟨h₁, b, h₂, h₃⟩ := ih fun p hp => h p (List.mem_cons_of_mem _ hp)
    refine ⟨h₁, b, h₂, fun hn hb => ?_⟩
    rw [remaining_data, h₃ hn hb, List.append_nil]
  | case4 r hn b hb left =>
    have hr : OnlyData r := fun p hp => h p (List.mem_cons_of_mem _ hp)
    refine ⟨?_, b.take n, rfl, fun _ ht => ?_⟩
    · split
      · exact hr
      · intro p hp
        rcases List.mem_cons.mp hp with rfl | hp
        · exact ⟨left, rfl⟩
        · exact hr p hp
    · rw [List.take_eq_nil_iff] at ht
      exact absurd ht (by simp [hn, hb])
  | case5 r hn f =>
    obtain ⟨b, e⟩ := h _ List.mem_cons_self
    cases e
  | case6 r hn =>
    obtain ⟨b, e⟩ := h _ List.mem_cons_self
    cases e

theorem gives : Reader.Gives OnlyData remaining where
  keeps _ _ hs := hs.read.1
  read_ok n s hs := by
    obtain ⟨_, b, hb, _⟩ := hs.read (n := n)
    refine ⟨b, hb, length_read_le hb, ?_⟩
    have := read_remaining n s
    rw [hb] at this
    exact this
  eq_nil n s hs hn he := by
    obtain ⟨_, b, hb, hnil⟩ := hs.read (n := n)
    rw [show (Source.read n s).1 = .ok [] from he] at hb
    cases hb
    exact hnil hn rfl

/-- The source has no early ends. -/
def Steady (s : Source) : Prop := ∀ p ∈ s, p ≠ .pause

theorem OnlyData.steady {s : Source} (h : OnlyData s) : Steady s := by
  intro p hp e
  obtain ⟨b, hb⟩ := h p hp
  cases hb.symm.trans e

theorem Steady.read {n : Nat} {s : Source} (h : Steady s) :
    Steady (read n s).2 ∧ (n ≠ 0 → (Source.read n s).1 = .ok [] → s.remaining = []) := by
  fun_induction Source.read n s with
  | case1 => exact ⟨h, fun _ _ => rfl⟩
  | case2 p r hn => exact ⟨h, fun h => absurd hn h⟩
  | case3 r hn ih => exact ih fun p hp => h p (List.mem_cons_of_mem _ hp)
  | case4 r hn b hb left =>
    have hr : Steady r := fun p hp => h p (List.mem_cons_of_mem _ hp)
    refine ⟨?_, fun _ ht => ?_⟩
    · split
      · exact hr
      · intro p hp
        rcases List.mem_cons.mp hp with rfl | hp
        · intro e
          cases e
        · exact hr p hp
    · rw [Except.ok.injEq, List.take_eq_nil_iff] at ht
      exact absurd ht (by simp [hn, hb])
  | case5 r hn f =>
    refine ⟨fun p hp => h p (List.mem_cons_of_mem _ hp), fun _ e => ?_⟩
    cases e
  | case6 r hn => exact absurd rfl (h _ List.mem_cons_self)

theorem hands : Reader.Hands Steady remaining where
  keeps _ _ hs := hs.read.1
  of_ok n s b hs hb := by
    have hrest := read_remaining n s
    rw [show (Source.read n s).1 = .ok b from hb] at hrest
    exact ⟨length_read_le hb, hrest⟩
  of_error n s f hs hf := by
    have hrest := read_remaining n s
    rw [show (Source.read n s).1 = .error f from hf] at hrest
    exact hrest.symm
  eq_nil n s hs := hs.read.2

end Source

end ContainerLayer
