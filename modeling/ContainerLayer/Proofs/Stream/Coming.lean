import ContainerLayer.Decompress
import ContainerLayer.Proofs.Stream.Draining

/-
What readers come to.

Reading to the end comes to data, or to a fault.  For some readers that depends on how much each
read asks for, so it is a relation between a reader and what it may come to.  A relation that fits
every single read (`Reader.Tells`) fits reading to the end.
-/

namespace ContainerLayer

namespace Reader

variable {σ : Type} [Reader σ]

/-- While `I` holds, `C s r` says that `s` may come to `r`, as far as reads for amounts in `R`
can tell. -/
structure Tells (R : Nat → Prop) (I : σ → Prop) (C : σ → Except Fault Bytes → Prop) : Prop where
  keeps : Keeps I
  of_ok : ∀ n s b r, I s → R n → (read n s).1 = .ok b → C (read n s).2 r → C s ((b ++ ·) <$> r)
  of_nil : ∀ n s, I s → R n → n ≠ 0 → (read n s).1 = .ok [] → C s (.ok [])
  of_error : ∀ n s f, I s → R n → (read n s).1 = .error f →
    (f.isInterrupted = false → C s (.error f)) ∧ ∀ r, C (read n s).2 r → C s r

theorem map_append_nil (r : Except Fault Bytes) : (([] : Bytes) ++ ·) <$> r = r := by
  cases r <;> rfl

theorem map_append (a b : Bytes) (r : Except Fault Bytes) :
    (a ++ ·) <$> ((b ++ ·) <$> r) = ((a ++ b) ++ ·) <$> r := by
  cases r with
  | error f => rfl
  | ok c => exact congrArg Except.ok (List.append_assoc a b c).symm

variable [Finite σ] {R : Nat → Prop} {I : σ → Prop} {C : σ → Except Fault Bytes → Prop}
  (h : Tells R I C) {n : Nat} (hR : R n) (hn : n ≠ 0) {s : σ} (hs : I s)

include h hR hn hs in
theorem Tells.drainOnto (acc : List Bytes) :
    ∃ r, C s r ∧ (Reader.drainOnto n acc s).result = (acc.reverse.flatten ++ ·) <$> r := by
  fun_induction Reader.drainOnto n acc s with
  | case1 acc s s' e =>
    refine ⟨.ok [], h.of_nil n s hs hR hn (by rw [e]), ?_⟩
    show Except.ok acc.reverse.flatten = Except.ok (acc.reverse.flatten ++ [])
    rw [List.append_nil]
  | case2 acc s b s' e hb _ ih =>
    have hkeeps := h.keeps n s hs
    have hok := h.of_ok n s b
    rw [e] at hkeeps hok
    obtain ⟨r, hr, hresult⟩ := ih hkeeps
    refine ⟨_, hok r hs hR rfl hr, ?_⟩
    rw [hresult, map_append, List.reverse_cons, List.flatten_append, List.flatten_singleton]
  | case3 acc s f s' e hf _ ih =>
    have hkeeps := h.keeps n s hs
    have herror := h.of_error n s f hs hR
    rw [e] at hkeeps herror
    obtain ⟨r, hr, hresult⟩ := ih hkeeps
    exact ⟨r, (herror rfl).2 r hr, hresult⟩
  | case4 acc s f s' e hf =>
    exact ⟨.error f, (h.of_error n s f hs hR (by rw [e])).1 (by simpa using hf), rfl⟩

include h hR hn hs in
/-- Reading to the end comes to something that the reader may come to. -/
theorem Tells.result : C s (Reader.drainOnto n [] s).result := by
  obtain ⟨r, hr, hresult⟩ := h.drainOnto hR hn hs []
  rw [hresult]
  exact (map_append_nil r).symm ▸ hr

end Reader

namespace Decoded

/-- All output to come. -/
def output (d : Decoded) : Bytes := d.pending ++ d.blocks.flatten

theorem fill_eq {n : Nat} {bs : List Bytes} {out pending : Bytes} {left : List Bytes}
    (h : fill n bs = some (out, pending, left)) :
    bs.flatten = out ++ (pending ++ left.flatten) ∧ out.length = n := by
  induction bs generalizing n out with
  | nil => cases h
  | cons b rest ih =>
    unfold fill at h
    split at h
    · cases h
      constructor
      · rw [List.flatten_cons, ← List.append_assoc, List.take_append_drop]
      · rw [List.length_take]
        omega
    · split at h
      · rename_i hlen out' p l e
        cases h
        obtain ⟨h₁, h₂⟩ := ih e
        constructor
        · rw [List.flatten_cons, h₁, List.append_assoc]
        · rw [List.length_append]
          omega
      · cases h

/-- A read never changes what is behind the output, and with a fault there no read finds an
end. -/
theorem read_fault (n : Nat) (d : Decoded) :
    (d.read n).2.fault = d.fault ∧ (d.fault ≠ none → n ≠ 0 → (d.read n).1 ≠ .ok []) := by
  unfold read
  split
  · rename_i hn
    exact ⟨rfl, fun _ h => absurd hn h⟩
  rename_i hn
  split
  · rename_i hp
    refine ⟨rfl, fun _ _ h => ?_⟩
    rw [Except.ok.injEq, List.take_eq_nil_iff] at h
    exact absurd h (by simp [hn, hp])
  split
  · rename_i out pending blocks e
    refine ⟨rfl, fun _ _ h => hn ?_⟩
    rw [← (fill_eq e).2, Except.ok.inj h, List.length_nil]
  · exact ⟨rfl, fun _ _ h => by cases h⟩
  · rename_i e
    exact ⟨rfl, fun h => absurd e h⟩

theorem exists_of_read_error {n : Nat} {d : Decoded} {f : Fault} (h : (d.read n).1 = .error f) :
    ∃ f', d.fault = some f' ∧ f = .shared f' := by
  unfold read at h
  split at h
  · cases h
  split at h
  · cases h
  split at h
  · cases h
  · rename_i f' _ hfault
    cases h
    exact ⟨f', hfault, rfl⟩
  · cases h

/-- What is read is gone from the output, unless it was of no use. -/
theorem output_read {n : Nat} {d : Decoded} {b : Bytes} (hd : d.fault = none)
    (h : (d.read n).1 = .ok b) : d.output = b ++ (d.read n).2.output := by
  unfold read at h ⊢
  split
  · rename_i hn
    rw [if_pos hn] at h
    cases h
    rfl
  rename_i hn
  rw [if_neg hn] at h
  split
  · rename_i hp
    rw [if_pos hp] at h
    cases h
    rw [output, output, ← List.append_assoc, List.take_append_drop]
  rename_i hp
  rw [if_neg hp] at h
  have hp : d.pending = [] := by simpa using hp
  split
  · rename_i out pending blocks e
    rw [e] at h
    cases h
    rw [output, output, hp, (fill_eq e).1, List.nil_append]
  · rename_i f _ e
    rw [hd] at e
    cases e
  · rename_i e e'
    rw [e, e'] at h
    cases h
    simp [output, hp]

theorem output_eq_nil {n : Nat} {d : Decoded} (hn : n ≠ 0) (h : (d.read n).1 = .ok []) :
    d.output = [] := by
  unfold read at h
  rw [if_neg hn] at h
  split at h
  · rename_i hp
    rw [Except.ok.injEq, List.take_eq_nil_iff] at h
    exact absurd h (by simp [hn, hp])
  rename_i hp
  have hp : d.pending = [] := by simpa using hp
  split at h
  · rename_i out pending blocks e
    rw [Except.ok.injEq] at h
    have := (fill_eq e).2
    rw [h, List.length_nil] at this
    exact absurd this.symm hn
  · cases h
  · rw [Except.ok.injEq] at h
    rw [output, hp, h, List.append_nil]

/-- What reading to the end comes to: all output, unless there is a fault behind it. -/
def result (d : Decoded) : Except Fault Bytes :=
  match d.fault with
  | none => .ok d.output
  | some f => .error (.shared f)

theorem result_of_none {d : Decoded} (h : d.fault = none) : d.result = .ok d.output := by
  unfold result
  rw [h]

theorem result_of_some {d : Decoded} {f : Fault} (h : d.fault = some f) :
    d.result = .error (.shared f) := by
  unfold result
  rw [h]

theorem result_read {n : Nat} {d : Decoded} {b : Bytes} (h : (d.read n).1 = .ok b) :
    d.result = (b ++ ·) <$> (d.read n).2.result := by
  have hfault := (read_fault n d).1
  cases hd : d.fault with
  | none =>
    rw [result_of_none hd, result_of_none (hfault.trans hd), output_read hd h]
    rfl
  | some f =>
    rw [result_of_some hd, result_of_some (hfault.trans hd)]
    rfl

/-- A decoder of one piece comes to the same, however it is read. -/
theorem tells (R : Nat → Prop) :
    Reader.Tells R (fun _ : Decoded => True) (fun d r => r = d.result) where
  keeps _ _ _ := trivial
  of_ok n d b r _ _ hb hr := by
    rw [result_read hb]
    exact congrArg _ hr
  of_nil n d _ _ hn h := by
    cases hd : d.fault with
    | none => rw [result_of_none hd, output_eq_nil hn h]
    | some f =>
      have hsome : d.fault ≠ none := by
        rw [hd]
        exact fun e => by cases e
      exact absurd h ((read_fault n d).2 hsome hn)
  of_error n d f _ _ h := by
    obtain ⟨f', hd, rfl⟩ := exists_of_read_error h
    have hrest := (read_fault n d).1.trans hd
    refine ⟨fun _ => (result_of_some hd).symm, fun r hr => ?_⟩
    exact hr.trans ((result_of_some hrest).trans (result_of_some hd).symm)

end Decoded

namespace Unpacked

end Unpacked

end ContainerLayer
