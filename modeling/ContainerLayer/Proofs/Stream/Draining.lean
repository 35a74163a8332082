import ContainerLayer.Proofs.Stream.Giving

/-
Reading to the end.

What that comes to is all of the data, or the fault that is in the way (`Drained.result`).  Of a
source that is cut and interrupted it is the data up to the first fault.
-/

namespace ContainerLayer

namespace Reader

variable {σ τ : Type} [Reader σ] [Reader τ]

theorem readPatiently_eq (n : Nat) (s : σ) :
    readPatiently n s =
      match read n s with
      | (.ok b, s') => (.ok b, s')
      | (.error f, s') => if f.isInterrupted then readPatiently n s' else (.error f, s') := by
  rw [readPatiently]
  split <;> rename_i e
  · rw [e]
  · simp only [dite_eq_ite]
    rw [e]

theorem readPatiently_congr {n : Nat} {s s' : σ} (h : read n s = read n s') :
    readPatiently n s = readPatiently n s' := by
  rw [readPatiently_eq, readPatiently_eq n s', h]

/-- Reading to the end goes from one patient read to the next. -/
theorem drainOnto_eq [Finite σ] (n : Nat) (acc : List Bytes) (s : σ) :
    drainOnto n acc s =
      match readPatiently n s with
      | (.ok b, s') => if b = [] then ⟨acc, none, s'⟩ else drainOnto n (b :: acc) s'
      | (.error f, s') => ⟨acc, some f, s'⟩ := by
  fun_induction readPatiently n s with
  | case1 s b s' e =>
    rw [drainOnto]
    split <;> rename_i e' <;> rw [e] at e' <;> cases e'
    simp only [dite_eq_ite]
  | case2 s f s' e hf _ ih =>
    rw [drainOnto]
    split <;> rename_i e' <;> rw [e] at e' <;> cases e'
    rw [dif_pos hf]
    exact ih
  | case3 s f s' e hf =>
    rw [drainOnto]
    split <;> rename_i e' <;> rw [e] at e' <;> cases e'
    rw [dif_neg hf]

/-- What reading to the end comes to: all of the data, or the fault that was in the way. -/
def Drained.result (d : Drained σ) : Except Fault Bytes :=
  match d.fault with
  | none => .ok d.data
  | some f => .error f

end Reader

namespace Source

/-- Nothing but data comes, but for interruptions. -/
def Flowing (s : Source) : Prop :=
  ∀ p ∈ s, (∃ b, p = .data b) ∨ ∃ f, p = .fault f ∧ f.isInterrupted = true

variable {front : Source} {n : Nat}

theorem Flowing.run (h : Flowing front) : front.run = (front.remaining, []) := by
  induction front with
  | nil => rfl
  | cons p front ih =>
    have ih := ih fun q hq => h q (List.mem_cons_of_mem _ hq)
    rcases h p List.mem_cons_self with ⟨b, rfl⟩ | ⟨f, rfl, hf⟩
    · rw [Source.run, ih, remaining_data]
    · rw [Source.run, if_pos hf, ih, remaining_fault]

theorem read_data {b : Bytes} (hn : n ≠ 0) (hb : b ≠ []) (r : Source) :
    Reader.read n (.data b :: r)
      = (.ok (b.take n), if b.drop n = [] then r else .data (b.drop n) :: r) := by
  show Source.read n (.data b :: r) = _
  rw [Source.read, if_neg hn]
  dsimp only
  rw [if_neg hb]

theorem read_data_nil (n : Nat) (r : Source) (hn : n ≠ 0) :
    Reader.read n (.data [] :: r) = Reader.read n r := by
  show Source.read n (.data [] :: r) = Source.read n r
  rw [Source.read, if_neg hn]
  simp only [if_true]

theorem read_fault (f : Fault) (r : Source) (hn : n ≠ 0) :
    Reader.read n (.fault f :: r) = (.error f, r) := by
  show Source.read n (.fault f :: r) = _
  rw [Source.read, if_neg hn]

/-- Bytes that were taken from the front of a stream can be put back there. -/
theorem Flowing.cons {behind : Source} (h : behind.Flowing) {b : Bytes} {k : Nat}
    (hdrop : behind.remaining = b.drop k) :
    Flowing (.data (b.take k) :: behind) ∧ remaining (.data (b.take k) :: behind) = b := by
  constructor
  · intro p hp
    rcases List.mem_cons.mp hp with rfl | hp
    · exact .inl ⟨_, rfl⟩
    · exact h p hp
  · rw [remaining_data, hdrop, List.take_append_drop]

/-- A patient read takes some data from the front, or, if that has none, goes on behind it. -/
theorem Flowing.readPatiently (h : Flowing front) (hn : n ≠ 0) (rest : Source) :
    (front.remaining = [] ∧
        Reader.readPatiently n (front ++ rest) = Reader.readPatiently n rest) ∨
      ∃ b front', b ≠ [] ∧ b.length ≤ n ∧ Flowing front' ∧
        front.remaining = b ++ front'.remaining ∧
        Reader.readPatiently n (front ++ rest) = (.ok b, front' ++ rest) := by
  induction front with
  | nil => exact .inl ⟨rfl, rfl⟩
  | cons p front ih =>
    have hfront : Flowing front := fun q hq => h q (List.mem_cons_of_mem _ hq)
    rcases h p List.mem_cons_self with ⟨b, rfl⟩ | ⟨f, rfl, hf⟩
    · by_cases hb : b = []
      · subst hb
        rw [List.cons_append, Reader.readPatiently_congr (read_data_nil n _ hn), remaining_data,
          List.nil_append]
        exact ih hfront
      · rw [List.cons_append, Reader.readPatiently_eq, read_data hn hb, remaining_data]
        refine .inr ⟨b.take n, if b.drop n = [] then front else .data (b.drop n) :: front,
          by simp [hn, hb], List.length_take_le _ _, ?_, ?_, ?_⟩
        · split
          · exact hfront
          · intro q hq
            rcases List.mem_cons.mp hq with rfl | hq
            · exact .inl ⟨_, rfl⟩
            · exact hfront q hq
        · have hsplit := List.take_append_drop n b
          split
          · rename_i hdrop
            rw [hdrop, List.append_nil] at hsplit
            rw [hsplit]
          · rw [remaining_data, ← List.append_assoc, hsplit]
        · dsimp only
          split <;> rfl
    · rw [List.cons_append, Reader.readPatiently_eq, read_fault f _ hn, remaining_fault]
      dsimp only
      rw [if_pos hf]
      exact ih hfront

/-- Reading to the end takes all data from the front, and goes on behind it. -/
theorem Flowing.drainOnto (h : Flowing front) (hn : n ≠ 0) (acc : List Bytes) (rest : Source) :
    ∃ chunks, Reader.drainOnto n acc (front ++ rest) = Reader.drainOnto n chunks rest ∧
      chunks.reverse.flatten = acc.reverse.flatten ++ front.remaining := by
  induction hlen : front.remaining.length using Nat.strongRecOn generalizing front acc with
  | ind len ih =>
    rcases h.readPatiently hn rest with ⟨hnil, e⟩ | ⟨b, front', hb, -, hfront', hrest, e⟩
    · refine ⟨acc, ?_, by rw [hnil, List.append_nil]⟩
      rw [Reader.drainOnto_eq, e, ← Reader.drainOnto_eq]
    · have hpos : 0 < b.length := List.length_pos_iff.mpr hb
      rw [hrest, List.length_append] at hlen
      obtain ⟨chunks, e', hchunks⟩ := ih _ (by omega) hfront' (b :: acc) rfl
      refine ⟨chunks, ?_, ?_⟩
      · rw [Reader.drainOnto_eq, e]
        dsimp only
        rw [if_neg hb, e']
      · rw [hchunks, hrest]
        simp

end Source

end ContainerLayer
