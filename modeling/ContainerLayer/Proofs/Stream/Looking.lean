import ContainerLayer.Stream.Pipe

/-
Writes that look at a pipe one time after the other.

A write holds a pipe only while it looks at it, so other parties have their turns between
two looks.  `Pipe.advance` is one look of a single write and `Pipe.lookAll` one look of
writes in a row.  Going on as far as possible (`Pipe.advanceAll`) is to look again and again
until a look changes nothing.
-/

namespace ContainerLayer
namespace Pipe

theorem hasPending_iff (p : Pipe) : p.hasPending = true ↔ p.pending ≠ [] := by
  unfold hasPending pending
  rw [decide_eq_true_iff, ne_eq, List.drop_eq_nil_iff]
  omega

theorem hasPending_eq_false_iff (p : Pipe) : p.hasPending = false ↔ p.pending = [] := by
  unfold hasPending pending
  rw [decide_eq_false_iff_not, List.drop_eq_nil_iff]
  omega

/-- What the pipe takes of the slice of a write that looks at it. -/
def takes (c : Call) (p : Pipe) : Bytes :=
  match c with
  | .sent _ => []
  | .entering data => if p.closing = none ∧ p.pending = [] then data.take capacity else []

@[simp] theorem takes_sent (n : Nat) (p : Pipe) : takes (.sent n) p = [] := rfl

@[simp] theorem takes_entering_nil (p : Pipe) : takes (.entering []) p = [] := by
  unfold takes
  dsimp only
  rw [List.take_nil, ite_self]

theorem takes_eq_nil {c : Call} {p : Pipe} (h : ¬ (p.closing = none ∧ p.pending = [])) :
    takes c p = [] := by
  unfold takes
  cases c with
  | sent n => rfl
  | entering data => exact if_neg h

/-! ## Reads and closes -/

theorem take_length_take (n : Nat) (b : Bytes) : b.take (b.take n).length = b.take n := by
  rw [List.length_take, ← List.take_eq_take_min]

theorem drop_length_take (n : Nat) (b : Bytes) : b.drop (b.take n).length = b.drop n := by
  rw [List.length_take]
  rcases Nat.le_total n b.length with h | h
  · rw [Nat.min_eq_left h]
  · rw [Nat.min_eq_right h, List.drop_length, List.drop_of_length_le h]

/-- A read that gives bytes takes them from the front of what is pending, unless a fault is in
the way.  Only a pipe that was closed cleanly and is empty looks like the end. -/
theorem of_read_ok {n : Nat} {p p' : Pipe} {b : Bytes} (h : p.read n = (some (.ok b), p')) :
    p.pending = b ++ p'.pending ∧ p'.closing = p.closing ∧ b.length ≤ n
      ∧ (∀ f, p.closing = some (.failed f) → b = [])
      ∧ (n ≠ 0 → b = [] → p.closing = some .clean ∧ p.pending = []) := by
  unfold read at h
  split at h
  · rename_i hn
    cases h
    exact ⟨rfl, rfl, Nat.zero_le _, fun _ _ => rfl, fun hne => absurd hn hne⟩
  split at h
  · cases h
  rename_i hfail
  have hfail : ∀ f, p.closing = some (.failed f) → b = [] := fun f e => (hfail f e).elim
  split at h
  · rename_i hn _ _ hp
    cases h
    refine ⟨?_, rfl, List.length_take_le _ _, hfail, fun _ hb => ?_⟩
    · unfold pending
      dsimp only
      rw [← List.drop_drop, drop_length_take, List.take_append_drop]
    · rw [List.take_eq_nil_iff] at hb
      exact absurd (hb.resolve_left hn) ((hasPending_iff p).mp hp)
  split at h
  · rename_i hp hc
    cases h
    have hp : p.pending = [] := (hasPending_eq_false_iff p).mp (Bool.not_eq_true _ ▸ hp)
    exact ⟨rfl, rfl, Nat.zero_le _, hfail, fun _ _ => ⟨hc, hp⟩⟩
  · cases h

/-- A read that gives nothing changes nothing. -/
theorem eq_of_read_nil {n : Nat} {p p' : Pipe} (h : p.read n = (some (.ok []), p')) : p' = p := by
  unfold read at h
  split at h
  · cases h
    rfl
  split at h
  · cases h
  split at h
  · rename_i hn _ _ hp
    have hb : p.pending.take n = [] := Except.ok.inj (Option.some.inj (Prod.mk.inj h).1)
    rw [List.take_eq_nil_iff] at hb
    exact absurd (hb.resolve_left hn) ((hasPending_iff p).mp hp)
  split at h
  · cases h
    rfl
  · cases h

/-- A read for which nothing is there leaves the pipe as it is. -/
theorem eq_of_read_none {n : Nat} {p p' : Pipe} (h : p.read n = (none, p')) :
    p' = p ∧ p.closing = none ∧ p.pending = [] := by
  unfold read at h
  split at h
  · cases h
  split at h
  · cases h
  rename_i hfail
  split at h
  · cases h
  split at h
  · cases h
  · rename_i hp hc
    cases h
    refine ⟨rfl, ?_, (hasPending_eq_false_iff p).mp (Bool.not_eq_true _ ▸ hp)⟩
    cases hk : p.closing with
    | none => rfl
    | some k =>
      cases k with
      | clean => exact absurd hk hc
      | failed f => exact (hfail f hk).elim

theorem read_failed {n : Nat} {p : Pipe} {f : Fault} (hn : n ≠ 0)
    (h : p.closing = some (.failed f)) : p.read n = (some (.error (.shared f)), p) := by
  unfold read
  rw [if_neg hn, h]

theorem read_clean {n : Nat} {p : Pipe} (hn : n ≠ 0) (h : p.closing = some .clean)
    (hp : p.pending = []) : p.read n = (some (.ok []), p) := by
  have hp : p.hasPending = false := (hasPending_eq_false_iff p).mpr hp
  unfold read
  rw [if_neg hn, h]
  dsimp only
  rw [if_neg (by rw [hp]; decide), if_pos rfl]

/-- A read fails only on a pipe that was closed with a fault, and leaves it as it is. -/
theorem of_read_error {n : Nat} {p p' : Pipe} {f : Fault} (h : p.read n = (some (.error f), p')) :
    p' = p ∧ ∃ g, p.closing = some (.failed g) ∧ f = .shared g := by
  unfold read at h
  split at h
  · cases h
  split at h
  · rename_i g hc
    cases h
    exact ⟨rfl, g, hc, rfl⟩
  split at h
  · cases h
  split at h
  · cases h
  · cases h

/-- Reads neither close a pipe nor open it again. -/
theorem closing_read {n : Nat} {p p' : Pipe} {r : Option (Except Fault Bytes)}
    (h : p.read n = (r, p')) : p'.closing = p.closing := by
  cases r with
  | none => rw [(eq_of_read_none h).1]
  | some r =>
    cases r with
    | ok b => exact (of_read_ok h).2.1
    | error f => rw [(of_read_error h).1]

/-- What is pending can be read unless a fault is in the way. -/
theorem exists_read_of_pending {n : Nat} {p : Pipe} (hn : n ≠ 0) (hp : p.pending ≠ [])
    (hf : ∀ f, p.closing ≠ some (.failed f)) :
    ∃ b p', b ≠ [] ∧ p.read n = (some (.ok b), p') := by
  cases hr : p.read n with
  | mk r p' =>
    cases r with
    | none => exact absurd (eq_of_read_none hr).2.2 hp
    | some r =>
      cases r with
      | error f =>
        obtain ⟨-, g, hg, -⟩ := of_read_error hr
        exact absurd hg (hf g)
      | ok b => exact ⟨b, p', fun hb => hp ((of_read_ok hr).2.2.2.2 hn hb).2, rfl⟩

theorem isClosed_close (o : Except Fault Unit) (p : Pipe) : (p.close o).isClosed = true := by
  unfold close isClosed
  split
  · rename_i c _ h
    rw [h]
    rfl
  · rfl
  · rfl

/-! ## Looks of a single write -/

section Advance

variable {p : Pipe} {data : Bytes} {n : Nat}

theorem advance_entering_closed {c : Closing} (hd : data ≠ []) (h : p.closing = some c) :
    advance (.entering data) p = (.returns (.error c.writeFault), p) := by
  unfold advance
  dsimp only
  rw [if_neg hd, h]

theorem advance_entering_full (hd : data ≠ []) (h : p.closing = none) (hp : p.pending ≠ []) :
    advance (.entering data) p = (.waits (.entering data), p) := by
  unfold advance
  dsimp only
  rw [if_neg hd, h]
  dsimp only
  rw [if_pos ((hasPending_iff p).mpr hp)]

theorem take_capacity_ne_nil (hd : data ≠ []) : data.take capacity ≠ [] := by
  rw [ne_eq, List.take_eq_nil_iff, not_or]
  exact ⟨by decide, hd⟩

/-- A chunk that was put into an open pipe is there until it has been read. -/
theorem advance_entering_room (hd : data ≠ []) (h : p.closing = none) (hp : p.pending = []) :
    advance (.entering data) p
      = (.waits (.sent (data.take capacity).length),
          { p with chunk := data.take capacity, taken := 0 }) := by
  obtain ⟨chunk, taken, closing⟩ := p
  dsimp only at h
  subst h
  have hput : hasPending ⟨data.take capacity, 0, none⟩ = true :=
    (hasPending_iff _).mpr (take_capacity_ne_nil hd)
  unfold advance
  dsimp only
  rw [if_neg hd, if_neg (by rw [(hasPending_eq_false_iff _).mpr hp]; decide), lookBack]
  dsimp only
  rw [if_pos hput]

theorem advance_sent_failed {f : Fault} (h : p.closing = some (.failed f)) :
    advance (.sent n) p = (.returns (.error (.shared f)), p) := by
  unfold advance lookBack
  dsimp only
  rw [h]

theorem advance_sent_clean (h : p.closing = some .clean) :
    advance (.sent n) p = (.returns (.ok n), p) := by
  unfold advance lookBack
  dsimp only
  rw [h]

theorem advance_sent_waits (h : p.closing = none) (hp : p.pending ≠ []) :
    advance (.sent n) p = (.waits (.sent n), p) := by
  unfold advance lookBack
  dsimp only
  rw [h]
  dsimp only
  rw [if_pos ((hasPending_iff p).mpr hp)]

theorem advance_sent_read (h : p.closing = none) (hp : p.pending = []) :
    advance (.sent n) p = (.returns (.ok n), p) := by
  unfold advance lookBack
  dsimp only
  rw [h]
  dsimp only
  rw [if_neg (by rw [(hasPending_eq_false_iff p).mpr hp]; decide)]

end Advance

/-- What a look of a write can come to. -/
inductive Looks (p : Pipe) : Call → Progress → Pipe → Prop
  | waits {c : Call} (h : p.closing = none) (hp : p.pending ≠ []) (hc : c ≠ .entering []) :
    Looks p c (.waits c) p
  | puts {data : Bytes} (hd : data ≠ []) (h : p.closing = none) (hp : p.pending = []) :
    Looks p (.entering data) (.waits (.sent (data.take capacity).length))
      { p with chunk := data.take capacity, taken := 0 }
  | nothing : Looks p (.entering []) (.returns (.ok 0)) p
  | accepted {n : Nat} (h : p.closing = some .clean ∨ p.closing = none ∧ p.pending = []) :
    Looks p (.sent n) (.returns (.ok n)) p
  | fails {c : Call} {k : Closing} (f : Fault) (h : p.closing = some k) (hc : c ≠ .entering []) :
    Looks p c (.returns (.error f)) p

theorem looks (c : Call) (p : Pipe) : p.Looks c (advance c p).1 (advance c p).2 := by
  cases c with
  | sent n =>
    cases hc : p.closing with
    | none =>
      by_cases hp : p.pending = []
      · rw [advance_sent_read hc hp]
        exact .accepted (.inr ⟨hc, hp⟩)
      · rw [advance_sent_waits hc hp]
        exact .waits hc hp nofun
    | some k =>
      cases k with
      | clean =>
        rw [advance_sent_clean hc]
        exact .accepted (.inl hc)
      | failed f =>
        rw [advance_sent_failed hc]
        exact .fails _ hc nofun
  | entering data =>
    by_cases hd : data = []
    · subst hd
      exact .nothing
    have hne : Call.entering data ≠ .entering [] := fun e => hd (Call.entering.inj e)
    cases hc : p.closing with
    | none =>
      by_cases hp : p.pending = []
      · rw [advance_entering_room hd hc hp]
        exact .puts hd hc hp
      · rw [advance_entering_full hd hc hp]
        exact .waits hc hp hne
    | some k =>
      rw [advance_entering_closed hd hc]
      exact .fails _ hc hne

theorem looks_of_eq {c : Call} {p p' : Pipe} {g : Progress} (h : advance c p = (g, p')) :
    p.Looks c g p' := by
  have := looks c p
  rwa [h] at this

/-- A write that has something to write fails on a pipe that was closed with a fault. -/
theorem advance_failed {c : Call} {p : Pipe} {f : Fault} (hc : c ≠ .entering [])
    (h : p.closing = some (.failed f)) : advance c p = (.returns (.error (.shared f)), p) := by
  cases c with
  | sent n => exact advance_sent_failed h
  | entering data => exact advance_entering_closed (fun e => hc (e ▸ rfl)) h

/-- Writes neither close a pipe nor open it again. -/
theorem closing_advance (c : Call) (p : Pipe) : (advance c p).2.closing = p.closing := by
  have h := looks c p
  revert h
  generalize (advance c p).1 = g
  generalize (advance c p).2 = p'
  intro h
  cases h <;> rfl

/-- A look at a pipe from which a write has to wait changes nothing once it has been made. -/
theorem advance_of_waits {c c' : Call} {p p' : Pipe} (h : advance c p = (.waits c', p')) :
    advance c' p' = (.waits c', p') ∧ (c' = c → p' = p) := by
  cases looks_of_eq h with
  | waits => exact ⟨h, fun _ => rfl⟩
  | puts hd hc hp => exact ⟨advance_sent_waits hc (take_capacity_ne_nil hd), fun e => nomatch e⟩

/-! ## Looks of writes in a row -/

/-- One look of the write of the front of `left`; once it has returned, the next write has yet
to look. -/
def lookAll (left : Bytes) (c : Call) (p : Pipe) : Progress.All × Pipe :=
  match advance c p with
  | (.waits c, p) => (.waits left c, p)
  | (.returns (.error f), p) => (.returns (.error f), p)
  | (.returns (.ok n), p) =>
    if n = 0 then (.returns (.error (.raised .writeZero "failed to write whole buffer")), p)
    else if left.length ≤ n then (.returns (.ok ()), p)
    else (.waits (left.drop n) (.entering (left.drop n)), p)

/-- Writes in a row leave the pipe as the write of the front of them does. -/
theorem lookAll_snd (left : Bytes) (c : Call) (p : Pipe) :
    (lookAll left c p).2 = (advance c p).2 := by
  unfold lookAll
  rcases advance c p with ⟨c' | r, p'⟩
  · rfl
  cases r with
  | error f => rfl
  | ok n =>
    dsimp only
    split
    · rfl
    split <;> rfl

theorem closing_lookAll (left : Bytes) (c : Call) (p : Pipe) :
    (lookAll left c p).2.closing = p.closing := by
  rw [lookAll_snd]
  exact closing_advance c p

section LookAll

variable {left : Bytes} {c c' : Call} {p p' : Pipe} {n : Nat}

theorem lookAll_waits (h : advance c p = (.waits c', p')) :
    lookAll left c p = (.waits left c', p') := by
  rw [lookAll, h]

theorem lookAll_error {f : Fault} (h : advance c p = (.returns (.error f), p')) :
    lookAll left c p = (.returns (.error f), p') := by
  rw [lookAll, h]

theorem lookAll_next (h : advance c p = (.returns (.ok n), p')) (hn : n ≠ 0)
    (hlt : ¬ left.length ≤ n) :
    lookAll left c p = (.waits (left.drop n) (.entering (left.drop n)), p') := by
  rw [lookAll, h]
  dsimp only
  rw [if_neg hn, if_neg hlt]

theorem lookAll_done (h : advance c p = (.returns (.ok n), p')) (hn : n ≠ 0)
    (hle : left.length ≤ n) : lookAll left c p = (.returns (.ok ()), p') := by
  rw [lookAll, h]
  dsimp only
  rw [if_neg hn, if_pos hle]

end LookAll

/-- Writes in a row are done once the write of all that is left has returned. -/
theorem advance_of_lookAll {left : Bytes} {c : Call} {p p' : Pipe}
    (h : lookAll left c p = (.returns (.ok ()), p')) :
    ∃ n, advance c p = (.returns (.ok n), p') ∧ left.length ≤ n := by
  unfold lookAll at h
  split at h
  · cases h
  · cases h
  · rename_i n p₁ ha
    split at h
    · cases h
    split at h
    · rename_i hle
      cases h
      exact ⟨n, ha, hle⟩
    · cases h

/-- Going on as far as possible is to look once, and to go on from there if that was the last
look of a write and more writes follow. -/
theorem advanceAll_cases (left : Bytes) (c : Call) (p : Pipe) :
    advanceAll left c p = lookAll left c p ∨ ∃ n p', n ≠ 0 ∧ n < left.length
      ∧ lookAll left c p = (.waits (left.drop n) (.entering (left.drop n)), p')
      ∧ advanceAll left c p = advanceAll (left.drop n) (.entering (left.drop n)) p' := by
  rw [advanceAll, lookAll]
  rcases advance c p with ⟨c' | r, p'⟩
  · exact .inl rfl
  cases r with
  | error f => exact .inl rfl
  | ok n =>
    dsimp only
    by_cases hn : n = 0
    · rw [dif_pos hn, if_pos hn]
      exact .inl rfl
    rw [dif_neg hn, if_neg hn]
    by_cases hle : left.length ≤ n
    · rw [dif_pos hle, if_pos hle]
      exact .inl rfl
    · rw [dif_neg hle, if_neg hle]
      exact .inr ⟨n, p', hn, Nat.lt_of_not_le hle, rfl, rfl⟩

end Pipe
end ContainerLayer
