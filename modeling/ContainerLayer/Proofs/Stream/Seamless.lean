import ContainerLayer.Proofs.Filter.Schedule
import ContainerLayer.Proofs.Stream.Playing

/-
Programs that do not see where their input is cut.

A `Batch` is a reader with bytes that were cut into pieces, and a clean end or a fault behind
them.  Two programs agree if they come to the same, up to a relation between their results, on
batches with the same bytes and the same end, however these are cut (`Tape.Agrees`).  Loops that
read until they have what they want agree with themselves, and so does what is put together from
them.  Unlike `Tape.Plays` this is also about programs that fail.
-/

namespace ContainerLayer

/-- Bytes in pieces, and the fault behind them if their end is not clean. -/
structure Batch where
  pieces : List Bytes
  fault : Option Fault

namespace Batch

/-- All bytes that are to come. -/
def left (b : Batch) : Bytes := b.pieces.flatten

/-- What reads find behind the bytes. -/
def ending (b : Batch) : Except Fault Bytes :=
  match b.fault with
  | none => .ok []
  | some f => .error (.shared f)

/-- The fault behind the bytes, or `early` if their end is clean. -/
def faultOr (early : Fault) (b : Batch) : Fault :=
  match b.fault with
  | none => early
  | some f => .shared f

/-- One read, which never goes beyond a piece. -/
def readPieces (n : Nat) (fault : Option Fault) : List Bytes → Except Fault Bytes × Batch
  | [] => ((⟨[], fault⟩ : Batch).ending, ⟨[], fault⟩)
  | x :: rest =>
    if x = [] then readPieces n fault rest
    else (.ok (x.take n), ⟨if x.length ≤ n then rest else x.drop n :: rest, fault⟩)

def read (n : Nat) (b : Batch) : Except Fault Bytes × Batch :=
  if n = 0 then (.ok [], b) else readPieces n b.fault b.pieces

/-- The same bytes with the same end. -/
structure Alike (b b' : Batch) : Prop where
  left : b.left = b'.left
  fault : b.fault = b'.fault

variable {b b' : Batch} {n : Nat}

theorem Alike.trans {b'' : Batch} (h : b.Alike b') (h' : b'.Alike b'') : b.Alike b'' :=
  ⟨h.left.trans h'.left, h.fault.trans h'.fault⟩

theorem Alike.ending (h : b.Alike b') : b.ending = b'.ending := by
  rw [Batch.ending, Batch.ending, h.fault]

theorem Alike.faultOr (h : b.Alike b') (early : Fault) : b.faultOr early = b'.faultOr early := by
  rw [Batch.faultOr, Batch.faultOr, h.fault]

theorem Alike.symm (h : b.Alike b') : b'.Alike b := ⟨h.left.symm, h.fault.symm⟩

/-- `x` is the front of the bytes, and `b'` has the rest of them. -/
structure Splits (b : Batch) (x : Bytes) (b' : Batch) : Prop where
  left : b.left = x ++ b'.left
  fault : b'.fault = b.fault

theorem Splits.ending {x : Bytes} (h : b.Splits x b') : b'.ending = b.ending := by
  rw [Batch.ending, Batch.ending, h.fault]

theorem Splits.faultOr {x : Bytes} (h : b.Splits x b') (early : Fault) :
    b'.faultOr early = b.faultOr early := by
  rw [Batch.faultOr, Batch.faultOr, h.fault]

theorem Splits.le_iff {x : Bytes} (h : b.Splits x b') :
    n - x.length ≤ b'.left.length ↔ n ≤ b.left.length := by
  rw [h.left, List.length_append]
  omega

theorem Splits.take {x : Bytes} (h : b.Splits x b') (hx : x.length ≤ n) :
    b.left.take n = x ++ b'.left.take (n - x.length) := by
  rw [h.left, List.take_append, List.take_of_length_le hx]

theorem Splits.alike_drop {x : Bytes} (h : b.Splits x b') (hx : x.length ≤ n) :
    Alike ⟨[b'.left.drop (n - x.length)], b'.fault⟩ ⟨[b.left.drop n], b.fault⟩ := by
  refine ⟨?_, h.fault⟩
  rw [h.left, List.drop_append, List.drop_eq_nil_of_le hx, List.nil_append]
  rfl

theorem eq_nil_of_ending {x : Bytes} (h : b.ending = .ok x) : x = [] := by
  unfold ending at h
  split at h
  · exact (Except.ok.inj h).symm
  · cases h

/-- Where nothing is left, a read finds the end or a fault. -/
theorem ending_cases (b : Batch) (early : Fault) :
    b.ending = .ok [] ∧ b.faultOr early = early
      ∨ ∃ k, b.ending = .error k ∧ b.faultOr early = k := by
  unfold ending faultOr
  cases b.fault with
  | none => exact .inl ⟨rfl, rfl⟩
  | some f => exact .inr ⟨.shared f, rfl, rfl⟩

/-- A read returns some of the bytes, or there are none. -/
theorem readPieces_cases (hn : n ≠ 0) (fault : Option Fault) (pieces : List Bytes) :
    (∃ x b', x ≠ [] ∧ x.length ≤ n ∧ readPieces n fault pieces = (.ok x, b')
        ∧ Splits ⟨pieces, fault⟩ x b')
      ∨ pieces.flatten = []
        ∧ readPieces n fault pieces = ((⟨[], fault⟩ : Batch).ending, ⟨[], fault⟩) := by
  induction pieces with
  | nil => exact .inr ⟨rfl, rfl⟩
  | cons x rest ih =>
    by_cases hx : x = []
    · rw [readPieces, if_pos hx, hx, List.flatten_cons, List.nil_append]
      rcases ih with ⟨x', b', h₁, h₂, h₃, h₄⟩ | ih
      · exact .inl ⟨x', b', h₁, h₂, h₃, h₄.left, h₄.fault⟩
      · exact .inr ih
    · left
      refine ⟨x.take n, ⟨if x.length ≤ n then rest else x.drop n :: rest, fault⟩, ?_,
        List.length_take_le _ _, ?_, ?_, rfl⟩
      · exact fun e => (List.take_eq_nil_iff.mp e).elim hn hx
      · rw [readPieces, if_neg hx]
      · show (x :: rest).flatten
          = x.take n ++ (if x.length ≤ n then rest else x.drop n :: rest).flatten
        split
        · rename_i hle
          rw [List.take_of_length_le hle, List.flatten_cons]
        · rw [List.flatten_cons, List.flatten_cons, ← List.append_assoc, List.take_append_drop]

theorem read_cases (hn : n ≠ 0) (b : Batch) :
    (∃ x b', x ≠ [] ∧ x.length ≤ n ∧ b.read n = (.ok x, b') ∧ b.Splits x b')
      ∨ b.left = [] ∧ b.read n = (b.ending, ⟨[], b.fault⟩) := by
  rw [read, if_neg hn]
  exact readPieces_cases hn b.fault b.pieces

/-- Reading until there are `n` bytes or there is nothing left, at most `size n` bytes at a time:
what holds of no bytes, and of `n` bytes if it holds of those behind the first piece, and of a
batch that is at its end, holds of all batches. -/
theorem read_induction {P : Nat → Batch → Prop} (size : Nat → Nat)
    (hsize : ∀ n, n ≠ 0 → size n ≠ 0 ∧ size n ≤ n) (zero : ∀ b, P 0 b)
    (piece : ∀ n b x b', n ≠ 0 → x ≠ [] → x.length ≤ n → b.read (size n) = (.ok x, b') →
      b.Splits x b' → P (n - x.length) b' → P n b)
    (ending : ∀ n b, n ≠ 0 → ¬ n ≤ b.left.length → b.left = [] →
      b.read (size n) = (b.ending, ⟨[], b.fault⟩) → P n b)
    (n : Nat) (b : Batch) : P n b := by
  induction n using Nat.strongRecOn generalizing b with
  | ind n ih =>
    by_cases hn : n = 0
    · subst hn
      exact zero b
    obtain ⟨hpos, hle⟩ := hsize n hn
    rcases b.read_cases hpos with ⟨x, b', hx, hlen, e, hsplit⟩ | ⟨hnil, e⟩
    · have hx0 : 0 < x.length := List.length_pos_iff.mpr hx
      exact piece n b x b' hn hx (Nat.le_trans hlen hle) e hsplit (ih _ (by omega) b')
    · refine ending n b hn ?_ hnil e
      rw [hnil, List.length_nil]
      omega

theorem alike_drop_zero (b : Batch) : b.Alike ⟨[b.left.drop 0], b.fault⟩ :=
  ⟨(List.append_nil _).symm, rfl⟩

theorem alike_drop_of_nil (h : b.left = []) (n : Nat) :
    Alike ⟨[], b.fault⟩ ⟨[b.left.drop n], b.fault⟩ := by
  refine ⟨?_, rfl⟩
  rw [h, List.drop_nil]
  rfl

theorem read_not_interrupted {f : Fault} (h : (b.read n).1 = .error f) :
    f.isInterrupted = false := by
  by_cases hn : n = 0
  · rw [read, if_pos hn] at h
    cases h
  · rcases b.read_cases hn with ⟨x, b', -, -, e, -⟩ | ⟨-, e⟩
    · rw [e] at h
      cases h
    · rw [e] at h
      unfold ending at h
      split at h
      · cases h
      · cases h
        exact Fault.isInterrupted_shared _

instance : Reader Batch where
  read := read
  patience _ := 0
  patience_lt n b f h hf := by
    rw [read_not_interrupted h] at hf
    cases hf

theorem answer_eq (n : Nat) (patient : Bool) (b : Batch) :
    Relay.answer n patient b = b.read n :=
  Relay.answer_of_read (Prod.ext rfl rfl) fun _ h _ => read_not_interrupted h

end Batch

namespace Tape

variable {α β α' β' : Type}

/-- Both end with the same fault, or with results that are related and at the same position. -/
inductive Matches (R : α → α' → Prop) : Except Fault (α × Nat) → Except Fault (α' × Nat) → Prop
  | ok {a : α} {a' : α'} (h : R a a') (position : Nat) :
      Matches R (.ok (a, position)) (.ok (a', position))
  | error (f : Fault) : Matches R (.error f) (.error f)

/-- On batches that are alike, the programs come to the same and leave the same. -/
def Agrees (R : α → α' → Prop) (w : Tape α) (w' : Tape α') : Prop :=
  ∀ (position : Nat) (b b' : Batch), b.Alike b' →
    Matches R (Relay.run (w.run position) b).result (Relay.run (w'.run position) b').result
      ∧ (Relay.run (w.run position) b).rest.Alike (Relay.run (w'.run position) b').rest

variable {R : α → α' → Prop} {S : β → β' → Prop}

theorem agrees_pure {a : α} {a' : α'} (h : R a a') : Agrees R (pure a) (pure a') :=
  fun position _ _ hb => ⟨.ok h position, hb⟩

theorem agrees_throw (f : Fault) : Agrees R (throw f) (throw f) :=
  fun _ _ _ hb => ⟨.error f, hb⟩

theorem Agrees.bind {w : Tape α} {w' : Tape α'} {f : α → Tape β} {f' : α' → Tape β'}
    (h : Agrees R w w') (hf : ∀ a a', R a a' → Agrees S (f a) (f' a')) :
    Agrees S (w >>= f) (w' >>= f') := by
  intro position b b' hb
  obtain ⟨hresult, hrest⟩ := h position b b' hb
  rw [run_bind, run_bind, Relay.result_run_bind, Relay.result_run_bind, Relay.rest_run_bind,
    Relay.rest_run_bind]
  revert hresult hrest
  generalize Relay.run (w.run position) b = o
  generalize Relay.run (w'.run position) b' = o'
  obtain ⟨r, _, rest⟩ := o
  obtain ⟨r', _, rest'⟩ := o'
  intro hresult hrest
  cases hresult with
  | ok ha position' => exact hf _ _ ha position' _ _ hrest
  | error k => exact ⟨.error k, hrest⟩

/-! ## Loops -/

/-- The program comes to `r` and leaves `b'`. -/
def Comes (w : Tape α) (position : Nat) (b : Batch) (r : Except Fault (α × Nat)) (b' : Batch) :
    Prop :=
  (Relay.run (w.run position) b).result = r ∧ (Relay.run (w.run position) b).rest = b'

variable {w : Tape α} {f : α → Tape β} {position position' n : Nat} {b b' b'' : Batch} {a : α}
  {r : Except Fault (β × Nat)}

theorem comes_pure (a : α) (position : Nat) (b : Batch) :
    Comes (pure a) position b (.ok (a, position)) b := ⟨rfl, rfl⟩

theorem comes_throw (k : Fault) (position : Nat) (b : Batch) :
    Comes (throw k : Tape α) position b (.error k) b := ⟨rfl, rfl⟩

theorem Comes.bind (h : Comes w position b (.ok (a, position')) b')
    (hf : Comes (f a) position' b' r b'') : Comes (w >>= f) position b r b'' := by
  unfold Comes
  rw [run_bind, Relay.result_run_bind, Relay.rest_run_bind, h.1, h.2]
  exact hf

theorem Comes.bind_pure (h : Comes w position b (.ok (a, position')) b') (g : α → β) :
    Comes (w >>= fun a => pure (g a)) position b (.ok (g a, position')) b' :=
  h.bind (comes_pure _ _ _)

theorem Comes.bind_error {k : Fault} (h : Comes w position b (.error k) b') :
    Comes (w >>= f) position b (.error k) b' := by
  unfold Comes
  rw [run_bind, Relay.result_run_bind, Relay.rest_run_bind, h.1, h.2]
  exact ⟨rfl, rfl⟩

theorem comes_attempt (n : Nat) (patient : Bool) (position : Nat) (b : Batch) :
    Comes (attempt n patient) position b
      (match (b.read n).1 with
        | .ok x => .ok (.ok x, position + x.length)
        | .error k => .ok (.error k, position)) (b.read n).2 := by
  unfold Comes attempt Relay.run
  show (Relay.runOnto [] (.read n patient _) b).result = _
    ∧ (Relay.runOnto [] (.read n patient _) b).rest = _
  rw [Relay.runOnto, Batch.answer_eq]
  cases b.read n with
  | mk r b' => cases r <;> exact ⟨rfl, rfl⟩

theorem comes_read (n : Nat) (patient : Bool) (position : Nat) (b : Batch) :
    Comes (read n patient) position b
      (match (b.read n).1 with
        | .ok x => .ok (x, position + x.length)
        | .error k => .error k) (b.read n).2 := by
  have h := comes_attempt n patient position b
  unfold read
  cases hr : (b.read n).1 with
  | ok x =>
    rw [hr] at h
    exact h.bind (comes_pure x _ _)
  | error k =>
    rw [hr] at h
    exact h.bind (comes_throw k _ _)

/-- Gathering comes to what the bytes and their end say. -/
theorem comes_gather (n : Nat) (patient : Bool) (position : Nat) (b : Batch) :
    ∃ b', Comes (gather n patient) position b
        (if n ≤ b.left.length then .ok (b.left.take n, position + n)
          else b.ending.map fun _ => (b.left, position + b.left.length)) b'
      ∧ b'.Alike ⟨[b.left.drop n], b.fault⟩ := by
  induction n, b using Batch.read_induction id (fun _ hn => ⟨hn, Nat.le_refl _⟩)
    generalizing position with
  | zero b =>
    rw [gather, dif_pos rfl, if_pos (Nat.zero_le _)]
    exact ⟨b, comes_pure _ _ _, b.alike_drop_zero⟩
  | piece n b x b₁ hn hx hlen e hsplit ih =>
    have hread := comes_read n patient position b
    rw [show b.read n = _ from e] at hread
    obtain ⟨b₂, hmore, halike⟩ := ih (position + x.length)
    refine ⟨b₂, ?_, halike.trans (hsplit.alike_drop hlen)⟩
    rw [gather, dif_neg hn]
    refine hread.bind ?_
    rw [dif_neg hx]
    by_cases hle : n ≤ b.left.length
    · rw [if_pos (hsplit.le_iff.mpr hle)] at hmore
      rw [if_pos hle, hsplit.take hlen]
      have hdone := hmore.bind_pure (x ++ ·)
      rwa [Nat.add_assoc, Nat.add_sub_cancel' hlen] at hdone
    · rw [if_neg (fun h => hle (hsplit.le_iff.mp h)), hsplit.ending] at hmore
      rw [if_neg hle]
      cases hend : b.ending with
      | error k =>
        rw [hend] at hmore
        exact hmore.bind_error
      | ok y =>
        rw [hend] at hmore
        have hdone := hmore.bind_pure (x ++ ·)
        rwa [Nat.add_assoc, ← List.length_append, ← hsplit.left] at hdone
  | ending n b hn hle hnil e =>
    have hread := comes_read n patient position b
    rw [show b.read n = _ from e] at hread
    refine ⟨_, ?_, Batch.alike_drop_of_nil hnil n⟩
    rw [gather, dif_neg hn, if_neg hle, hnil]
    cases hend : b.ending with
    | error k =>
      rw [hend] at hread
      exact hread.bind_error
    | ok y =>
      obtain rfl := b.eq_nil_of_ending hend
      rw [hend] at hread
      refine hread.bind ?_
      rw [dif_pos rfl]
      exact comes_pure _ _ _

theorem comes_skip (n : Nat) (early : Fault) (position : Nat) (b : Batch) :
    ∃ b', Comes (skip n early) position b
        (if n ≤ b.left.length then .ok ((), position + n) else .error (b.faultOr early)) b'
      ∧ b'.Alike ⟨[b.left.drop n], b.fault⟩ := by
  induction n, b using Batch.read_induction (fun n => min n 32768) (fun n hn => by omega)
    generalizing position with
  | zero b =>
    rw [skip, dif_pos rfl, if_pos (Nat.zero_le _)]
    exact ⟨b, comes_pure _ _ _, b.alike_drop_zero⟩
  | piece n b x b₁ hn hx hlen e hsplit ih =>
    have hread := comes_read (min n 32768) false position b
    rw [e] at hread
    obtain ⟨b₂, hmore, halike⟩ := ih (position + x.length)
    refine ⟨b₂, ?_, halike.trans (hsplit.alike_drop hlen)⟩
    rw [skip, dif_neg hn]
    refine hread.bind ?_
    rw [dif_neg hx]
    rw [Nat.add_assoc, Nat.add_sub_cancel' hlen, hsplit.faultOr] at hmore
    by_cases hle : n ≤ b.left.length
    · rw [if_pos (hsplit.le_iff.mpr hle)] at hmore
      rwa [if_pos hle]
    · rw [if_neg (fun h => hle (hsplit.le_iff.mp h))] at hmore
      rwa [if_neg hle]
  | ending n b hn hle hnil e =>
    have hread := comes_read (min n 32768) false position b
    rw [e] at hread
    refine ⟨_, ?_, Batch.alike_drop_of_nil hnil n⟩
    rw [skip, dif_neg hn, if_neg hle]
    rcases b.ending_cases early with ⟨hend, hfault⟩ | ⟨k, hend, hfault⟩
    · rw [hend] at hread
      rw [hfault]
      refine hread.bind ?_
      rw [dif_pos rfl]
      exact comes_throw _ _ _
    · rw [hend] at hread
      rw [hfault]
      exact hread.bind_error

/-- Programs that come to what the bytes and their end say agree. -/
theorem agrees_of_comes {w : Tape α} {w' : Tape α'}
    (h : ∀ (position : Nat) (b b' : Batch), b.Alike b' → ∃ r r' c c', Comes w position b r c
      ∧ Comes w' position b' r' c' ∧ Matches R r r' ∧ c.Alike c') : Agrees R w w' := by
  intro position b b' hb
  obtain ⟨r, r', c, c', ⟨rfl, rfl⟩, ⟨rfl, rfl⟩, hmatches, halike⟩ := h position b b' hb
  exact ⟨hmatches, halike⟩

theorem matches_refl (r : Except Fault (α × Nat)) : Matches Eq r r := by
  cases r with
  | ok a => exact .ok rfl a.2
  | error k => exact .error k

/-- The program does not see where its input is cut. -/
def Seamless (w : Tape α) : Prop := Agrees Eq w w

theorem seamless_pure (a : α) : Seamless (pure a) := agrees_pure rfl

theorem seamless_throw (k : Fault) : Seamless (throw k : Tape α) := agrees_throw k

theorem Seamless.bind {w : Tape α} {f : α → Tape β} (h : Seamless w) (hf : ∀ a, Seamless (f a)) :
    Seamless (w >>= f) := by
  refine Agrees.bind h fun a a' ha => ?_
  subst ha
  exact hf a

theorem seamless_position : Seamless Tape.position :=
  fun p _ _ hb => ⟨.ok rfl p, hb⟩

theorem seamless_gather (n : Nat) (patient : Bool) : Seamless (gather n patient) := by
  refine agrees_of_comes fun position b b' hb => ?_
  obtain ⟨c, hc, halike⟩ := comes_gather n patient position b
  obtain ⟨c', hc', halike'⟩ := comes_gather n patient position b'
  rw [← hb.left, ← hb.ending] at hc'
  rw [← hb.left, ← hb.fault] at halike'
  exact ⟨_, _, c, c', hc, hc', matches_refl _, halike.trans halike'.symm⟩

theorem seamless_skip (n : Nat) (early : Fault) : Seamless (skip n early) := by
  refine agrees_of_comes fun position b b' hb => ?_
  obtain ⟨c, hc, halike⟩ := comes_skip n early position b
  obtain ⟨c', hc', halike'⟩ := comes_skip n early position b'
  rw [← hb.left, ← hb.faultOr] at hc'
  rw [← hb.left, ← hb.fault] at halike'
  exact ⟨_, _, c, c', hc, hc', matches_refl _, halike.trans halike'.symm⟩

end Tape
end ContainerLayer
