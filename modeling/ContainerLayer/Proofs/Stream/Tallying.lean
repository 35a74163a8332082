import ContainerLayer.Proofs.Digest
import ContainerLayer.Proofs.Stream.Mirroring
import ContainerLayer.Stream.Cancelable
import ContainerLayer.Stream.Source

/-
What a reader has told of at any time.

A source inside a reader that can be canceled, inside one that digests, inside one that counts:
all three are to tell of the same bytes, namely of those that were handed out.  Each step keeps
that, whether it reads a little, reads to the end, fails, or only asks.
-/

namespace ContainerLayer
namespace Reader.Tallies

variable {σ τ : Type} [Reader σ] [Reader τ] {inside : τ → σ} {Told : τ → Bytes → Prop}

/-- A source tallies what is gone from its data. -/
theorem source (whole : Bytes) :
    Tallies (id : Source → Source) fun s b => whole = b ++ s.remaining where
  read_fst _ _ := rfl
  inside_read _ _ := rfl
  of_ok n s b more hs hr := by
    have hread := Source.read_remaining n s
    rw [show (Source.read n s).1 = .ok more from hr] at hread
    rw [List.append_assoc, hs, hread]
    rfl
  of_error n s b f hs hr := by
    have hread := Source.read_remaining n s
    rw [show (Source.read n s).1 = .error f from hr] at hread
    rw [hs, hread]
    rfl

/-- A reader that can be canceled tallies what the reader inside does, since it leaves that one
alone once it is canceled. -/
theorem cancelable {Told : σ → Bytes → Prop} (h : Tallies (id : σ → σ) Told) :
    Tallies (id : Cancelable σ → Cancelable σ) fun s b => Told s.inner b where
  read_fst _ _ := rfl
  inside_read _ _ := rfl
  of_ok n s b more hs hr := by
    cases hc : s.canceled with
    | some f =>
      rw [show read n s = _ from Cancelable.read_of_canceled hc n] at hr
      cases hr
    | none =>
      rw [show read n s = _ from Cancelable.read_of_open hc n] at hr ⊢
      exact h.of_ok n s.inner b more hs hr
  of_error n s b f hs hr := by
    cases hc : s.canceled with
    | some g =>
      rw [show read n s = _ from Cancelable.read_of_canceled hc n]
      exact hs
    | none =>
      rw [show read n s = _ from Cancelable.read_of_open hc n] at hr ⊢
      exact h.of_error n s.inner b f hs hr

theorem of_read_ok (h : Tallies inside Told) {n : Nat} {t t' : τ} {b more : Bytes}
    (ht : Told t b) (hr : read n t = (.ok more, t')) : Told t' (b ++ more) := by
  have htold := h.of_ok n t b more ht (by rw [hr])
  rwa [hr] at htold

theorem of_read_error (h : Tallies inside Told) {n : Nat} {t t' : τ} {b : Bytes} {f : Fault}
    (ht : Told t b) (hr : read n t = (.error f, t')) : Told t' b := by
  have htold := h.of_error n t b f ht (by rw [hr])
  rwa [hr] at htold

/-- Reading to the end tallies all that it has collected, also if it fails. -/
theorem drainOnto [Finite τ] (h : Tallies inside Told) (n : Nat) (acc : List Bytes) (t : τ)
    (b : Bytes) (ht : Told t b) :
    ∃ more, (Reader.drainOnto n acc t).data = acc.reverse.flatten ++ more
      ∧ Told (Reader.drainOnto n acc t).rest (b ++ more) := by
  fun_induction Reader.drainOnto n acc t generalizing b with
  | case1 acc t t' hr => exact ⟨[], (List.append_nil _).symm, h.of_read_ok ht hr⟩
  | case2 acc t c t' hr hc hlt ih =>
    obtain ⟨more, hdata, hrest⟩ := ih (b ++ c) (h.of_read_ok ht hr)
    refine ⟨c ++ more, ?_, ?_⟩
    · rw [hdata, List.reverse_cons, List.flatten_append, List.flatten_singleton, List.append_assoc]
    · rw [← List.append_assoc]
      exact hrest
  | case3 acc t f t' hr hf hlt ih => exact ih b (h.of_read_error ht hr)
  | case4 acc t f t' hr hf =>
    refine ⟨[], (List.append_nil _).symm, ?_⟩
    rw [List.append_nil]
    exact h.of_read_error ht hr

end Reader.Tallies

/-- A source that can be canceled, and is digested and counted. -/
abbrev Stack := Counted (Digested (Cancelable Source))

namespace Stack

/-- What can be done with it. -/
inductive Step where
  | read (n : Nat)
  /-- Reads to the end, at most `n` bytes at a time. -/
  | drain (n : Nat)
  | cancel (f : Fault)
  | isCanceled
  | count
  | digest

inductive Answer where
  | received (r : Except Fault Bytes)
  /-- What was read, and the fault if the end was not reached. -/
  | drained (data : Bytes) (fault : Option Fault)
  | ok
  | canceled (yes : Bool)
  | counted (n : Nat)
  | digested (d : Except Digest.Flaw Digest)

/-- The bytes that the answer hands out. -/
def Answer.bytes : Answer → Bytes
  | .received (.ok b) => b
  | .drained b _ => b
  | _ => []

def step (s : Stack) : Step → Answer × Stack
  | .read n => (.received (Reader.read n s).1, (Reader.read n s).2)
  | .drain n =>
    let d := Reader.drainOnto n [] s
    (.drained d.data d.fault, d.rest)
  | .cancel f =>
    (.ok, { s with inner := { s.inner with inner := s.inner.inner.cancel f } })
  | .isCanceled => (.canceled s.inner.inner.canceled.isSome, s)
  | .count => (.counted s.count, s)
  | .digest => (.digested s.inner.digest, s)

def run (s : Stack) : List Step → List Answer × Stack
  | [] => ([], s)
  | t :: ts => ((s.step t).1 :: (run (s.step t).2 ts).1, (run (s.step t).2 ts).2)

/-- Nothing has been done yet with the source. -/
def start (script : Source) : Stack := ⟨⟨⟨script, none⟩, Sha256.start⟩, 0⟩

/-- `b` is what was handed out of `whole`. -/
structure Tells (whole : Bytes) (s : Stack) (b : Bytes) : Prop where
  rest : whole = b ++ s.inner.inner.inner.remaining
  hasher : s.inner.hasher = Sha256.start.update b
  count : s.count = b.length

theorem tells_start (script : Source) : (start script).Tells script.remaining [] where
  rest := rfl
  hasher := rfl
  count := rfl

/-- Each of the three readers tallies what the one inside does. -/
theorem tallies (whole : Bytes) :
    Reader.Tallies (fun s : Stack => s.inner.inner) (Tells whole) := by
  have htells : Tells whole = fun s b => (whole = b ++ s.inner.inner.inner.remaining
      ∧ s.inner.hasher = Sha256.start.update b) ∧ s.count = b.length := by
    funext s b
    exact propext ⟨fun h => ⟨⟨h.rest, h.hasher⟩, h.count⟩, fun h => ⟨h.1.1, h.1.2, h.2⟩⟩
  rw [htells]
  exact (Reader.Tallies.source whole).cancelable.digested.counted

/-- A step that hands out nothing. -/
theorem Tells.of_bytes_nil {whole : Bytes} {s : Stack} {b : Bytes} {a : Answer}
    (h : s.Tells whole b) (ha : a.bytes = []) : s.Tells whole (b ++ a.bytes) := by
  rw [ha, List.append_nil]
  exact h

theorem Tells.step {whole : Bytes} {s : Stack} {b : Bytes} (h : s.Tells whole b) (t : Step) :
    (s.step t).2.Tells whole (b ++ (s.step t).1.bytes) := by
  cases t with
  | read n =>
    cases hr : Reader.read n s with
    | mk r s' =>
      rw [Stack.step, hr]
      cases r with
      | ok more => exact (tallies whole).of_read_ok h hr
      | error f => exact of_bytes_nil ((tallies whole).of_read_error h hr) rfl
  | drain n =>
    obtain ⟨more, hdata, hrest⟩ := (tallies whole).drainOnto n [] s b h
    rw [show (s.step (.drain n)).1.bytes = more from hdata]
    exact hrest
  | cancel f => exact of_bytes_nil ⟨h.rest, h.hasher, h.count⟩ rfl
  | isCanceled => exact of_bytes_nil h rfl
  | count => exact of_bytes_nil h rfl
  | digest => exact of_bytes_nil h rfl

theorem Tells.run {whole : Bytes} {s : Stack} {b : Bytes} (h : s.Tells whole b)
    (ts : List Step) : (s.run ts).2.Tells whole (b ++ (s.run ts).1.flatMap Answer.bytes) := by
  induction ts generalizing s b with
  | nil =>
    rw [Stack.run, List.flatMap_nil, List.append_nil]
    exact h
  | cons t ts ih =>
    rw [Stack.run, List.flatMap_cons, ← List.append_assoc]
    exact ih (h.step t)

theorem Tells.digest {whole : Bytes} {s : Stack} {b : Bytes} (h : s.Tells whole b) :
    s.inner.digest = .ok ⟨"sha256", (Sha256.hash b).hex⟩ := by
  rw [Digested.digest, h.hasher, Digest.ofSha256_eq (Sha256.length_finish _)]
  rfl

/-- What has been handed out leaves no choice for what the readers tell. -/
theorem Tells.unique {whole : Bytes} {s s' : Stack} {b : Bytes} (h : s.Tells whole b)
    (h' : s'.Tells whole b) :
    s'.count = s.count ∧ s'.inner.hasher = s.inner.hasher
      ∧ s'.inner.inner.inner.remaining = s.inner.inner.inner.remaining :=
  ⟨h'.count.trans h.count.symm, h'.hasher.trans h.hasher.symm,
    List.append_cancel_left (h'.rest.symm.trans h.rest)⟩

/-- Whatever a source has in store and whatever is done with it: the count is the length of what
was handed out, the digest is of exactly that, and with the data that are left it makes up the
data of the source.  A step that hands out nothing changes none of these. -/
theorem run_accounts (script : Source) (ts : List Step) :
    let s := ((start script).run ts).2
    let handed := ((start script).run ts).1.flatMap Answer.bytes
    s.count = handed.length
      ∧ s.inner.digest = .ok ⟨"sha256", (Sha256.hash handed).hex⟩
      ∧ handed ++ s.inner.inner.inner.remaining = script.remaining
      ∧ ∀ t, (s.step t).1.bytes = [] →
          (s.step t).2.count = s.count
            ∧ (s.step t).2.inner.hasher = s.inner.hasher
            ∧ (s.step t).2.inner.inner.inner.remaining = s.inner.inner.inner.remaining := by
  intro s handed
  have h : s.Tells script.remaining handed := (tells_start script).run ts
  refine ⟨h.count, h.digest, h.rest.symm, fun t ht => ?_⟩
  have hstep := h.step t
  rw [ht, List.append_nil] at hstep
  exact h.unique hstep

/-- A source that is interrupted, goes on and then fails. -/
def faltering : Source :=
  [.data [1, 2, 3], .fault (.ofKind .interrupted), .data [4], .fault (.ofKind .connectionReset),
    .data [5, 6]]

/-- Three reads bring four bytes.  Neither the faults nor canceling it counts for anything, and
two bytes are left. -/
theorem run_accounts_faltering :
    let s := ((start faltering).run
      [.read 2, .read 2, .read 2, .read 2, .read 2, .cancel (.ofKind .timedOut)]).2
    s.count = 4
      ∧ s.inner.digest = .ok ⟨"sha256", (Sha256.hash [1, 2, 3, 4]).hex⟩
      ∧ [1, 2, 3, 4] ++ s.inner.inner.inner.remaining = [1, 2, 3, 4, 5, 6]
      ∧ (s.step (.read 2)).2.count = 4 := by
  obtain ⟨hcount, hdigest, hrest, hquiet⟩ := run_accounts faltering
    [.read 2, .read 2, .read 2, .read 2, .read 2, .cancel (.ofKind .timedOut)]
  exact ⟨hcount, hdigest, hrest, (hquiet (.read 2) rfl).1.trans hcount⟩

end Stack
end ContainerLayer
