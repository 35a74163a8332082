import ContainerLayer.Filter
import ContainerLayer.Proofs.Stream.Poisoning
import Mathlib.Algebra.Ring.Nat
import Mathlib.Data.List.Induction

/-
How exact reading an exact number of bytes is.

The reader inside may do whatever a reader can do: give less than there is room for, end, fail
and go on, hold more than is wanted.  A reading is looked at together with all the calls that it
makes of the reader inside.  `Reading.Kept` is the account of these calls: what they gave is what
was handed on, and the countdown stands at what is missing.  One read keeps it, and so do reads
of any sizes.
-/

namespace ContainerLayer
namespace Exact

/-- A reader inside.  It may do anything but give more than there is room for, which no reader
does. -/
structure Inner (σ : Type) where
  read : Nat → σ → Except Fault Bytes × σ
  length_le : ∀ n s b, (read n s).1 = .ok b → b.length ≤ n

/-- A call of the reader inside: how much it asks for, and what it comes to. -/
abbrev Call := Nat × Except Fault Bytes

namespace Inner

variable {σ : Type} (i : Inner σ)

/-- Calls of the given sizes, one after the other: what each of them comes to, and what they
leave. -/
def reads (s : σ) : List Nat → List (Except Fault Bytes) × σ
  | [] => ([], s)
  | n :: ns => ((i.read n s).1 :: (reads (i.read n s).2 ns).1, (reads (i.read n s).2 ns).2)

/-- The state behind a call that is written down. -/
def behind (n : Nat) (t : σ × List Call) : σ × List Call :=
  ((i.read n t.1).2, t.2 ++ [(n, (i.read n t.1).1)])

/-- A call that is written down. -/
def call (n : Nat) : ExceptT Fault (StateM (σ × List Call)) Bytes := fun t =>
  ((i.read n t.1).1, i.behind n t)

theorem call_bind_of_ok {α : Type} {n : Nat} {t : σ × List Call} {b : Bytes}
    (h : (i.read n t.1).1 = .ok b) (next : Bytes → ExceptT Fault (StateM (σ × List Call)) α) :
    (i.call n >>= next) t = next b (i.behind n t) := by
  simp only [bind, ExceptT.bind, ExceptT.mk, StateT.bind, call, h, ExceptT.bindCont]

theorem call_bind_of_error {α : Type} {n : Nat} {t : σ × List Call} {f : Fault}
    (h : (i.read n t.1).1 = .error f) (next : Bytes → ExceptT Fault (StateM (σ × List Call)) α) :
    (i.call n >>= next) t = (.error f, i.behind n t) := by
  simp only [bind, ExceptT.bind, ExceptT.mk, StateT.bind, call, h, ExceptT.bindCont]
  rfl

theorem reads_append (s : σ) (ns ks : List Nat) :
    i.reads s (ns ++ ks)
      = ((i.reads s ns).1 ++ (i.reads (i.reads s ns).2 ks).1, (i.reads (i.reads s ns).2 ks).2) := by
  induction ns generalizing s with
  | nil => rfl
  | cons n ns ih => rw [List.cons_append, reads, ih, reads, List.cons_append]

theorem length_handed_le (n : Nat) (s : σ) :
    (Reader.handed [(i.read n s).1]).length ≤ n := by
  cases ha : (i.read n s).1 with
  | ok b => simpa [Reader.handed, Except.toOption] using i.length_le n s b ha
  | error f => exact Nat.zero_le n

end Inner

/-- A reading in progress: the countdown, the reader inside, and the calls of it so far. -/
structure Reading (σ : Type) where
  countdown : Exact
  inner : σ
  calls : List Call

namespace Reading

variable {σ : Type} (i : Inner σ)

def start (size : Nat) (s : σ) : Reading σ := ⟨⟨size⟩, s, []⟩

/-- How much the calls asked for. -/
def asked (r : Reading σ) : List Nat := r.calls.map Prod.fst

/-- What the calls came to. -/
def answers (r : Reading σ) : List (Except Fault Bytes) := r.calls.map Prod.snd

/-- One read with room for `n` bytes.  A fault leaves the countdown where it is. -/
def read (n : Nat) (r : Reading σ) : Except Fault Bytes × Reading σ :=
  match r.countdown.read i.call n (r.inner, r.calls) with
  | (.ok (b, x), s, calls) => (.ok b, ⟨x, s, calls⟩)
  | (.error f, s, calls) => (.error f, ⟨r.countdown, s, calls⟩)

/-- Reads with room for the given numbers of bytes: what each of them comes to, and what they
leave. -/
def run (r : Reading σ) : List Nat → List (Except Fault Bytes) × Reading σ
  | [] => ([], r)
  | n :: ns => ((r.read i n).1 :: (run (r.read i n).2 ns).1, (run (r.read i n).2 ns).2)

/-- Each of the calls asks for some of what is missing of `size` bytes by then, and gives no more
than it asks for. -/
def Within (size : Nat) (calls : List Call) : Prop :=
  ∀ before k a after, calls = before ++ (k, a) :: after →
    let missing := size - (Reader.handed (before.map Prod.snd)).length
    0 < missing ∧ k ≤ missing ∧ (Reader.handed [a]).length ≤ k

theorem Within.nil (size : Nat) : Within size [] := by
  intro before k a after h
  cases before <;> cases h

theorem Within.concat {size : Nat} {calls : List Call} (h : Within size calls) {c : Call}
    (hmissing : (Reader.handed (calls.map Prod.snd)).length < size)
    (hask : c.1 ≤ size - (Reader.handed (calls.map Prod.snd)).length)
    (hgive : (Reader.handed [c.2]).length ≤ c.1) : Within size (calls ++ [c]) := by
  intro before k a after hsplit
  rcases List.eq_nil_or_concat after with rfl | ⟨after, last, rfl⟩
  · obtain ⟨rfl, hlast⟩ := List.append_inj' hsplit rfl
    cases hlast
    exact ⟨Nat.sub_pos_of_lt hmissing, hask, hgive⟩
  · rw [List.concat_eq_append, ← List.cons_append, ← List.append_assoc] at hsplit
    exact h before k a after (List.append_inj' hsplit rfl).1

theorem run_concat (r : Reading σ) (ns : List Nat) (n : Nat) :
    r.run i (ns ++ [n])
      = ((r.run i ns).1 ++ [((r.run i ns).2.read i n).1], ((r.run i ns).2.read i n).2) := by
  induction ns generalizing r with
  | nil => rfl
  | cons m ns ih => rw [List.cons_append, run, ih, run, List.cons_append]

/-- What becomes of the answer to a call: bytes and faults are handed on, an end is one byte
too early at least. -/
def handOn (x : Exact) : Except Fault Bytes → Except Fault Bytes
  | .ok [] => .error x.short
  | a => a

theorem handed_handOn (x : Exact) (a : Except Fault Bytes) :
    Reader.handed [handOn x a] = Reader.handed [a] := by
  unfold handOn
  split <;> rfl

theorem handOn_ne_end (x : Exact) (a : Except Fault Bytes) : handOn x a ≠ .ok [] := by
  unfold handOn
  split
  · simp
  · assumption

/-- Behind the last byte nothing is called any more. -/
theorem read_of_done {r : Reading σ} (h : r.countdown.remaining = 0) (n : Nat) :
    r.read i n = (.ok [], r) := by
  unfold read Exact.read
  rw [if_pos h]
  rfl

/-- In front of it each read is one call, for no more than is missing. -/
theorem read_of_missing {r : Reading σ} (h : r.countdown.remaining ≠ 0) (n : Nat) :
    let answer := (i.read (r.countdown.want n) r.inner).1
    r.read i n = (handOn r.countdown answer,
      { countdown := ⟨r.countdown.remaining - (Reader.handed [answer]).length⟩
        inner := (i.read (r.countdown.want n) r.inner).2
        calls := r.calls ++ [(r.countdown.want n, answer)] }) := by
  intro answer
  unfold read Exact.read
  rw [if_neg h]
  cases hanswer : (i.read (r.countdown.want n) r.inner).1 with
  | error f =>
    have hanswer' : answer = .error f := hanswer
    rw [i.call_bind_of_error hanswer, hanswer']
    simp only [Inner.behind, hanswer]
    rfl
  | ok b =>
    have hanswer' : answer = .ok b := hanswer
    rw [i.call_bind_of_ok hanswer, hanswer']
    cases b with
    | nil =>
      simp only [Inner.behind, hanswer]
      rfl
    | cons c b =>
      have haccept : r.countdown.accept (c :: b)
          = .ok ⟨r.countdown.remaining - (c :: b).length⟩ := if_neg (List.cons_ne_nil c b)
      have hlen : (Reader.handed [.ok (c :: b)]).length = (c :: b).length := by
        simp [Reader.handed, Except.toOption]
      simp only [Inner.behind, hanswer, haccept, hlen]
      rfl

/-- The account of reads: what they came to, and the calls that they made. -/
structure Kept (s : σ) (size : Nat) (given : List (Except Fault Bytes)) (r : Reading σ) :
    Prop where
  calls : i.reads s r.asked = (r.answers, r.inner)
  handed : Reader.handed given = Reader.handed r.answers
  total : (Reader.handed given).length + r.countdown.remaining = size
  within : Within size r.calls

namespace Kept

variable {i} {s : σ} {size : Nat} {given : List (Except Fault Bytes)} {r : Reading σ}

theorem remaining_eq_zero_iff (h : Kept i s size given r) :
    r.countdown.remaining = 0 ↔ (Reader.handed given).length = size := by
  have := h.total
  omega

theorem of_end (h : Kept i s size given r) : Kept i s size (given ++ [.ok []]) r := by
  have hgiven : Reader.handed (given ++ [.ok []]) = Reader.handed given :=
    (Reader.handed_append ..).trans (List.append_nil _)
  exact ⟨h.calls, hgiven.trans h.handed, hgiven ▸ h.total, h.within⟩

/-- One call more, for no more than is missing. -/
theorem of_call (h : Kept i s size given r) {k : Nat} (hk : k ≤ r.countdown.remaining)
    (hmissing : r.countdown.remaining ≠ 0) :
    let a := (i.read k r.inner).1
    Kept i s size (given ++ [handOn r.countdown a])
      ⟨⟨r.countdown.remaining - (Reader.handed [a]).length⟩, (i.read k r.inner).2,
        r.calls ++ [(k, a)]⟩ := by
  intro a
  have hgive : (Reader.handed [a]).length ≤ k := i.length_handed_le k r.inner
  have htotal := h.total
  have hgiven : Reader.handed (given ++ [handOn r.countdown a])
      = Reader.handed given ++ Reader.handed [a] := by
    rw [Reader.handed_append, handed_handOn]
  constructor
  case calls =>
    have hcalls : i.reads s (r.calls.map Prod.fst) = (r.calls.map Prod.snd, r.inner) := h.calls
    simp only [asked, answers, List.map_append, List.map_cons, List.map_nil]
    rw [i.reads_append, hcalls]
    rfl
  case handed =>
    rw [hgiven, h.handed]
    simp only [answers, List.map_append, List.map_cons, List.map_nil, Reader.handed_append]
  case total =>
    -- no more than `k` came, so the countdown does not stop short at zero
    rw [hgiven, List.length_append]
    dsimp only
    omega
  case within =>
    have hhanded : Reader.handed (r.calls.map Prod.snd) = Reader.handed given := h.handed.symm
    exact h.within.concat (by rw [hhanded]; omega) (by rw [hhanded]; dsimp only; omega) hgive

/-- A read is an end behind the last byte, and one call in front of it. -/
theorem read (h : Kept i s size given r) (n : Nat) :
    Kept i s size (given ++ [(r.read i n).1]) (r.read i n).2 := by
  by_cases hdone : r.countdown.remaining = 0
  · rw [read_of_done i hdone]
    exact h.of_end
  · rw [read_of_missing i hdone]
    exact h.of_call (Nat.min_le_right n _) hdone

end Kept

theorem kept_start (size : Nat) (s : σ) : Kept i s size [] (start size s) where
  calls := rfl
  handed := rfl
  total := Nat.zero_add size
  within := .nil size

theorem kept_run (size : Nat) (s : σ) (ns : List Nat) :
    Kept i s size ((start size s).run i ns).1 ((start size s).run i ns).2 := by
  induction ns using List.reverseRecOn with
  | nil => exact kept_start i size s
  | append_singleton ns n ih =>
    rw [run_concat]
    exact ih.read n

end Reading

section

variable {m : Type → Type} [Monad m] [LawfulMonad m] [MonadExceptOf Fault m]

/-- Reading all bytes is one read after the other, each of them passed on. -/
theorem forEach_eq (hthrow : ∀ {α β : Type} (f : Fault) (next : α → m β),
      ((throw f : m α) >>= next) = throw f)
    (inner : Nat → m Bytes) (n : Nat) (sink : Bytes → m Unit) (x : Exact) :
    x.forEach inner n sink = if x.remaining = 0 then pure ()
      else x.read inner n >>= fun r => sink r.1 >>= fun _ => r.2.forEach inner n sink := by
  rw [forEach]
  split
  · rfl
  · rename_i hx
    rw [Exact.read, if_neg hx, bind_assoc]
    refine bind_congr fun b => ?_
    split
    · rename_i f haccept
      simp only [haccept, read.liftExcept, hthrow]
    · rename_i y haccept
      simp only [haccept, read.liftExcept, pure_bind]

end

theorem finish_eq_ok_iff {x : Exact} : x.finish = .ok () ↔ x.remaining = 0 := by
  unfold finish
  split <;> simp_all

/-- What is asked for in a word of `w` bits, where a countdown may stand at more than a word
can hold. -/
theorem want_eq {w n : Nat} (hn : n < 2 ^ w) (x : Exact) :
    x.want n = if x.remaining < 2 ^ w then min x.remaining n else n := by
  unfold want
  split
  · exact Nat.min_comm n x.remaining
  · omega

/-- Reads of any sizes, by way of any reader, hand on the front of what it gives: never more
than `size` bytes, and an end only behind the last of these.  Nothing is asked for beyond them,
neither by a single call nor in a word that is too short for the countdown.  An end in front of
the last byte is a fault, and so is a finish.  Copying the content of an entry is such reads. -/
theorem Reading.run_exact {σ : Type} (i : Inner σ) (s : σ) (size : Nat) (ns : List Nat) :
    let given := Reader.handed ((start size s).run i ns).1
    let r := ((start size s).run i ns).2
    (i.reads s r.asked = (r.answers, r.inner) ∧ given = Reader.handed r.answers
      ∧ ∀ ks, given <+: Reader.handed (i.reads s (r.asked ++ ks)).1)
    ∧ given.length + r.countdown.remaining = size
    ∧ Within size r.calls
    ∧ (∀ w n, n < 2 ^ w → r.countdown.want n
        = if r.countdown.remaining < 2 ^ w then min r.countdown.remaining n else n)
    ∧ (∀ n, (r.read i n).1 = .ok [] ↔ given.length = size)
    ∧ (∀ n, given.length < size → (i.read (min n (size - given.length)) r.inner).1 = .ok [] →
        (r.read i n).1 = .error (.raised .unexpectedEof
          s!"entry content is short by {size - given.length} bytes"))
    ∧ (r.countdown.finish = .ok () ↔ given.length = size)
    ∧ ∀ n sink (x : Exact), x.forEach (m := StateT Tar.Content Tape) Tar.Content.read n sink
        = if x.remaining = 0 then pure ()
          else x.read (m := StateT Tar.Content Tape) Tar.Content.read n >>= fun y =>
            sink y.1 >>= fun _ => y.2.forEach Tar.Content.read n sink := by
  intro given r
  have h : Kept i s size _ r := kept_run i size s ns
  have hremaining : r.countdown.remaining = size - given.length := by
    have : given.length + r.countdown.remaining = size := h.total
    omega
  refine ⟨⟨h.calls, h.handed, fun ks => ?_⟩, h.total, h.within, fun w n hn => want_eq hn _,
    fun n => ?_, fun n hshort hend => ?_, ?_, fun n sink x => ?_⟩
  · rw [i.reads_append, h.calls, Reader.handed_append, ← h.handed]
    exact List.prefix_append _ _
  · by_cases hdone : r.countdown.remaining = 0
    · rw [read_of_done i hdone]
      exact iff_of_true rfl (h.remaining_eq_zero_iff.mp hdone)
    · rw [read_of_missing i hdone]
      exact iff_of_false (handOn_ne_end _ _) fun hgiven => hdone (h.remaining_eq_zero_iff.mpr hgiven)
  · have hmissing : r.countdown.remaining ≠ 0 := by omega
    have hwant : r.countdown.want n = min n (size - given.length) := congrArg (min n) hremaining
    rw [read_of_missing i hmissing, hwant, hend, ← hremaining]
    rfl
  · exact finish_eq_ok_iff.trans h.remaining_eq_zero_iff
  · exact forEach_eq (m := StateT Tar.Content Tape) (fun _ _ => rfl) Tar.Content.read n sink x

/-- A scripted source as the reader inside. -/
def ofSource : Inner Source := ⟨Source.read, fun _ _ _ h => Source.length_read_le h⟩

/-- A read falls short and one fails, and there is more than the three bytes that are wanted. -/
example (f : Fault) :
    ((Reading.start 3 [.data [1, 2], .fault f, .data [3, 4]]).run ofSource [8, 8, 8, 8]).1
      = [.ok [1, 2], .error f, .ok [3], .ok []] := rfl

end Exact
end ContainerLayer
