import ContainerLayer.Stream.Cancelable
import ContainerLayer.Stream.Source

/-
What becomes of a reader that can be canceled.

Two runs are compared: reads and cancels in any order on the reader, and on the reader inside
it alone those reads that came in front of the first cancel.  Up to there the answers are the
same, and from there on nothing reaches the reader inside any more.  `After` says this of the
state between two steps, and each step keeps it.
-/

namespace ContainerLayer
namespace Reader

variable {σ : Type} [Reader σ]

/-- Reads of the given sizes, one after the other: what each of them comes to, and what they
leave. -/
def reads (s : σ) : List Nat → List (Except Fault Bytes) × σ
  | [] => ([], s)
  | n :: ns => ((read n s).1 :: (reads (read n s).2 ns).1, (reads (read n s).2 ns).2)

theorem reads_concat (s : σ) (ns : List Nat) (n : Nat) :
    reads s (ns ++ [n])
      = ((reads s ns).1 ++ [(read n (reads s ns).2).1], (read n (reads s ns).2).2) := by
  induction ns generalizing s with
  | nil => rfl
  | cons m ns ih => rw [List.cons_append, reads, ih, reads, List.cons_append]

/-- The bytes that reads have given. -/
def handed (rs : List (Except Fault Bytes)) : Bytes := rs.flatMap fun r => r.toOption.getD []

theorem handed_append (rs rs' : List (Except Fault Bytes)) :
    handed (rs ++ rs') = handed rs ++ handed rs' := List.flatMap_append

theorem handed_errors (fs : List Fault) : handed (fs.map .error) = [] := by
  rw [handed, List.flatMap_map]
  exact List.flatMap_eq_nil_iff.mpr fun _ _ => rfl

end Reader

/-- What reads of a source give, and what they leave, are its data. -/
theorem Source.reads_remaining (s : Source) (ns : List Nat) :
    s.remaining = Reader.handed (Reader.reads s ns).1 ++ (Reader.reads s ns).2.remaining := by
  induction ns generalizing s with
  | nil => rfl
  | cons n ns ih =>
    rw [Reader.reads, Reader.handed, List.flatMap_cons, List.append_assoc]
    exact (Source.read_remaining n s).trans (congrArg _ (ih _))

namespace Cancelable

variable {σ : Type}

/-- What is done with the reader.  It makes no difference through which handle it is
canceled. -/
inductive Step where
  | read (n : Nat)
  | cancel (f : Fault)

/-- Nobody has canceled the reader yet. -/
def start (s : σ) : Cancelable σ := ⟨s, none⟩

/-- The faults that the reader was canceled with. -/
def faults (ts : List Step) : List Fault :=
  ts.filterMap fun
    | .cancel f => some f
    | .read _ => none

/-- How much the reads in front of the first cancel ask for. -/
def ahead : List Step → List Nat
  | [] => []
  | .read n :: ts => n :: ahead ts
  | .cancel _ :: _ => []

@[simp] theorem faults_concat_read (ts : List Step) (n : Nat) :
    faults (ts ++ [.read n]) = faults ts := by simp [faults]

@[simp] theorem faults_concat_cancel (ts : List Step) (f : Fault) :
    faults (ts ++ [.cancel f]) = faults ts ++ [f] := by simp [faults]

theorem ahead_concat_cancel (ts : List Step) (f : Fault) :
    ahead (ts ++ [.cancel f]) = ahead ts := by
  induction ts with
  | nil => rfl
  | cons t ts ih =>
    cases t with
    | read n => exact congrArg (n :: ·) ih
    | cancel g => rfl

theorem ahead_concat_read (ts : List Step) (n : Nat) :
    ahead (ts ++ [.read n]) = if faults ts = [] then ahead ts ++ [n] else ahead ts := by
  induction ts with
  | nil => rfl
  | cons t ts ih =>
    cases t with
    | cancel f => rfl
    | read m =>
      have hfaults : faults (.read m :: ts) = faults ts := rfl
      rw [List.cons_append, ahead, ih, hfaults, ahead]
      split <;> rfl

variable [Reader σ]

/-- One step, with the answer if it is a read. -/
def step (s : Cancelable σ) : Step → List (Except Fault Bytes) × Cancelable σ
  | .read n => ([(s.read n).1], (s.read n).2)
  | .cancel f => ([], s.cancel f)

/-- The answers of all reads, and what the steps leave. -/
def run (s : Cancelable σ) : List Step → List (Except Fault Bytes) × Cancelable σ
  | [] => ([], s)
  | t :: ts => ((s.step t).1 ++ (run (s.step t).2 ts).1, (run (s.step t).2 ts).2)

/-- What steps on a reader around `s` have come to: the answers up to the first cancel are those
of `s` alone, and so is what is left of it; the answers since then are faults of cancels. -/
structure After (s : σ) (ts : List Step) (r : List (Except Fault Bytes) × Cancelable σ) :
    Prop where
  inner : r.2.inner = (Reader.reads s (ahead ts)).2
  canceled : r.2.canceled = (faults ts).getLast?
  answers : ∃ fs : List Fault, r.1 = (Reader.reads s (ahead ts)).1 ++ fs.map .error ∧
    ∀ g ∈ fs, ∃ f ∈ faults ts, g = .shared f

namespace After

variable {s : σ} {ts : List Step} {r : List (Except Fault Bytes) × Cancelable σ}

theorem answers_of_open (h : After s ts r) (hopen : faults ts = []) :
    r.1 = (Reader.reads s (ahead ts)).1 := by
  obtain ⟨fs, hanswers, hfs⟩ := h.answers
  have hnone : fs = [] := by
    refine List.eq_nil_iff_forall_not_mem.mpr fun g hg => ?_
    obtain ⟨f, hf, _⟩ := hfs g hg
    rw [hopen] at hf
    cases hf
  rw [hanswers, hnone, List.map_nil, List.append_nil]

theorem read_of_open (h : After s ts r) (hopen : faults ts = []) (n : Nat) :
    r.2.read n = ((Reader.read n (Reader.reads s (ahead ts)).2).1,
      start (Reader.read n (Reader.reads s (ahead ts)).2).2) := by
  have hcanceled : r.2.canceled = none := by
    rw [h.canceled, hopen]
    rfl
  rw [Cancelable.read_of_open hcanceled, h.inner]
  rfl

theorem read_of_canceled (h : After s ts r) {f : Fault} (hf : (faults ts).getLast? = some f)
    (n : Nat) : r.2.read n = (.error (.shared f), r.2) :=
  Cancelable.read_of_canceled (h.canceled.trans hf) n

/-- A read is one of the reader inside, or fails with the fault of the last cancel. -/
theorem read (h : After s ts r) (n : Nat) :
    After s (ts ++ [.read n]) (r.1 ++ [(r.2.read n).1], (r.2.read n).2) := by
  cases hlast : (faults ts).getLast? with
  | none =>
    have hopen : faults ts = [] := List.getLast?_eq_none_iff.mp hlast
    rw [h.read_of_open hopen, h.answers_of_open hopen]
    have hahead : ahead (ts ++ [.read n]) = ahead ts ++ [n] := by
      rw [ahead_concat_read, if_pos hopen]
    refine ⟨?_, ?_, [], ?_, by simp⟩
    · rw [hahead, Reader.reads_concat]
      rfl
    · rw [faults_concat_read, hlast]
      rfl
    · rw [hahead, Reader.reads_concat, List.map_nil, List.append_nil]
  | some f =>
    have hmem : f ∈ faults ts := List.mem_of_getLast? hlast
    have hahead : ahead (ts ++ [.read n]) = ahead ts := by
      rw [ahead_concat_read, if_neg (List.ne_nil_of_mem hmem)]
    obtain ⟨fs, hanswers, hfs⟩ := h.answers
    rw [h.read_of_canceled hlast]
    refine ⟨by rw [hahead]; exact h.inner, by rw [faults_concat_read]; exact h.canceled,
      fs ++ [.shared f], ?_, ?_⟩
    · rw [hahead, hanswers, List.map_append, List.append_assoc]
      rfl
    · rw [faults_concat_read]
      intro g hg
      rcases List.mem_append.mp hg with hg | hg
      · exact hfs g hg
      · exact ⟨f, hmem, List.mem_singleton.mp hg⟩

/-- A cancel replaces those before it, and does nothing else. -/
theorem cancel (h : After s ts r) (f : Fault) :
    After s (ts ++ [.cancel f]) (r.1, r.2.cancel f) := by
  obtain ⟨fs, hanswers, hfs⟩ := h.answers
  refine ⟨?_, ?_, fs, ?_, fun g hg => ?_⟩
  · rw [ahead_concat_cancel]
    exact h.inner
  · rw [faults_concat_cancel, List.getLast?_concat]
    rfl
  · rw [ahead_concat_cancel]
    exact hanswers
  · obtain ⟨f', hf', e⟩ := hfs g hg
    rw [faults_concat_cancel]
    exact ⟨f', List.mem_append_left _ hf', e⟩

theorem step (h : After s ts r) (t : Step) :
    After s (ts ++ [t]) (r.1 ++ (r.2.step t).1, (r.2.step t).2) := by
  cases t with
  | read n => exact h.read n
  | cancel f =>
    rw [Cancelable.step, List.append_nil]
    exact h.cancel f

theorem run (h : After s ts r) (us : List Step) :
    After s (ts ++ us) (r.1 ++ (r.2.run us).1, (r.2.run us).2) := by
  induction us generalizing ts r with
  | nil =>
    rw [Cancelable.run, List.append_nil, List.append_nil]
    exact h
  | cons u us ih =>
    rw [Cancelable.run, List.append_cons, ← List.append_assoc]
    exact ih (h.step u)

end After

theorem after_run (s : σ) (ts : List Step) : After s ts ((start s).run ts) := by
  have hfresh : After s [] ([], start s) := ⟨rfl, rfl, [], rfl, by simp⟩
  exact hfresh.run ts

/-- Whatever reads and cancels a reader has been through, and however much the next read asks
for, also if for nothing.  The reader inside is where the reads in front of the first cancel have
left it, and these came to what they come to without anything around it.  If there was no cancel
yet, this goes for all reads so far and for the next one.  Else the next read fails in the words
of the last cancel, and changes nothing; its kind is that of the cancel, but not the one
that asks to read again.  What a source has given and what is left in it make up its data. -/
theorem run_poisoned (s : σ) (ts : List Step) (n : Nat) :
    let answers := ((start s).run ts).1
    let now := ((start s).run ts).2
    let bare := Reader.reads s (ahead ts)
    now.inner = bare.2 ∧ bare.1 <+: answers ∧
      (faults ts = [] → answers = bare.1 ∧
        now.read n = ((Reader.read n bare.2).1, start (Reader.read n bare.2).2)) ∧
      (∀ f, (faults ts).getLast? = some f → ∃ g, now.read n = (.error g, now) ∧
        g.text = f.text ∧ g.kind = if f.kind = .interrupted then .other else f.kind) ∧
      ∀ script : Source,
        Reader.handed ((start script).run ts).1 ++ ((start script).run ts).2.inner.remaining
          = script.remaining := by
  intro answers now bare
  have h := after_run s ts
  obtain ⟨fs, hanswers, _⟩ := h.answers
  refine ⟨h.inner, ⟨_, hanswers.symm⟩,
    fun hopen => ⟨h.answers_of_open hopen, h.read_of_open hopen n⟩,
    fun f hf => ⟨_, h.read_of_canceled hf n, rfl, ?_⟩, fun script => ?_⟩
  · rw [Fault.kind_shared]
    cases f.kind <;> rfl
  · have hscript := after_run script ts
    obtain ⟨gs, hgiven, _⟩ := hscript.answers
    rw [hgiven, Reader.handed_append, Reader.handed_errors, List.append_nil, hscript.inner]
    exact (Source.reads_remaining script (ahead ts)).symm

/-- A source that is interrupted once. -/
def hesitant : Source := [.data [1, 2, 3], .fault (.ofKind .interrupted), .data [4, 5]]

/-- The reads in front of the first cancel give two bytes, and then the interruption.  After two
cancels even a read of nothing fails in the words of the second one, and two bytes are left. -/
theorem run_poisoned_hesitant :
    (start hesitant).run [.read 4, .read 4]
        = ([.ok [1, 2, 3], .error (.ofKind .interrupted)], start [.data [4, 5]]) ∧
      ((start hesitant).run [.read 4, .read 4]).2.read 1 = (.ok [4], start [.data [5]]) ∧
      let now := ((start hesitant).run [.read 4, .read 4, .cancel (.raised .timedOut "late"),
        .read 1, .cancel (.raised .interrupted "stop")]).2
      (∃ g, now.read 0 = (.error g, now) ∧ g.text = "stop" ∧ g.kind = .other) ∧
        now.inner.remaining = [4, 5] := by
  refine ⟨rfl, ?_, ?_, ?_⟩
  · exact ((run_poisoned hesitant [.read 4, .read 4] 1).2.2.1 rfl).2
  · exact (run_poisoned hesitant _ 0).2.2.2.1 (.raised .interrupted "stop") rfl
  · rw [(run_poisoned hesitant _ 0).1]
    rfl

end Cancelable
end ContainerLayer
