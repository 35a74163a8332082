import ContainerLayer.Stream.Reader

/-
Scripted sources: readers whose whole future behaviour is written down.

A source is a list of pieces.  A read takes from one piece only, so the lengths
of the pieces say where reads fall short; faults and early ends are pieces of
their own, each of which shows up in one read.
-/

namespace ContainerLayer

/-- What one or more reads of a source come to. -/
inductive Piece where
  /-- Bytes, handed out by as many reads as it takes. -/
  | data (bytes : Bytes)
  | fault (f : Fault)
  /-- One read finds the end, although more may follow. -/
  | pause

/-- A reader given by its pieces; behind the last one it is at its end for ever. -/
abbrev Source := List Piece

namespace Source

def read (n : Nat) : Source → Except Fault Bytes × Source
  | [] => (.ok [], [])
  | p :: r =>
    if n = 0 then (.ok [], p :: r)
    else
      match p with
      | .data b =>
        if b = [] then read n r
        else
          let left := b.drop n
          (.ok (b.take n), if left = [] then r else .data left :: r)
      | .fault f => (.error f, r)
      | .pause => (.ok [], r)

/-- The data of all pieces that have not been handed out. -/
def remaining (s : Source) : Bytes :=
  s.flatMap fun
    | .data b => b
    | _ => []

/-- How much there is to come: every byte of data counts, and every piece. -/
def extent (s : Source) : Nat := s.length + s.remaining.length

/-- Everything up to the next fault or early end, and what comes from there on.  Interrupted
reads do not count. -/
def run : Source → Bytes × Source
  | [] => ([], [])
  | .data b :: r =>
    let (more, rest) := run r
    (b ++ more, rest)
  | .fault f :: r => if f.isInterrupted then run r else ([], .fault f :: r)
  | .pause :: r => ([], .pause :: r)

/-- The fault of a source that ends, or fails, where more is needed. -/
def shortage : Source → Fault
  | .fault f :: _ => f
  | _ => .ofKind .unexpectedEof

/-- The fault that the next read comes upon, if there is one. -/
def failure? : Source → Option Fault
  | .fault f :: _ => some f
  | _ => none

def ofBytes (b : Bytes) : Source := [.data b]

@[simp] theorem remaining_nil : remaining [] = [] := rfl

@[simp] theorem remaining_data (b : Bytes) (r : Source) :
    remaining (.data b :: r) = b ++ remaining r := by simp [remaining]

@[simp] theorem remaining_fault (f : Fault) (r : Source) :
    remaining (.fault f :: r) = remaining r := by simp [remaining]

@[simp] theorem remaining_pause (r : Source) : remaining (.pause :: r) = remaining r := by
  simp [remaining]

/-- A read hands out what is then gone from the data, and nothing else goes. -/
theorem read_remaining (n : Nat) (s : Source) :
    s.remaining = ((read n s).1.toOption.getD []) ++ (read n s).2.remaining := by
  fun_induction read n s with
  | case1 => rfl
  | case2 => simp [Except.toOption]
  | case3 r hn ih => simpa using ih
  | case4 r hn b hb left =>
    by_cases h : left = []
    · have hd : b.drop n = [] := h
      have ht : b.take n = b := by
        have := List.take_append_drop n b; rwa [hd, List.append_nil] at this
      simp [Except.toOption, h, ht]
    · simp [Except.toOption, h, left, ← List.append_assoc, List.take_append_drop]
  | case5 => simp [Except.toOption]
  | case6 => simp [Except.toOption]

theorem length_read_le {n : Nat} {s : Source} {b : Bytes} (h : (read n s).1 = .ok b) :
    b.length ≤ n := by
  fun_induction read n s with
  | case1 => simp_all
  | case2 => simp_all
  | case3 r hn ih => exact ih h
  | case4 => simp only [Except.ok.injEq] at h; subst h; exact List.length_take_le _ _
  | case5 => simp at h
  | case6 => simp_all

theorem extent_read_lt_of_data {n : Nat} {s : Source} {b : Bytes} (h : (read n s).1 = .ok b)
    (hb : b ≠ []) : (read n s).2.extent < s.extent := by
  fun_induction read n s with
  | case1 => simp_all
  | case2 => simp_all
  | case3 r hn ih =>
    have := ih h
    simp only [extent, List.length_cons, remaining_data, List.nil_append] at *; omega
  | case4 r hn b' hb' left =>
    have : left.length < b'.length := by
      have : 0 < b'.length := List.length_pos_iff.mpr hb'
      simp [left]; omega
    by_cases h : left = [] <;> simp [extent, h] <;> omega
  | case5 => simp at h
  | case6 => simp_all

theorem extent_read_lt_of_fault {n : Nat} {s : Source} {f : Fault} (h : (read n s).1 = .error f) :
    (read n s).2.extent < s.extent := by
  fun_induction read n s with
  | case1 => simp at h
  | case2 => simp at h
  | case3 r hn ih =>
    have := ih h
    simp only [extent, List.length_cons, remaining_data, List.nil_append] at *; omega
  | case4 => simp at h
  | case5 => simp [extent]
  | case6 => simp at h

instance : Reader Source where
  read := read
  patience := extent
  patience_lt _ _ _ h _ := extent_read_lt_of_fault h

instance : Finite Source where
  patience_lt_of_data _ _ _ h hb := extent_read_lt_of_data h hb

end Source
end ContainerLayer
