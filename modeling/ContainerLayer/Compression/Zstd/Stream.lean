import ContainerLayer.Compression.Zstd.Frame

/-
Zstandard streams, decoded as they are read.

A decoder comes to a frame when a read has used up the frame before.  How the
frame is decoded goes by the room that this read has, and by how much of the
frame is at hand, since the input is loaded in pieces.
-/

namespace ContainerLayer
namespace Zstd

/-- The most that is loaded at once. -/
def loadSize : Nat := 131075

/-- The lengths of the loads in which a source is read up to the next fault or early end. -/
def loads : Source → List Nat
  | .data b :: r =>
    List.replicate (b.length / loadSize) loadSize ++ b.length % loadSize :: loads r
  | .fault f :: r => if f.isInterrupted then loads r else []
  | _ => []

/-- How much of the load that the byte at `place` is in comes from there on. -/
def heldAt : (loads : List Nat) → (place : Nat) → Nat
  | [], _ => 0
  | n :: loads, place => if place < n then n - place else heldAt loads (place - n)

/-- Frames that a decoder did not come to yet. -/
structure Frames where
  bytes : Bytes
  /-- How much is at hand when that many bytes are left. -/
  held : Nat → Nat
  /-- What comes behind the bytes. -/
  rest : Source

/-- A decoder at work. -/
inductive Decoder where
  /-- There are more frames behind the one that `pending` is left of. -/
  | more (pending : Bytes) (s : Frames)
  | last (d : Decoded)

/-- How the first frame is decoded for a read that has room for `room` bytes. -/
def Frames.pace (room : Nat) (s : Frames) : Pace :=
  paceFor room (s.held s.bytes.length) s.bytes

/-- Decodes the first frame.  Output of a frame that turns out to be damaged may be lost; all
other output can be handed out. -/
def Frames.next (pace : Pace) (s : Frames) : Decoder :=
  let f := frameAt pace s.bytes
  match f.flaw with
  | some .damaged =>
    .last { blocks := f.blocks.reverse, fault := some (Flaw.fault s.rest.shortage .damaged) }
  | some .truncated => .last { pending := f.output, fault := some s.rest.shortage }
  | none =>
    if f.rest = [] then .last { pending := f.output, fault := s.rest.failure? }
    else .more f.output { s with bytes := f.rest }

namespace Decoder

/-- How many bytes are not decoded, and one more if there are any frames. -/
def ahead : Decoder → Nat
  | more _ s => s.bytes.length + 1
  | last _ => 0

theorem ahead_next_lt (pace : Pace) (pending : Bytes) (s : Frames) :
    (s.next pace).ahead < (more pending s).ahead := by
  unfold Frames.next
  dsimp only
  split
  · exact Nat.succ_pos _
  · exact Nat.succ_pos _
  · rename_i hflaw
    split
    · exact Nat.succ_pos _
    · exact Nat.succ_lt_succ (length_frameAt_rest_lt hflaw)

/-- One read, which goes on to the next frame with data if there is nothing left of the one at
hand. -/
def read (n : Nat) : Decoder → Except Fault Bytes × Decoder
  | last d => ((d.read n).1, last (d.read n).2)
  | more pending s =>
    if n = 0 then (.ok [], more pending s)
    else if pending ≠ [] then (.ok (pending.take n), more (pending.drop n) s)
    else read n (s.next (s.pace n))
termination_by z => z.ahead
decreasing_by exact ahead_next_lt _ _ _

/-- How much the frames in `b` put out at most, however they are decoded. -/
def reach (b : Bytes) : Nat :=
  let along (pace : Pace) : Nat :=
    let f := frameAt pace b
    f.output.length + if _ : f.rest.length < b.length then reach f.rest else 0
  max (along .stepwise) (along .whole)
termination_by b.length

theorem output_add_reach_le {pace : Pace} {b : Bytes} (h : (frameAt pace b).flaw = none) :
    (frameAt pace b).output.length + reach (frameAt pace b).rest ≤ reach b := by
  rw [reach.eq_1 b]
  dsimp only
  cases pace with
  | stepwise =>
    rw [dif_pos (length_frameAt_rest_lt h)]
    exact Nat.le_max_left _ _
  | whole =>
    rw [dif_pos (length_frameAt_rest_lt h)]
    exact Nat.le_max_right _ _

theorem output_le_reach (pace : Pace) (b : Bytes) : (frameAt pace b).output.length ≤ reach b := by
  rw [reach]
  cases pace with
  | stepwise => exact Nat.le_trans (Nat.le_add_right _ _) (Nat.le_max_left _ _)
  | whole => exact Nat.le_trans (Nat.le_add_right _ _) (Nat.le_max_right _ _)

/-- How much there is to come at most. -/
def extent : Decoder → Nat
  | more pending s => pending.length + reach s.bytes
  | last d => d.extent

theorem extent_next_le (pace : Pace) (s : Frames) : (s.next pace).extent ≤ reach s.bytes := by
  have houtput := output_le_reach pace s.bytes
  unfold Frames.next
  dsimp only
  split
  · exact Nat.le_trans (Nat.le_of_eq (Nat.zero_add _)) houtput
  · exact houtput
  · rename_i hflaw
    split
    · exact houtput
    · exact output_add_reach_le hflaw

theorem extent_read_lt {n : Nat} {z : Decoder} {b : Bytes} (h : (z.read n).1 = .ok b)
    (hb : b ≠ []) : (z.read n).2.extent < z.extent := by
  fun_induction read n z with
  | case1 d => exact Decoded.extent_read_lt h hb
  | case2 => cases h; exact absurd rfl hb
  | case3 pending s hn hpending =>
    have : 0 < pending.length := List.length_pos_iff.mpr hpending
    simp only [extent, List.length_drop]
    omega
  | case4 pending s hn hpending ih =>
    exact Nat.lt_of_lt_of_le (ih h) (Nat.le_trans (extent_next_le _ s) (Nat.le_add_left _ _))

theorem read_not_interrupted {n : Nat} {z : Decoder} {f : Fault} (h : (z.read n).1 = .error f) :
    f.isInterrupted = false := by
  fun_induction read n z with
  | case1 d => exact Decoded.read_not_interrupted h
  | case2 => cases h
  | case3 => cases h
  | case4 _ _ _ _ ih => exact ih h

instance : Reader Decoder where
  read := read
  patience := extent
  patience_lt n z f h hf := by rw [read_not_interrupted h] at hf; cases hf

instance : Finite Decoder where
  patience_lt_of_data _ _ _ h hb := extent_read_lt h hb

end Decoder

/-- All frames of a source, up to its next fault or early end. -/
def Frames.ofSource (s : Source) : Frames :=
  let b := s.run.1
  let loads := loads s
  { bytes := b, held := fun left => heldAt loads (b.length - left), rest := s.run.2 }

/-- Decodes a stream, which has to hold at least one frame. -/
def decode (s : Source) : Decoder := .more [] (.ofSource s)

end Zstd
end ContainerLayer
