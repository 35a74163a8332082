import ContainerLayer.Stream.Source

/-
Decoded streams: what a decoder has to hand out, and what comes behind it.

A decoder may run ahead of its reader.  Output that is pending is handed out in
any case; whole blocks are decoded only when a read has room for more, and if
such a read comes upon a fault, it fails and what it had decoded is lost.
-/

namespace ContainerLayer

/-- A decoder at work. -/
structure Decoded where
  pending : Bytes := []
  blocks : List Bytes := []
  /-- What comes behind the blocks, for ever: a fault, or the end. -/
  fault : Option Fault := none

namespace Decoded

/-- Decodes blocks into a read that has room for `n` bytes more; `none` if that comes upon
the end of the blocks with room left. -/
def fill (n : Nat) : List Bytes → Option (Bytes × Bytes × List Bytes)
  | [] => none
  | b :: rest =>
    if n < b.length then some (b.take n, b.drop n, rest)
    else
      match fill (n - b.length) rest with
      | some (out, pending, left) => some (b ++ out, pending, left)
      | none => none

def read (n : Nat) (d : Decoded) : Except Fault Bytes × Decoded :=
  if n = 0 then (.ok [], d)
  else if d.pending ≠ [] then (.ok (d.pending.take n), { d with pending := d.pending.drop n })
  else
    match fill n d.blocks, d.fault with
    | some (out, pending, blocks), _ => (.ok out, { d with pending, blocks })
    | none, some f => (.error (.shared f), { d with blocks := [] })
    | none, none => (.ok d.blocks.flatten, { d with blocks := [] })

def extent (d : Decoded) : Nat := d.pending.length + d.blocks.flatten.length

theorem fill_length {n : Nat} {bs : List Bytes} {out pending : Bytes} {left : List Bytes}
    (h : fill n bs = some (out, pending, left)) :
    bs.flatten.length = out.length + pending.length + left.flatten.length := by
  induction bs generalizing n out with
  | nil => cases h
  | cons b rest ih =>
    unfold fill at h
    split at h
    · cases h
      simp only [List.flatten_cons, List.length_append, List.length_take, List.length_drop]; omega
    · split at h
      · rename_i o p l e
        cases h
        have := ih e
        simp only [List.flatten_cons, List.length_append] at *; omega
      · cases h

theorem extent_read_lt {n : Nat} {d : Decoded} {b : Bytes} (h : (d.read n).1 = .ok b)
    (hb : b ≠ []) : (d.read n).2.extent < d.extent := by
  have hl : 0 < b.length := List.length_pos_iff.mpr hb
  unfold read at h ⊢
  split
  · simp_all
  · rename_i hn
    rw [if_neg hn] at h
    split
    · rename_i hp
      rw [if_pos hp] at h
      cases h
      simp only [extent, List.length_drop, List.length_take] at *; omega
    · rename_i hp
      rw [if_neg hp] at h
      split
      · rename_i out pending blocks e
        simp only [e] at h
        cases h
        have := fill_length e
        have : d.pending = [] := by simpa using hp
        simp only [extent, this, List.length_nil]; omega
      · rename_i f e1 e2
        simp only [e1, e2] at h
        cases h
      · rename_i e1 e2
        simp only [e1, e2] at h
        cases h
        simp only [extent, List.flatten_nil, List.length_nil]; omega

theorem read_not_interrupted {n : Nat} {d : Decoded} {f : Fault} (h : (d.read n).1 = .error f) :
    f.isInterrupted = false := by
  unfold read at h
  split at h
  · cases h
  · split at h
    · cases h
    · split at h
      · cases h
      · cases h; exact Fault.isInterrupted_shared _
      · cases h

instance : Reader Decoded where
  read := read
  patience := extent
  patience_lt n d f h hf := by rw [read_not_interrupted h] at hf; cases hf

instance : Finite Decoded where
  patience_lt_of_data _ _ _ h hb := extent_read_lt h hb

end Decoded
end ContainerLayer
