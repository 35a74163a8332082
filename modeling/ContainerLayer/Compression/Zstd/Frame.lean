import ContainerLayer.Compression.Decoded
import ContainerLayer.Compression.XxHash
import ContainerLayer.Compression.Zstd.Block

/-
Frames, which a Zstandard stream is a row of.

A frame is a header, blocks, and possibly a check value over its content.
Frames of another kind hold data for somebody else and are skipped.
-/

namespace ContainerLayer
namespace Zstd

def magic : Bytes := [0x28, 0xb5, 0x2f, 0xfd]

inductive Flaw where
  | truncated
  | damaged
  deriving DecidableEq

/-- The fault that a flaw shows as, where `shortage` is that of a stream that ends early. -/
def Flaw.fault (shortage : Fault) : Flaw → Fault
  | truncated => shortage
  | damaged => .other "corrupted data"

def takeExactly (n : Nat) (b : Bytes) : Except Flaw (Bytes × Bytes) :=
  if b.length < n then .error .truncated else .ok (b.take n, b.drop n)

def damagedIf (c : Bool) : Except Flaw Unit := if c then .error .damaged else .ok ()

structure FrameHeader where
  windowSize : Nat
  contentSize : Option Nat
  hasCheck : Bool

namespace FrameHeader

/-- The most that a block may hold or put out. -/
def limit (h : FrameHeader) : Nat := min h.windowSize maxBlock

/-- How much output a decoder keeps, unless there is less content. -/
def kept (h : FrameHeader) : Nat := max h.windowSize 1024 + 2 * h.limit + 64

/-- Is there no room for `size` bytes of output? -/
def overflows (h : FrameHeader) (size : Nat) : Bool :=
  h.contentSize.any fun n => n < size && n ≤ h.kept

end FrameHeader

/-- The largest window that a decoder sets aside memory for. -/
def maxWindow : Nat := 0x8000001

/-- The largest exponent of a window, beyond 10, that a header may give. -/
def maxExponent : Nat := 21

/-- The size of the window that the byte `x` stands for. -/
def windowOf (x : Nat) : Nat :=
  let base := 1 <<< (10 + x / 8)
  base + base / 8 * (x % 8)

def frameHeader (b : Bytes) : Except Flaw (FrameHeader × Bytes) := do
  let (descriptor, b) ← takeExactly 1 b
  let d := Bytes.littleEndian descriptor
  let single := d.testBit 5
  let idSize := [0, 1, 2, 4].getD (d % 4) 0
  let sizeSize := if d / 64 = 0 && !single then 0 else 1 <<< (d / 64)
  let (window, b) ← takeExactly (if single then 0 else 1) b
  let (id, b) ← takeExactly idSize b
  let (size, b) ← takeExactly sizeSize b
  damagedIf (d.testBit 3)
  let contentSize :=
    if sizeSize = 0 then none
    else some (Bytes.littleEndian size + if sizeSize = 2 then 256 else 0)
  damagedIf (maxExponent < Bytes.littleEndian window / 8)
  let windowSize := if single then contentSize.getD 0 else windowOf (Bytes.littleEndian window)
  damagedIf (Bytes.littleEndian id ≠ 0)
  return (⟨windowSize, contentSize, d.testBit 2⟩, b)

/-- How a frame is decoded. -/
inductive Pace where
  /-- Block by block, as its bytes come, by way of a window.  An empty block is taken for what it
  is, whatever its kind, and if it is the last one, nobody looks how much content there was. -/
  | stepwise
  /-- As a whole, which takes all bytes of the frame, and room for all of its content. -/
  | whole
  deriving DecidableEq

/-- What the header of a block says. -/
structure BlockHeader where
  isLast : Bool
  kind : Nat
  size : Nat

def blockHeader (b : Bytes) : Except Flaw (BlockHeader × Bytes) := do
  let (header, b) ← takeExactly 3 b
  let x := Bytes.littleEndian header
  return (⟨x % 2 == 1, x / 2 % 4, x / 8⟩, b)

/-- Is there nothing at all in a block? -/
def BlockHeader.isEmpty (h : BlockHeader) : Bool := h.size = 0 && (h.kind = 0 || h.kind = 2)

/-- The output of a block in a frame with the header `f`, and what is behind it.  Content that is
not coded goes right where it belongs if the frame is decoded as a whole, and may be any length
then. -/
def content (pace : Pace) (f : FrameHeader) (h : BlockHeader) (st : BlockState) (b : Bytes) :
    Except Flaw (BlockState × Bytes) := do
  match h.kind with
  | 0 =>
    damagedIf (pace = .stepwise && f.limit < h.size)
    -- bytes that are put out as they are need not be there all at once
    damagedIf (f.overflows (st.output.size + min h.size b.length))
    let (raw, b) ← takeExactly h.size b
    return ({ st with output := raw.foldl (fun out x => out.push x) st.output }, b)
  | 1 =>
    let (x, b) ← takeExactly 1 b
    damagedIf (pace = .stepwise && f.limit < h.size)
    damagedIf (f.overflows (st.output.size + h.size))
    let raw := List.replicate h.size (x.headD 0)
    return ({ st with output := raw.foldl (fun out x => out.push x) st.output }, b)
  | 2 =>
    damagedIf (f.limit < h.size)
    let (coded, b) ← takeExactly h.size b
    match block f.limit st coded with
    | none => throw .damaged
    | some st =>
      damagedIf (f.overflows st.output.size)
      return (st, b)
  | _ => throw .damaged

/-- Decodes one block, header and content. -/
def oneBlock (pace : Pace) (f : FrameHeader) (st : BlockState) (b : Bytes) :
    Except Flaw (BlockHeader × BlockState × Bytes) :=
  match blockHeader b with
  | .error flaw => .error flaw
  | .ok (h, b) =>
    if pace = .stepwise ∧ h.kind = 1 ∧ f.limit = 0 then .error .damaged
    else if pace = .stepwise ∧ h.kind = 2 ∧ h.size = 0 then .ok (h, st, b)
    else
      match content pace f h st b with
      | .error flaw => .error flaw
      | .ok (st, b) => .ok (h, st, b)

structure Frame where
  /-- The output of each block, last first. -/
  blocks : List Bytes
  flaw : Option Flaw := none
  /-- What is behind the frame, unless it has a flaw. -/
  rest : Bytes := []

def Frame.output (f : Frame) : Bytes := f.blocks.reverse.flatten

/-- Checks what is behind the last block, and passes over it. -/
def finish (h : FrameHeader) (unchecked : Bool) (acc : List Bytes) (st : BlockState) (b : Bytes) :
    Frame :=
  if !unchecked && h.contentSize.any (· ≠ st.output.size) then ⟨acc, some .damaged, []⟩
  else if !h.hasCheck then ⟨acc, none, b⟩
  else
    match takeExactly 4 b with
    | .error flaw => ⟨acc, some flaw, []⟩
    | .ok (check, b) =>
      if Bytes.littleEndian check = (XxHash.hash st.output.toList).toNat % 0x100000000 then
        ⟨acc, none, b⟩
      else ⟨acc, some .damaged, []⟩

/-- Decodes the blocks of a frame, of which there are at most `fuel`, behind those whose
output is in `acc`. -/
def blocks (pace : Pace) (h : FrameHeader) (acc : List Bytes) (st : BlockState) (b : Bytes) :
    (fuel : Nat) → Frame
  | 0 => ⟨acc, some .truncated, []⟩
  | fuel + 1 =>
    match oneBlock pace h st b with
    | .error flaw => ⟨acc, some flaw, []⟩
    | .ok (header, st', b) =>
      let acc := (st'.output.extract st.output.size st'.output.size).toList :: acc
      if header.isLast then finish h (pace = .stepwise && header.isEmpty) acc st' b
      else blocks pace h acc st' b fuel

/-- Is `b` all that is behind the header of a frame, or more?  There are at most `fuel`
blocks. -/
def isComplete (hasCheck : Bool) (b : Bytes) : (fuel : Nat) → Bool
  | 0 => false
  | fuel + 1 =>
    match blockHeader b with
    | .error _ => false
    | .ok (h, b) =>
      let length := if h.kind = 1 then 1 else h.size
      if h.kind = 3 || b.length < length then false
      else if !h.isLast then isComplete hasCheck (b.drop length) fuel
      else !hasCheck || 4 ≤ b.length - length

/-- Decodes what is behind the header of a frame.  Decoded as a whole, a frame with a flaw puts
out nothing. -/
def frameBody (pace : Pace) (h : FrameHeader) (b : Bytes) : Frame :=
  match pace with
  | .stepwise =>
    if maxWindow < h.windowSize then ⟨[], some .damaged, []⟩
    else blocks .stepwise h [] {} b (b.length + 1)
  | .whole =>
    let f := blocks .whole h [] {} b (b.length + 1)
    if f.flaw = none then f else ⟨[], f.flaw, []⟩

/-- Do the bytes start like a frame that is skipped? -/
def isSkippable (b : Bytes) : Bool :=
  (b.headD 0 &&& 0xF0) = 0x50 && b.drop 1 = [0x2a, 0x4d, 0x18].take (b.length - 1)

/-- Decodes the frame that `b` starts with. -/
def frameAt (pace : Pace) (b : Bytes) : Frame :=
  let start := b.take 4
  if start = magic then
    match frameHeader (b.drop 4) with
    | .error flaw => ⟨[], some flaw, []⟩
    | .ok (h, body) => frameBody pace h body
  else if start.isPrefixOf magic then ⟨[], some .truncated, []⟩
  else if isSkippable start then
    if b.length < 8 then ⟨[], some .truncated, []⟩
    else
      match takeExactly (Bytes.littleEndian ((b.drop 4).take 4)) (b.drop 8) with
      | .error flaw => ⟨[], some flaw, []⟩
      | .ok (_, b) => ⟨[], none, b⟩
  else ⟨[], some .damaged, []⟩

/-- How the frame that `b` starts with is decoded for a read that has room for `room` bytes, if
the first `held` bytes of it are at hand.  What counts is how much content it says it has. -/
def paceFor (room held : Nat) (b : Bytes) : Pace :=
  match frameHeader (b.drop 4) with
  | .error _ => .stepwise
  | .ok (h, body) =>
    if h.contentSize.any (· ≤ room) &&
        isComplete h.hasCheck (body.take (held - (b.length - body.length))) (body.length + 1) then
      .whole
    else .stepwise

/-! ## Bytes that are left -/

theorem length_of_takeExactly {n : Nat} {b front back : Bytes}
    (h : takeExactly n b = .ok (front, back)) : back.length + n = b.length := by
  unfold takeExactly at h
  split at h
  · cases h
  · cases h
    rw [List.length_drop]
    omega

theorem length_of_frameHeader {b body : Bytes} {h : FrameHeader}
    (e : frameHeader b = .ok (h, body)) : body.length ≤ b.length := by
  obtain ⟨⟨descriptor, b₁⟩, h₁, e⟩ := bind_eq_ok.mp e
  obtain ⟨⟨window, b₂⟩, h₂, e⟩ := bind_eq_ok.mp e
  obtain ⟨⟨id, b₃⟩, h₃, e⟩ := bind_eq_ok.mp e
  obtain ⟨⟨size, b₄⟩, h₄, e⟩ := bind_eq_ok.mp e
  obtain ⟨_, -, e⟩ := bind_eq_ok.mp e
  obtain ⟨_, -, e⟩ := bind_eq_ok.mp e
  obtain ⟨_, -, e⟩ := bind_eq_ok.mp e
  cases e
  have := length_of_takeExactly h₁
  have := length_of_takeExactly h₂
  have := length_of_takeExactly h₃
  have := length_of_takeExactly h₄
  omega

theorem length_of_blockHeader {b body : Bytes} {h : BlockHeader}
    (e : blockHeader b = .ok (h, body)) : body.length + 3 = b.length := by
  obtain ⟨_, hp, e⟩ := bind_eq_ok.mp e
  cases e
  exact length_of_takeExactly hp

theorem length_of_content {pace : Pace} {f : FrameHeader} {h : BlockHeader} {st st' : BlockState}
    {b rest : Bytes} (e : content pace f h st b = .ok (st', rest)) : rest.length ≤ b.length := by
  unfold content at e
  split at e
  · obtain ⟨_, -, e⟩ := bind_eq_ok.mp e
    obtain ⟨_, -, e⟩ := bind_eq_ok.mp e
    obtain ⟨_, hp, e⟩ := bind_eq_ok.mp e
    cases e
    have := length_of_takeExactly hp
    omega
  · obtain ⟨_, hp, e⟩ := bind_eq_ok.mp e
    obtain ⟨_, -, e⟩ := bind_eq_ok.mp e
    obtain ⟨_, -, e⟩ := bind_eq_ok.mp e
    cases e
    have := length_of_takeExactly hp
    omega
  · obtain ⟨_, -, e⟩ := bind_eq_ok.mp e
    obtain ⟨_, hp, e⟩ := bind_eq_ok.mp e
    have := length_of_takeExactly hp
    dsimp only at e
    split at e
    · cases e
    · obtain ⟨_, -, e⟩ := bind_eq_ok.mp e
      cases e
      omega
  · cases e

theorem length_of_oneBlock {pace : Pace} {f : FrameHeader} {h : BlockHeader} {st st' : BlockState}
    {b rest : Bytes} (e : oneBlock pace f st b = .ok (h, st', rest)) : rest.length ≤ b.length := by
  unfold oneBlock at e
  split at e
  · cases e
  rename_i header body hheader
  have hbody := length_of_blockHeader hheader
  split at e
  · cases e
  split at e
  · cases e
    omega
  split at e
  · cases e
  · rename_i hcontent
    cases e
    have := length_of_content hcontent
    omega

theorem length_finish_rest_le (h : FrameHeader) (unchecked : Bool) (acc : List Bytes)
    (st : BlockState) (b : Bytes) : (finish h unchecked acc st b).rest.length ≤ b.length := by
  unfold finish
  split
  · exact Nat.zero_le _
  split
  · exact Nat.le_refl _
  split
  · exact Nat.zero_le _
  rename_i hcheck
  have := length_of_takeExactly hcheck
  split
  · dsimp only
    omega
  · exact Nat.zero_le _

theorem length_blocks_rest_le (pace : Pace) (h : FrameHeader) (acc : List Bytes) (st : BlockState)
    (b : Bytes) (fuel : Nat) : (blocks pace h acc st b fuel).rest.length ≤ b.length := by
  induction fuel generalizing acc st b with
  | zero => exact Nat.zero_le _
  | succ fuel ih =>
    unfold blocks
    split
    · exact Nat.zero_le _
    · rename_i hblock
      have := length_of_oneBlock hblock
      dsimp only
      split
      · exact Nat.le_trans (length_finish_rest_le _ _ _ _ _) this
      · exact Nat.le_trans (ih _ _ _) this

theorem length_frameBody_rest_le (pace : Pace) (h : FrameHeader) (b : Bytes) :
    (frameBody pace h b).rest.length ≤ b.length := by
  unfold frameBody
  split
  · split
    · exact Nat.zero_le _
    · exact length_blocks_rest_le _ _ _ _ _ _
  · dsimp only
    split
    · exact length_blocks_rest_le _ _ _ _ _ _
    · exact Nat.zero_le _

/-- A frame is passed over, unless it has a flaw. -/
theorem length_frameAt_rest_lt {pace : Pace} {b : Bytes} (h : (frameAt pace b).flaw = none) :
    (frameAt pace b).rest.length < b.length := by
  unfold frameAt at h ⊢
  dsimp only at h ⊢
  by_cases hmagic : b.take 4 = magic
  · rw [if_pos hmagic] at h ⊢
    have hlong : 4 ≤ b.length := by
      have := congrArg List.length hmagic
      rw [List.length_take] at this
      simp only [magic, List.length_cons, List.length_nil] at this
      omega
    cases hheader : frameHeader (b.drop 4) with
    | error flaw =>
      rw [hheader] at h
      cases h
    | ok p =>
      have := length_of_frameHeader hheader
      have := length_frameBody_rest_le pace p.1 p.2
      rw [List.length_drop] at *
      dsimp only
      omega
  rw [if_neg hmagic] at h ⊢
  by_cases hfront : (b.take 4).isPrefixOf magic
  · rw [if_pos hfront] at h
    cases h
  rw [if_neg hfront] at h ⊢
  by_cases hskip : isSkippable (b.take 4)
  · rw [if_pos hskip] at h ⊢
    by_cases hshort : b.length < 8
    · rw [if_pos hshort] at h
      cases h
    rw [if_neg hshort] at h ⊢
    cases hdata : takeExactly (Bytes.littleEndian ((b.drop 4).take 4)) (b.drop 8) with
    | error flaw =>
      rw [hdata] at h
      cases h
    | ok p =>
      have := length_of_takeExactly hdata
      rw [List.length_drop] at this
      dsimp only
      omega
  · rw [if_neg hskip] at h
    cases h

end Zstd
end ContainerLayer
