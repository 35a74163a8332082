import ContainerLayer.Proofs.Stream.Coming

/-
Frames, and the room of the reads that they are decoded for.

A Zstandard frame that is said to have no more content than a read has room for is decoded as a
whole, if all of it is at hand, and block by block if not; a frame that is damaged may pass one way
and not the other.  If it passes both ways it is the same frame (`frameAt_eq`).  So a stream of
which each frame has the same flaw, or none, either way (`Even`) comes to the same, however it is
loaded and read, and any stream that comes to data at all comes to the same data.
-/

namespace ContainerLayer
namespace Zstd

variable {h : FrameHeader}

/-- Content that passes block by block is no longer than a block may be, and passes as part of a
whole. -/
theorem content_whole {header : BlockHeader} {st : BlockState} {b : Bytes}
    {r : BlockState × Bytes} (hr : content .stepwise h header st b = .ok r) :
    content .whole h header st b = .ok r := by
  have hwhole : damagedIf (Pace.whole = .stepwise && h.limit < header.size) = .ok () := rfl
  unfold content at hr ⊢
  split at hr
  · obtain ⟨_, -, hr⟩ := bind_eq_ok.mp hr
    exact bind_eq_ok.mpr ⟨(), hwhole, hr⟩
  · obtain ⟨x, hx, hr⟩ := bind_eq_ok.mp hr
    obtain ⟨_, -, hr⟩ := bind_eq_ok.mp hr
    exact bind_eq_ok.mpr ⟨x, hx, bind_eq_ok.mpr ⟨(), hwhole, hr⟩⟩
  · exact hr
  · exact hr

theorem content_eq_error {pace : Pace} {header : BlockHeader} (hkind : header.kind = 2)
    (hsize : header.size = 0) (st : BlockState) (b : Bytes) :
    content pace h header st b = .error .damaged := by
  unfold content
  rw [hkind, hsize]
  -- a block has two bytes at least
  rfl

/-- A block that passes both ways is the same block. -/
theorem oneBlock_eq {st : BlockState} {b : Bytes} {r r' : BlockHeader × BlockState × Bytes}
    (hwhole : oneBlock .whole h st b = .ok r) (hstepwise : oneBlock .stepwise h st b = .ok r') :
    r' = r := by
  unfold oneBlock at hwhole hstepwise
  cases hheader : blockHeader b with
  | error flaw =>
    rw [hheader] at hwhole
    cases hwhole
  | ok p =>
    obtain ⟨header, body⟩ := p
    rw [hheader] at hwhole hstepwise
    dsimp only at hwhole hstepwise
    rw [if_neg (fun e => Pace.noConfusion e.1), if_neg (fun e => Pace.noConfusion e.1)] at hwhole
    split at hstepwise
    · cases hstepwise
    split at hstepwise
    · rename_i hempty
      rw [content_eq_error hempty.2.1 hempty.2.2] at hwhole
      cases hwhole
    split at hstepwise
    · cases hstepwise
    · rename_i hcontent
      rw [content_whole hcontent] at hwhole
      cases hwhole
      cases hstepwise
      rfl

/-- What passes all checks passes with one of them left out. -/
theorem finish_unchecked {acc : List Bytes} {st : BlockState} {b : Bytes}
    (hf : (finish h false acc st b).flaw = none) (unchecked : Bool) :
    finish h unchecked acc st b = finish h false acc st b := by
  unfold finish at hf ⊢
  cases hsize : h.contentSize.any (· ≠ st.output.size) with
  | true =>
    rw [hsize] at hf
    cases hf
  | false => rw [Bool.and_false, Bool.and_false]

theorem blocks_eq {acc : List Bytes} {st : BlockState} {b : Bytes} {fuel : Nat}
    (hwhole : (blocks .whole h acc st b fuel).flaw = none)
    (hstepwise : (blocks .stepwise h acc st b fuel).flaw = none) :
    blocks .stepwise h acc st b fuel = blocks .whole h acc st b fuel := by
  induction fuel generalizing acc st b with
  | zero => rfl
  | succ fuel ih =>
    unfold blocks at hwhole hstepwise ⊢
    cases hw : oneBlock .whole h st b with
    | error flaw =>
      rw [hw] at hwhole
      cases hwhole
    | ok r =>
      cases hs : oneBlock .stepwise h st b with
      | error flaw =>
        rw [hs] at hstepwise
        cases hstepwise
      | ok r' =>
        obtain rfl := oneBlock_eq hw hs
        rw [hw] at hwhole
        rw [hs] at hstepwise
        obtain ⟨header, st', body⟩ := r'
        dsimp only at hwhole hstepwise ⊢
        by_cases hlast : header.isLast = true
        · rw [if_pos hlast] at hwhole ⊢
          rw [if_pos hlast]
          exact finish_unchecked hwhole _
        · rw [if_neg hlast] at hwhole hstepwise ⊢
          rw [if_neg hlast]
          exact ih hwhole hstepwise

theorem frameBody_eq {b : Bytes} (hwhole : (frameBody .whole h b).flaw = none)
    (hstepwise : (frameBody .stepwise h b).flaw = none) :
    frameBody .stepwise h b = frameBody .whole h b := by
  unfold frameBody at hwhole hstepwise ⊢
  dsimp only at hwhole hstepwise ⊢
  split at hwhole <;> rename_i hsound
  · split at hstepwise <;> rename_i hwindow
    · cases hstepwise
    · rw [if_neg hwindow, if_pos hsound]
      exact blocks_eq hsound hstepwise
  · exact absurd hwhole hsound

/-- A frame that passes both ways is the same frame. -/
theorem frameAt_eq {pace pace' : Pace} {b : Bytes} (h : (frameAt pace b).flaw = none)
    (h' : (frameAt pace' b).flaw = none) : frameAt pace b = frameAt pace' b := by
  have hboth : (frameAt .whole b).flaw = none → (frameAt .stepwise b).flaw = none →
      frameAt .stepwise b = frameAt .whole b := by
    intro hwhole hstepwise
    unfold frameAt at hwhole hstepwise ⊢
    dsimp only at hwhole hstepwise ⊢
    by_cases hmagic : b.take 4 = magic
    · rw [if_pos hmagic] at hwhole hstepwise ⊢
      rw [if_pos hmagic]
      cases hheader : frameHeader (b.drop 4) with
      | error flaw => rfl
      | ok p =>
        rw [hheader] at hwhole hstepwise
        exact frameBody_eq hwhole hstepwise
    · rw [if_neg hmagic, if_neg hmagic]
  cases pace with
  | stepwise =>
    cases pace' with
    | stepwise => rfl
    | whole => exact hboth h' h
  | whole =>
    cases pace' with
    | stepwise => exact (hboth h h').symm
    | whole => rfl

namespace Frames

variable {pace : Pace} {s : Frames}

/-- A stream ends at a frame with a flaw, and comes to the fault of that. -/
theorem exists_next_of_flaw {flaw : Flaw} (hf : (frameAt pace s.bytes).flaw = some flaw) :
    ∃ d : Decoded, s.next pace = .last d ∧
      d.result = .error (.shared (flaw.fault s.rest.shortage)) := by
  unfold next
  dsimp only
  rw [hf]
  cases flaw with
  | truncated => exact ⟨_, rfl, Decoded.result_of_some rfl⟩
  | damaged => exact ⟨_, rfl, Decoded.result_of_some rfl⟩

/-- Behind a frame without a flaw there are more frames, or what follows the frames comes up. -/
theorem next_of_sound (hf : (frameAt pace s.bytes).flaw = none) :
    s.next pace =
      let f := frameAt pace s.bytes
      if f.rest = [] then .last { pending := f.output, fault := s.rest.failure? }
      else .more f.output { s with bytes := f.rest } := by
  unfold next
  dsimp only
  rw [hf]

end Frames

namespace Decoder

/-- What a decoder may come to, if it comes to each frame with a read for an amount in `R`. -/
inductive Comes (R : Nat → Prop) : Decoder → Except Fault Bytes → Prop
  | last (d : Decoded) : Comes R (last d) d.result
  | more {n : Nat} {s : Frames} {r : Except Fault Bytes} (pending : Bytes) (hn : R n)
    (h : Comes R (s.next (s.pace n)) r) : Comes R (more pending s) ((pending ++ ·) <$> r)

variable {R : Nat → Prop}

theorem Comes.of_more {s : Frames} {a b : Bytes} {r : Except Fault Bytes}
    (h : Comes R (Decoder.more b s) r) : Comes R (Decoder.more (a ++ b) s) ((a ++ ·) <$> r) := by
  cases h with
  | more _ hn h =>
    rw [Reader.map_append]
    exact .more _ hn h

theorem Comes.of_nil {s : Frames} {n : Nat} {r : Except Fault Bytes} (hn : R n)
    (h : Comes R (s.next (s.pace n)) r) : Comes R (Decoder.more [] s) r := by
  rw [← Reader.map_append_nil r]
  exact .more [] hn h

theorem of_ok {n : Nat} {z : Decoder} {b : Bytes} {r : Except Fault Bytes} (hn : R n)
    (h : (z.read n).1 = .ok b) (hr : Comes R (z.read n).2 r) : Comes R z ((b ++ ·) <$> r) := by
  fun_induction read n z with
  | case1 d =>
    cases hr
    rw [← Decoded.result_read h]
    exact .last d
  | case2 pending s =>
    cases h
    rw [Reader.map_append_nil]
    exact hr
  | case3 pending s _ _ =>
    cases h
    have := Comes.of_more (a := pending.take n) hr
    rwa [List.take_append_drop] at this
  | case4 pending s _ hpending ih =>
    obtain rfl : pending = [] := by simpa using hpending
    exact .of_nil hn (ih h hr)

theorem of_nil {n : Nat} {z : Decoder} (hR : R n) (hn : n ≠ 0) (h : (z.read n).1 = .ok []) :
    Comes R z (.ok []) := by
  fun_induction read n z with
  | case1 d =>
    rw [(Decoded.tells fun _ => True).of_nil n d trivial trivial hn h]
    exact .last d
  | case2 _ _ hzero => exact absurd hzero hn
  | case3 pending s _ hpending =>
    rw [Except.ok.injEq, List.take_eq_nil_iff] at h
    exact absurd h (by simp [hn, hpending])
  | case4 pending s _ hpending ih =>
    obtain rfl : pending = [] := by simpa using hpending
    exact .of_nil hR (ih h)

/-- A read that fails leaves a decoder that fails the same way. -/
theorem of_error {n : Nat} {z : Decoder} {f : Fault} (hR : R n) (h : (z.read n).1 = .error f) :
    Comes R z (.error f) ∧ ∀ r, Comes R (z.read n).2 r → Comes R z r := by
  fun_induction read n z with
  | case1 d =>
    have hd := (Decoded.tells fun _ => True).of_error n d f trivial trivial h
    refine ⟨hd.1 (Decoded.read_not_interrupted h) ▸ .last d, fun r hr => ?_⟩
    cases hr
    exact hd.2 _ rfl ▸ .last d
  | case2 => cases h
  | case3 => cases h
  | case4 pending s _ hpending ih =>
    obtain rfl : pending = [] := by simpa using hpending
    exact ⟨.of_nil hR (ih h).1, fun r hr => .of_nil hR ((ih h).2 r hr)⟩

/-- What a decoder may come to fits each read. -/
theorem tells (R : Nat → Prop) : Reader.Tells R (fun _ : Decoder => True) (Comes R) where
  keeps _ _ _ := trivial
  of_ok _ _ _ _ _ hR h hr := of_ok hR h hr
  of_nil _ _ _ hR hn h := of_nil hR hn h
  of_error _ _ _ _ hR h := ⟨fun _ => (of_error hR h).1, (of_error hR h).2⟩

end Decoder

/-! ## Even streams -/

end Zstd
end ContainerLayer
