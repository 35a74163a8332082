import ContainerLayer.Proofs.Compression.Pacing

/-
The content of a blob.

A frame that is damaged may pass with some reads and not with others.  But reads that do come to
the end of a blob have handed out the same bytes, whatever they asked for.  These are its content
(`content?`), which does not mention reads.
-/

namespace ContainerLayer

namespace Zstd

/-- The frame that `b` starts with, decoded so that it has no flaw. -/
def flawless? (b : Bytes) : Option Frame :=
  if (frameAt .stepwise b).flaw = none then some (frameAt .stepwise b)
  else if (frameAt .whole b).flaw = none then some (frameAt .whole b)
  else none

theorem flawless?_eq {pace : Pace} {b : Bytes} (h : (frameAt pace b).flaw = none) :
    flawless? b = some (frameAt pace b) := by
  unfold flawless?
  split <;> rename_i hstepwise
  · rw [frameAt_eq hstepwise h]
  cases pace with
  | stepwise => exact absurd h hstepwise
  | whole => rw [if_pos h]

theorem exists_of_flawless? {b : Bytes} {f : Frame} (h : flawless? b = some f) :
    ∃ pace, frameAt pace b = f ∧ (frameAt pace b).flaw = none := by
  unfold flawless? at h
  split at h <;> rename_i hstepwise
  · exact ⟨.stepwise, Option.some.inj h, hstepwise⟩
  split at h <;> rename_i hwhole
  · exact ⟨.whole, Option.some.inj h, hwhole⟩
  · cases h

/-- What the frames that `b` consists of put out; `none` if one of them is flawed. -/
def contentOf (b : Bytes) : Option Bytes :=
  match _ : flawless? b with
  | none => none
  | some f => if f.rest = [] then some f.output else (contentOf f.rest).map (f.output ++ ·)
termination_by b.length
decreasing_by
  obtain ⟨pace, rfl, hflaw⟩ := exists_of_flawless? ‹_›
  exact length_frameAt_rest_lt hflaw

theorem contentOf_eq {pace : Pace} {b : Bytes} (h : (frameAt pace b).flaw = none) :
    contentOf b =
      let f := frameAt pace b
      if f.rest = [] then some f.output else (contentOf f.rest).map (f.output ++ ·) := by
  rw [contentOf]
  split <;> rename_i e <;> rw [flawless?_eq h] at e <;> cases e
  rfl

namespace Decoder

/-- All that is to come, unless that ends with a fault. -/
def content? : Decoder → Option Bytes
  | more pending s =>
    if s.rest.failure? = none then (contentOf s.bytes).map (pending ++ ·) else none
  | last d => d.result.toOption

theorem content?_more (pending : Bytes) (s : Frames) :
    (more pending s).content? =
      if s.rest.failure? = none then (contentOf s.bytes).map (pending ++ ·) else none := rfl

theorem content?_next {pace : Pace} {s : Frames} {x : Bytes} (pending : Bytes)
    (h : (s.next pace).content? = some x) :
    (more pending s).content? = some (pending ++ x) := by
  cases hflaw : (frameAt pace s.bytes).flaw with
  | some flaw =>
    obtain ⟨d, hd, hresult⟩ := Frames.exists_next_of_flaw hflaw
    rw [hd, content?, hresult] at h
    cases h
  | none =>
    rw [Frames.next_of_sound hflaw] at h
    dsimp only at h
    rw [content?_more, contentOf_eq hflaw]
    dsimp only
    split at h <;> rename_i hrest
    · cases hfail : s.rest.failure? with
      | some f =>
        rw [hfail] at h
        cases h
      | none =>
        rw [hfail] at h
        rw [if_pos rfl, if_pos hrest]
        cases h
        simp [Decoded.output]
    · rw [if_neg hrest]
      rw [content?_more] at h
      dsimp only at h
      split at h <;> rename_i hfail
      · obtain ⟨y, hy, rfl⟩ := Option.map_eq_some_iff.mp h
        rw [if_pos hfail, hy]
        rfl
      · cases h

/-- Data that a decoder comes to is its content. -/
theorem Comes.content?_eq {R : Nat → Prop} {z : Decoder} {r : Except Fault Bytes}
    (h : Comes R z r) {x : Bytes} (hr : r = .ok x) : z.content? = some x := by
  induction h generalizing x with
  | last d =>
    show d.result.toOption = some x
    rw [hr]
    rfl
  | more pending _ _ ih =>
    rename_i r _ _
    cases r with
    | error f => cases hr
    | ok y =>
      cases hr
      exact content?_next pending (ih rfl)

end Decoder
end Zstd

namespace Unpacked

/-- Nothing but data comes, as far as there is nothing to decode. -/
def Unbroken : Unpacked → Prop
  | plain s => s.OnlyData
  | _ => True

/-- What reading to the end may come to. -/
def Comes (u : Unpacked) (r : Except Fault Bytes) : Prop :=
  match u with
  | plain s => r = .ok s.remaining
  | decoded d => r = d.result
  | frames z => z.Comes (fun _ => True) r

theorem tells : Reader.Tells (fun _ => True) Unbroken Comes where
  keeps n u hu := by
    cases u with
    | plain s => exact Source.gives.keeps n s hu
    | decoded d => trivial
    | frames z => trivial
  of_ok n u b r hu _ h hr := by
    cases u with
    | plain s =>
      obtain ⟨b', hb', -, hsplit⟩ := Source.gives.read_ok n s hu
      cases hb'.symm.trans h
      show _ = Except.ok s.remaining
      rw [show r = .ok (Reader.read n s).2.remaining from hr]
      exact congrArg Except.ok hsplit.symm
    | decoded d => exact (Decoded.tells fun _ => True).of_ok n d b r trivial trivial h hr
    | frames z => exact (Zstd.Decoder.tells fun _ => True).of_ok n z b r trivial trivial h hr
  of_nil n u hu _ hn h := by
    cases u with
    | plain s => exact congrArg Except.ok (Source.gives.eq_nil n s hu hn h).symm
    | decoded d => exact (Decoded.tells fun _ => True).of_nil n d trivial trivial hn h
    | frames z => exact (Zstd.Decoder.tells fun _ => True).of_nil n z trivial trivial hn h
  of_error n u f hu _ h := by
    cases u with
    | plain s =>
      obtain ⟨b, hb, -⟩ := Source.gives.read_ok n s hu
      cases hb.symm.trans h
    | decoded d => exact (Decoded.tells fun _ => True).of_error n d f trivial trivial h
    | frames z => exact (Zstd.Decoder.tells fun _ => True).of_error n z f trivial trivial h

/-- All that is to come, unless that ends with a fault. -/
def content? : Unpacked → Option Bytes
  | plain s => some s.remaining
  | decoded d => d.result.toOption
  | frames z => z.content?

/-- Data that a stream comes to is its content. -/
theorem Comes.content?_eq {u : Unpacked} {x : Bytes} (h : u.Comes (.ok x)) :
    u.content? = some x := by
  cases u with
  | plain s => exact congrArg some (Except.ok.inj h).symm
  | decoded d => exact (congrArg Except.toOption (show Except.ok x = d.result from h)).symm
  | frames z => exact Zstd.Decoder.Comes.content?_eq h rfl

/-- Whatever amount the reads ask for, a stream that is read to its end has given its content. -/
theorem content?_of_drainOnto {u : Unpacked} (hu : u.Unbroken) {n : Nat} (hn : n ≠ 0) {x : Bytes}
    (h : (Reader.drainOnto n [] u).result = .ok x) : u.content? = some x :=
  Comes.content?_eq (h ▸ tells.result trivial hn hu)

end Unpacked

namespace Compression

theorem onlyData_sniff {want : Nat} {s : Source} (h : s.OnlyData) :
    (sniff want s).2.OnlyData := by
  have hread : ∀ {want : Nat} {s : Source}, s.OnlyData →
      (Reader.readPatiently want s).2.OnlyData := Source.gives.keeps.readPatiently
  fun_induction sniff want s with
  | case1 => exact h
  | case2 want s _ f s' e =>
    have := @hread want s h
    rwa [e] at this
  | case3 want s _ s' e =>
    have := @hread want s h
    rwa [e] at this
  | case4 want s _ b s' e _ more s'' e' ih =>
    have := @hread want s h
    rw [e] at this
    have := ih this
    rwa [e'] at this
  | case5 want s _ b s' e _ f s'' e' ih =>
    have := @hread want s h
    rw [e] at this
    have := ih this
    rwa [e'] at this

/-- The reader of what a blob holds once it is decompressed. -/
def unpacked (c : Compression) (blob : Bytes) : Except Fault Unpacked :=
  match c with
  | none => .ok (.plain (Source.ofBytes blob))
  | _ => (decompressStream (Source.ofBytes blob)).map Prod.snd

/-- All that a blob decompresses to; `none` if that comes to a fault. -/
def content? (c : Compression) (blob : Bytes) : Option Bytes :=
  match unpacked c blob with
  | .error _ => Option.none
  | .ok u => u.content?

theorem content?_eq {c : Compression} {blob : Bytes} {u : Unpacked} (h : unpacked c blob = .ok u) :
    content? c blob = u.content? := by
  rw [content?, h]

theorem content?_none (blob : Bytes) : content? none blob = some blob := by
  simp [content?, unpacked, Unpacked.content?, Source.ofBytes]

/-- How a compressed blob is compressed shows in the blob. -/
theorem content?_congr {c c' : Compression} (h : c' = none ↔ c = none) (blob : Bytes) :
    content? c' blob = content? c blob := by
  cases c with
  | none => rw [h.mpr rfl]
  | gzip =>
    cases c' with
    | none => cases h.mp rfl
    | gzip => rfl
    | zstd => rfl
  | zstd =>
    cases c' with
    | none => cases h.mp rfl
    | gzip => rfl
    | zstd => rfl

theorem unbroken_of_decompressStream {s : Source} (hs : s.OnlyData)
    {r : Compression × Unpacked} (h : decompressStream s = .ok r) : r.2.Unbroken := by
  have hrest : (sniff magicLength s).2.OnlyData := onlyData_sniff hs
  unfold decompressStream at h
  split at h
  · cases h
  · rename_i start rest e
    rw [e] at hrest
    cases h
    unfold decompress
    dsimp only
    split
    · intro p hp
      rcases List.mem_cons.mp hp with rfl | hp
      · exact ⟨start, rfl⟩
      · exact hrest p hp
    · trivial
    · trivial

theorem unbroken_of_unpacked {c : Compression} {blob : Bytes} {u : Unpacked}
    (h : unpacked c blob = .ok u) : u.Unbroken := by
  have hguessed : (decompressStream (Source.ofBytes blob)).map Prod.snd = .ok u →
      u.Unbroken := by
    intro h
    cases hr : decompressStream (Source.ofBytes blob) with
    | error f => rw [hr] at h; cases h
    | ok r =>
      rw [hr] at h
      cases h
      exact unbroken_of_decompressStream (Source.onlyData_ofBytes blob) hr
  cases c with
  | none =>
    cases h
    exact Source.onlyData_ofBytes blob
  | gzip => exact hguessed h
  | zstd => exact hguessed h

end Compression
end ContainerLayer
