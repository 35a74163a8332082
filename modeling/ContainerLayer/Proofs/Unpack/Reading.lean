import ContainerLayer.Proofs.Bytes
import ContainerLayer.Proofs.Tar.Content
import ContainerLayer.Unpack

/-
Reading content for a file from a tape that has all of it.

The chunks that come of it make up what the content stands for, and nothing fails
(`readContent_plays`).
-/

namespace ContainerLayer

namespace Tar.Content

/-- The tape holds every stored stretch to its end, and no gap is too long for a file. -/
def Supplied : Content → Bytes → Prop
  | [], _ => True
  | .stored n :: rest, b => n ≤ b.length ∧ Supplied rest (b.drop n)
  | .gap n :: rest, b => n < 0x8000000000000000 ∧ Supplied rest b

theorem Supplied.onTape_le {content : Content} {b : Bytes} (h : Supplied content b) :
    onTape content ≤ b.length := by
  induction content generalizing b with
  | nil => exact Nat.zero_le _
  | cons segment rest ih =>
    cases segment with
    | gap n =>
      rw [onTape_gap]
      exact ih h.2
    | stored n =>
      obtain ⟨hn, h⟩ := h
      have := ih h
      rw [List.length_drop] at this
      rw [onTape_stored]
      omega

/-- Content depends on nothing but what is stored of it. -/
theorem Supplied.congr {content : Content} {b b' : Bytes} (h : Supplied content b)
    (he : b'.take (onTape content) = b.take (onTape content)) :
    Supplied content b' ∧ (expand content b').1 = (expand content b).1 := by
  induction content generalizing b b' with
  | nil => exact ⟨trivial, rfl⟩
  | cons segment rest ih =>
    cases segment with
    | gap n =>
      rw [onTape_gap] at he
      obtain ⟨hs, hexpand⟩ := ih h.2 he
      refine ⟨⟨h.1, hs⟩, ?_⟩
      simp only [expand, hexpand]
    | stored n =>
      obtain ⟨hn, h⟩ := h
      rw [onTape_stored] at he
      obtain ⟨htake, hdrop⟩ := Bytes.take_add_eq he
      obtain ⟨hs, hexpand⟩ := ih h hdrop
      refine ⟨⟨?_, hs⟩, ?_⟩
      · have := congrArg List.length htake
        rw [List.length_take, List.length_take_of_le hn] at this
        omega
      · simp only [expand, hexpand, htake]

end Tar.Content

namespace Tape

/-- What a read comes to, an attempt at it comes to as well. -/
theorem attempt_of_read {σ : Type} [Reader σ] {c c' : Spot σ} {n : Nat} {patient : Bool}
    {b out : Bytes} (h : (read n patient).Plays c b c' out) :
    (attempt n patient).Plays c (.ok b) c' out := by
  rw [read] at h
  obtain ⟨r, c₁, o₁, o₂, h₁, h₂, rfl⟩ := plays_bind_iff.mp h
  cases r with
  | error f => exact absurd h₂ not_plays_throw
  | ok b' =>
    obtain ⟨rfl, rfl, rfl⟩ := plays_pure_iff.mp h₂
    rwa [List.append_nil]

/-- An attempt that comes to bytes is a read. -/
theorem read_of_attempt {σ : Type} [Reader σ] {c c' : Spot σ} {n : Nat} {patient : Bool}
    {b out : Bytes} (h : (attempt n patient).Plays c (.ok b) c' out) :
    (read n patient).Plays c b c' out := by
  rw [read, ← List.append_nil out]
  exact h.bind (plays_pure _ _)

end Tape

namespace Unpack

open Tar Tape

section Given

variable {σ : Type} [Reader σ] {I : σ → Prop} {output : σ → Bytes} (h : Reader.Gives I output)

include h in
theorem readStored_plays (acc : List Bytes) {n : Nat} {c : Spot σ} (hc : I c.reader)
    (hn : n ≤ (output c.reader).length) :
    ∃ chunks c', (readStored acc n).Plays c (chunks, none) c' [] ∧ I c'.reader ∧
      chunks.reverse.flatten = acc.reverse.flatten ++ (output c.reader).take n ∧
      output c'.reader = (output c.reader).drop n := by
  induction n using Nat.strongRecOn generalizing acc c with
  | ind n ih =>
    rw [readStored]
    by_cases hzero : n = 0
    · rw [dif_pos hzero]
      exact ⟨acc, c, plays_pure _ _, hc, by simp [hzero], by simp [hzero]⟩
    rw [dif_neg hzero]
    obtain ⟨b, c₁, hread⟩ := read_plays h (min n chunk) true hc
    obtain ⟨-, hc₁, hlen, hout, -, hnil⟩ := of_read_plays h.hands hc hread
    have hchunk : min n chunk ≠ 0 := by
      unfold chunk
      omega
    have hb : b ≠ [] := by
      intro hb
      rw [hnil hchunk hb] at hn
      exact hzero (Nat.le_zero.mp hn)
    have hb0 : 0 < b.length := List.length_pos_iff.mpr hb
    have hle : b.length ≤ n := Nat.le_trans hlen (Nat.min_le_left n chunk)
    rw [hout, List.length_append] at hn
    obtain ⟨chunks, c', hplays, hc', hchunks, hrest⟩ :=
      ih (n - b.length) (by omega) (b :: acc) hc₁ (by omega)
    refine ⟨chunks, c', (attempt_of_read hread).bind_nil ?_, hc', ?_, ?_⟩
    · dsimp only
      rwa [dif_neg hb]
    · rw [hchunks, hout, List.take_append, List.take_of_length_le hle]
      simp
    · rw [hrest, hout, List.drop_append, List.drop_eq_nil_of_le hle, List.nil_append]

include h in
/-- All of the content is read, and what is left on the tape is what comes behind it. -/
theorem readContent_plays (acc : List Bytes) {content : Content} {c : Spot σ} (hc : I c.reader)
    (hs : content.Supplied (output c.reader)) :
    ∃ chunks c', (readContent acc content).Plays c (chunks, none) c' [] ∧ I c'.reader ∧
      chunks.reverse.flatten
        = acc.reverse.flatten ++ (content.expand (output c.reader)).1 ∧
      output c'.reader = (content.expand (output c.reader)).2 := by
  induction content generalizing acc c with
  | nil => exact ⟨acc, c, plays_pure _ _, hc, by simp [Content.expand], rfl⟩
  | cons segment rest ih =>
    cases segment with
    | gap n =>
      obtain ⟨hn, hs⟩ := hs
      obtain ⟨chunks, c', hplays, hc', hchunks, hrest⟩ :=
        ih (List.replicate n 0 :: acc) hc hs
      refine ⟨chunks, c', ?_, hc', ?_, hrest⟩
      · rw [readContent, if_neg (Nat.not_le.mpr hn)]
        exact hplays
      · rw [hchunks]
        simp [Content.expand]
    | stored n =>
      obtain ⟨hn, hs⟩ := hs
      obtain ⟨first, c₁, hfirst, hc₁, hfront, hleft⟩ := readStored_plays h acc hc hn
      rw [← hleft] at hs
      obtain ⟨chunks, c', hplays, hc', hchunks, hrest⟩ := ih first hc₁ hs
      refine ⟨chunks, c', hfirst.bind_nil hplays, hc', ?_, ?_⟩
      · rw [hchunks, hfront, hleft]
        simp [Content.expand]
      · rw [hrest, hleft]
        rfl

include h in
/-- How reading content turns out depends only on what is stored of it: readers with the same bytes
there come to the same content and the same fault. -/
theorem readContent_front {content : Content} {acc acc' : List Bytes} {c d : Spot σ}
    (hacc : acc.reverse.flatten = acc'.reverse.flatten) (hc : I c.reader) (hd : I d.reader)
    (hlength : Content.onTape content ≤ (output c.reader).length)
    (he : (output d.reader).take (Content.onTape content)
      = (output c.reader).take (Content.onTape content)) :
    ∃ chunks chunks' fault c' d',
      (readContent acc content).Plays c (chunks, fault) c' [] ∧
      (readContent acc' content).Plays d (chunks', fault) d' [] ∧
      chunks.reverse.flatten = chunks'.reverse.flatten := by
  induction content generalizing acc acc' c d with
  | nil => exact ⟨acc, acc', none, c, d, plays_pure _ _, plays_pure _ _, hacc⟩
  | cons segment rest ih =>
    cases segment with
    | gap n =>
      rw [Content.onTape_gap] at hlength he
      by_cases hn : n ≥ 0x8000000000000000
      · simp only [readContent, if_pos hn]
        exact ⟨acc, acc', _, c, d, plays_pure _ _, plays_pure _ _, hacc⟩
      · simp only [readContent, if_neg hn]
        exact ih (by simp [hacc]) hc hd hlength he
    | stored n =>
      rw [Content.onTape_stored] at hlength he
      obtain ⟨htake, hdrop⟩ := Bytes.take_add_eq he
      have hdlength : n ≤ (output d.reader).length := by
        have := congrArg List.length htake
        rw [List.length_take, List.length_take] at this
        omega
      obtain ⟨first, c₁, hfirst, hc₁, hfront, hleft⟩ :=
        readStored_plays h acc hc (Nat.le_of_add_right_le hlength)
      obtain ⟨first', d₁, hfirst', hd₁, hfront', hleft'⟩ := readStored_plays h acc' hd hdlength
      obtain ⟨chunks, chunks', fault, c', d', hplays, hplays', heq⟩ :=
        ih (show first.reverse.flatten = first'.reverse.flatten by rw [hfront, hfront', hacc, htake])
          hc₁ hd₁ (by rw [hleft, List.length_drop]; omega) (by rw [hleft, hleft']; exact hdrop)
      exact ⟨chunks, chunks', fault, c', d', hfirst.bind_nil hplays, hfirst'.bind_nil hplays', heq⟩

end Given

/-! ## What it took -/

section Taken

variable {σ : Type} [Reader σ] {I : σ → Prop} {output : σ → Bytes} (h : Reader.Hands I output)
variable {c c' : Spot σ} {out : Bytes} {acc chunks : List Bytes}

include h in
/-- Where a stretch was read without a fault, all of it was there. -/
theorem of_readStored_plays {n : Nat} (hc : I c.reader)
    (hp : (readStored acc n).Plays c (chunks, none) c' out) :
    I c'.reader ∧ out = [] ∧ n ≤ (output c.reader).length ∧
      chunks.reverse.flatten = acc.reverse.flatten ++ (output c.reader).take n ∧
      output c'.reader = (output c.reader).drop n ∧ c'.position = c.position + n := by
  induction n using Nat.strongRecOn generalizing acc c out with
  | ind n ih =>
    rw [readStored] at hp
    by_cases hzero : n = 0
    · rw [dif_pos hzero] at hp
      obtain ⟨hr, rfl, rfl⟩ := plays_pure_iff.mp hp
      cases hr
      subst hzero
      exact ⟨hc, rfl, Nat.zero_le _, by simp, rfl, rfl⟩
    rw [dif_neg hzero] at hp
    obtain ⟨r, c₁, o₁, o₂, hread, hrest, rfl⟩ := plays_bind_iff.mp hp
    cases r with
    | error f => cases (plays_pure_iff.mp hrest).1
    | ok b =>
      dsimp only at hrest
      by_cases hb : b = []
      · rw [dif_pos hb] at hrest
        cases (plays_pure_iff.mp hrest).1
      rw [dif_neg hb] at hrest
      obtain ⟨rfl, hc₁, hlen, hout, hpos, -⟩ := of_read_plays h hc (read_of_attempt hread)
      have hb0 : 0 < b.length := List.length_pos_iff.mpr hb
      have hle : b.length ≤ n := Nat.le_trans hlen (Nat.min_le_left n chunk)
      obtain ⟨hc', rfl, hn, hchunks, hleft, hpos'⟩ := ih (n - b.length) (by omega) hc₁ hrest
      refine ⟨hc', rfl, ?_, ?_, ?_, by omega⟩
      · rw [hout, List.length_append]
        omega
      · rw [hchunks, hout, List.take_append, List.take_of_length_le hle]
        simp
      · rw [hleft, hout, List.drop_append, List.drop_eq_nil_of_le hle, List.nil_append]

include h in
/-- Where content was read without a fault, all of it was there. -/
theorem of_readContent_plays {content : Content} (hc : I c.reader)
    (hp : (readContent acc content).Plays c (chunks, none) c' out) :
    I c'.reader ∧ out = [] ∧ content.Supplied (output c.reader) ∧
      chunks.reverse.flatten = acc.reverse.flatten ++ (content.expand (output c.reader)).1 ∧
      output c'.reader = (output c.reader).drop (Content.onTape content) ∧
      c'.position = c.position + Content.onTape content := by
  induction content generalizing acc c out with
  | nil =>
    obtain ⟨hr, rfl, rfl⟩ := plays_pure_iff.mp hp
    cases hr
    exact ⟨hc, rfl, trivial, by simp [Content.expand], rfl, rfl⟩
  | cons segment rest ih =>
    cases segment with
    | gap n =>
      rw [readContent] at hp
      by_cases hn : n ≥ 0x8000000000000000
      · rw [if_pos hn] at hp
        cases (plays_pure_iff.mp hp).1
      · rw [if_neg hn] at hp
        obtain ⟨hc', rfl, hs, hchunks, hleft, hpos⟩ := ih hc hp
        refine ⟨hc', rfl, ⟨Nat.not_le.mp hn, hs⟩, ?_, ?_, ?_⟩
        · rw [hchunks]
          simp [Content.expand]
        · rw [hleft, Content.onTape_gap]
        · rw [hpos, Content.onTape_gap]
    | stored n =>
      obtain ⟨⟨first, fault⟩, c₁, o₁, o₂, hfirst, hrest, rfl⟩ := plays_bind_iff.mp hp
      cases fault with
      | some f => cases (plays_pure_iff.mp hrest).1
      | none =>
        obtain ⟨hc₁, rfl, hn, hfront, hleft₁, hpos₁⟩ := of_readStored_plays h hc hfirst
        obtain ⟨hc', rfl, hs, hchunks, hleft, hpos⟩ := ih hc₁ hrest
        rw [hleft₁] at hs hchunks hleft
        refine ⟨hc', rfl, ⟨hn, hs⟩, ?_, ?_, ?_⟩
        · rw [hchunks, hfront]
          simp [Content.expand]
        · rw [hleft, List.drop_drop, Content.onTape_stored]
        · rw [hpos, hpos₁, Content.onTape_stored, Nat.add_assoc]

end Taken

end Unpack
end ContainerLayer
