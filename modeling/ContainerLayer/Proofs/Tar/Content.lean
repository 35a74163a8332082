import ContainerLayer.Filter
import ContainerLayer.Proofs.Stream.Playing
import Mathlib.Algebra.Ring.Nat

/-
The content of entries.

`Content.expand` says what the content is, given the bytes on the tape: stored stretches
are taken from there, and gaps are zeros.  Collecting the content gives just that, and
so does copying it chunk by chunk, if copying succeeds.
-/

namespace ContainerLayer
namespace Tar

open Tape

/-- The length of a stretch. -/
def Segment.length : Segment → Nat
  | stored n => n
  | gap n => n

/-- How much of a stretch is on the tape. -/
def Segment.onTape : Segment → Nat
  | stored n => n
  | gap _ => 0

namespace Content

/-- The content with `b` on the tape, and what is left of `b`. -/
def expand : Content → Bytes → Bytes × Bytes
  | [], b => ([], b)
  | .stored k :: rest, b => (b.take k ++ (expand rest (b.drop k)).1, (expand rest (b.drop k)).2)
  | .gap k :: rest, b => (List.replicate k 0 ++ (expand rest b).1, (expand rest b).2)

/-- The length of the content if the tape is long enough. -/
def total (content : Content) : Nat := (content.map Segment.length).sum

/-- How much of the content is on the tape. -/
def onTape (content : Content) : Nat := (content.map Segment.onTape).sum

@[simp] theorem onTape_stored (n : Nat) (rest : Content) :
    onTape (.stored n :: rest) = n + onTape rest := rfl

@[simp] theorem onTape_gap (n : Nat) (rest : Content) : onTape (.gap n :: rest) = onTape rest :=
  Nat.zero_add _

theorem length_expand_le (content : Content) (b : Bytes) :
    (expand content b).1.length ≤ total content := by
  induction content generalizing b with
  | nil => exact Nat.le_refl 0
  | cons s rest ih =>
    cases s with
    | stored k =>
      have := ih (b.drop k)
      have : (b.take k).length ≤ k := List.length_take_le k b
      simp only [expand, total, List.map_cons, List.sum_cons, List.length_append, Segment.length]
        at *
      omega
    | gap k =>
      have := ih b
      simp only [expand, total, List.map_cons, List.sum_cons, List.length_append,
        List.length_replicate, Segment.length] at *
      omega

theorem expand_eq_nil {content : Content} {b : Bytes} (h : (expand content b).1 = []) :
    (expand content b).2 = b := by
  induction content generalizing b with
  | nil => rfl
  | cons s rest ih =>
    cases s with
    | stored k =>
      obtain ⟨h₁, h₂⟩ := List.append_eq_nil_iff.mp h
      have hb : b.drop k = b := by
        have := List.take_append_drop k b
        rwa [h₁, List.nil_append] at this
      rw [hb] at h₂
      simp only [expand, hb]
      exact ih h₂
    | gap k => exact ih (List.append_eq_nil_iff.mp h).2

theorem expand_stored_nil (k : Nat) (rest : Content) :
    expand (.stored k :: rest) [] = expand rest [] := by simp [expand]

theorem expand_stored_zero (rest : Content) (b : Bytes) :
    expand (.stored 0 :: rest) b = expand rest b := by simp [expand]

theorem expand_gap_zero (rest : Content) (b : Bytes) :
    expand (.gap 0 :: rest) b = expand rest b := by simp [expand]

/-! ## Collecting -/

theorem collect_plays (content : Content) (position : Nat) (b : Bytes) :
    ∃ position', (collect content).Plays (⟨position, ⟨b⟩⟩ : Spot Whole) (expand content b).1
        ⟨position', ⟨(expand content b).2⟩⟩ []
      ∧ position' + (expand content b).2.length = position + b.length := by
  induction content generalizing position b with
  | nil => exact ⟨position, plays_pure _ _, rfl⟩
  | cons s rest ih =>
    cases s with
    | stored k =>
      obtain ⟨position', hplays, hpos⟩ := ih (position + (b.take k).length) (b.drop k)
      refine ⟨position', ?_, ?_⟩
      · exact (gather_whole k true position b).bind_nil
          (hplays.bind_nil (plays_pure _ _))
      · have := congrArg List.length (List.take_append_drop k b)
        simp only [List.length_append] at this
        simp only [expand]
        omega
    | gap k =>
      obtain ⟨position', hplays, hpos⟩ := ih position b
      exact ⟨position', hplays.bind_nil (plays_pure _ _), hpos⟩

theorem reads_collect (content : Content) : Reads (fun _ => True) (collect content) := by
  induction content with
  | nil => exact reads_pure trivial
  | cons s rest ih =>
    cases s with
    | stored k =>
      exact (reads_gather k true).bind fun b _ => ih.bind fun r _ => reads_pure trivial
    | gap k => exact ih.bind fun r _ => reads_pure trivial

/-- What was taken from the front of a tape as content is collected from all of it. -/
theorem collect_of_expand {σ : Type} {output : σ → Bytes} {c c' : Spot σ} {content : Content}
    {bytes : Bytes} (h : expand content (output c.reader) = (bytes, output c'.reader))
    (hpos : c'.position + (output c'.reader).length = c.position + (output c.reader).length) :
    (collect content).Plays (c.whole output) bytes (c'.whole output) [] := by
  obtain ⟨position, hplays, hpos'⟩ := collect_plays content c.position (output c.reader)
  rw [h] at hplays hpos'
  have e : position = c'.position := by
    dsimp only at hpos'
    omega
  rw [e] at hplays
  exact hplays

/-! ## Copying -/

section Hands

variable {σ : Type} [Reader σ] {I : σ → Prop} {output : σ → Bytes} (h : Reader.Hands I output)

include h in
/-- A read takes what it gives from the front of the content. -/
theorem read_plays {n : Nat} (hn : n ≠ 0) {content content' : Content} {c c' : Spot σ}
    {b out : Bytes} (hc : I c.reader)
    (hp : (Content.read n content).Plays c (b, content') c' out) :
    out = [] ∧ I c'.reader
      ∧ expand content (output c.reader) = (b ++ (expand content' (output c'.reader)).1,
          (expand content' (output c'.reader)).2)
      ∧ b.length ≤ n
      ∧ c'.position + (output c'.reader).length = c.position + (output c.reader).length := by
  induction content generalizing c out with
  | nil =>
    obtain ⟨e, rfl, rfl⟩ := plays_pure_iff.mp hp
    cases e
    exact ⟨rfl, hc, rfl, Nat.zero_le n, rfl⟩
  | cons s rest ih =>
    cases s with
    | stored k =>
      unfold Content.read at hp
      split at hp
      · subst k
        rw [expand_stored_zero]
        exact ih hc hp
      rename_i hk
      obtain ⟨b₁, c₁, o₁, o₂, h₁, h₂, rfl⟩ := plays_bind_iff.mp hp
      obtain ⟨rfl, hc₁, hlen, hout, hpos, hnil⟩ := of_read_plays h hc h₁
      split at h₂
      · subst b₁
        have hnone := hnil (by omega) rfl
        rw [hnone, List.nil_append] at hout
        have ih := ih hc₁ h₂
        rw [← hout] at ih
        rw [hnone, expand_stored_nil]
        refine ⟨ih.1, ih.2.1, ih.2.2.1, ih.2.2.2.1, ?_⟩
        rw [ih.2.2.2.2, hpos]
        rfl
      · obtain ⟨e, rfl, rfl⟩ := plays_pure_iff.mp h₂
        cases e
        have hle : b.length ≤ k := Nat.le_trans hlen (Nat.min_le_right n k)
        refine ⟨rfl, hc₁, ?_, Nat.le_trans hlen (Nat.min_le_left n k), ?_⟩
        · simp only [expand, hout, List.take_append, List.drop_append, List.take_of_length_le hle,
            List.drop_eq_nil_of_le hle, List.nil_append, List.append_assoc]
        · rw [hpos, hout, List.length_append, Nat.add_assoc]
    | gap k =>
      unfold Content.read at hp
      split at hp
      · subst k
        rw [expand_gap_zero]
        exact ih hc hp
      · obtain ⟨e, rfl, rfl⟩ := plays_pure_iff.mp hp
        cases e
        refine ⟨rfl, hc, ?_, by rw [List.length_replicate]; omega, rfl⟩
        simp only [expand]
        rw [← List.append_assoc, List.replicate_append_replicate,
          Nat.add_sub_cancel' (Nat.min_le_right n k)]

/-- What becomes of content that is passed to `sink` chunk by chunk: `f` of it is written. -/
structure Sinks (f : Bytes → Bytes) (sink : Bytes → Tape Unit) : Prop where
  nil : f [] = []
  append : ∀ a b, f (a ++ b) = f a ++ f b
  plays : ∀ {b} {c c' : Spot σ} {u out}, (sink b).Plays c u c' out → c' = c ∧ out = f b

theorem sinks_write : Sinks (σ := σ) id Tape.write where
  nil := rfl
  append _ _ := rfl
  plays hp := plays_write_iff.mp hp

theorem sinks_forget : Sinks (σ := σ) (fun _ => []) fun _ => pure () where
  nil := rfl
  append _ _ := rfl
  plays hp := (plays_pure_iff.mp hp).2

include h in
/-- Copying takes exactly as many bytes as it is meant to from the front of the content. -/
theorem forEach_plays {n k : Nat} (hn : n ≠ 0) {f : Bytes → Bytes} {sink : Bytes → Tape Unit}
    (hsink : Sinks (σ := σ) f sink) {content content' : Content} {c c' : Spot σ} {u : Unit}
    {out : Bytes} (hc : I c.reader)
    (hp : ((Exact.forEach (m := StateT Content Tape) Content.read n
      (fun b => StateT.lift (sink b)) ⟨k⟩).run content).Plays c (u, content') c' out) :
    ∃ bytes, bytes.length = k ∧ out = f bytes ∧ I c'.reader
      ∧ expand content (output c.reader) = (bytes ++ (expand content' (output c'.reader)).1,
          (expand content' (output c'.reader)).2)
      ∧ c'.position + (output c'.reader).length = c.position + (output c.reader).length := by
  induction k using Nat.strongRecOn generalizing content c out with
  | ind k ih =>
    rw [Exact.forEach] at hp
    split at hp
    · rename_i hk
      have hk : k = 0 := hk
      obtain ⟨e, rfl, rfl⟩ := plays_pure_iff.mp hp
      cases e
      exact ⟨[], hk.symm, hsink.nil.symm, hc, rfl, rfl⟩
    · rename_i hk
      have hk : k ≠ 0 := hk
      rw [StateT.run_bind] at hp
      obtain ⟨⟨b, content₁⟩, c₁, o₁, o₂, h₁, h₂, rfl⟩ := plays_bind_iff.mp hp
      have hwant : (Exact.mk k).want n ≠ 0 := by
        show min n k ≠ 0
        omega
      obtain ⟨rfl, hc₁, hexp, hlen, hpos⟩ := read_plays h hwant hc h₁
      have hlen : b.length ≤ k := Nat.le_trans hlen (Nat.min_le_right n k)
      by_cases hb : b = []
      · subst hb
        exact absurd h₂ not_plays_throw
      · have hb0 : 0 < b.length := List.length_pos_iff.mpr hb
        have haccept : (Exact.mk k).accept b = .ok ⟨k - b.length⟩ := if_neg hb
        dsimp only at h₂
        split at h₂
        · exact absurd h₂ not_plays_throw
        rename_i y hy
        rw [haccept] at hy
        cases hy
        rw [StateT.run_bind] at h₂
        obtain ⟨⟨u₁, content₂⟩, c₂, o₃, o₄, h₃, h₄, rfl⟩ := plays_bind_iff.mp h₂
        obtain ⟨u₂, c₃, o₅, o₆, h₅, h₆, rfl⟩ := plays_bind_iff.mp h₃
        obtain ⟨rfl, rfl⟩ := hsink.plays h₅
        obtain ⟨e, rfl, rfl⟩ := plays_pure_iff.mp h₆
        cases e
        obtain ⟨bytes, hbytes, rfl, hc', hexp', hpos'⟩ := ih (k - b.length) (by omega) hc₁ h₄
        refine ⟨b ++ bytes, by rw [List.length_append]; omega, ?_, hc', ?_, by omega⟩
        · rw [hsink.append, List.append_nil, List.nil_append]
        · rw [hexp, hexp', List.append_assoc]

end Hands

end Content
end Tar

namespace EntryHeader

open Tar Tape

variable {σ : Type} [Reader σ] {I : σ → Prop} {output : σ → Bytes} (h : Reader.Hands I output)

include h in
/-- Copying content that is no longer than the entry takes all of it. -/
theorem copyContent_plays {e : EntryHeader} {f : Bytes → Bytes} {sink : Bytes → Tape Unit}
    (hsink : Content.Sinks (σ := σ) f sink) {content content' : Content} {c c' : Spot σ}
    {out : Bytes} (hc : I c.reader) (ht : Content.total content ≤ e.size)
    (hp : (e.copyContent sink content).Plays c content' c' out) :
    ∃ bytes, bytes.length = e.size ∧ e.size = Content.total content ∧ out = f bytes ∧ I c'.reader
      ∧ Content.expand content (output c.reader) = (bytes, output c'.reader)
      ∧ c'.position + (output c'.reader).length = c.position + (output c.reader).length := by
  obtain ⟨⟨u, content₁⟩, c₁, o₁, o₂, h₁, h₂, rfl⟩ := plays_bind_iff.mp hp
  obtain ⟨rfl, rfl, rfl⟩ := plays_pure_iff.mp h₂
  obtain ⟨bytes, hbytes, rfl, hc', hexp, hpos⟩ := Content.forEach_plays h (by decide) hsink hc h₁
  have hlen := Content.length_expand_le content (output c.reader)
  rw [hexp, List.length_append] at hlen
  have hnil : (Content.expand content' (output c'.reader)).1 = [] :=
    List.eq_nil_of_length_eq_zero (by omega)
  refine ⟨bytes, hbytes, by omega, List.append_nil _, hc', ?_, hpos⟩
  rw [hexp, Content.expand_eq_nil hnil, hnil, List.append_nil]

end EntryHeader
end ContainerLayer
