import ContainerLayer.Proofs.Tar.Reading

/-
Entries that are found where they were put.

If the archive goes on with a good header at some place, reading there finds the header,
and what stands in front of an entry is taken in step by step until the entry is found.
-/

namespace ContainerLayer
namespace Tar

open Tape

/-- A header with content that is filled up to whole blocks. -/
def memberBytes (h : Header) (content : Bytes) : Bytes :=
  h.bytes ++ (content ++ Bytes.padding content.length)

/-- An archive member with a mode and content. -/
def plainMember (kind : EntryKind) (path content : Bytes) (mode : Nat) : Bytes :=
  memberBytes ((((Header.newGnu.put .name path).setMode mode).setSize content.length).setKind
    kind).setChecksum content

theorem length_memberBytes (h : Header) (content : Bytes) :
    (memberBytes h content).length = 512 + (content.length + 511) / 512 * 512 := by
  have hb := h.length_eq
  have hp := Bytes.length_padding content.length
  simp only [memberBytes, List.length_append]
  omega

theorem memberBytes_nil (h : Header) : memberBytes h [] = h.bytes := List.append_nil _

theorem aligned_memberBytes (h : Header) (content : Bytes) :
    (memberBytes h content).length % 512 = 0 := by
  rw [length_memberBytes]
  omega

/-- At `start`, which lies ahead of the spot, the archive goes on with `b`. -/
def Ahead (c : Spot Whole) (start : Nat) (b : Bytes) : Prop :=
  ∃ pad, c.reader.left = pad ++ b ∧ c.position + pad.length = start

theorem ahead_here (position : Nat) (b : Bytes) : Ahead ⟨position, ⟨b⟩⟩ position b :=
  ⟨[], rfl, rfl⟩

theorem readBlock_plays {c : Spot Whole} {start : Nat} {h : Header} {b : Bytes}
    (ha : Ahead c start (h.bytes ++ b)) :
    (readHeader start).Plays c (if h.isZero then none else some h) ⟨start + 512, ⟨b⟩⟩ [] := by
  obtain ⟨position, ⟨left⟩⟩ := c
  obtain ⟨pad, hleft, hpos⟩ := ha
  dsimp only at hleft hpos
  subst hleft
  have hb : h.bytes.length = 512 := h.length_eq
  have hpad : start - position = pad.length := by omega
  have hskip := skip_whole Defect.endInSkip.fault position
    (show start - position ≤ (pad ++ (h.bytes ++ b)).length by rw [hpad]; simp)
  rw [hpad, List.drop_left, hpos] at hskip
  have hgather := gather_whole 512 false start (h.bytes ++ b)
  rw [List.take_left' hb, List.drop_left' hb, hb] at hgather
  unfold readHeader
  refine (plays_position_iff.mpr ⟨rfl, rfl, rfl⟩ : Tape.position.Plays _ position _ []).bind_nil ?_
  rw [hpad]
  refine hskip.bind_nil (hgather.bind_nil ?_)
  have hne : h.bytes ≠ [] := by
    intro e
    rw [e] at hb
    cases hb
  rw [if_neg hne, dif_pos hb]
  exact plays_pure _ _

/-- A header that is read as it is, with `n` bytes of content behind it. -/
structure Header.Good (h : Header) (n : Nat) : Prop where
  verify : h.verify = .ok ()
  isZero : h.isZero = false
  size : h.number .size .size = .ok n

/-- The header is read at `start` with the given extension records in front of it. -/
structure Header.Fits (h : Header) (n : Nat) (extensions : Option Bytes) : Prop
    extends h.Good n where
  describes : Describes extensions h
  sizeless : ∀ data, recordsFor extensions h = some data → Pax.number? Pax.sizeKey data = none

theorem adopting_eq_self {extensions : Option Bytes} {h : Header} (hd : Describes extensions h) :
    adopting extensions h = h := by
  unfold adopting
  cases hr : recordsFor extensions h with
  | none => rfl
  | some data => exact (hd data hr).adopt_eq_self

theorem readMember_plays {c : Spot Whole} {start n : Nat} {extensions : Option Bytes} {h : Header}
    {b : Bytes} (hf : h.Fits n extensions) (ha : Ahead c start (h.bytes ++ b))
    (hl : start + 512 + (n + 511) / 512 * 512 < limit) :
    ∃ hm, (readMember start extensions).Plays c
      (some ⟨⟨h, n, start + 512 + (n + 511) / 512 * 512⟩, hm⟩) ⟨start + 512, ⟨b⟩⟩ [] := by
  have hm : Behind start (start + 512 + (n + 511) / 512 * 512) := ⟨by omega, hl⟩
  refine ⟨hm, ?_⟩
  have hnext : nextHeader start n = .ok ⟨_, hm⟩ := by
    unfold nextHeader
    rw [if_neg (by omega), dif_pos hl]
  have hself := adopting_eq_self hf.describes
  have hnone : (recordsFor extensions h).bind (Pax.number? Pax.sizeKey) = none := by
    cases hr : recordsFor extensions h with
    | none => rfl
    | some data => exact hf.sizeless data hr
  have hi : interpret start extensions h
      = .ok ⟨⟨h, n, start + 512 + (n + 511) / 512 * 512⟩, hm⟩ := by
    refine interpret_eq_ok_iff.mpr ⟨hf.verify, n, ⟨_, hm⟩, ?_, ?_, ?_⟩
    · rw [hself]
      exact hf.size
    · rw [hnone]
      exact hnext
    · simp only [hself, hnone, Option.getD_none]
  have hread := readBlock_plays ha
  rw [hf.isZero, if_neg Bool.false_ne_true] at hread
  unfold readMember
  refine hread.bind_nil ?_
  dsimp only
  rw [hi]
  exact plays_pure _ _

/-! ## What stands in front of an entry -/

/-- With `p` in front of it, reading the entry at `start` comes to `r`. -/
def Preface.Comes (p : Preface) (start : Nat) (c : Spot Whole) (r : Option Entry)
    (d : Spot Whole) : Prop :=
  ∃ r', (readEntryAfter p start).Plays c r' d [] ∧ r'.map (·.1) = r

theorem Preface.Comes.exists_plays {p : Preface} {start : Nat} {c d : Spot Whole} {e : Entry}
    (h : p.Comes start c (some e) d) :
    ∃ hb : Behind start e.next, (readEntryAfter p start).Plays c (some ⟨e, hb⟩) d [] := by
  obtain ⟨r, hplays, hr⟩ := h
  obtain ⟨⟨e, hb⟩, rfl, rfl⟩ := Option.map_eq_some_iff.mp hr
  exact ⟨hb, hplays⟩

/-- The bytes `o` are members that take what stands in front of an entry from `p` to `p'`. -/
def Preface.Passes (p : Preface) (o : Bytes) (p' : Preface) : Prop :=
  ∀ start c rest, Ahead c start (o ++ rest) → start + o.length < limit →
    ∃ c', Ahead c' (start + o.length) rest
      ∧ ∀ r d, p.Comes start c r d ↔ p'.Comes (start + o.length) c' r d

theorem Preface.passes_nil (p : Preface) : p.Passes [] p :=
  fun _ c _ ha _ => ⟨c, ha, fun _ _ => .rfl⟩

theorem Preface.Passes.trans {p p' p'' : Preface} {o o' : Bytes} (h : p.Passes o p')
    (h' : p'.Passes o' p'') : p.Passes (o ++ o') p'' := by
  intro start c rest ha hl
  rw [List.append_assoc] at ha
  rw [List.length_append, ← Nat.add_assoc] at hl ⊢
  obtain ⟨c₁, ha₁, hf₁⟩ := h start c _ ha (by omega)
  obtain ⟨c₂, ha₂, hf₂⟩ := h' _ c₁ rest ha₁ hl
  exact ⟨c₂, ha₂, fun r d => (hf₁ r d).trans (hf₂ r d)⟩

/-- A member of kind `k` with content `b` takes what stands in front of an entry from `p` to
`p'`. -/
inductive Preface.Takes (b : Bytes) : Preface → EntryKind → Preface → Prop
  | longName {p : Preface} (h : p.longName = none) :
      Takes b p .longName { p with longName := some b }
  | longLink {p : Preface} (h : p.longLink = none) :
      Takes b p .longLink { p with longLink := some b }
  | extension {p : Preface} (h : p.extensions = none) :
      Takes b p .extension { p with extensions := some b }

theorem Preface.Takes.isAbout {b : Bytes} {p p' : Preface} {k : EntryKind} (h : p.Takes b k p') :
    k.isAbout = true := by
  cases h <;> rfl

/-- Reading that goes on at `next` comes to the same, seen from `start`. -/
theorem Preface.comes_behind_iff {p : Preface} {start next : Nat} (h : Behind start next)
    {c d : Spot Whole} {r : Option Entry} :
    (∃ r' : Option { e : Entry // Behind start e.next },
      (do
        let r ← readEntryAfter p next
        return r.map fun e => ⟨e.1, h.trans e.2⟩ : Tape _).Plays c r' d [] ∧ r'.map (·.1) = r)
      ↔ p.Comes next c r d := by
  constructor
  · intro hr
    obtain ⟨r', hplays, rfl⟩ := hr
    obtain ⟨r, c₂, o₁, o₂, h₁, h₂, ho⟩ := plays_bind_iff.mp hplays
    obtain ⟨rfl, rfl, rfl⟩ := plays_pure_iff.mp h₂
    rw [List.append_nil] at ho
    subst ho
    exact ⟨r, h₁, by rw [Option.map_map]; rfl⟩
  · intro hr
    obtain ⟨r, hplays, rfl⟩ := hr
    exact ⟨_, hplays.bind_nil (plays_pure _ _), by rw [Option.map_map]; rfl⟩

/-- A member in front of an entry is taken in. -/
theorem Preface.Takes.passes {b : Bytes} {p p' : Preface} {h : Header} {k : EntryKind}
    (ht : Preface.Takes b p k p') (hk : h.kind = k) (hg : h.Good b.length)
    (hd : h.dialect ≠ .old) : p.Passes (memberBytes h b) p' := by
  intro start c rest ha hl
  rw [length_memberBytes, ← Nat.add_assoc] at hl ⊢
  have hfits : h.Fits b.length p.extensions := by
    have hnone : recordsFor p.extensions h = none := by
      rw [recordsFor, hk, ht.isAbout]
      rfl
    refine ⟨hg, ?_, ?_⟩
    · intro data e
      cases hnone.symm.trans e
    · intro data e
      cases hnone.symm.trans e
  rw [memberBytes, List.append_assoc, List.append_assoc] at ha
  obtain ⟨hm, hmember⟩ := readMember_plays hfits ha hl
  have hgather := gather_whole b.length true (start + 512)
    (b ++ (Bytes.padding b.length ++ rest))
  rw [List.take_left, List.drop_left] at hgather
  refine ⟨⟨start + 512 + b.length, ⟨Bytes.padding b.length ++ rest⟩⟩,
    ⟨Bytes.padding b.length, rfl, ?_⟩, ?_⟩
  · have hp := Bytes.length_padding b.length
    show start + 512 + b.length + (Bytes.padding b.length).length = _
    omega
  · intro r d
    rw [← Preface.comes_behind_iff hm]
    unfold Preface.Comes
    rw [readEntryAfter]
    simp only [hmember.bind_iff]
    cases ht with
    | longName hp =>
      rw [if_pos (by simp [hd, hk]), dif_neg (by simp [hp])]
      simp only [hgather.bind_iff]
    | longLink hp =>
      rw [if_neg (by simp [hk]), if_pos (by simp [hd, hk]), dif_neg (by simp [hp])]
      simp only [hgather.bind_iff]
    | extension hp =>
      rw [if_neg (by simp [hk]), if_neg (by simp [hk]), if_pos (by simp [hd, hk]),
        dif_neg (by simp [hp])]
      simp only [hgather.bind_iff]

/-- The entry with the given header and size, with `p` in front of it. -/
def Preface.entry (p : Preface) (h : Header) (n next : Nat) : Entry where
  header := h
  size := n
  next := next
  longName := p.longName
  longLink := p.longLink
  extensions := p.extensions
  content := [.stored n]

/-- A header that belongs to no other entry is that of the entry, which may have a map. -/
theorem Preface.comes_entry_iff {p : Preface} {c : Spot Whole} {start n : Nat} {h : Header}
    {b : Bytes} (hf : h.Fits n p.extensions)
    (hm : h.dialect ≠ .old →
      h.kind ≠ .longName ∧ h.kind ≠ .longLink ∧ h.kind ≠ .extension)
    (ha : Ahead c start (h.bytes ++ b)) (hl : start + 512 + (n + 511) / 512 * 512 < limit) :
    ∃ hb : Behind start (start + 512 + (n + 511) / 512 * 512), ∀ r d,
      p.Comes start c r d ↔
        ∃ e, (readSparse start ⟨p.entry h n (start + 512 + (n + 511) / 512 * 512), hb⟩).Plays
          ⟨start + 512, ⟨b⟩⟩ e d [] ∧ some e.1 = r := by
  obtain ⟨hb, hmember⟩ := readMember_plays hf ha hl
  refine ⟨hb, fun r d => ?_⟩
  have hkinds : ∀ k : EntryKind, k = .longName ∨ k = .longLink ∨ k = .extension →
      ¬ (decide (h.dialect ≠ .old) && decide (h.kind = k)) = true := by
    intro k hk e
    simp only [Bool.and_eq_true, decide_eq_true_eq] at e
    obtain ⟨h₁, h₂, h₃⟩ := hm e.1
    rcases hk with rfl | rfl | rfl
    · exact h₁ e.2
    · exact h₂ e.2
    · exact h₃ e.2
  unfold Preface.Comes
  rw [readEntryAfter]
  simp only [hmember.bind_iff]
  rw [if_neg (hkinds .longName (by simp)), if_neg (hkinds .longLink (by simp)),
    if_neg (hkinds .extension (by simp))]
  constructor
  · intro hr
    obtain ⟨r', hplays, rfl⟩ := hr
    obtain ⟨e, c₂, o₁, o₂, h₁, h₂, ho⟩ := plays_bind_iff.mp hplays
    obtain ⟨rfl, rfl, rfl⟩ := plays_pure_iff.mp h₂
    rw [List.append_nil] at ho
    subst ho
    exact ⟨e, h₁, rfl⟩
  · intro hr
    obtain ⟨e, hplays, rfl⟩ := hr
    exact ⟨some e, hplays.bind_nil (plays_pure _ _), rfl⟩

/-- Without a header there is no entry. -/
theorem readEntry_plays_of_no_header {c c' : Spot Whole} {start : Nat}
    (h : (readHeader start).Plays c none c' []) : (readEntry start).Plays c none c' [] := by
  have hmember : (readMember start none).Plays c none c' [] := by
    unfold readMember
    exact h.bind_nil (plays_pure _ _)
  unfold readEntry readEntryAfter
  exact hmember.bind_nil (plays_pure _ _)

/-- A block of zeros ends the archive. -/
theorem readEntry_plays_none {c : Spot Whole} {start : Nat} {b : Bytes}
    (ha : Ahead c start (List.replicate 512 0 ++ b)) :
    (readEntry start).Plays c none ⟨start + 512, ⟨b⟩⟩ [] := by
  have hread := readBlock_plays (h := Header.blank) ha
  have hzero : Header.blank.isZero = true := by
    refine List.all_eq_true.mpr fun x hx => ?_
    rw [List.eq_of_mem_replicate hx]
    rfl
  rw [hzero, if_pos rfl] at hread
  exact readEntry_plays_of_no_header hread

end Tar
end ContainerLayer
