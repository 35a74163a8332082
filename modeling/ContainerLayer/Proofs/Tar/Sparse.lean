import ContainerLayer.Proofs.Tar.Extent

/-
Sparse files.

The header of a sparse file has a map of the stretches that are stored.  Where the map goes on
behind a hole, it reaches further than the bytes that are stored: `SparseMap.reach` never goes
down while a map is followed, and at the end of a map it is the length of the file.  So with the
whole length of a file stored for it, a map is read just if it has no holes.
-/

namespace ContainerLayer
namespace Tar

open Tape

/-! ## Content without gaps -/

namespace Content

theorem onTape_le_total (content : Content) : onTape content ≤ total content := by
  induction content with
  | nil => exact Nat.le_refl 0
  | cons s rest ih =>
    cases s with
    | stored k =>
      simp only [onTape, total, List.map_cons, List.sum_cons, Segment.onTape, Segment.length] at ih ⊢
      omega
    | gap k =>
      simp only [onTape, total, List.map_cons, List.sum_cons, Segment.onTape, Segment.length] at ih ⊢
      omega

/-- Content that is all on the tape is taken from there as it is. -/
theorem expand_of_onTape_eq {content : Content} (h : onTape content = total content) (b : Bytes) :
    expand content b = (b.take (total content), b.drop (total content)) := by
  induction content generalizing b with
  | nil => rfl
  | cons s rest ih =>
    have hle := onTape_le_total rest
    cases s with
    | stored k =>
      have hsum : total (.stored k :: rest) = k + total rest := rfl
      rw [onTape_stored, hsum] at h
      rw [hsum, expand, ih (by omega), List.take_add, List.drop_drop]
    | gap k =>
      have hsum : total (.gap k :: rest) = k + total rest := rfl
      rw [onTape_gap, hsum] at h
      obtain rfl : k = 0 := by omega
      rw [hsum, Nat.zero_add, expand_gap_zero]
      exact ih (by omega) b

end Content

/-! ## Maps -/

namespace SparseMap

/-- How far the file is covered, with all that is stored of it but not accounted for yet. -/
def reach (m : SparseMap) : Nat := m.covered + m.remaining

/-- The map with `k` more bytes stored. -/
def more (k : Nat) (m : SparseMap) : SparseMap :=
  { m with stored := m.stored + k, remaining := m.remaining + k }

variable {P : SparseMap → Prop} {m m' : SparseMap} {count : Nat} {parts : Bytes}

theorem lasts_and {Q : SparseMap → Prop} (hP : Lasts P) (hQ : Lasts Q) :
    Lasts fun m => P m ∧ Q m :=
  fun m m' offset length hm e => ⟨hP m m' offset length hm.1 e, hQ m m' offset length hm.2 e⟩

theorem lasts_reach (n : Nat) : Lasts fun m => n ≤ m.reach := by
  intro m m' offset length hm e
  obtain ⟨-, hcovered, -, hlength, rfl⟩ := stretch_eq_ok_iff.mp e
  unfold reach at hm ⊢
  dsimp only
  omega

/-- With more bytes stored a map is followed in the same way, and more is left at its end. -/
theorem stretch_more (k : Nat) (hle : m.remaining ≤ m.stored) {offset length : Nat}
    (e : m.stretch offset length = .ok m') :
    (m.more k).stretch offset length = .ok (m'.more k) ∧ m'.remaining ≤ m'.stored := by
  obtain ⟨haligned, hcovered, hlimit, hlength, rfl⟩ := stretch_eq_ok_iff.mp e
  refine ⟨stretch_eq_ok_iff.mpr ⟨fun h => ?_, hcovered, hlimit, ?_, ?_⟩, ?_⟩
  · show (m.stored + k - (m.remaining + k)) % 512 = 0
    rw [Nat.add_sub_add_right]
    exact haligned h
  · show length ≤ m.remaining + k
    omega
  · simp only [more]
    rw [Nat.sub_add_comm hlength]
    rfl
  · show m.remaining - length ≤ m.stored
    omega

theorem addAll_more (k : Nat) (hle : m.remaining ≤ m.stored) (e : m.addAll count parts = .ok m') :
    (m.more k).addAll count parts = .ok (m'.more k) := by
  induction count generalizing m parts with
  | zero =>
    cases e
    rfl
  | succ count ih =>
    unfold SparseMap.addAll at e ⊢
    obtain ⟨m₁, h₁, h₂⟩ := bind_eq_ok.mp e
    obtain ⟨hadd, hle₁⟩ : (m.more k).add (parts.take 24) = .ok (m₁.more k)
        ∧ m₁.remaining ≤ m₁.stored := by
      unfold SparseMap.add at h₁ ⊢
      dsimp only at h₁ ⊢
      split at h₁
      · rename_i hnone
        cases h₁
        rw [if_pos hnone]
        exact ⟨rfl, hle⟩
      · rename_i hsome
        simp only [bind_eq_ok] at h₁
        obtain ⟨offset, hoffset, length, hlength, h₁⟩ := h₁
        obtain ⟨hstretch, hle₁⟩ := stretch_more k hle h₁
        rw [if_neg hsome]
        exact ⟨bind_eq_ok.mpr ⟨offset, hoffset, bind_eq_ok.mpr ⟨length, hlength, hstretch⟩⟩, hle₁⟩
    exact bind_eq_ok.mpr ⟨m₁.more k, hadd, ih hle₁ h₂⟩

end SparseMap

/-! ## Headers of sparse files -/

namespace Header

/-- The map in the header of a sparse file of which `n` bytes are stored. -/
def sparseMap (h : Header) (n : Nat) : Except Defect SparseMap :=
  ({ stored := n, remaining := n } : SparseMap).addAll 4 (h.get .sparseParts)

/-- Does the map go on in further blocks? -/
def hasMoreParts (h : Header) : Prop := (h.get .sparseMore).headD 0 = 1

instance (h : Header) : Decidable h.hasMoreParts := inferInstanceAs (Decidable (_ = _))

/-- The map stands in the header as a whole, and covers a file of `n` bytes without holes. -/
structure Solid (h : Header) (n : Nat) : Prop where
  dialect : h.dialect = .gnu
  realSize : Number.ofField (h.get .realSize) = .ok n
  last : ¬ h.hasMoreParts
  map : ∃ m, h.sparseMap n = .ok m ∧ m.covered = n ∧ m.remaining = 0

/-- Whether something holds of a result can be found out by looking at the result. -/
instance decidableOfResult {ε α : Type} {P : α → Prop} [DecidablePred P] (r : Except ε α) :
    Decidable (∃ a, r = .ok a ∧ P a) :=
  match r with
  | .ok a => decidable_of_iff (P a) (by simp)
  | .error _ => isFalse (by simp)

theorem solid_iff {h : Header} {n : Nat} :
    h.Solid n ↔ h.dialect = .gnu ∧ (∃ k, Number.ofField (h.get .realSize) = .ok k ∧ k = n)
      ∧ ¬ h.hasMoreParts ∧ ∃ m, h.sparseMap n = .ok m ∧ m.covered = n ∧ m.remaining = 0 := by
  constructor
  · rintro ⟨hdialect, hreal, hlast, hmap⟩
    exact ⟨hdialect, ⟨n, hreal, rfl⟩, hlast, hmap⟩
  · rintro ⟨hdialect, ⟨_, hreal, rfl⟩, hlast, hmap⟩
    exact ⟨hdialect, hreal, hlast, hmap⟩

instance (h : Header) (n : Nat) : Decidable (h.Solid n) := decidable_of_iff' _ solid_iff

/-- The map in the header leaves a hole in a file of `n` bytes. -/
structure Gapped (h : Header) (n : Nat) : Prop where
  dialect : h.dialect = .gnu
  realSize : Number.ofField (h.get .realSize) = .ok n
  map : ∃ m, h.sparseMap n = .ok m ∧ n < m.reach

/-- The header, if it is that of a sparse file, is one that a file of `n` bytes was read with. -/
def Mapped (h : Header) (n : Nat) : Prop :=
  h.kind = .sparse → h.dialect = .gnu ∧ Number.ofField (h.get .realSize) = .ok n
    ∧ ∃ k m, k ≤ n ∧ h.sparseMap k = .ok m ∧ (¬ h.hasMoreParts → m.covered = n ∧ m.remaining = 0)

/-- A map that was read and does not go on has holes, or has none. -/
theorem Mapped.solid_or_gapped {h : Header} {n : Nat} (hm : h.Mapped n) (hk : h.kind = .sparse)
    (hlast : ¬ h.hasMoreParts) : h.Solid n ∨ h.Gapped n := by
  obtain ⟨hdialect, hreal, k, m, hle, hmap, hend⟩ := hm hk
  obtain ⟨hcovered, hremaining⟩ := hend hlast
  have hmore := SparseMap.addAll_more (n - k) (Nat.le_refl k) hmap
  have hmore : h.sparseMap n = .ok (m.more (n - k)) := by
    rw [← hmore, sparseMap, SparseMap.more]
    congr 2 <;> (dsimp only; omega)
  by_cases hk : k = n
  · refine .inl ⟨hdialect, hreal, hlast, _, hmore, hcovered, ?_⟩
    show m.remaining + (n - k) = 0
    omega
  · refine .inr ⟨hdialect, hreal, _, hmore, ?_⟩
    show n < m.covered + (m.remaining + (n - k))
    omega

/-- The second header has the map of the first. -/
def SameMap (h h' : Header) : Prop :=
  ∀ f ∈ [Field.magic, .realSize, .sparseParts, .sparseMore], h'.get f = h.get f

namespace SameMap

variable {h h' : Header} {n : Nat} (hs : SameMap h h')

include hs

theorem dialect : h'.dialect = h.dialect := by
  rw [Header.dialect, Header.dialect, hs .magic (by simp)]

theorem sparseMap : h'.sparseMap n = h.sparseMap n := by
  rw [Header.sparseMap, Header.sparseMap, hs .sparseParts (by simp)]

theorem hasMoreParts : h'.hasMoreParts ↔ h.hasMoreParts := by
  rw [Header.hasMoreParts, Header.hasMoreParts, hs .sparseMore (by simp)]

theorem solid (hh : h.Solid n) : h'.Solid n where
  dialect := hs.dialect.trans hh.dialect
  realSize := by rw [hs .realSize (by simp), hh.realSize]
  last := hs.hasMoreParts.not.mpr hh.last
  map := by rw [hs.sparseMap]; exact hh.map

theorem gapped (hh : h.Gapped n) : h'.Gapped n where
  dialect := hs.dialect.trans hh.dialect
  realSize := by rw [hs .realSize (by simp), hh.realSize]
  map := by rw [hs.sparseMap]; exact hh.map

theorem mapped (hk : h'.kind = .sparse → h.kind = .sparse) (hh : h.Mapped n) : h'.Mapped n := by
  intro hsparse
  rw [hs.dialect, hs .realSize (by simp), hs.hasMoreParts]
  simp only [hs.sparseMap]
  exact hh (hk hsparse)

end SameMap

end Header

/-! ## Reading sparse files -/

variable {start n : Nat} {e : Entry} {h : Behind start e.next} {c c' : Spot Whole}

/-- A map without holes takes the content as it stands on the tape. -/
theorem Header.expand_of_solid {h : Header} {m : SparseMap} (hmap : h.sparseMap n = .ok m)
    (hcovered : m.covered = n) (hremaining : m.remaining = 0) (b rest : Bytes)
    (hb : b.length = n) : Content.expand m.segments.reverse (b ++ rest) = (b, rest) := by
  have hadds : m.Adds := SparseMap.lasts_adds.addAll (SparseMap.adds_start _) hmap
  have haccounts : m.Accounts n :=
    (SparseMap.lasts_accounts _).addAll (SparseMap.accounts_start _) hmap
  have htotal : Content.total m.segments.reverse = n := by
    rw [Content.total, List.map_reverse, List.sum_reverse]
    exact Eq.trans hadds hcovered
  have honTape : Content.onTape m.segments.reverse = n := by
    rw [Content.onTape, List.map_reverse, List.sum_reverse]
    have : Content.onTape m.segments + m.remaining = n := haccounts
    rwa [hremaining] at this
  rw [Content.expand_of_onTape_eq (honTape.trans htotal.symm), htotal, ← hb, List.take_left,
    List.drop_left]

/-- A file that is no sparse file, or one without holes, has its content on the tape. -/
theorem readSparse_plays_of_solid (hsize : e.size = n) (hcontent : e.content = [.stored n])
    (hs : e.header.kind = .sparse → e.header.Solid n) :
    ∃ content, (readSparse start ⟨e, h⟩).Plays c ⟨{ e with content }, h⟩ c []
      ∧ ∀ b rest : Bytes, b.length = n → Content.expand content (b ++ rest) = (b, rest) := by
  subst hsize
  unfold readSparse
  dsimp only
  by_cases hk : e.header.kind = .sparse
  · obtain ⟨hdialect, hreal, hlast, m, hmap, hcovered, hremaining⟩ := hs hk
    refine ⟨m.segments.reverse, ?_, Header.expand_of_solid hmap hcovered hremaining⟩
    have hwith : e.withMap m ⟨e.next, h⟩ = .ok ⟨{ e with content := m.segments.reverse }, h⟩ := by
      refine bind_eq_ok.mpr ⟨e.size, Header.number_eq_ok_iff.mpr hreal, ?_⟩
      rw [if_neg (Decidable.not_not.mpr hcovered), if_neg (Decidable.not_not.mpr hremaining),
        hcovered]
      rfl
    rw [Header.sparseMap] at hmap
    rw [if_neg (Decidable.not_not.mpr hk), if_neg (Decidable.not_not.mpr hdialect), hmap]
    refine (plays_pure m c).bind_nil ?_
    rw [if_neg (show ¬ (e.header.get .sparseMore).headD 0 = 1 from hlast)]
    show (Defect.check (e.withMap m ⟨e.next, h⟩)).Plays c _ c []
    rw [hwith]
    exact plays_pure _ _
  · refine ⟨[.stored e.size], ?_, fun b rest hb => ?_⟩
    · rw [if_pos hk, ← hcontent]
      exact plays_pure _ _
    · rw [← hb]
      simp [Content.expand]

/-- A file is not read whose map has a hole, if all of its bytes are stored. -/
theorem not_readSparse_plays {r : { e : Entry // Behind start e.next }} {out : Bytes}
    (hk : e.header.kind = .sparse) (hsize : e.size = n) (hg : e.header.Gapped n) :
    ¬ (readSparse start ⟨e, h⟩).Plays c r c' out := by
  intro hp
  obtain ⟨-, hreal, m, hmap, hreach⟩ := hg
  have hno : ∀ (m' : SparseMap) (next : { next : Nat // Behind start next }) {d : Spot Whole}
      {o : Bytes}, n + 1 ≤ m'.reach → ¬ (Defect.check (e.withMap m' next)).Plays d r c' o := by
    intro m' next d o hm' hcheck
    obtain ⟨hcovered, hremaining, -⟩ := Entry.withMap_eq_ok (takes_check hcheck).1
    cases hreal.symm.trans hcovered
    unfold SparseMap.reach at hm'
    omega
  unfold readSparse at hp
  dsimp only at hp
  rw [if_neg (Decidable.not_not.mpr hk)] at hp
  split at hp
  · exact not_plays_throw hp
  obtain ⟨m', c₁, o₁, o₂, h₁, h₂, rfl⟩ := plays_bind_iff.mp hp
  have hm' := (takes_check h₁).1
  rw [hsize] at hm'
  cases hmap.symm.trans hm'
  split at h₂
  · obtain ⟨r', c₂, o₃, o₄, h₃, h₄, rfl⟩ := plays_bind_iff.mp h₂
    have hr' := (((SparseMap.lasts_reach (n + 1)).reads_addBlocks start _ h m hreach).gets.of_plays
      h₃).1
    exact hno r'.1 r'.2 hr' h₄
  · exact hno m _ hreach h₂

/-- A map `m'` that was followed to its end, from the map `m` of the header on. -/
theorem Entry.mapped_of_withMap {m m' : SparseMap} {next : { next : Nat // Behind start next }}
    {r : { e : Entry // Behind start e.next }} (hdialect : e.header.dialect = .gnu)
    (hmap : e.header.sparseMap e.size = .ok m) (hadds : m'.Adds) (haccounts : m'.Accounts e.size)
    (hlast : ¬ e.header.hasMoreParts → m' = m) (hr : e.withMap m' next = .ok r) :
    r.1.header.Mapped r.1.size := by
  obtain ⟨hreal, hremaining, he⟩ := Entry.withMap_eq_ok hr
  rw [he]
  refine fun _ => ⟨hdialect, hreal, e.size, m, ?_, hmap, fun hmore => ?_⟩
  · have hle := Content.onTape_le_total m'.segments
    unfold SparseMap.Adds SparseMap.Accounts at *
    show e.size ≤ m'.covered
    omega
  · rw [← hlast hmore]
    exact ⟨rfl, hremaining⟩

/-- Every file that is read has a header that fits its length. -/
theorem gets_readSparse (start : Nat) (e : { e : Entry // Behind start e.next }) :
    Gets (fun r => r.1.header.Mapped r.1.size) (readSparse start e) := by
  unfold readSparse
  dsimp only
  split
  · rename_i hk
    exact gets_pure fun hk' => absurd hk' hk
  split
  · exact gets_throw _
  rename_i hdialect
  have hdialect : e.1.header.dialect = .gnu := Decidable.not_not.mp hdialect
  have hP := SparseMap.lasts_and SparseMap.lasts_adds (SparseMap.lasts_accounts e.1.size)
  have hstart := And.intro (SparseMap.adds_start e.1.size) (SparseMap.accounts_start e.1.size)
  refine (reads_check fun m hmap => And.intro hmap (hP.addAll hstart hmap)).gets.bind fun m hm => ?_
  obtain ⟨hmap, hm⟩ := hm
  have hdone : ∀ (m' : SparseMap) (next : { next : Nat // Behind start next }),
      m'.Adds ∧ m'.Accounts e.1.size → (¬ e.1.header.hasMoreParts → m' = m) →
      Gets (fun r => r.1.header.Mapped r.1.size) (Defect.check (e.1.withMap m' next)) :=
    fun m' next hm' hlast => (reads_check fun r hr =>
      Entry.mapped_of_withMap hdialect hmap hm'.1 hm'.2 hlast hr).gets
  split
  · rename_i hmore
    refine (hP.reads_addBlocks start _ e.2 m hm).gets.bind fun r hr => ?_
    exact hdone r.1 r.2 hr fun h => absurd hmore h
  · exact hdone m (Entry.behind e) hm fun _ => rfl

/-- What holds of the entries that come of sparse files, and of all others, holds of every entry
that is read. -/
theorem gets_readEntryAfter {Q : Entry → Prop}
    (hQ : ∀ start (e : { e : Entry // Behind start e.next }),
      Gets (fun r => Q r.1) (readSparse start e)) (p : Preface) (start : Nat) :
    Gets (fun r => ∀ e, r = some e → Q e.1) (readEntryAfter p start) := by
  induction hr : p.room using Nat.strongRecOn generalizing p start with
  | ind room ih =>
    obtain ⟨k, hk, hnone, hsome⟩ := readEntryAfter_eq p start
    rw [hk]
    refine (reads_readMember start p.extensions).gets.bind fun m _ => ?_
    cases m with
    | none =>
      rw [hnone]
      split
      · exact gets_pure nofun
      · exact gets_throw _
    | some m =>
      rcases hsome m with ⟨f, hm⟩ | ⟨p', hp', hm⟩ | ⟨e, -, -, -, hm⟩
      · rw [hm]
        exact gets_throw f
      · rw [hm]
        refine (gets_gather _ true).bind fun b _ => ?_
        refine (ih (p' b).room (hr ▸ (hp' b).1) (p' b) _ rfl).bind fun r hr => gets_pure ?_
        rintro e he
        obtain ⟨e', rfl, rfl⟩ := Option.map_eq_some_iff.mp he
        exact hr e' rfl
      · rw [hm]
        refine (hQ start e).bind fun e' he' => gets_pure ?_
        rintro _ ⟨⟩
        exact he'

end Tar
end ContainerLayer
