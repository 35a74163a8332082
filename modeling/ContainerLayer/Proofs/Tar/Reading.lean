import ContainerLayer.Proofs.Tar.Content
import ContainerLayer.Proofs.Tar.Header

/-
What every entry that is read has in common.

Reading an entry only reads, whatever the archive holds, and its result is `Sound`: the
stretches of its content add up to its size, its header is not one that stands for names
or numbers of another entry, and owner and group of its extension records have been put
into the header.
-/

namespace ContainerLayer
namespace Tar

open Tape

namespace Header

/-- Owner and group of the extension records are those of the header. -/
structure Adopted (h : Header) (extensions : Bytes) : Prop where
  uid : ∀ n, Pax.number? Pax.uidKey extensions = some n → h.get .uid = Number.toField 8 n
  gid : ∀ n, Pax.number? Pax.gidKey extensions = some n → h.get .gid = Number.toField 8 n

theorem adopt_eq (h : Header) (extensions : Bytes) :
    h.adopt extensions =
      let h₁ := (Pax.number? Pax.uidKey extensions).elim h h.setUid
      (Pax.number? Pax.gidKey extensions).elim h₁ h₁.setGid := by
  unfold adopt
  cases Pax.number? Pax.uidKey extensions <;> cases Pax.number? Pax.gidKey extensions <;> rfl

theorem adopted_adopt (h : Header) (extensions : Bytes) :
    (h.adopt extensions).Adopted extensions := by
  rw [adopt_eq]
  constructor
  · intro n hn
    rw [hn]
    have huid : (h.setUid n).get .uid = Number.toField 8 n :=
      get_put h .uid (Number.length_toField 8 n)
    cases Pax.number? Pax.gidKey extensions with
    | none => exact huid
    | some m => exact (get_put_of_apart _ _ (by decide)).trans huid
  · intro n hn
    rw [hn]
    exact get_put _ .gid (Number.length_toField 8 n)

/-- Adopting once more changes nothing. -/
theorem Adopted.adopt_eq_self {h : Header} {extensions : Bytes} (ha : h.Adopted extensions) :
    h.adopt extensions = h := by
  rw [adopt_eq]
  have huid : (Pax.number? Pax.uidKey extensions).elim h h.setUid = h := by
    cases e : Pax.number? Pax.uidKey extensions with
    | none => rfl
    | some n => exact put_get h (ha.uid n e)
  dsimp only
  rw [huid]
  cases e : Pax.number? Pax.gidKey extensions with
  | none => rfl
  | some n => exact put_get h (ha.gid n e)

theorem sameBut_adopt (h : Header) (extensions : Bytes) :
    SameBut [.uid, .gid] h (h.adopt extensions) := by
  rw [adopt_eq]
  have huid : SameBut [.uid, .gid] h ((Pax.number? Pax.uidKey extensions).elim h h.setUid) := by
    cases Pax.number? Pax.uidKey extensions with
    | none => exact SameBut.refl _ h
    | some n => exact sameBut_put (by simp) h _
  cases Pax.number? Pax.gidKey extensions with
  | none => exact huid
  | some n => exact huid.trans (sameBut_put (by simp) _ _)

theorem kind_adopt (h : Header) (extensions : Bytes) : (h.adopt extensions).kind = h.kind :=
  (sameBut_adopt h extensions).kind (by decide)

end Header

/-- The extension records that are about a header. -/
def recordsFor (extensions : Option Bytes) (h : Header) : Option Bytes :=
  if h.kind.isAbout then none else extensions

/-- The header with owner and group of the extension records. -/
def adopting (extensions : Option Bytes) (h : Header) : Header :=
  ((recordsFor extensions h).map h.adopt).getD h

theorem interpret_eq_ok_iff {start : Nat} {extensions : Option Bytes} {h : Header}
    {m : { m : Member // Behind start m.next }} :
    interpret start extensions h = .ok m ↔
      h.verify = .ok () ∧ ∃ declared next,
        (adopting extensions h).number .size .size = .ok declared
        ∧ nextHeader start
            (((recordsFor extensions h).bind (Pax.number? Pax.sizeKey)).getD declared) = .ok next
        ∧ m = ⟨⟨adopting extensions h,
            ((recordsFor extensions h).bind (Pax.number? Pax.sizeKey)).getD declared, next.1⟩,
            next.2⟩ := by
  unfold interpret
  simp only [bind_eq_ok]
  constructor
  · intro h
    obtain ⟨u, hv, declared, hd, next, hn, e⟩ := h
    exact ⟨hv, declared, next, hd, hn, (Except.ok.inj e).symm⟩
  · intro h
    obtain ⟨hv, declared, next, hd, hn, rfl⟩ := h
    exact ⟨(), hv, declared, hd, next, hn, rfl⟩

theorem kind_adopting (extensions : Option Bytes) (h : Header) :
    (adopting extensions h).kind = h.kind := by
  unfold adopting
  cases recordsFor extensions h with
  | none => rfl
  | some data => exact h.kind_adopt data

/-- Owner and group of the extension records have been put into the header, if they are
about it. -/
def Describes (extensions : Option Bytes) (h : Header) : Prop :=
  ∀ data, recordsFor extensions h = some data → h.Adopted data

theorem describes_adopting (extensions : Option Bytes) (h : Header) :
    Describes extensions (adopting extensions h) := by
  intro data hdata
  have hr : recordsFor extensions h = some data := by
    rw [← hdata, recordsFor, recordsFor, kind_adopting]
  unfold adopting
  rw [hr]
  exact h.adopted_adopt data

/-! ## Sparse files -/

namespace SparseMap

variable {m m' : SparseMap} {offset length : Nat}

/-- A map is followed where the parts are in order, in whole blocks but for the last one, and no
longer than what is stored. -/
theorem stretch_eq_ok_iff :
    m.stretch offset length = .ok m' ↔ (length ≠ 0 → (m.stored - m.remaining) % 512 = 0)
      ∧ m.covered ≤ offset ∧ offset + length < limit ∧ length ≤ m.remaining
      ∧ m' = ⟨m.stored, m.remaining - length, offset + length, .stored length ::
        (if m.covered < offset then .gap (offset - m.covered) :: m.segments else m.segments)⟩ := by
  constructor
  · intro e
    unfold stretch at e
    split at e
    · cases e
    rename_i haligned
    split at e
    · cases e
    split at e
    · cases e
    split at e
    · cases e
    cases e
    exact ⟨fun h => by simpa [h] using haligned, by omega, by omega, by omega, rfl⟩
  · rintro ⟨haligned, hcovered, hlimit, hlength, rfl⟩
    unfold stretch
    rw [if_neg (by simpa using haligned), if_neg (by omega), if_neg (by omega), if_neg (by omega)]

/-- Following more of a map keeps `P`. -/
def Lasts (P : SparseMap → Prop) : Prop :=
  ∀ (m m' : SparseMap) (offset length : Nat), P m → m.stretch offset length = .ok m' → P m'

variable {P : SparseMap → Prop}

theorem Lasts.addAll (hP : Lasts P) {count : Nat} {parts : Bytes} (hm : P m)
    (e : m.addAll count parts = .ok m') : P m' := by
  induction count generalizing m parts with
  | zero =>
    cases e
    exact hm
  | succ count ih =>
    unfold SparseMap.addAll at e
    obtain ⟨m₁, h₁, h₂⟩ := bind_eq_ok.mp e
    refine ih ?_ h₂
    unfold SparseMap.add at h₁
    dsimp only at h₁
    split at h₁
    · cases h₁
      exact hm
    · simp only [bind_eq_ok] at h₁
      obtain ⟨offset, -, length, -, h₁⟩ := h₁
      exact hP _ _ _ _ hm h₁

/-- The stretches so far cover the file up to where it is covered. -/
def Adds (m : SparseMap) : Prop := Content.total m.segments = m.covered

theorem lasts_adds : Lasts Adds := by
  intro m m' offset length hm e
  obtain ⟨-, hlow, -, -, rfl⟩ := stretch_eq_ok_iff.mp e
  unfold Adds at hm ⊢
  dsimp only
  split
  all_goals
    simp only [Content.total, List.map_cons, List.sum_cons, Segment.length] at hm ⊢
    omega

theorem adds_start (n : Nat) : Adds { stored := n, remaining := n } := rfl

end SparseMap

theorem reads_check {α : Type} {Q : α → Prop} {r : Except Defect α} (h : ∀ a, r = .ok a → Q a) :
    Reads Q (Defect.check r) := by
  cases r with
  | ok a => exact reads_pure (h a rfl)
  | error d => exact reads_throw d.fault

theorem SparseMap.Lasts.reads_addBlocks {P : SparseMap → Prop} (hP : Lasts P) (start next : Nat)
    (h : Behind start next) (m : SparseMap) (hm : P m) :
    Reads (fun r => P r.1) (m.addBlocks start next h) := by
  induction hd : limit - next using Nat.strongRecOn generalizing next m with
  | ind d ih =>
    unfold SparseMap.addBlocks
    refine (reads_gather 512 false).bind fun block _ => ?_
    split
    · exact reads_throw _
    split
    · exact reads_throw _
    split
    · refine (reads_check fun m' e => hP.addAll hm e).bind fun m' hm' => ?_
      dsimp only
      split
      · exact ih (limit - (next + 512)) (by omega) _ _ _ hm' rfl
      · exact reads_pure hm'
    · exact reads_throw _

theorem Header.number_eq_ok_iff {h : Header} {f : Field} {place : String → NumberPlace} {n : Nat} :
    h.number f place = .ok n ↔ Number.ofField (h.get f) = .ok n := by
  unfold Header.number
  cases Number.ofField (h.get f) <;> simp

/-- A map that was followed to its end covers all of the file, and leaves nothing over. -/
theorem Entry.withMap_eq_ok {start : Nat} {e : Entry} {m : SparseMap}
    {next : { next : Nat // Behind start next }} {r : { e : Entry // Behind start e.next }}
    (hr : e.withMap m next = .ok r) :
    Number.ofField (e.header.get .realSize) = .ok m.covered ∧ m.remaining = 0
      ∧ r.1 = { e with size := m.covered, next := next.1, content := m.segments.reverse } := by
  obtain ⟨realSize, hreal, hr⟩ := bind_eq_ok.mp hr
  split at hr
  · cases hr
  rename_i hcovered
  split at hr
  · cases hr
  rename_i hremaining
  cases hr
  have hcovered : m.covered = realSize := Decidable.not_not.mp hcovered
  subst hcovered
  exact ⟨Header.number_eq_ok_iff.mp hreal, Decidable.not_not.mp hremaining, rfl⟩

/-! ## Entries -/

/-- What holds of every entry that is read. -/
structure Entry.Sound (e : Entry) : Prop where
  total : Content.total e.content = e.size
  member : e.header.dialect ≠ .old →
    e.header.kind ≠ .longName ∧ e.header.kind ≠ .longLink ∧ e.header.kind ≠ .extension
  adopted : Describes e.extensions e.header

theorem reads_readSparse (start : Nat) (e : { e : Entry // Behind start e.next }) (h : e.1.Sound) :
    Reads (fun r => r.1.Sound) (readSparse start e) := by
  unfold readSparse
  dsimp only
  split
  · exact reads_pure h
  split
  · exact reads_throw _
  have hdone : ∀ r : SparseMap × { next : Nat // Behind start next }, r.1.Adds →
      Reads (fun r => r.1.Sound) (Defect.check (e.1.withMap r.1 r.2)) := by
    intro r hr
    refine reads_check fun e' he => ?_
    obtain ⟨-, -, he⟩ := Entry.withMap_eq_ok he
    rw [he]
    refine ⟨?_, h.member, h.adopted⟩
    show Content.total r.1.segments.reverse = r.1.covered
    rw [← hr, Content.total, Content.total, List.map_reverse, List.sum_reverse]
  refine (reads_check fun m hm =>
    SparseMap.lasts_adds.addAll (SparseMap.adds_start e.1.size) hm).bind fun m hm => ?_
  split
  · exact (SparseMap.lasts_adds.reads_addBlocks start _ _ m hm).bind hdone
  · exact hdone (m, Entry.behind e) hm

theorem reads_readHeader (start : Nat) : Reads (fun _ => True) (readHeader start) := by
  unfold readHeader
  refine reads_position.bind fun position _ => (reads_skip _ _).bind fun _ _ =>
    (reads_gather 512 false).bind fun b _ => ?_
  split
  · exact reads_pure trivial
  split
  · exact reads_pure trivial
  · exact reads_throw _

theorem reads_readMember (start : Nat) (extensions : Option Bytes) :
    Reads (fun r => ∀ m, r = some m → Describes extensions m.1.header)
      (readMember start extensions) := by
  unfold readMember
  refine (reads_readHeader start).bind fun r _ => ?_
  cases r with
  | none => exact reads_pure fun m e => by cases e
  | some h =>
    refine (reads_check fun m e => ?_).bind fun m hm =>
      reads_pure (a := some m) fun m' e => by cases e; exact hm
    obtain ⟨-, _, _, -, -, rfl⟩ := interpret_eq_ok_iff.mp e
    exact describes_adopting extensions h

/-- The result of a read that was started further on. -/
theorem reads_behind {start next : Nat} (h : Behind start next)
    {w : Tape (Option { e : Entry // Behind next e.next })}
    (hw : Reads (fun r => ∀ e, r = some e → e.1.Sound) w) :
    Reads (fun r : Option { e : Entry // Behind start e.next } => ∀ e, r = some e → e.1.Sound) (do
      let r ← w
      return r.map fun e => ⟨e.1, h.trans e.2⟩) := by
  refine hw.bind fun r hr => reads_pure fun e he => ?_
  obtain ⟨e', rfl, rfl⟩ := Option.map_eq_some_iff.mp he
  exact hr e' rfl

theorem reads_readEntryAfter (p : Preface) (start : Nat) :
    Reads (fun r => ∀ e, r = some e → e.1.Sound) (readEntryAfter p start) := by
  induction hr : p.room using Nat.strongRecOn generalizing p start with
  | ind room ih =>
    unfold readEntryAfter
    refine (reads_readMember start p.extensions).bind fun r hm => ?_
    cases r with
    | none =>
      dsimp only
      split
      · exact reads_pure fun e h => by cases h
      · exact reads_throw _
    | some m =>
      have hm := hm m rfl
      obtain ⟨m, hbehind⟩ := m
      dsimp only
      split
      · split
        · exact reads_throw _
        rename_i hp
        have hp : p.longName = none := by simpa using hp
        refine (reads_gather m.size true).bind fun b _ => reads_behind hbehind ?_
        refine ih _ ?_ _ _ rfl
        simp [← hr, Preface.room, hp]
      split
      · split
        · exact reads_throw _
        rename_i hp
        have hp : p.longLink = none := by simpa using hp
        refine (reads_gather m.size true).bind fun b _ => reads_behind hbehind ?_
        refine ih _ ?_ _ _ rfl
        simp [← hr, Preface.room, hp]
      split
      · split
        · exact reads_throw _
        rename_i hp
        have hp : p.extensions = none := by simpa using hp
        refine (reads_gather m.size true).bind fun b _ => reads_behind hbehind ?_
        refine ih _ ?_ _ _ rfl
        simp [← hr, Preface.room, hp]
      rename_i h₁ h₂ h₃
      have hsome : ∀ e : { e : Entry // Behind start e.next }, e.1.Sound →
          Reads (fun r => ∀ e, r = some e → e.1.Sound) (pure (some e)) := by
        intro e he
        refine reads_pure ?_
        rintro _ ⟨⟩
        exact he
      refine Reads.bind ?_ hsome
      refine reads_readSparse start _ ⟨?_, ?_, hm⟩
      · show m.size + 0 = m.size
        rfl
      · intro hd
        exact ⟨fun hk => h₁ (by simp [hd, hk]), fun hk => h₂ (by simp [hd, hk]),
          fun hk => h₃ (by simp [hd, hk])⟩

theorem reads_readEntry (start : Nat) :
    Reads (fun r => ∀ e, r = some e → e.1.Sound) (readEntry start) := reads_readEntryAfter {} start

end Tar
end ContainerLayer
