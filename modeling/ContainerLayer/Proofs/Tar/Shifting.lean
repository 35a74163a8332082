import ContainerLayer.Proofs.Tar.Extent

/-
Entries that stand further on in an archive.

Where an entry stands makes no difference to what is read of it, but for the place of the next
header.  `Tape.Shifts` says of two programs that whatever the one does `k` bytes further on, the
other one does here.  It goes in this direction only: a place that is no longer below `limit`
further on may be below it here.
-/

namespace ContainerLayer

open Tar

namespace Tape

variable {α α' β β' : Type} {k : Nat}

/-- What `w` does `k` further on, `w'` does here, and the results have `R`. -/
def Shifts (k : Nat) (R : α → α' → Prop) (w : Tape α) (w' : Tape α') : Prop :=
  ∀ position b a (c : Spot Whole) out, w.Plays ⟨k + position, ⟨b⟩⟩ a c out →
    ∃ a' position', c.position = k + position' ∧ R a a'
      ∧ w'.Plays (⟨position, ⟨b⟩⟩ : Spot Whole) a' ⟨position', c.reader⟩ out

variable {R : α → α' → Prop} {S : β → β' → Prop}

theorem shifts_pure {a : α} {a' : α'} (h : R a a') : Shifts k R (pure a) (pure a') := by
  intro position b a₁ c out hp
  obtain ⟨rfl, rfl, rfl⟩ := plays_pure_iff.mp hp
  exact ⟨a', position, rfl, h, plays_pure _ _⟩

theorem shifts_throw (f : Fault) (w' : Tape α') : Shifts k R (throw f) w' :=
  fun _ _ _ _ _ hp => absurd hp not_plays_throw

theorem Shifts.bind {w : Tape α} {w' : Tape α'} {f : α → Tape β} {f' : α' → Tape β'}
    (hw : Shifts k R w w') (hf : ∀ a a', R a a' → Shifts k S (f a) (f' a')) :
    Shifts k S (w >>= f) (w' >>= f') := by
  intro position b r c out hp
  obtain ⟨a, c₁, o₁, o₂, h₁, h₂, rfl⟩ := plays_bind_iff.mp hp
  obtain ⟨a', position₁, hpos, ha, h₁'⟩ := hw position b a c₁ o₁ h₁
  obtain ⟨position', ⟨left⟩⟩ := c₁
  dsimp only at hpos
  subst hpos
  obtain ⟨r', position₂, hpos, hr, h₂'⟩ := hf a a' ha position₁ left r c o₂ h₂
  exact ⟨r', position₂, hpos, hr, h₁'.bind h₂'⟩

theorem shifts_position : Shifts k (fun n n' => n = k + n') position position := by
  intro position b n c out hp
  obtain ⟨rfl, rfl, rfl⟩ := plays_position_iff.mp hp
  exact ⟨position, position, rfl, rfl, plays_position_iff.mpr ⟨rfl, rfl, rfl⟩⟩

theorem shifts_gather (n : Nat) (patient : Bool) :
    Shifts k Eq (gather n patient) (gather n patient) := by
  intro position b a c out hp
  obtain ⟨rfl, -, rfl, hrest, hpos⟩ := of_gather_plays Whole.gives.hands trivial hp
  obtain ⟨position', ⟨left⟩⟩ := c
  have hleft : left = b.drop n := hrest
  subst hleft
  exact ⟨_, position + (b.take n).length, hpos.trans (Nat.add_assoc _ _ _), rfl,
    gather_whole n patient position b⟩

theorem shifts_skip (n : Nat) (early : Fault) : Shifts k Eq (skip n early) (skip n early) := by
  intro position b u c out hp
  obtain ⟨rfl, -, hn, hrest, hpos⟩ := of_skip_plays Whole.gives.hands trivial hp
  obtain ⟨position', ⟨left⟩⟩ := c
  have hleft : left = b.drop n := hrest
  subst hleft
  exact ⟨u, position + n, hpos.trans (Nat.add_assoc _ _ _), rfl, skip_whole early position hn⟩

end Tape

namespace Tar

open Tape

variable {k : Nat}

theorem shifts_check {α α' : Type} {R : α → α' → Prop} {r : Except Defect α}
    {r' : Except Defect α'} (h : ∀ a, r = .ok a → ∃ a', r' = .ok a' ∧ R a a') :
    Shifts k R (Defect.check r) (Defect.check r') := by
  cases r with
  | error d => exact shifts_throw d.fault _
  | ok a =>
    obtain ⟨a', rfl, ha⟩ := h a rfl
    exact shifts_pure ha

/-! ## Headers -/

theorem shifts_readHeader (k start : Nat) :
    Shifts k Eq (readHeader (k + start)) (readHeader start) := by
  refine shifts_position.bind fun n n' hn => ?_
  subst hn
  rw [Nat.add_sub_add_left]
  refine (shifts_skip _ _).bind fun _ _ _ => (shifts_gather 512 false).bind fun b b' hb => ?_
  subst hb
  split
  · exact shifts_pure rfl
  split
  · exact shifts_pure rfl
  · exact shifts_throw _ _

/-- The member with the next header `k` further on. -/
def Member.later (k : Nat) (m : Member) : Member := { m with next := k + m.next }

theorem exists_nextHeader {start size : Nat} {next : { next : Nat // Behind (k + start) next }}
    (h : nextHeader (k + start) size = .ok next) :
    ∃ next' : { next : Nat // Behind start next }, nextHeader start size = .ok next'
      ∧ next.1 = k + next'.1 := by
  have hnext := next_of_nextHeader h
  unfold nextHeader at h
  dsimp only at h
  split at h
  · cases h
  rename_i hsize
  split at h
  · rename_i hlt
    refine ⟨⟨start + 512 + (size + 511) / 512 * 512, by omega, by omega⟩, ?_, ?_⟩
    · unfold nextHeader
      rw [if_neg hsize, dif_pos (by omega)]
    · show next.1 = k + (start + 512 + (size + 511) / 512 * 512)
      omega
  · cases h

theorem exists_interpret {start : Nat} {extensions : Option Bytes} {h : Header}
    {m : { m : Member // Behind (k + start) m.next }}
    (hm : interpret (k + start) extensions h = .ok m) :
    ∃ m' : { m : Member // Behind start m.next }, interpret start extensions h = .ok m'
      ∧ m.1 = m'.1.later k := by
  obtain ⟨hverify, declared, next, hsize, hnext, rfl⟩ := interpret_eq_ok_iff.mp hm
  obtain ⟨next', hnext', hlater⟩ := exists_nextHeader hnext
  refine ⟨_, interpret_eq_ok_iff.mpr ⟨hverify, declared, next', hsize, hnext', rfl⟩, ?_⟩
  show Member.mk _ _ next.1 = Member.mk _ _ (k + next'.1)
  rw [hlater]

theorem shifts_readMember (k start : Nat) (extensions : Option Bytes) :
    Shifts k (fun m m' => m.map (·.1) = m'.map fun m' => m'.1.later k)
      (readMember (k + start) extensions) (readMember start extensions) := by
  unfold readMember
  refine (shifts_readHeader k start).bind fun h h' e => ?_
  subst e
  cases h with
  | none => exact shifts_pure rfl
  | some h =>
    refine (shifts_check fun m hm => exists_interpret hm).bind fun m m' hm => shifts_pure ?_
    exact congrArg some hm

/-! ## Sparse files -/

theorem SparseMap.shifts_addBlocks {start next later : Nat} (hlater : later = k + next)
    (hk : Behind (k + start) later) (h : Behind start next) (m : SparseMap) :
    Shifts k (fun r r' => r.1 = r'.1 ∧ r.2.1 = k + r'.2.1)
      (m.addBlocks (k + start) later hk) (m.addBlocks start next h) := by
  induction hd : limit - next using Nat.strongRecOn generalizing next later m with
  | ind d ih =>
    unfold addBlocks
    refine (shifts_gather 512 false).bind fun block block' e => ?_
    subst e
    split
    · exact shifts_throw _ _
    split
    · exact shifts_throw _ _
    by_cases hn : later + 512 < limit
    · have hn' : next + 512 < limit := by omega
      rw [dif_pos hn, dif_pos hn']
      refine (shifts_check fun m hm => ⟨m, hm, rfl⟩).bind fun m m' hm => ?_
      subst hm
      dsimp only
      split
      · exact ih (limit - (next + 512)) (by omega) (by omega) _ _ m rfl
      · refine shifts_pure ⟨rfl, ?_⟩
        show later + 512 = k + (next + 512)
        omega
    · rw [dif_neg hn]
      exact shifts_throw _ _

/-- The entry with the next header `k` further on. -/
def Entry.later (k : Nat) (e : Entry) : Entry := { e with next := k + e.next }

theorem Entry.exists_withMap {start : Nat} {e : Entry} {m : SparseMap}
    {next : { next : Nat // Behind (k + start) next }} {next' : { next : Nat // Behind start next }}
    (hnext : next.1 = k + next'.1) {r : { e : Entry // Behind (k + start) e.next }}
    (h : (e.later k).withMap m next = .ok r) :
    ∃ r' : { e : Entry // Behind start e.next }, e.withMap m next' = .ok r'
      ∧ r.1 = r'.1.later k := by
  obtain ⟨realSize, hreal, h⟩ := bind_eq_ok.mp h
  split at h
  · cases h
  rename_i hcovered
  split at h
  · cases h
  rename_i hremaining
  cases h
  refine ⟨⟨{ e with size := m.covered, next := next'.1, content := m.segments.reverse }, next'.2⟩,
    bind_eq_ok.mpr ⟨realSize, hreal, ?_⟩, ?_⟩
  · rw [if_neg hcovered, if_neg hremaining]
    rfl
  · show Entry.mk _ _ next.1 _ _ _ _ = Entry.mk _ _ (k + next'.1) _ _ _ _
    rw [hnext]
    rfl

theorem shifts_readSparse {start : Nat} {e : Entry} (hk : Behind (k + start) (e.later k).next)
    (h : Behind start e.next) :
    Shifts k (fun r r' => r.1 = r'.1.later k) (readSparse (k + start) ⟨e.later k, hk⟩)
      (readSparse start ⟨e, h⟩) := by
  unfold readSparse
  dsimp only
  show Shifts k _ (if e.header.kind ≠ .sparse then _ else _) _
  split
  · exact shifts_pure rfl
  show Shifts k _ (if e.header.dialect ≠ .gnu then _ else _) _
  split
  · exact shifts_throw _ _
  have hdone : ∀ (r : SparseMap × { next : Nat // Behind (k + start) next })
      (r' : SparseMap × { next : Nat // Behind start next }), r.1 = r'.1 ∧ r.2.1 = k + r'.2.1 →
      Shifts k (fun r r' => r.1 = r'.1.later k) (Defect.check ((e.later k).withMap r.1 r.2))
        (Defect.check (e.withMap r'.1 r'.2)) := by
    intro r r' hr
    rw [hr.1]
    exact shifts_check fun a ha => Entry.exists_withMap hr.2 ha
  refine (shifts_check fun m hm => ⟨m, hm, rfl⟩).bind fun m m' hm => ?_
  subst hm
  show Shifts k _ (if (e.header.get .sparseMore).headD 0 = 1 then _ else _) _
  split
  · exact (m.shifts_addBlocks rfl hk h).bind hdone
  · exact hdone (m, Entry.behind ⟨e.later k, hk⟩) (m, Entry.behind ⟨e, h⟩) ⟨rfl, rfl⟩

/-! ## Entries -/

/-- The same entry, or none in both cases. -/
def SameEntry (k : Nat) {start start' : Nat} (r : Option { e : Entry // Behind start e.next })
    (r' : Option { e : Entry // Behind start' e.next }) : Prop :=
  r.map (·.1) = r'.map fun e => e.1.later k

/-- A name or records in front of the entry. -/
theorem shifts_named {start next size : Nat} {p : Bytes → Preface}
    (hk : Behind (k + start) (k + next)) (h : Behind start next)
    (ih : ∀ b, Shifts k (SameEntry k) (readEntryAfter (p b) (k + next)) (readEntryAfter (p b) next)) :
    Shifts k (SameEntry k)
      (do
        let b ← Tape.gather size true
        let r ← readEntryAfter (p b) (k + next)
        return r.map fun e => (⟨e.1, hk.trans e.2⟩ : { e : Entry // Behind (k + start) e.next }))
      (do
        let b ← Tape.gather size true
        let r ← readEntryAfter (p b) next
        return r.map fun e => (⟨e.1, h.trans e.2⟩ : { e : Entry // Behind start e.next })) := by
  refine (shifts_gather size true).bind fun b b' e => ?_
  subst e
  refine (ih b).bind fun r r' hr => shifts_pure ?_
  unfold SameEntry at hr ⊢
  rw [Option.map_map, Option.map_map]
  exact hr

theorem shifts_readEntryAfter (k : Nat) (p : Preface) (start : Nat) :
    Shifts k (SameEntry k) (readEntryAfter p (k + start)) (readEntryAfter p start) := by
  induction hr : p.room using Nat.strongRecOn generalizing p start with
  | ind room ih =>
    rw [readEntryAfter, readEntryAfter]
    refine (shifts_readMember k start p.extensions).bind fun m m' hm => ?_
    cases m' with
    | none =>
      obtain rfl : m = none := Option.map_eq_none_iff.mp hm
      dsimp only
      split
      · exact shifts_pure rfl
      · exact shifts_throw _ _
    | some m' =>
      obtain ⟨⟨m, hk⟩, rfl, hlater⟩ := Option.map_eq_some_iff.mp hm
      obtain ⟨m', h⟩ := m'
      dsimp only at hlater
      subst hlater
      dsimp only [Member.later]
      split
      · split
        · exact shifts_throw _ _
        rename_i hp
        have hp : p.longName = none := by simpa using hp
        refine shifts_named hk h fun b => ih _ ?_ _ _ rfl
        simp [← hr, Preface.room, hp]
      split
      · split
        · exact shifts_throw _ _
        rename_i hp
        have hp : p.longLink = none := by simpa using hp
        refine shifts_named hk h fun b => ih _ ?_ _ _ rfl
        simp [← hr, Preface.room, hp]
      split
      · split
        · exact shifts_throw _ _
        rename_i hp
        have hp : p.extensions = none := by simpa using hp
        refine shifts_named hk h fun b => ih _ ?_ _ _ rfl
        simp [← hr, Preface.room, hp]
      · have hsparse := shifts_readSparse (e := p.entry m'.header m'.size m'.next) hk h
        exact hsparse.bind fun e e' he => shifts_pure (congrArg some he)

end Tar
end ContainerLayer
