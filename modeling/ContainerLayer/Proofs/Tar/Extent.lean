import ContainerLayer.Proofs.Filter.Moving

/-
How much of an archive it takes to read an entry.

`w.Takes c a c' seen` says that `w` takes `seen` from the front of what is left at `c`, and that
it would come to the same with anything else behind `seen`.  Reading an entry takes all of its
members, each of them whole, and so depends on these alone (`readEntry_takes`).  In particular
it makes no difference where an archive is cut further on.

Where the archive ends for the reader there is nothing left, or a block of zeros.
-/

namespace ContainerLayer

open Tar

namespace Tape

variable {α β : Type}

/-- The program takes `seen` on its way from `c` to `c'`, whatever stands behind that. -/
structure Takes (w : Tape α) (c : Spot Whole) (a : α) (c' : Spot Whole) (seen : Bytes) : Prop where
  left : c.reader.left = seen ++ c'.reader.left
  position : c'.position = c.position + seen.length
  plays : ∀ rest, w.Plays (⟨c.position, ⟨seen ++ rest⟩⟩ : Spot Whole) a ⟨c'.position, ⟨rest⟩⟩ []

variable {c c' c'' : Spot Whole} {a : α} {b : β} {seen more : Bytes}

theorem takes_pure (a : α) (c : Spot Whole) : (pure a : Tape α).Takes c a c [] :=
  ⟨rfl, rfl, fun _ => plays_pure _ _⟩

theorem Takes.bind {w : Tape α} {f : α → Tape β} (h : w.Takes c a c' seen)
    (k : (f a).Takes c' b c'' more) : (w >>= f).Takes c b c'' (seen ++ more) where
  left := by rw [h.left, k.left, List.append_assoc]
  position := by rw [k.position, h.position, List.length_append, Nat.add_assoc]
  plays rest := by
    rw [List.append_assoc]
    exact (h.plays (more ++ rest)).bind_nil (k.plays rest)

/-- A last step that takes nothing. -/
theorem Takes.bind_nil {w : Tape α} {f : α → Tape β} (h : w.Takes c a c' seen)
    (k : (f a).Takes c' b c'' []) : (w >>= f).Takes c b c'' seen := by
  have := h.bind k
  rwa [List.append_nil] at this

theorem Takes.bind_pure {w : Tape α} {f : α → β} (h : w.Takes c a c' seen) :
    (w >>= fun a => pure (f a)).Takes c (f a) c' seen := h.bind_nil (takes_pure (f a) c')

/-- Gathering that found as much as it was to gather. -/
theorem takes_gather {n : Nat} {patient : Bool} {out : Bytes}
    (hp : (gather n patient).Plays c seen c' out) (hn : seen.length = n) :
    (gather n patient).Takes c seen c' seen := by
  obtain ⟨-, -, hb, hrest, hpos⟩ := of_gather_plays Whole.gives.hands trivial hp
  refine ⟨?_, hpos, fun rest => ?_⟩
  · rw [show c'.reader.left = c.reader.left.drop n from hrest]
    conv => rhs; lhs; rw [show seen = c.reader.left.take n from hb]
    exact (List.take_append_drop _ _).symm
  · have hplays := gather_whole n patient c.position (seen ++ rest)
    rwa [List.take_left' hn, List.drop_left' hn, ← hpos] at hplays

end Tape

namespace Tar

open Tape

/-! ## What lies ahead -/

variable {c c' : Spot Whole} {start : Nat} {b out : Bytes}

/-- Skipping up to a place that lies ahead comes to that place. -/
theorem plays_skip_iff {α : Type} {early : Fault} {w : Tape α} {a : α} (ha : Ahead c start b) :
    (do Tape.skip (start - (← Tape.position)) early; w : Tape α).Plays c a c' out
      ↔ w.Plays ⟨start, ⟨b⟩⟩ a c' out := by
  obtain ⟨position, ⟨left⟩⟩ := c
  obtain ⟨pad, hleft, hpos⟩ := ha
  dsimp only at hleft hpos
  subst hleft
  have hpad : start - position = pad.length := by omega
  have hskip := skip_whole early position
    (show start - position ≤ (pad ++ b).length by rw [hpad]; simp)
  rw [hpad, List.drop_left, hpos] at hskip
  constructor
  · intro hp
    obtain ⟨n, c₁, o₁, o₂, h₁, h₂, rfl⟩ := plays_bind_iff.mp hp
    obtain ⟨rfl, rfl, rfl⟩ := plays_position_iff.mp h₁
    obtain ⟨u, c₂, o₃, o₄, h₃, h₄, rfl⟩ := plays_bind_iff.mp h₂
    rw [hpad] at h₃
    obtain ⟨-, rfl, rfl⟩ := hskip.det h₃
    exact h₄
  · intro hp
    refine (plays_position_iff.mpr ⟨rfl, rfl, rfl⟩ :
      Tape.position.Plays _ position _ []).bind_nil ?_
    rw [hpad]
    exact hskip.bind_nil hp

/-- Where the reading of headers goes on does not depend on where it was before. -/
theorem readHeader_from {r : Option Header} (ha : Ahead c start b) :
    (readHeader start).Plays c r c' out ↔ (readHeader start).Plays ⟨start, ⟨b⟩⟩ r c' out := by
  unfold readHeader
  exact (plays_skip_iff ha).trans (plays_skip_iff (ahead_here start b)).symm

theorem ahead_of_readHeader {r : Option Header} (hc : c.position ≤ start)
    (hp : (readHeader start).Plays c r c' out) : ∃ b, Ahead c start b := by
  obtain ⟨n, c₁, o₁, o₂, h₁, h₂, rfl⟩ := plays_bind_iff.mp hp
  obtain ⟨rfl, rfl, rfl⟩ := plays_position_iff.mp h₁
  obtain ⟨u, c₂, o₃, o₄, h₃, h₄, rfl⟩ := plays_bind_iff.mp h₂
  obtain ⟨-, -, hn, -, -⟩ := of_skip_plays Whole.gives.hands trivial h₃
  refine ⟨c₁.reader.left.drop (start - c₁.position), c₁.reader.left.take (start - c₁.position),
    (List.take_append_drop _ _).symm, ?_⟩
  rw [List.length_take_of_le hn]
  omega

theorem readMember_from {extensions : Option Bytes} {r : Option { m : Member // Behind start m.next }}
    (ha : Ahead c start b) :
    (readMember start extensions).Plays c r c' out
      ↔ (readMember start extensions).Plays ⟨start, ⟨b⟩⟩ r c' out := by
  unfold readMember
  rw [plays_bind_iff, plays_bind_iff]
  simp only [readHeader_from ha]

theorem readEntryAfter_from {p : Preface} {r : Option { e : Entry // Behind start e.next }}
    (ha : Ahead c start b) :
    (readEntryAfter p start).Plays c r c' out
      ↔ (readEntryAfter p start).Plays ⟨start, ⟨b⟩⟩ r c' out := by
  unfold readEntryAfter
  rw [plays_bind_iff, plays_bind_iff]
  simp only [readMember_from ha]

theorem ahead_of_readEntryAfter {p : Preface} {r : Option { e : Entry // Behind start e.next }}
    (hc : c.position ≤ start) (hp : (readEntryAfter p start).Plays c r c' out) :
    ∃ b, Ahead c start b := by
  unfold readEntryAfter at hp
  obtain ⟨_, c₁, o₁, o₂, h₁, -, -⟩ := plays_bind_iff.mp hp
  obtain ⟨_, c₂, o₃, o₄, h₂, -, -⟩ := plays_bind_iff.mp h₁
  exact ahead_of_readHeader hc h₂

/-- What is taken from a place that lies ahead, with what stands in front of it. -/
theorem Takes.of_ahead {p : Preface} {r : Option { e : Entry // Behind start e.next }}
    {pad seen : Bytes} (hleft : c.reader.left = pad ++ b) (hpos : c.position + pad.length = start)
    (ht : (readEntryAfter p start).Takes ⟨start, ⟨b⟩⟩ r c' seen) :
    (readEntryAfter p start).Takes c r c' (pad ++ seen) where
  left := by rw [hleft, List.append_assoc, ← ht.left]
  position := by
    rw [ht.position, List.length_append, ← Nat.add_assoc, hpos]
  plays rest := by
    have ha : Ahead ⟨c.position, ⟨pad ++ seen ++ rest⟩⟩ start (seen ++ rest) :=
      ⟨pad, List.append_assoc _ _ _, hpos⟩
    exact (readEntryAfter_from ha).mpr (ht.plays rest)

/-! ## Headers -/

/-- Nothing is left, or a whole block is taken. -/
theorem readHeader_takes {r : Option Header} (hp : (readHeader c.position).Plays c r c' out) :
    (r = none ∧ c' = c ∧ c.reader.left = [])
      ∨ ∃ seen, seen.length = 512 ∧ (readHeader c.position).Takes c r c' seen := by
  unfold readHeader at hp ⊢
  have hp := (plays_skip_iff (ahead_here c.position c.reader.left)).mp hp
  obtain ⟨block, c₁, o₁, o₂, h₁, h₂, rfl⟩ := plays_bind_iff.mp hp
  by_cases hb : block = []
  · rw [if_pos hb] at h₂
    obtain ⟨rfl, rfl, rfl⟩ := plays_pure_iff.mp h₂
    obtain ⟨-, -, htake, hrest, hpos⟩ := of_gather_plays Whole.gives.hands trivial h₁
    subst hb
    have hnil : c.reader.left = [] := by
      rcases List.take_eq_nil_iff.mp htake.symm with h | h
      · cases h
      · exact h
    obtain ⟨position, ⟨left⟩⟩ := c
    obtain ⟨position', ⟨left'⟩⟩ := c'
    dsimp only at hnil hrest hpos
    subst hnil
    rw [List.drop_nil] at hrest
    subst hrest
    subst hpos
    exact .inl ⟨rfl, rfl, rfl⟩
  · rw [if_neg hb] at h₂
    split at h₂
    · rename_i hlen
      have ht := takes_gather h₁ hlen
      obtain ⟨rfl, rfl, rfl⟩ := plays_pure_iff.mp h₂
      refine .inr ⟨block, hlen, ht.left, ht.position, fun rest => ?_⟩
      refine (plays_skip_iff (ahead_here c.position _)).mpr ((ht.plays rest).bind_nil ?_)
      rw [if_neg hb, dif_pos hlen]
      exact plays_pure _ _
    · exact absurd h₂ not_plays_throw

theorem takes_check {α : Type} {r : Except Defect α} {a : α}
    (hp : (Defect.check r).Plays c a c' out) : r = .ok a ∧ (Defect.check r).Takes c a c' [] := by
  cases r with
  | error d => exact absurd hp not_plays_throw
  | ok a' =>
    obtain ⟨rfl, rfl, rfl⟩ := plays_pure_iff.mp hp
    exact ⟨rfl, takes_pure a c'⟩

theorem next_of_nextHeader {size : Nat} {next : { next : Nat // Behind start next }}
    (h : nextHeader start size = .ok next) : next.1 = start + 512 + (size + 511) / 512 * 512 := by
  unfold nextHeader at h
  dsimp only at h
  split at h
  · cases h
  split at h
  · cases h
    rfl
  · cases h

/-- A member has its content behind its header block. -/
theorem readMember_takes {extensions : Option Bytes}
    {r : Option { m : Member // Behind c.position m.next }}
    (hp : (readMember c.position extensions).Plays c r c' out) :
    (r = none ∧ c' = c ∧ c.reader.left = [])
      ∨ ∃ seen, seen.length = 512 ∧ (readMember c.position extensions).Takes c r c' seen
        ∧ ∀ m, r = some m → c'.position + m.1.size ≤ m.1.next := by
  unfold readMember at hp ⊢
  obtain ⟨header, c₁, o₁, o₂, h₁, h₂, rfl⟩ := plays_bind_iff.mp hp
  rcases readHeader_takes h₁ with ⟨rfl, rfl, hnil⟩ | ⟨seen, hlen, ht⟩
  · obtain ⟨rfl, rfl, -⟩ := plays_pure_iff.mp h₂
    exact .inl ⟨rfl, rfl, hnil⟩
  · refine .inr ⟨seen, hlen, ?_⟩
    cases header with
    | none =>
      obtain ⟨rfl, rfl, -⟩ := plays_pure_iff.mp h₂
      exact ⟨ht.bind_nil (takes_pure none c'), nofun⟩
    | some header =>
      obtain ⟨m, c₂, o₃, o₄, h₃, h₄, rfl⟩ := plays_bind_iff.mp h₂
      obtain ⟨rfl, rfl, -⟩ := plays_pure_iff.mp h₄
      obtain ⟨hm, hcheck⟩ := takes_check h₃
      refine ⟨ht.bind_nil hcheck.bind_pure, ?_⟩
      rintro _ ⟨⟩
      obtain ⟨-, declared, next, -, hnext, rfl⟩ := interpret_eq_ok_iff.mp hm
      have hnext := next_of_nextHeader hnext
      have hpos := ht.position
      have hstay := hcheck.position
      rw [List.length_nil] at hstay
      dsimp only
      omega

/-! ## Sparse files -/

namespace SparseMap

/-- What is stored of the file adds up to `n`, with what is not accounted for yet. -/
def Accounts (n : Nat) (m : SparseMap) : Prop := Content.onTape m.segments + m.remaining = n

theorem lasts_accounts (n : Nat) : Lasts (Accounts n) := by
  intro m m' offset length hm e
  obtain ⟨-, -, -, hlength, rfl⟩ := stretch_eq_ok_iff.mp e
  unfold Accounts at hm ⊢
  dsimp only
  split
  · rw [Content.onTape_stored, Content.onTape_gap]
    omega
  · rw [Content.onTape_stored]
    omega

theorem accounts_start (n : Nat) : Accounts n { stored := n, remaining := n } := Nat.zero_add n

/-- The blocks of a map are taken whole, and the content goes on behind them. -/
theorem addBlocks_takes {n start next : Nat} {h : Behind start next} {m : SparseMap}
    {r : SparseMap × { next : Nat // Behind start next }} (hm : m.Accounts n)
    (hp : (m.addBlocks start next h).Plays c r c' out) :
    ∃ seen, (m.addBlocks start next h).Takes c r c' seen ∧ r.1.Accounts n
      ∧ r.2.1 = next + seen.length := by
  induction hd : limit - next using Nat.strongRecOn generalizing next m c out with
  | ind d ih =>
    unfold addBlocks at hp ⊢
    obtain ⟨block, c₁, o₁, o₂, h₁, h₂, rfl⟩ := plays_bind_iff.mp hp
    by_cases hb : block = []
    · rw [if_pos hb] at h₂
      exact absurd h₂ not_plays_throw
    by_cases hlen : block.length ≠ 512
    · rw [if_neg hb, if_pos hlen] at h₂
      exact absurd h₂ not_plays_throw
    by_cases hn : next + 512 < limit
    · have hlen' : block.length = 512 := Decidable.not_not.mp hlen
      have ht := takes_gather h₁ hlen'
      rw [if_neg hb, if_neg hlen, dif_pos hn] at h₂
      obtain ⟨m₁, c₂, o₃, o₄, h₃, h₄, rfl⟩ := plays_bind_iff.mp h₂
      obtain ⟨hm₁, hcheck⟩ := takes_check h₃
      have hm₁ := (lasts_accounts n).addAll hm hm₁
      by_cases hmore : (block.drop 504).headD 0 = 1
      · rw [if_pos hmore] at h₄
        obtain ⟨seen, hrest, hr, hnext⟩ := ih (limit - (next + 512)) (by omega) hm₁ h₄ rfl
        refine ⟨block ++ seen, ht.bind ?_, hr, ?_⟩
        · rw [if_neg hb, if_neg hlen, dif_pos hn]
          refine hcheck.bind (?_ : Takes _ _ _ _ seen)
          rw [if_pos hmore]
          exact hrest
        · rw [hnext, List.length_append, hlen', Nat.add_assoc]
      · rw [if_neg hmore] at h₄
        obtain ⟨rfl, rfl, -⟩ := plays_pure_iff.mp h₄
        refine ⟨block, ht.bind_nil ?_, hm₁, by rw [hlen']⟩
        rw [if_neg hb, if_neg hlen, dif_pos hn]
        refine hcheck.bind_nil ?_
        rw [if_neg hmore]
        exact takes_pure _ _
    · rw [if_neg hb, if_neg hlen, dif_neg hn] at h₂
      exact absurd h₂ not_plays_throw

end SparseMap

theorem Entry.of_withMap {start n : Nat} {e : Entry} {m : SparseMap}
    {next : { next : Nat // Behind start next }} {r : { e : Entry // Behind start e.next }}
    (hm : m.Accounts n) (h : e.withMap m next = .ok r) :
    r.1.next = next.1 ∧ Content.onTape r.1.content ≤ n := by
  obtain ⟨-, -, h⟩ := Entry.withMap_eq_ok h
  rw [h]
  refine ⟨rfl, ?_⟩
  rw [Content.onTape, List.map_reverse, List.sum_reverse]
  exact Nat.le.intro hm

/-- Nothing but the blocks of a map is taken to read a sparse file up to its content. -/
theorem readSparse_takes {start : Nat} {e r : { e : Entry // Behind start e.next }}
    (he : e.1.content = [.stored e.1.size]) (hp : (readSparse start e).Plays c r c' out) :
    ∃ seen, (readSparse start e).Takes c r c' seen
      ∧ r.1.next = e.1.next + seen.length ∧ Content.onTape r.1.content ≤ e.1.size := by
  unfold readSparse at hp ⊢
  dsimp only at hp ⊢
  split at hp
  · rename_i hkind
    rw [if_pos hkind]
    obtain ⟨rfl, rfl, -⟩ := plays_pure_iff.mp hp
    refine ⟨[], takes_pure _ _, rfl, ?_⟩
    rw [he]
    exact Nat.le_refl _
  rename_i hkind
  rw [if_neg hkind]
  split at hp
  · exact absurd hp not_plays_throw
  rename_i hdialect
  rw [if_neg hdialect]
  obtain ⟨m, c₁, o₁, o₂, h₁, h₂, rfl⟩ := plays_bind_iff.mp hp
  obtain ⟨hm, hcheck⟩ := takes_check h₁
  have hm := (SparseMap.lasts_accounts _).addAll (SparseMap.accounts_start e.1.size) hm
  split at h₂
  · rename_i hmore
    obtain ⟨⟨m₁, next⟩, c₂, o₃, o₄, h₃, h₄, rfl⟩ := plays_bind_iff.mp h₂
    obtain ⟨seen, hblocks, hm₁, hnext⟩ := SparseMap.addBlocks_takes hm h₃
    obtain ⟨hmap, hcheck'⟩ := takes_check h₄
    obtain ⟨hr, hcontent⟩ := Entry.of_withMap hm₁ hmap
    refine ⟨seen, hcheck.bind (?_ : Takes _ _ _ _ seen), hr.trans hnext, hcontent⟩
    rw [if_pos hmore]
    exact hblocks.bind_nil hcheck'
  · rename_i hmore
    obtain ⟨hmap, hcheck'⟩ := takes_check h₂
    obtain ⟨hr, hcontent⟩ := Entry.of_withMap hm hmap
    refine ⟨[], hcheck.bind_nil ?_, hr, hcontent⟩
    rw [if_neg hmore]
    exact hcheck'

/-! ## Entries -/

/-- Behind the header of a member either the reading fails, or a name or records are read and
then what follows the member, or the member is the entry that is read. -/
theorem readEntryAfter_eq (p : Preface) (start : Nat) :
    ∃ k : Option { m : Member // Behind start m.next } →
        Tape (Option { e : Entry // Behind start e.next }),
      readEntryAfter p start = readMember start p.extensions >>= k
        ∧ k none = (if p.isEmpty then pure none else throw Defect.noMember.fault)
        ∧ ∀ m, (∃ f, k (some m) = throw f)
          ∨ (∃ p' : Bytes → Preface, (∀ b, (p' b).room < p.room ∧ (p' b).isEmpty = false)
              ∧ k (some m) = do
                let b ← Tape.gather m.1.size true
                let r ← readEntryAfter (p' b) m.1.next
                return r.map fun e => ⟨e.1, m.2.trans e.2⟩)
          ∨ ∃ e : { e : Entry // Behind start e.next }, e.1.next = m.1.next
              ∧ e.1.size = m.1.size ∧ e.1.content = [.stored m.1.size]
              ∧ k (some m) = do return some (← readSparse start e) := by
  rw [readEntryAfter]
  refine ⟨_, rfl, rfl, fun m => ?_⟩
  obtain ⟨m, hm⟩ := m
  dsimp only
  split
  · split
    · exact .inl ⟨_, rfl⟩
    · rename_i hp
      have hp : p.longName = none := by simpa using hp
      refine .inr (.inl ⟨fun b => { p with longName := some b }, fun b => ⟨?_, ?_⟩, rfl⟩)
      · simp [Preface.room, hp]
      · simp [Preface.isEmpty]
  split
  · split
    · exact .inl ⟨_, rfl⟩
    · rename_i hp
      have hp : p.longLink = none := by simpa using hp
      refine .inr (.inl ⟨fun b => { p with longLink := some b }, fun b => ⟨?_, ?_⟩, rfl⟩)
      · simp [Preface.room, hp]
      · simp [Preface.isEmpty]
  split
  · split
    · exact .inl ⟨_, rfl⟩
    · rename_i hp
      have hp : p.extensions = none := by simpa using hp
      refine .inr (.inl ⟨fun b => { p with extensions := some b }, fun b => ⟨?_, ?_⟩, rfl⟩)
      · simp [Preface.room, hp]
      · simp [Preface.isEmpty]
  · exact .inr (.inr ⟨⟨_, hm⟩, rfl, rfl, rfl, rfl⟩)

/-- Gathering that is cut short leaves nothing, so that nothing lies ahead. -/
theorem takes_gather_of_ahead {n next : Nat} {patient : Bool} {seen : Bytes}
    (hp : (gather n patient).Plays c seen c' out) (hn : c.position + n ≤ next)
    (ha : Ahead c' next b) : (gather n patient).Takes c seen c' seen := by
  obtain ⟨-, -, hb, hrest, hpos⟩ := of_gather_plays Whole.gives.hands trivial hp
  refine takes_gather hp ?_
  obtain ⟨pad, hleft, hpad⟩ := ha
  have hseen := congrArg List.length hb
  have hleft := congrArg List.length (hrest.symm.trans hleft)
  rw [List.length_take] at hseen
  rw [List.length_drop, List.length_append] at hleft
  omega

/-- Either nothing is left, or all that is read is taken and the content lies in front of the
next header. -/
def TakesEntry {start : Nat} (w : Tape (Option { e : Entry // Behind start e.next }))
    (c : Spot Whole) (r : Option { e : Entry // Behind start e.next }) (c' : Spot Whole) : Prop :=
  (r = none ∧ c' = c ∧ c.reader.left = [])
    ∨ ∃ seen, w.Takes c r c' seen ∧ (r = none → seen.length = 512)
      ∧ ∀ e, r = some e → c'.position + Content.onTape e.1.content ≤ e.1.next

/-- A name or records are there as a whole, as something lies ahead behind them. -/
theorem takesEntry_named {start size next : Nat} (h : Behind start next) {p' : Bytes → Preface}
    {r : Option { e : Entry // Behind start e.next }} (hsize : c.position + size ≤ next)
    (hempty : ∀ b, (p' b).isEmpty = false)
    (hentry : ∀ b left r c' out,
      (readEntryAfter (p' b) next).Plays (⟨next, ⟨left⟩⟩ : Spot Whole) r c' out →
        (r = none → (p' b).isEmpty = true)
          ∧ TakesEntry (readEntryAfter (p' b) next) ⟨next, ⟨left⟩⟩ r c')
    {w : Tape (Option { e : Entry // Behind start e.next })}
    (hw : w = do
      let b ← Tape.gather size true
      let r ← readEntryAfter (p' b) next
      return r.map fun e => ⟨e.1, h.trans e.2⟩) (hp : w.Plays c r c' out) :
    ∃ e seen, r = some e ∧ c'.position + Content.onTape e.1.content ≤ e.1.next
      ∧ w.Takes c r c' seen := by
  subst hw
  obtain ⟨name, c₁, o₁, o₂, h₁, h₂, rfl⟩ := plays_bind_iff.mp hp
  obtain ⟨r', c₂, o₃, o₄, h₃, h₄, rfl⟩ := plays_bind_iff.mp h₂
  obtain ⟨rfl, rfl, -⟩ := plays_pure_iff.mp h₄
  obtain ⟨-, -, hname, -, hpos⟩ := of_gather_plays Whole.gives.hands trivial h₁
  have hlen : name.length ≤ size := by
    rw [hname]
    exact List.length_take_le _ _
  obtain ⟨left, hahead⟩ := ahead_of_readEntryAfter (by omega) h₃
  have hgather := takes_gather_of_ahead h₁ hsize hahead
  obtain ⟨hnone, htakes⟩ := hentry name left _ _ _ ((readEntryAfter_from hahead).mp h₃)
  obtain ⟨pad, hleft, hpad⟩ := hahead
  cases r' with
  | none => cases (hempty name).symm.trans (hnone rfl)
  | some e =>
    rcases htakes with ⟨h, -, -⟩ | ⟨seen, hseen, -, hcontent⟩
    · cases h
    · exact ⟨_, name ++ (pad ++ seen), rfl, hcontent e rfl,
        hgather.bind ((Takes.of_ahead hleft hpad hseen).bind_pure)⟩

theorem readEntryAfter_takes {p : Preface}
    {r : Option { e : Entry // Behind c.position e.next }}
    (hp : (readEntryAfter p c.position).Plays c r c' out) :
    (r = none → p.isEmpty = true) ∧ TakesEntry (readEntryAfter p c.position) c r c' := by
  induction hr : p.room using Nat.strongRecOn generalizing p c r c' out with
  | ind room ih =>
    obtain ⟨k, hk, hnone, hsome⟩ := readEntryAfter_eq p c.position
    rw [hk] at hp ⊢
    obtain ⟨m, c₁, o₁, o₂, h₁, h₂, rfl⟩ := plays_bind_iff.mp hp
    cases m with
    | none =>
      rw [hnone] at h₂
      split at h₂
      · rename_i hempty
        obtain ⟨rfl, rfl, -⟩ := plays_pure_iff.mp h₂
        refine ⟨fun _ => hempty, ?_⟩
        rcases readMember_takes h₁ with ⟨-, rfl, hnil⟩ | ⟨seen, hlen, ht, -⟩
        · exact .inl ⟨rfl, rfl, hnil⟩
        · refine .inr ⟨seen, ht.bind_nil ?_, fun _ => hlen, nofun⟩
          rw [hnone, if_pos hempty]
          exact takes_pure none c'
      · exact absurd h₂ not_plays_throw
    | some m =>
      obtain ⟨block, -, ht, hsize⟩ : ∃ seen, seen.length = 512
          ∧ (readMember c.position p.extensions).Takes c (some m) c₁ seen
          ∧ ∀ m', some m = some m' → c₁.position + m'.1.size ≤ m'.1.next := by
        rcases readMember_takes h₁ with ⟨h, -, -⟩ | h
        · cases h
        · exact h
      have hsize := hsize m rfl
      rcases hsome m with ⟨f, hm⟩ | ⟨p', hp', hm⟩ | ⟨e, hnext, hesize, hcontent, hm⟩
      · rw [hm] at h₂
        exact absurd h₂ not_plays_throw
      · -- a name or records
        obtain ⟨e, seen, rfl, htape, hrest⟩ := takesEntry_named m.2 hsize (fun b => (hp' b).2)
          (fun b left r c' out hplays => by
            refine ih (p' b).room ?_ (c := ⟨m.1.next, ⟨left⟩⟩) hplays rfl
            rw [← hr]
            exact (hp' b).1) hm h₂
        refine ⟨nofun, .inr ⟨block ++ seen, ht.bind hrest, nofun, ?_⟩⟩
        rintro _ ⟨⟩
        exact htape
      · -- the entry itself
        rw [hm] at h₂
        obtain ⟨e', c₂, o₃, o₄, h₃, h₄, rfl⟩ := plays_bind_iff.mp h₂
        obtain ⟨rfl, rfl, -⟩ := plays_pure_iff.mp h₄
        obtain ⟨seen, hsparse, hnext', htape⟩ :=
          readSparse_takes (hcontent.trans (by rw [hesize])) h₃
        refine ⟨nofun, .inr ⟨block ++ seen, ?_, nofun, ?_⟩⟩
        · refine ht.bind (?_ : Takes _ _ _ _ seen)
          rw [hm]
          exact hsparse.bind_pure
        · rintro _ ⟨⟩
          have hpos := hsparse.position
          omega

/-- Reading an entry takes its members and nothing else, and comes to the same whatever stands
behind them and from wherever in front of them.  Where there is no entry there is nothing left,
or a block of zeros. -/
theorem readEntry_takes {r : Option { e : Entry // Behind start e.next }}
    (hc : c.position ≤ start) (hp : (readEntry start).Plays c r c' out) :
    ∃ b, Ahead c start b
      ∧ ((r = none ∧ b = [] ∧ c' = ⟨start, ⟨[]⟩⟩)
        ∨ ∃ seen, b = seen ++ c'.reader.left ∧ c'.position = start + seen.length
          ∧ (∀ rest, (readEntry start).Plays (⟨start, ⟨seen ++ rest⟩⟩ : Spot Whole) r
              ⟨c'.position, ⟨rest⟩⟩ [])
          ∧ (r = none → seen.length = 512)
          ∧ ∀ e, r = some e → c'.position + Content.onTape e.1.content ≤ e.1.next) := by
  obtain ⟨b, ha⟩ := ahead_of_readEntryAfter hc hp
  refine ⟨b, ha, ?_⟩
  have hp := (readEntryAfter_from ha).mp hp
  rcases (readEntryAfter_takes (c := ⟨start, ⟨b⟩⟩) hp).2 with
    ⟨rfl, rfl, hnil⟩ | ⟨seen, ht, hnone, hcontent⟩
  · have hnil : b = [] := hnil
    subst hnil
    exact .inl ⟨rfl, rfl, rfl⟩
  · exact .inr ⟨seen, ht.left, ht.position, ht.plays, hnone, hcontent⟩

end Tar
end ContainerLayer
