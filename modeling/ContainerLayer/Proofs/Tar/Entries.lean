import ContainerLayer.Proofs.Tar.Content
import ContainerLayer.Proofs.Tar.Extent

/-
The entries of an archive.

Where the entries are, and what they are, depends on the archive alone: every header is read from
the place where the one before said it would be, with as much of the archive in front of it passed
over as was left there (`Spot.On.readEntry`).  So whoever goes from entry to entry comes to the same
ones (`Leads`, `entriesFrom`), and what stands behind them makes no difference.
-/

namespace ContainerLayer

open Tar Tape

namespace Tar

/-! ## From entry to entry -/

/-- Where the entries end that are read one after the other, the first of them at `start`. -/
def entryEnds (archive : Bytes) (start : Nat) : List Nat :=
  match (Relay.run ((readEntry start).run start) (⟨archive.drop start⟩ : Whole)).result with
  | .ok (some e, _) => e.1.next :: entryEnds archive e.1.next
  | _ => []
termination_by limit - start
decreasing_by
  have h₁ := e.2.1
  have h₂ := e.2.2
  omega

/-- The entries that are read one after the other, the first of them at `start`, each with the
content that stands behind it. -/
def entriesFrom (archive : Bytes) (start : Nat) : List (Entry × Bytes) :=
  let read := Relay.run ((readEntry start).run start) (⟨archive.drop start⟩ : Whole)
  match read.result with
  | .ok (some e, _) =>
    (e.1, (e.1.content.expand read.rest.left).1) :: entriesFrom archive e.1.next
  | _ => []
termination_by limit - start
decreasing_by
  have h₁ := e.2.1
  have h₂ := e.2.2
  omega

/-- Whole entries stand between the two places. -/
inductive Leads (archive : Bytes) : Nat → Nat → Prop
  | here (start : Nat) : Leads archive start start
  | entry {start stop : Nat} {e : { e : Entry // Behind start e.next }} {c : Spot Whole}
      (h : (readEntry start).Plays (⟨start, ⟨archive.drop start⟩⟩ : Spot Whole) (some e) c [])
      (hs : Leads archive e.1.next stop) : Leads archive start stop

/-- At `stop` there is no entry. -/
def Stops (archive : Bytes) (stop : Nat) : Prop :=
  ∃ c, (readEntry stop).Plays (⟨stop, ⟨archive.drop stop⟩⟩ : Spot Whole) none c []

variable {archive : Bytes} {start stop : Nat}

theorem entriesFrom_of_plays {e : { e : Entry // Behind start e.next }} {c : Spot Whole}
    {out : Bytes}
    (h : (readEntry start).Plays (⟨start, ⟨archive.drop start⟩⟩ : Spot Whole) (some e) c out) :
    entriesFrom archive start
      = (e.1, (e.1.content.expand c.reader.left).1) :: entriesFrom archive e.1.next := by
  obtain ⟨hresult, hrest, -⟩ := h
  dsimp only at hresult hrest
  rw [entriesFrom]
  simp only [hresult, hrest]

theorem entriesFrom_of_stops (h : Stops archive stop) : entriesFrom archive stop = [] := by
  obtain ⟨c, hresult, -, -⟩ := h
  dsimp only at hresult
  rw [entriesFrom]
  simp only [hresult]

theorem Leads.mem_entryEnds (h : Leads archive start stop) :
    stop = start ∨ stop ∈ entryEnds archive start := by
  induction h with
  | here start => exact .inl rfl
  | @entry start stop e c h hs ih =>
    have hresult : (Relay.run ((readEntry start).run start) (⟨archive.drop start⟩ : Whole)).result
        = .ok (some e, c.position) := h.1
    rw [entryEnds, hresult]
    dsimp only
    rcases ih with rfl | ih
    · exact .inr List.mem_cons_self
    · exact .inr (List.mem_cons_of_mem _ ih)

/-- There is only one way from entry to entry, and one end of it. -/
theorem Leads.stop_eq {stop' : Nat} (h : Leads archive start stop) (hs : Stops archive stop)
    (h' : Leads archive start stop') (hs' : Stops archive stop') : stop = stop' := by
  induction h with
  | here start =>
    cases h' with
    | here => rfl
    | entry h' _ =>
      obtain ⟨c, hs⟩ := hs
      cases (hs.det h').1
  | @entry start stop e c h _ ih =>
    cases h' with
    | here =>
      obtain ⟨c, hs'⟩ := hs'
      cases (hs'.det h).1
    | entry h' hrest =>
      cases (h.det h').1
      exact ih hs hrest

/-- What stands behind whole entries makes no difference. -/
theorem Leads.append (h : Leads archive start stop) (more : Bytes) :
    Leads (archive ++ more) start stop := by
  induction h with
  | here start => exact .here start
  | @entry start stop e c h _ ih =>
    rcases (readEntryAfter_takes (c := ⟨start, ⟨archive.drop start⟩⟩) h).2 with
      ⟨h, -, -⟩ | ⟨seen, ht, -, -⟩
    · cases h
    · have hleft : archive.drop start = seen ++ c.reader.left := ht.left
      have hplays := ht.plays (c.reader.left ++ more.drop (start - archive.length))
      rw [← List.append_assoc, ← hleft, ← List.drop_append] at hplays
      exact .entry hplays ih

/-- Where there is no entry, the archive ends or has a block, and what stands behind that makes
no difference. -/
theorem Stops.append (h : Stops archive stop) (hlength : stop < archive.length) (more : Bytes) :
    Stops (archive ++ more) stop := by
  obtain ⟨c, h⟩ := h
  rcases (readEntryAfter_takes (c := ⟨stop, ⟨archive.drop stop⟩⟩) h).2 with
    ⟨-, -, hnil⟩ | ⟨seen, ht, -, -⟩
  · have hnil : archive.drop stop = [] := hnil
    rw [List.drop_eq_nil_iff] at hnil
    omega
  · have hleft : archive.drop stop = seen ++ c.reader.left := ht.left
    have hplays := ht.plays (c.reader.left ++ more.drop (stop - archive.length))
    rw [← List.append_assoc, ← hleft, ← List.drop_append] at hplays
    exact ⟨_, hplays⟩

end Tar

namespace Spot

/-- The spot lies in the archive: what is left is what stands behind its position. -/
def On (c : Spot Whole) (archive : Bytes) : Prop :=
  ∃ front, archive = front ++ c.reader.left ∧ front.length = c.position

variable {archive b : Bytes} {c : Spot Whole} {start : Nat}

theorem on_drop (h : start ≤ archive.length) : Spot.On ⟨start, ⟨archive.drop start⟩⟩ archive :=
  ⟨archive.take start, (List.take_append_drop _ _).symm, List.length_take_of_le h⟩

theorem On.ahead (h : c.On archive) (ha : Ahead c start b) :
    b = archive.drop start ∧ archive.length = start + b.length := by
  obtain ⟨front, harchive, hfront⟩ := h
  obtain ⟨pad, hleft, hpad⟩ := ha
  rw [hleft, ← List.append_assoc] at harchive
  have hlength : (front ++ pad).length = start := by
    rw [List.length_append]
    omega
  constructor
  · rw [harchive, List.drop_left' hlength]
  · rw [harchive, List.length_append, hlength]

theorem On.of_ahead (h : c.On archive) (ha : Ahead c start b) :
    Spot.On ⟨start, ⟨b⟩⟩ archive := by
  obtain ⟨front, harchive, hfront⟩ := h
  obtain ⟨pad, hleft, hpad⟩ := ha
  refine ⟨front ++ pad, ?_, ?_⟩
  · rw [harchive, hleft, List.append_assoc]
  · rw [List.length_append, hfront, hpad]

/-- What is taken from the front of what is left leads on in the archive. -/
theorem On.take {c' : Spot Whole} (h : c.On archive)
    (hleft : c.reader.left = b ++ c'.reader.left) (hpos : c'.position = c.position + b.length) :
    c'.On archive := by
  obtain ⟨front, harchive, hfront⟩ := h
  refine ⟨front ++ b, ?_, ?_⟩
  · rw [harchive, hleft, List.append_assoc]
  · rw [List.length_append, hfront, hpos]

/-- As long as it is in the archive, a place lies ahead of those in front of it. -/
theorem On.isAhead (h : c.On archive) (hpos : c.position ≤ start) (hstart : start ≤ archive.length) :
    Ahead c start (archive.drop start) := by
  obtain ⟨front, rfl, hfront⟩ := h
  rw [List.length_append] at hstart
  refine ⟨c.reader.left.take (start - c.position), ?_, ?_⟩
  · rw [List.drop_append, List.drop_eq_nil_of_le (by omega), List.nil_append, hfront,
      List.take_append_drop]
  · rw [List.length_take_of_le (by omega)]
    omega

end Spot

namespace Tar

variable {archive : Bytes} {start stop : Nat}

/-- An entry is read from its own place, from wherever in front of it the reading starts, and its
content lies in front of the next header. -/
theorem readEntry_on {c c' : Spot Whole} {r : Option { e : Entry // Behind start e.next }}
    {out : Bytes} (hon : c.On archive) (hpos : c.position ≤ start)
    (hp : (readEntry start).Plays c r c' out) :
    (readEntry start).Plays (⟨start, ⟨archive.drop start⟩⟩ : Spot Whole) r c' out ∧
      ∀ e, r = some e → c'.On archive ∧ c'.position + Content.onTape e.1.content ≤ e.1.next := by
  obtain ⟨b, hahead, hcases⟩ := readEntry_takes hpos hp
  obtain ⟨hb, -⟩ := hon.ahead hahead
  have hplays := (readEntryAfter_from hahead).mp hp
  rw [hb] at hplays
  refine ⟨hplays, fun e he => ?_⟩
  subst he
  rcases hcases with ⟨hr, -, -⟩ | ⟨seen, hseen, hpos', -, -, hcontent⟩
  · cases hr
  · exact ⟨Spot.On.take (c := ⟨start, ⟨b⟩⟩) (hon.of_ahead hahead) hseen hpos', hcontent e rfl⟩

/-- An entry starts with a whole block. -/
theorem length_le_of_readEntry {e : { e : Entry // Behind start e.next }} {c c' : Spot Whole}
    {out : Bytes} (hpos : c.position = start) (h : (readEntry start).Plays c (some e) c' out) :
    512 ≤ c.reader.left.length := by
  subst hpos
  obtain ⟨k, hk, hnone, -⟩ := readEntryAfter_eq {} c.position
  rw [readEntry, hk] at h
  obtain ⟨m, c₁, o₁, o₂, h₁, h₂, -⟩ := plays_bind_iff.mp h
  rcases readMember_takes h₁ with ⟨rfl, -, -⟩ | ⟨seen, hseen, ht, -⟩
  · rw [hnone] at h₂
    cases (plays_pure_iff.mp h₂).1
  · rw [ht.left, List.length_append]
    omega

/-- Where an entry is read, the archive has not come to its end. -/
theorem le_length_of_readEntry {e : { e : Entry // Behind start e.next }} {c : Spot Whole}
    {out : Bytes}
    (h : (readEntry start).Plays (⟨start, ⟨archive.drop start⟩⟩ : Spot Whole) (some e) c out) :
    start + 512 ≤ archive.length := by
  have hblock : 512 ≤ (archive.drop start).length :=
    length_le_of_readEntry (c := ⟨start, ⟨archive.drop start⟩⟩) rfl h
  rw [List.length_drop] at hblock
  omega

/-- The content of an entry lies in front of the next header. -/
theorem content_le_of_readEntry {e : { e : Entry // Behind start e.next }} {c : Spot Whole}
    {out : Bytes}
    (h : (readEntry start).Plays (⟨start, ⟨archive.drop start⟩⟩ : Spot Whole) (some e) c out) :
    c.On archive ∧ c.position + Content.onTape e.1.content ≤ e.1.next := by
  have hon := Spot.on_drop (Nat.le_of_add_right_le (le_length_of_readEntry h))
  exact (readEntry_on hon (Nat.le_refl start) h).2 e rfl

/-- An entry is read in the same way if the archive is another one behind it. -/
theorem readEntry_take {e : { e : Entry // Behind start e.next }} {c : Spot Whole} {out : Bytes}
    (h : (readEntry start).Plays (⟨start, ⟨archive.drop start⟩⟩ : Spot Whole) (some e) c out)
    (hnext : e.1.next ≤ stop) (more : Bytes) :
    (readEntry start).Plays (⟨start, ⟨(archive.take stop ++ more).drop start⟩⟩ : Spot Whole)
      (some e) ⟨c.position, ⟨c.reader.left.take (stop - c.position) ++ more⟩⟩ [] := by
  have hstart := le_length_of_readEntry h
  rcases (readEntryAfter_takes (c := ⟨start, ⟨archive.drop start⟩⟩) h).2 with
    ⟨h, -, -⟩ | ⟨seen, ht, -, hcontent⟩
  · cases h
  have hcontent := hcontent e rfl
  have hpos : c.position = start + seen.length := ht.position
  have hleft : archive.drop start = seen ++ c.reader.left := ht.left
  have hdrop : (archive.take stop ++ more).drop start
      = seen ++ (c.reader.left.take (stop - c.position) ++ more) := by
    rw [List.drop_append_of_le_length (by rw [List.length_take]; omega), List.drop_take, hleft,
      List.take_append, List.take_of_length_le (by omega), List.append_assoc]
    congr 3
    omega
  rw [hdrop]
  exact ht.plays _

end Tar

end ContainerLayer
