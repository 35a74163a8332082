import ContainerLayer.Proofs.Digest
import ContainerLayer.Proofs.Filter.Truncation

/-
Where filters stop.

A header is expected at the start of an archive and behind each entry.  A filter that succeeds
has read its input up to the end of the first block of zeros that stands at such a place, or all
of it, if there is no such block (`Tar.consumed`).  So what it leaves in its input depends on the
input alone, and a reader around the input that counts or hashes has counted or hashed just that.
-/

namespace ContainerLayer

open Tar Tape

namespace Tar

/-! ## Blocks of zeros -/

/-- Does a block of zeros stand at `place`? -/
def zeroBlockAt (archive : Bytes) (place : Nat) : Bool :=
  (archive.drop place).take 512 = List.replicate 512 0

/-- The places where the header of an entry is expected. -/
def headerPlaces (archive : Bytes) : List Nat := 0 :: entryEnds archive 0

/-- Where the first block of zeros stands in the place of a header. -/
def endBlock? (archive : Bytes) : Option Nat := (headerPlaces archive).find? (zeroBlockAt archive)

/-- The archive up to the end of that block, or all of it. -/
def consumed (archive : Bytes) : Bytes :=
  match endBlock? archive with
  | some place => archive.take (place + 512)
  | none => archive

variable {archive : Bytes} {start stop : Nat} {c : Spot Whole}

theorem zeroBlockAt_iff :
    zeroBlockAt archive start = true ↔ (archive.drop start).take 512 = List.replicate 512 0 :=
  decide_eq_true_iff

/-- A header that is not there is a block of zeros, unless nothing is left. -/
theorem zeros_of_readHeader_none {b out : Bytes}
    (hp : (readHeader start).Plays (⟨start, ⟨b⟩⟩ : Spot Whole) none c out) :
    b = [] ∨ b.take 512 = List.replicate 512 0 := by
  unfold readHeader at hp
  have hp := (plays_skip_iff (ahead_here start b)).mp hp
  obtain ⟨block, c₁, o₁, o₂, h₁, h₂, -⟩ := plays_bind_iff.mp hp
  obtain ⟨-, -, hblock, -, -⟩ := of_gather_plays Whole.gives.hands trivial h₁
  have hblock : block = b.take 512 := hblock
  rw [← hblock]
  by_cases hb : block = []
  · rcases List.take_eq_nil_iff.mp (hblock.symm.trans hb) with h | h
    · cases h
    · exact .inl h
  · rw [if_neg hb] at h₂
    split at h₂
    · rename_i hlength
      obtain ⟨hnone, -, -⟩ := plays_pure_iff.mp h₂
      split at hnone
      · rename_i hzero
        refine .inr (List.eq_replicate_iff.mpr ⟨hlength, fun x hx => ?_⟩)
        exact eq_of_beq (List.all_eq_true.mp hzero x hx)
      · cases hnone
    · exact absurd h₂ not_plays_throw

theorem readHeader_of_readMember_none {extensions : Option Bytes} {c' : Spot Whole} {out : Bytes}
    (hp : (readMember start extensions).Plays c none c' out) :
    ∃ d o, (readHeader start).Plays c none d o := by
  obtain ⟨header, d, o₁, o₂, h₁, h₂, -⟩ := plays_bind_iff.mp hp
  cases header with
  | none => exact ⟨d, o₁, h₁⟩
  | some header =>
    obtain ⟨m, d', o₃, o₄, -, h₄, -⟩ := plays_bind_iff.mp h₂
    cases (plays_pure_iff.mp h₄).1

/-- Where there is no entry, there is not even a member in front of one. -/
theorem readMember_of_readEntryAfter_none {p : Preface} {c' : Spot Whole} {out : Bytes}
    (hp : (readEntryAfter p c.position).Plays c none c' out) :
    ∃ d o, (readMember c.position p.extensions).Plays c none d o := by
  obtain ⟨k, hk, -, hsome⟩ := readEntryAfter_eq p c.position
  rw [hk] at hp
  obtain ⟨m, d, o₁, o₂, h₁, h₂, -⟩ := plays_bind_iff.mp hp
  cases m with
  | none => exact ⟨d, o₁, h₁⟩
  | some m =>
    rcases hsome m with ⟨f, hm⟩ | ⟨p', hp', hm⟩ | ⟨e, -, -, -, hm⟩
    · rw [hm] at h₂
      exact absurd h₂ not_plays_throw
    · rcases readMember_takes h₁ with ⟨h, -, -⟩ | ⟨-, -, -, hsize⟩
      · cases h
      obtain ⟨e, -, he, -, -⟩ := takesEntry_named m.2 (hsize m rfl) (fun b => (hp' b).2)
        (fun b left r c' out hplays => readEntryAfter_takes (c := ⟨m.1.next, ⟨left⟩⟩) hplays) hm h₂
      cases he
    · rw [hm] at h₂
      obtain ⟨_, _, _, _, -, h₃, -⟩ := plays_bind_iff.mp h₂
      cases (plays_pure_iff.mp h₃).1

/-- Where there is no entry, the archive ends, or a block of zeros stands there. -/
theorem Stops.zeros (h : Stops archive stop) :
    archive.drop stop = [] ∨ zeroBlockAt archive stop = true := by
  obtain ⟨c, h⟩ := h
  obtain ⟨d, o, h⟩ := readMember_of_readEntryAfter_none (c := ⟨stop, ⟨archive.drop stop⟩⟩) h
  obtain ⟨d, o, h⟩ := readHeader_of_readMember_none h
  rw [zeroBlockAt_iff]
  exact zeros_of_readHeader_none h

theorem stops_of_zeros (h : zeroBlockAt archive start = true) : Stops archive start := by
  have hblock := zeroBlockAt_iff.mp h
  refine ⟨_, readEntry_plays_none (b := (archive.drop start).drop 512) ?_⟩
  rw [← hblock, List.take_append_drop]
  exact ahead_here _ _

theorem entryEnds_of_stops (h : Stops archive start) : entryEnds archive start = [] := by
  obtain ⟨c, h⟩ := h
  have hresult : (Relay.run ((readEntry start).run start) (⟨archive.drop start⟩ : Whole)).result
      = .ok (none, c.position) := h.1
  rw [entryEnds, hresult]

/-- On the way from entry to entry no block of zeros stands in the place of a header. -/
theorem Leads.find? (h : Leads archive start stop) (hs : Stops archive stop) :
    (start :: entryEnds archive start).find? (zeroBlockAt archive)
      = if zeroBlockAt archive stop then some stop else none := by
  induction h with
  | here start =>
    rw [entryEnds_of_stops hs, List.find?_singleton]
  | @entry start stop e c h _ ih =>
    have hresult : (Relay.run ((readEntry start).run start) (⟨archive.drop start⟩ : Whole)).result
        = .ok (some e, c.position) := h.1
    have hentry : zeroBlockAt archive start = false := by
      refine Bool.eq_false_iff.mpr fun hzero => ?_
      obtain ⟨d, hnone⟩ := stops_of_zeros hzero
      cases (hnone.det h).1
    rw [entryEnds, hresult, List.find?_cons, hentry]
    exact ih hs

end Tar

namespace Filter

variable {σ δ : Type} [Reader σ] {I : σ → Prop} {output : σ → Bytes}

/-- What a filter has left, by where it has come to. -/
theorem Reaches.consumed_eq {archive taken rest : Bytes} {stop : Nat}
    (h : Reaches archive 0 stop rest.length) (hsplit : archive = taken ++ rest) :
    taken = consumed archive
      ∧ (endBlock? archive = none → archive.length ∈ headerPlaces archive) := by
  have hfind : endBlock? archive = if zeroBlockAt archive stop then some stop else none :=
    h.leads.find? h.stops
  have hlength := congrArg List.length hsplit
  rw [List.length_append] at hlength
  have hleft := h.left
  rcases h.length with hend | hblock
  · -- the archive ends at `stop`, so there is no block
    have hzero : zeroBlockAt archive stop = false := by
      refine Bool.eq_false_iff.mpr fun hzero => ?_
      have := congrArg List.length (zeroBlockAt_iff.mp hzero)
      rw [← hend, List.drop_length, List.take_nil, List.length_replicate] at this
      cases this
    rw [hzero, if_neg Bool.false_ne_true] at hfind
    have hrest : rest = [] := List.length_eq_zero_iff.mp (by omega)
    refine ⟨?_, fun _ => ?_⟩
    · rw [consumed, hfind, hsplit, hrest, List.append_nil]
    · rw [hend]
      exact List.mem_cons.mpr h.leads.mem_entryEnds
  · have hzero : zeroBlockAt archive stop = true := by
      rcases h.stops.zeros with hnil | hzero
      · have := List.drop_eq_nil_iff.mp hnil
        omega
      · exact hzero
    rw [hzero, if_pos rfl] at hfind
    refine ⟨?_, fun hnone => ?_⟩
    · rw [consumed, hfind]
      show taken = archive.take (stop + 512)
      rw [hsplit, List.take_left' (by omega)]
    · cases hfind.symm.trans hnone

/-- A filter on a reader that keeps an account comes to what the filter on the reader inside
comes to, and the account is of what the filter has read. -/
theorem finish_tallies {τ : Type} [Reader τ] {inside : τ → σ} {Told : τ → Bytes → Prop}
    (h : Reader.Hands I output) (htallies : Reader.Tallies inside Told) {t : τ} (hs : I (inside t))
    (htold : Told t []) {decide : Decision δ} {d : δ} {stats : FilterStats} {rest : σ}
    (hfinish : (Filtered.start (inside t) decide d).finish = (.ok stats, rest)) :
    I rest ∧ output (inside t) = consumed (output (inside t)) ++ output rest
      ∧ (endBlock? (output (inside t)) = none
        → (output (inside t)).length ∈ headerPlaces (output (inside t)))
      ∧ ∃ t', (Filtered.start t decide d).finish = (.ok stats, t') ∧ inside t' = rest
        ∧ Told t' (consumed (output (inside t))) := by
  obtain ⟨hok, rfl⟩ := Filtered.finish_eq_ok_iff.mp hfinish
  obtain ⟨hresult, hinside, taken, hsplit, htaken⟩ := htallies.run h (produce decide d) hs htold
  obtain ⟨stop, hreaches⟩ := produce_reaches h hs hok
  obtain ⟨rfl, hend⟩ := hreaches.consumed_eq hsplit
  exact ⟨h.keeps.run _ hs, hsplit, hend, _,
    Filtered.finish_eq_ok_iff.mpr ⟨(congrArg Prod.fst hresult).trans hok, rfl⟩, hinside, htaken⟩

/-- Let a filter succeed on an input that hands out some bytes, in pieces of any sizes, and then
ends.  It has read them up to the end of the first block of zeros that stands in the place of a
header, or all of them, if they end in such a place.  The reader that is handed back gives the
others, whoever had which turn, and readers around the input that count and hash tell what was
read.  So every other decision with which the filter succeeds leaves the same. -/
theorem reads_through_end_block (h : Reader.Gives I output) {s : σ} (hs : I s)
    {decide : Decision δ} {d : δ} {stats : FilterStats} {rest : σ}
    (hfinish : (Filtered.start s decide d).finish = (.ok stats, rest)) :
    (endBlock? (output s) = none → (output s).length ∈ headerPlaces (output s))
      ∧ output s = consumed (output s) ++ output rest ∧ I rest
      ∧ (∀ _ : Finite σ, (Reader.drain rest).fault = none
        ∧ (Reader.drain rest).data = output rest)
      ∧ (∀ (ts : List Turn) r,
        (ts.foldl Delivery.turn (Delivery.start s decide d)).working.finish? = some r →
          r = (.ok stats, rest))
      ∧ (Filtered.start (⟨s, 0⟩ : Counted σ) decide d).finish
        = (.ok stats, ⟨rest, (consumed (output s)).length⟩)
      ∧ (∃ r : Digested σ,
        (Filtered.start (⟨s, Sha256.start⟩ : Digested σ) decide d).finish = (.ok stats, r)
          ∧ r.inner = rest
          ∧ r.digest = .ok ⟨"sha256", (Sha256.hash (consumed (output s))).hex⟩)
      ∧ (∃ r : Counted (Digested σ),
        (Filtered.start (⟨⟨s, Sha256.start⟩, 0⟩ : Counted (Digested σ)) decide d).finish
            = (.ok stats, r)
          ∧ r.inner.inner = rest ∧ r.count = (consumed (output s)).length
          ∧ r.inner.digest = .ok ⟨"sha256", (Sha256.hash (consumed (output s))).hex⟩)
      ∧ ∀ {ε : Type} (decide' : Decision ε) (d' : ε) (stats' : FilterStats) (rest' : σ),
        (Filtered.start s decide' d').finish = (.ok stats', rest') →
          output rest' = output rest := by
  have hdigest : ∀ r : Digested σ, r.hasher = Sha256.start.update (consumed (output s)) →
      r.digest = .ok ⟨"sha256", (Sha256.hash (consumed (output s))).hex⟩ := by
    intro r hr
    rw [Digested.digest, hr, Digest.ofSha256_eq (Sha256.length_finish _)]
    rfl
  obtain ⟨hrest, hsplit, hend, -⟩ := finish_tallies h.hands .none hs trivial hfinish
  refine ⟨hend, hsplit, hrest, fun _ => h.drain hrest, fun ts r hr => ?_, ?_, ?_, ?_, ?_⟩
  · have hsound := (Delivery.sound_start s decide d).turns ts
    obtain ⟨hok, hleft⟩ := Filtered.finish_eq_ok_iff.mp hfinish
    have hgone := hsound.finish_of_finish? hr
    rw [hgone, hok, hleft]
    rfl
  · obtain ⟨-, -, -, ⟨inner, count⟩, hcounted, hinner, -, hcount⟩ :=
      finish_tallies (t := (⟨s, 0⟩ : Counted σ)) h.hands Reader.Tallies.none.counted hs
        ⟨trivial, rfl⟩ hfinish
    rw [hcounted]
    dsimp only at hinner hcount
    rw [show inner = rest from hinner, hcount]
    rfl
  · obtain ⟨-, -, -, r, hdigested, hinner, -, hhasher⟩ :=
      finish_tallies (t := (⟨s, Sha256.start⟩ : Digested σ)) h.hands Reader.Tallies.none.digested hs
        ⟨trivial, rfl⟩ hfinish
    exact ⟨r, hdigested, hinner, hdigest r hhasher⟩
  · obtain ⟨-, -, -, r, hboth, hinner, ⟨-, hhasher⟩, hcount⟩ :=
      finish_tallies (t := (⟨⟨s, Sha256.start⟩, 0⟩ : Counted (Digested σ))) h.hands
        Reader.Tallies.none.digested.counted hs ⟨⟨trivial, rfl⟩, rfl⟩ hfinish
    exact ⟨r, hboth, hinner, hcount, hdigest r.inner hhasher⟩
  · intro ε decide' d' stats' rest' hfinish'
    obtain ⟨-, hsplit', -, -⟩ := finish_tallies h.hands .none hs trivial hfinish'
    exact List.append_cancel_left (hsplit'.symm.trans hsplit)

/-- Of the archive with a file of three bytes, a trailer of two blocks behind it, the second
block of zeros is left. -/
theorem reads_through_end_block_fileArchive :
    endBlock? fileArchive = some 1024 ∧ ∃ stats rest,
      (Filtered.start (⟨Source.ofBytes fileArchive, 0⟩ : Counted Source) keepAll ()).finish
          = (.ok stats, ⟨rest, 1536⟩)
        ∧ (Reader.drain rest).data.length = 512 := by
  obtain ⟨⟨stats, hok⟩, hleft⟩ := finish_fileArchive
  obtain ⟨-, -, -, hdrain, -, hcounted, -⟩ := reads_through_end_block Source.gives
    (Source.onlyData_ofBytes fileArchive) (Prod.ext hok rfl)
  have hconsumed : (consumed (Source.ofBytes fileArchive).remaining).length = 1536 := by
    decide +kernel
  rw [hconsumed] at hcounted
  refine ⟨by decide +kernel, stats, _, hcounted, ?_⟩
  rw [(hdrain inferInstance).2, hleft]

end Filter
end ContainerLayer
