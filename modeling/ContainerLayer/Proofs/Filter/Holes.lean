import ContainerLayer.Proofs.Filter.Faithful

/-
Sparse files in archives that are filtered.

A filter writes a sparse file with all of its content and with the header that the file was read
with.  So the map in the header still tells what the input had stored.  If the map has no holes,
that is what the output stores, and the file comes back.  If it has holes, it reaches further than
the file, and the output cannot be read beyond this entry (`Item.Gapped`).
-/

namespace ContainerLayer

open Tar Tape

/-- Sparse files keep the map that they were read with, and nothing else becomes a sparse file. -/
def Decision.KeepsMaps {δ : Type} (decide : Decision δ) : Prop :=
  ∀ d (e : EntryHeader), (decide d e).1.2.header.kind = .sparse →
    e.header.kind = .sparse ∧ e.header.SameMap (decide d e).1.2.header

theorem Decision.Relabels.keepsMaps {δ : Type} {decide : Decision δ} (h : decide.Relabels) :
    decide.KeepsMaps := by
  intro d e hk
  have hheader := (h d e).header
  rw [hheader] at hk ⊢
  exact ⟨hk, fun _ _ => rfl⟩

namespace Filter

/-! ## What is read of sparse files -/

theorem seen_eq_ok {e : Entry} {view : EntryHeader} (h : EntryHeader.seen e = .ok view) :
    view.header = e.header ∧ view.size = e.size := by
  obtain ⟨as, -, h⟩ := bind_eq_ok.mp h
  cases h
  exact ⟨rfl, rfl⟩

/-- Every item that is listed has a header that fits its length. -/
theorem gets_list (start : Nat) :
    Gets (fun items => ∀ x ∈ items, x.entry.header.Mapped x.entry.size) (list start) := by
  induction hd : limit - start using Nat.strongRecOn generalizing start with
  | ind d ih =>
    rw [list]
    refine (gets_readEntryAfter (Q := fun e => e.header.Mapped e.size) gets_readSparse {}
      start).bind fun r hr => ?_
    cases r with
    | none => exact gets_pure (by simp)
    | some e =>
      have h₁ := e.2.1
      have h₂ := e.2.2
      have hitem : Gets (fun x => x.entry.header.Mapped x.entry.size) (readItem e.1) := by
        unfold readItem
        split
        · exact gets_throw _
        rename_i view hview
        obtain ⟨hheader, hsize⟩ := seen_eq_ok hview
        refine (Content.reads_collect e.1.content).gets.bind fun content _ => ?_
        split
        · refine gets_pure ?_
          dsimp only
          rw [hheader, hsize]
          exact hr e rfl
        · exact gets_throw _
      refine hitem.bind fun x hx => (ih _ (by omega) _ rfl).bind fun items hitems => gets_pure ?_
      intro y hy
      rcases List.mem_cons.mp hy with rfl | hy
      · exact hx
      · exact hitems y hy

variable {σ : Type} [Reader σ]

theorem Lists.mapped {archive : Bytes} {items : List Item} (h : Lists (⟨archive⟩ : Whole) items) :
    ∀ x ∈ items, x.entry.header.Mapped x.entry.size := by
  obtain ⟨d, hp⟩ := lists_iff_plays.mp h
  exact ((gets_list 0).of_plays hp).1

variable {δ : Type} {decide : Decision δ}

theorem kept_mapped (hr : decide.Revises) (hm : decide.KeepsMaps) {items : List Item}
    (hx : ∀ x ∈ items, x.entry.header.Mapped x.entry.size) (d : δ) :
    ∀ x ∈ kept decide d items, x.entry.header.Mapped x.entry.size := by
  induction items generalizing d with
  | nil => exact fun x hx => absurd hx List.not_mem_nil
  | cons x items ih =>
    have ih := ih fun y hy => hx y (List.mem_cons_of_mem x hy)
    unfold kept
    dsimp only
    split
    · intro y hy
      rcases List.mem_cons.mp hy with rfl | hy
      · intro hk
        obtain ⟨hk', hsame⟩ := hm d x.entry hk
        rw [(hr d x.entry).size]
        exact hsame.mapped (fun _ => hk') (hx x List.mem_cons_self) hk
      · exact ih _ y hy
    · exact ih _

/-- Of items with maps that do not go on in further blocks, either all have no holes, or there is
a first one with holes. -/
theorem solid_or_exists_gapped {xs : List Item}
    (hx : ∀ x ∈ xs, x.entry.header.Mapped x.entry.size)
    (hlast : ∀ x ∈ xs, x.entry.header.kind = .sparse → ¬ x.entry.header.hasMoreParts) :
    (∀ x ∈ xs, x.Solid) ∨ ∃ front x back, xs = front ++ x :: back ∧ (∀ y ∈ front, y.Solid)
      ∧ x.Gapped := by
  induction xs with
  | nil => exact .inl fun x hx => absurd hx List.not_mem_nil
  | cons x xs ih =>
    have hhead : x.Solid ∨ x.Gapped := by
      by_cases hk : x.entry.header.kind = .sparse
      · rcases (hx x List.mem_cons_self).solid_or_gapped hk (hlast x List.mem_cons_self hk) with h | h
        · exact .inl fun _ => h
        · exact .inr ⟨hk, h⟩
      · exact .inl fun hk' => absurd hk' hk
    rcases hhead with hsolid | hgap
    · rcases ih (fun y hy => hx y (List.mem_cons_of_mem x hy))
        (fun y hy => hlast y (List.mem_cons_of_mem x hy)) with hall | ⟨front, y, back, rfl, hf, hy⟩
      · refine .inl fun y hy => ?_
        rcases List.mem_cons.mp hy with rfl | hy
        · exact hsolid
        · exact hall y hy
      · refine .inr ⟨x :: front, y, back, rfl, fun z hz => ?_, hy⟩
        rcases List.mem_cons.mp hz with rfl | hz
        · exact hsolid
        · exact hf z hz
    · exact .inr ⟨[], x, xs, rfl, by simp, hgap⟩

/-! ## What comes of them -/

variable {I : σ → Prop} {output : σ → Bytes}

/-- Let a filter succeed whose decision leaves entries writable and sparse files with their maps.
If no sparse file among the kept ones has holes, the output can be read to its end and gives all of
them back.  If a sparse file with holes is kept behind such files, the output cannot be read to its
end.  So if the maps do not go on in further blocks, it can be read just if no kept file has holes. -/
theorem sparse_survives_iff_solid (h : Reader.Hands I output) {s rest : σ} (hs : I s)
    (hr : decide.Revises) (hm : decide.KeepsMaps) {d : δ} {stats : FilterStats}
    (hfinish : (Filtered.start s decide d).finish = (.ok stats, rest))
    (hlimit : (Filtered.start s decide d).drain.data.length ≤ limit) :
    ∃ items, Lists (⟨output s⟩ : Whole) items ∧ stats.kept = (kept decide d items).length
      ∧ ((∀ x ∈ kept decide d items, x.Solid) →
        ∃ copies, Lists (⟨(Filtered.start s decide d).drain.data⟩ : Whole) copies
          ∧ List.Forall₂ Item.Carried (kept decide d items) copies)
      ∧ (∀ front x back, kept decide d items = front ++ x :: back → (∀ y ∈ front, y.Solid) →
        x.Gapped → ∀ copies, ¬ Lists (⟨(Filtered.start s decide d).drain.data⟩ : Whole) copies)
      ∧ ((∀ x ∈ kept decide d items,
          x.entry.header.kind = .sparse → ¬ x.entry.header.hasMoreParts) →
        ((∃ copies, Lists (⟨(Filtered.start s decide d).drain.data⟩ : Whole) copies)
          ↔ ∀ x ∈ kept decide d items, x.Solid)) := by
  obtain ⟨items, out, _, hlist, ht, hdata⟩ := finish_transcript h hs hr hfinish
  have htrailer : trailer.length = 1024 := List.length_replicate
  rw [hdata, List.length_append, htrailer] at hlimit
  have hsolid : (∀ x ∈ kept decide d items, x.Solid) →
      ∃ copies, Lists (⟨out ++ trailer⟩ : Whole) copies
        ∧ List.Forall₂ Item.Carried (kept decide d items) copies := by
    intro hx
    obtain ⟨copies, c, hplays, hcopies⟩ := renderedAll_listed ht.rendered
      (fun x hmem => ⟨ht.proper x hmem, hx x hmem⟩) (ahead_here 0 _) (by omega)
    exact ⟨copies, lists_iff_plays.mpr ⟨c, hplays⟩, hcopies⟩
  have hgapped : ∀ front x back, kept decide d items = front ++ x :: back →
      (∀ y ∈ front, y.Solid) → x.Gapped → ∀ copies, ¬ Lists (⟨out ++ trailer⟩ : Whole) copies := by
    intro front x back e hfront hx copies hcopies
    obtain ⟨c, hp⟩ := lists_iff_plays.mp hcopies
    have hproper := ht.proper
    have hrendered := ht.rendered
    rw [e] at hproper hrendered
    refine renderedAll_lost hrendered (fun y hy => ⟨hproper y ?_, hfront y hy⟩) (hproper x ?_) hx
      (ahead_here 0 _) (by omega) hp
    · exact List.mem_append_left _ hy
    · exact List.mem_append_right _ List.mem_cons_self
  rw [hdata]
  refine ⟨items, hlist, ?_, hsolid, hgapped, fun hlast => ⟨fun hread => ?_, fun hx => ?_⟩⟩
  · rw [ht.kept]
    exact Nat.zero_add _
  · obtain ⟨copies, hcopies⟩ := hread
    have hmapped := kept_mapped hr hm hlist.mapped d
    rcases solid_or_exists_gapped hmapped hlast with hall | ⟨front, x, back, e, hfront, hx⟩
    · exact hall
    · exact absurd hcopies (hgapped front x back e hfront hx copies)
  · obtain ⟨copies, hcopies, -⟩ := hsolid hx
    exact ⟨copies, hcopies⟩

/-! ## Sparse files in archives of their own -/

theorem relabels_keepAll : keepAll.Relabels := fun _ _ => ⟨rfl, rfl, rfl, rfl⟩

theorem kept_keepAll (items : List Item) : kept keepAll () items = items := by
  induction items with
  | nil => rfl
  | cons x xs ih =>
    show x :: kept keepAll () xs = _
    rw [ih]

/-- A sparse file with the given map, of which `stored` is stored. -/
def sparseMember (parts : List (Nat × Nat)) (realSize : Nat) (stored : Bytes) : Bytes :=
  memberBytes ((((((Header.newGnu.put .name (ascii "a")).put .sparseParts
    (parts.flatMap fun p => Number.toField 12 p.1 ++ Number.toField 12 p.2)).put .realSize
      (Number.toField 12 realSize)).setSize stored.length).setKind .sparse).setChecksum) stored

/-- A sparse file without holes, and another file. -/
def solidArchive : Bytes :=
  sparseMember [(0, 1)] 1 (ascii "x") ++ (fileMember (ascii "b") (ascii "y") ++ trailer)

/-- A sparse file with a hole behind its only byte. -/
def holeArchive : Bytes := sparseMember [(0, 1), (2, 0)] 2 (ascii "x") ++ trailer

theorem sparse_survives_iff_solid_solidArchive :
    ∃ items copies, Lists (⟨solidArchive⟩ : Whole) items
      ∧ items.map (fun x => x.entry.header.kind) = [.sparse, .regular]
      ∧ Lists (⟨(Filtered.start (Source.ofBytes solidArchive) keepAll ()).drain.data⟩ : Whole) copies
      ∧ List.Forall₂ Item.Carried items copies := by
  obtain ⟨rest, hfinish⟩ := exists_finish ⟨2, 0⟩
    (show (Relay.run (produce keepAll ()) (Source.ofBytes solidArchive)).result.1.toOption = _ by
      decide +kernel)
  obtain ⟨items, hlist, -, hcarried, -, -⟩ := sparse_survives_iff_solid Source.hands
    (Source.onlyData_ofBytes _).steady relabels_keepAll.revises relabels_keepAll.keepsMaps hfinish
    (show (Filtered.start (Source.ofBytes solidArchive) keepAll ()).drain.data.length ≤ limit by
      decide +kernel)
  rw [show Source.remaining (Source.ofBytes solidArchive) = solidArchive from List.append_nil _]
    at hlist
  obtain ⟨items', hlist', hitems⟩ := lists_of_map (⟨solidArchive⟩ : Whole)
    (fun x => (x.entry.header.kind, decide x.Solid)) [(.sparse, true), (.regular, true)]
    (by decide +kernel)
  cases hlist.det hlist'
  rw [kept_keepAll] at hcarried
  have hsolid : (items.map fun x => (x.entry.header.kind, decide x.Solid)).all Prod.snd = true := by
    rw [hitems]
    rfl
  rw [List.all_map, List.all_eq_true] at hsolid
  obtain ⟨copies, hcopies, hall⟩ := hcarried fun x hx => of_decide_eq_true (hsolid x hx)
  refine ⟨items, copies, hlist, ?_, hcopies, hall⟩
  have h := congrArg (List.map Prod.fst) hitems
  rwa [List.map_map] at h

/-- A sparse file with a hole does not survive: the archive has been filtered without a fault,
and its output cannot be read to its end. -/
theorem sparse_lost_holeArchive :
    (∃ rest, (Filtered.start (Source.ofBytes holeArchive) keepAll ()).finish = (.ok ⟨1, 0⟩, rest))
      ∧ (∃ x, Lists (⟨holeArchive⟩ : Whole) [x] ∧ x.entry.header.kind = .sparse
        ∧ x.content = ascii "x" ++ [0])
      ∧ ∀ copies,
        ¬ Lists (⟨(Filtered.start (Source.ofBytes holeArchive) keepAll ()).drain.data⟩ : Whole)
          copies := by
  refine ⟨exists_finish _ ?_, ?_, ?_⟩
  · show (Relay.run (produce keepAll ()) (Source.ofBytes holeArchive)).result.1.toOption = _
    decide +kernel
  · obtain ⟨items, hlist, hitems⟩ := lists_of_map (⟨holeArchive⟩ : Whole)
      (fun x => (x.entry.header.kind, x.content)) [(.sparse, ascii "x" ++ [0])] (by decide +kernel)
    obtain ⟨x, rfl, hx⟩ := List.map_eq_singleton_iff.mp hitems
    rw [Prod.mk.injEq] at hx
    exact ⟨x, hlist, hx⟩
  · intro copies hcopies
    obtain ⟨position, hcopies⟩ := hcopies
    have hnone : ((Relay.run ((list 0).run 0) (⟨(Filtered.start (Source.ofBytes holeArchive) keepAll
        ()).drain.data⟩ : Whole)).result.toOption.map fun r => r.1.length) = none := by
      decide +kernel
    rw [hcopies] at hnone
    cases hnone

end Filter
end ContainerLayer
