import ContainerLayer.Proofs.Filter.Readback

/-
Entries that are sure to be copied.

A reader that never fails lets a filter go on as long as the archive does.  So what an archive
says about an entry (`Finds`), together with a way to write that entry (`Rendered`), is enough
for the filter to read the entry and to write just this (`Finds.copies`).
-/

namespace ContainerLayer

open Tar Tape

section Gives

variable {σ : Type} [Reader σ] {I : σ → Prop} {output : σ → Bytes} (h : Reader.Gives I output)

/-! ## Content -/

namespace Tar.Content

include h in
/-- While there is content, a read gives some of it. -/
theorem exists_read {n : Nat} (hn : n ≠ 0) {content : Content} {c : Spot σ} (hc : I c.reader)
    (hmore : (expand content (output c.reader)).1 ≠ []) :
    ∃ b content' c', b ≠ [] ∧ (Content.read n content).Plays c (b, content') c' [] := by
  induction content generalizing c with
  | nil => exact absurd rfl hmore
  | cons s rest ih =>
    cases s with
    | stored k =>
      unfold Content.read
      by_cases hk : k = 0
      · subst hk
        rw [expand_stored_zero] at hmore
        exact ih hc hmore
      rw [if_neg hk]
      obtain ⟨b, c₁, hread⟩ := Tape.read_plays h (min n k) true hc
      obtain ⟨-, hc₁, -, hout, -, hnil⟩ := of_read_plays h.hands hc hread
      by_cases hb : b = []
      · have hnone := hnil (by omega) hb
        rw [hnone, expand_stored_nil] at hmore
        rw [hb, hnone, List.nil_append] at hout
        obtain ⟨b', content', c', hb', hplays⟩ := ih hc₁ (by rwa [← hout])
        refine ⟨b', content', c', hb', hread.bind_nil ?_⟩
        rw [if_pos hb]
        exact hplays
      · refine ⟨b, .stored (k - b.length) :: rest, c₁, hb, hread.bind_nil ?_⟩
        rw [if_neg hb]
        exact plays_pure _ c₁
    | gap k =>
      unfold Content.read
      by_cases hk : k = 0
      · subst hk
        rw [expand_gap_zero] at hmore
        exact ih hc hmore
      · rw [if_neg hk]
        refine ⟨List.replicate (min n k) 0, .gap (k - min n k) :: rest, c, ?_, plays_pure _ c⟩
        intro e
        have hlength := congrArg List.length e
        rw [List.length_replicate, List.length_nil] at hlength
        omega

include h in
/-- As many bytes as there are can be copied. -/
theorem exists_forEach {n k : Nat} (hn : n ≠ 0) {f : Bytes → Bytes} {sink : Bytes → Tape Unit}
    (hsink : ∀ (b : Bytes) (c : Spot σ), (sink b).Plays c () c (f b)) {content : Content}
    {c : Spot σ} (hc : I c.reader) (hk : k ≤ (expand content (output c.reader)).1.length) :
    ∃ content' c' out, ((Exact.forEach (m := StateT Content Tape) Content.read n
      (fun b => StateT.lift (sink b)) ⟨k⟩).run content).Plays c ((), content') c' out := by
  induction k using Nat.strongRecOn generalizing content c with
  | ind k ih =>
    by_cases hzero : k = 0
    · subst hzero
      rw [Exact.forEach]
      exact ⟨content, c, [], plays_pure _ _⟩
    have hwant : (Exact.mk k).want n ≠ 0 := by
      show min n k ≠ 0
      omega
    have hmore : (expand content (output c.reader)).1 ≠ [] := by
      intro e
      rw [e, List.length_nil] at hk
      omega
    obtain ⟨b, content₁, c₁, hb, hread⟩ := exists_read h hwant hc hmore
    obtain ⟨-, hc₁, hexp, hlen, -⟩ := read_plays h.hands hwant hc hread
    have hb0 : 0 < b.length := List.length_pos_iff.mpr hb
    rw [hexp, List.length_append] at hk
    have hleft : k - b.length ≤ (expand content₁ (output c₁.reader)).1.length := by omega
    obtain ⟨content', c', out, hplays⟩ := ih (k - b.length) (by omega) hc₁ hleft
    have haccept : (Exact.mk k).accept b = .ok ⟨k - b.length⟩ := if_neg hb
    rw [Exact.forEach, dif_neg hzero, StateT.run_bind]
    refine ⟨content', c', f b ++ out, hread.bind_nil ?_⟩
    dsimp only
    split
    · rename_i f hf
      rw [haccept] at hf
      cases hf
    · rename_i y hy
      rw [haccept] at hy
      cases hy
      have hpassed : ((StateT.lift (sink b) : StateT Content Tape Unit).run content₁).Plays c₁
          ((), content₁) c₁ (f b) :=
        plays_bind_iff.mpr ⟨(), c₁, f b, [], hsink b c₁, plays_pure _ _, (List.append_nil _).symm⟩
      rw [StateT.run_bind]
      exact hpassed.bind hplays

end Tar.Content

/-! ## Entries -/

namespace EntryHeader

variable {e : EntryHeader} {content : Content} {c : Spot σ}

include h in
/-- Content of the length of the entry can be copied. -/
theorem exists_copyContent {f : Bytes → Bytes} {sink : Bytes → Tape Unit}
    (hsink : ∀ (b : Bytes) (c : Spot σ), (sink b).Plays c () c (f b)) (hc : I c.reader)
    (hn : (Content.expand content (output c.reader)).1.length = e.size) :
    ∃ content' c' out, (e.copyContent sink content).Plays c content' c' out := by
  obtain ⟨content', c', out, hplays⟩ :=
    Content.exists_forEach h (n := copySize) (by decide) hsink hc (Nat.le_of_eq hn.symm)
  exact ⟨content', c', out ++ [], hplays.bind (plays_pure _ c')⟩

theorem plays_write (b : Bytes) (c : Spot σ) : (Tape.write b).Plays c () c b :=
  plays_write_iff.mpr ⟨rfl, rfl⟩

include h in
/-- An entry that there is a way to write, with its content on the tape, is written. -/
theorem exists_append {bytes out : Bytes} (hr : e.Rendered bytes out) (hc : I c.reader)
    (hn : (Content.expand content (output c.reader)).1.length = e.size) :
    ∃ c' out, (e.append content).Plays c () c' out := by
  have hmember : ∃ c' out, (e.appendMember content).Plays c () c' out := by
    unfold appendMember
    cases hr with
    | link kind name path written =>
      have hsink (b : Bytes) (c : Spot σ) :
          ((fun _ => pure () : Bytes → Tape Unit) b).Plays c () c [] :=
        plays_pure () c
      obtain ⟨content', c', out, hcopy⟩ := exists_copyContent h hsink hc hn
      rw [name, kind]
      exact ⟨c', _, (hcopy.bind (plays_pure () c')).bind
        ((writePath_plays_iff.mpr ⟨rfl, path⟩).bind
          ((writeLinkName_plays_iff.mpr ⟨rfl, written⟩).bind (plays_write _ c')))⟩
    | plain kind path =>
      obtain ⟨content', c', out, hcopy⟩ := exists_copyContent h plays_write hc hn
      split
      · rename_i target hname hkind
        cases hname.symm.trans (kind hkind)
      · exact ⟨c', _, (writePath_plays_iff.mpr ⟨rfl, path⟩).bind ((plays_write _ c).bind
          (hcopy.bind (plays_write _ c')))⟩
  obtain ⟨c', out, hmember⟩ := hmember
  unfold append
  split
  · exact ⟨c', out, hmember⟩
  · exact ⟨c', _, plays_bind_iff.mpr ⟨(), c, _, out, writeMember_plays_iff.mpr ⟨rfl, rfl⟩, hmember,
      rfl⟩⟩

end EntryHeader

namespace Filter

variable {item : Item} {c : Spot σ} {start stop : Nat} {rest : Bytes}

/-- The content of the item is not taken for records.  An entry that consists of records is read
for them if there are none in front of it, and then nothing is left of its content. -/
def Item.Lasting (x : Item) : Prop :=
  x.entry.header.kind = .extension ∨ x.entry.header.kind = .globalExtension →
    x.entry.attributes = [] → x.content = []

include h in
/-- An entry that is read as an item is seen as that item, with the content still to come. -/
theorem exists_ofEntry {x : Entry} {d : Spot Whole} (hsound : x.Sound) (hc : I c.reader)
    (hitem : (readItem x).Plays (c.whole output) item d []) (hlasting : item.Lasting) :
    ∃ content c', (EntryHeader.ofEntry x).Plays c (item.entry, content) c' [] ∧ I c'.reader
      ∧ Content.total content ≤ item.entry.size
      ∧ Content.expand content (output c'.reader) = (item.content, d.reader.left)
      ∧ d.position + d.reader.left.length = c'.position + (output c'.reader).length := by
  obtain ⟨-, hseen, hexpand, hlength, hpos⟩ := readItem_plays_iff.mp hitem
  have hsize := (EntryHeader.proper_seen hsound hseen).2
  have htotal : Content.total x.content ≤ item.entry.size := by rw [hsize, hsound.total]
  obtain ⟨as, has, hview⟩ := bind_eq_ok.mp hseen
  have hview := Except.ok.inj hview
  unfold EntryHeader.ofEntry EntryHeader.extensionsOf
  cases hx : x.extensions with
  | some data =>
    refine ⟨x.content, c, (plays_pure (some data, x.content) c).bind_nil ?_, hc, htotal, hexpand,
      hpos⟩
    rw [hx] at has
    dsimp only
    rw [has, ← hview]
    exact plays_pure _ c
  | none =>
    rw [hx] at has
    cases has
    obtain ⟨entry, bytes⟩ := item
    subst hview
    by_cases hk : (x.header.kind = .extension || x.header.kind = .globalExtension) = true
    · obtain rfl : bytes = [] := hlasting (by simpa using hk) rfl
      obtain ⟨position, hcollect, hend⟩ :=
        Content.collect_plays x.content c.position (output c.reader)
      obtain ⟨c', hplays, hc', hwhole⟩ := (Content.reads_collect x.content).of_whole h hc hcollect
      rw [show Content.expand x.content (output c.reader) = ([], d.reader.left) from hexpand]
        at hplays hwhole hend
      obtain ⟨hposition, hleft⟩ := Spot.mk.inj hwhole
      have hposition : c'.position = position := hposition
      have hleft : output c'.reader = d.reader.left := congrArg Whole.left hleft
      rw [← hleft] at hend hpos ⊢
      refine ⟨[], c', Plays.bind_nil (a := (some [], [])) ?_ (plays_pure _ c'), hc', Nat.zero_le _,
        rfl, ?_⟩
      · dsimp only
        rw [if_pos hk]
        exact hplays.bind_nil (plays_pure _ c')
      · rw [hposition]
        exact hpos.trans hend.symm
    · refine ⟨x.content, c, Plays.bind_nil (a := (none, x.content)) ?_ (plays_pure _ c), hc, htotal,
        hexpand, hpos⟩
      dsimp only
      rw [if_neg hk]
      exact plays_pure _ c

include h in
/-- The filter sees the item that is found, and writes it as there is a way to. -/
theorem Finds.copies (hf : Finds (c.whole output) start item stop rest) (hc : I c.reader)
    (hlasting : item.Lasting) {o : Bytes} (hr : item.entry.Rendered item.content o) :
    ∃ content next c₁ c₂, (nextEntry start).Plays c (some (item.entry, content, next)) c₁ []
      ∧ (handle true item.entry content).Plays c₁ () c₂ o ∧ next.1 = stop ∧ I c₂.reader
      ∧ Ahead (c₂.whole output) stop rest := by
  obtain ⟨x, d, d', hentry, hitem, rfl, hahead⟩ := hf
  obtain ⟨c₀, hplays, hc₀, rfl⟩ := (reads_readEntry start).of_whole h hc hentry
  obtain ⟨hsound, -⟩ := (reads_readEntry start).gets.of_plays hplays
  obtain ⟨content, c₁, hof, hc₁, htotal, hexpand, hpos⟩ :=
    exists_ofEntry h (hsound x rfl) hc₀ hitem hlasting
  have hlength : item.content.length = item.entry.size := by
    obtain ⟨-, hseen, -, hlength, -⟩ := readItem_plays_iff.mp hitem
    rw [hlength, (EntryHeader.proper_seen (hsound x rfl) hseen).2]
  obtain ⟨c₂, out, happend⟩ := item.entry.exists_append h hr hc₁ (by rw [hexpand, hlength])
  obtain ⟨bytes, -, -, hr', hc₂, hexpand', hpos'⟩ :=
    item.entry.append_plays h.hands hc₁ htotal happend
  obtain ⟨hbytes, hleft⟩ := Prod.mk.inj (hexpand.symm.trans hexpand')
  subst hbytes
  obtain rfl := hr'.det hr
  refine ⟨content, Entry.behind x, c₁, c₂, hplays.bind_nil (hof.bind_nil (plays_pure _ c₁)),
    happend, rfl, hc₂, ?_⟩
  obtain ⟨pad, hrest, hstop⟩ := hahead
  refine ⟨pad, hleft.symm.trans hrest, ?_⟩
  rw [hleft] at hpos
  show c₂.position + pad.length = _
  omega

end Filter

end Gives
end ContainerLayer
