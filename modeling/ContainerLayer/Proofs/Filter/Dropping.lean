import ContainerLayer.Proofs.Filter.Faithful
import ContainerLayer.Proofs.Filter.Stopping
import ContainerLayer.Proofs.Tar.Shifting
import ContainerLayer.StripPrefix

/-
What dropped entries leave behind.

The text of an entry is all that stands between the place of its first header and that of the
next entry.  It is read as the same entry wherever it stands, and as an archive of its own
(`lists_text`).  So filters that keep the same texts write the same, whatever they drop, and a
filter that keeps nothing writes nothing but a trailer.
-/

namespace ContainerLayer

open Tar Tape

namespace Tar

/-! ## Content that is cut off behind its end -/

theorem Content.expand_take {content : Content} {n : Nat} (hn : Content.onTape content ≤ n)
    (b : Bytes) :
    expand content (b.take n)
      = ((expand content b).1, (expand content b).2.take (n - Content.onTape content)) := by
  induction content generalizing n b with
  | nil => rfl
  | cons s rest ih =>
    cases s with
    | stored k =>
      rw [onTape_stored] at hn ⊢
      have htake : (b.take n).take k = b.take k := by rw [List.take_take, Nat.min_eq_left (by omega)]
      rw [expand, expand, htake, List.drop_take, ih (by omega), Nat.sub_sub]
    | gap k =>
      rw [onTape_gap] at hn ⊢
      rw [expand, expand, ih hn]

end Tar

namespace Filter

variable {archive : Bytes} {start : Nat} {c c' : Spot Whole} {x : Item}

theorem moves_readItem (e : Entry) :
    Moves (fun _ => True) Whole.left (fun m _ => m ≤ Content.onTape e.content) (readItem e) := by
  unfold readItem
  split
  · exact moves_throw _
  · refine (Content.moves_collect Whole.gives.hands e.content).before_stay fun content => ?_
    split
    · exact moves_pure rfl
    · exact moves_throw _

/-! ## The texts of entries -/

/-- What stands between `start` and the first of the places, and between one and the next. -/
def textsBetween (archive : Bytes) (start : Nat) : List Nat → List Bytes
  | [] => []
  | place :: places =>
    (archive.drop start).take (place - start) :: textsBetween archive place places

/-- The texts of the entries of an archive: each of them with all members in front of it, its
content, and what fills up its last block. -/
def entryTexts (archive : Bytes) : List Bytes := textsBetween archive 0 (entryEnds archive 0)

/-- The entries of an archive, if it can be read to its end. -/
def entries (archive : Bytes) : List Item :=
  match (Relay.run ((list 0).run 0) (⟨archive⟩ : Whole)).result with
  | .ok (items, _) => items
  | .error _ => []

theorem Lists.entries_eq {items : List Item} (h : Lists (⟨archive⟩ : Whole) items) :
    entries archive = items := by
  obtain ⟨position, h⟩ := h
  rw [entries, h]

/-- Where nothing is left there is no entry. -/
theorem readEntry_plays_end (ha : Ahead c start []) :
    (readEntry start).Plays c none ⟨start, ⟨[]⟩⟩ [] := by
  have hheader : (readHeader start).Plays c none ⟨start, ⟨[]⟩⟩ [] := by
    unfold readHeader
    refine (plays_skip_iff ha).mpr ((gather_whole 512 false start []).bind_nil ?_)
    exact plays_pure _ _
  exact readEntry_plays_of_no_header hheader

/-- An archive that ends behind its first entry holds that entry alone. -/
theorem lists_singleton {b : Bytes} {e : { e : Entry // Behind 0 e.next }}
    (he : (readEntry 0).Plays (⟨0, ⟨b⟩⟩ : Spot Whole) (some e) c [])
    (hx : (readItem e.1).Plays c x c' []) (ha : Ahead c' e.1.next []) :
    Lists (⟨b⟩ : Whole) [x] := by
  have hlist : (list 0).Plays (⟨0, ⟨b⟩⟩ : Spot Whole) [x] ⟨e.1.next, ⟨[]⟩⟩ [] := by
    rw [list]
    refine he.bind_nil (hx.bind_nil (?_ : Plays _ _ _ _ []))
    refine Plays.bind_nil (a := []) ?_ (plays_pure _ _)
    rw [list]
    exact (readEntry_plays_end ha).bind_nil (plays_pure _ _)
  exact ⟨_, hlist.1⟩

/-- An item is still read if the tape is cut off behind its content, from any place. -/
theorem readItem_take {e : Entry} (hx : (readItem e).Plays c x c' []) {n : Nat}
    (hn : Content.onTape e.content ≤ n) (position : Nat) :
    ∃ c'', (readItem e).Plays (⟨position, ⟨c.reader.left.take n⟩⟩ : Spot Whole) x c'' [] := by
  obtain ⟨-, hseen, hexpand, hsize, -⟩ := readItem_plays_iff.mp hx
  have hcut := Content.expand_take hn c.reader.left
  rw [hexpand] at hcut
  obtain ⟨position', -, hend⟩ := Content.collect_plays e.content position (c.reader.left.take n)
  rw [hcut] at hend
  exact ⟨⟨position', ⟨_⟩⟩, readItem_plays_iff.mpr ⟨rfl, hseen, hcut, hsize, hend⟩⟩

/-- What is left behind an item ends where the tape ended. -/
theorem ahead_of_readItem {e : Entry} (hx : (readItem e).Plays c x c' []) {next : Nat}
    (hnext : c.position + c.reader.left.length = next) : Ahead c' next [] := by
  obtain ⟨-, -, -, -, hend⟩ := readItem_plays_iff.mp hx
  exact ⟨c'.reader.left, (List.append_nil _).symm, hend.trans hnext⟩

/-- The text of an entry is read as that entry, wherever it stands. -/
theorem lists_text {e : { e : Entry // Behind start e.next }} {left : Bytes}
    (he : (readEntry start).Plays (⟨start, ⟨left⟩⟩ : Spot Whole) (some e) c [])
    (hx : (readItem e.1).Plays c x c' []) (hnext : e.1.next ≤ start + left.length) :
    Lists (⟨left.take (e.1.next - start)⟩ : Whole) [x] := by
  rcases (readEntryAfter_takes (c := ⟨start, ⟨left⟩⟩) he).2 with ⟨h, -, -⟩ | ⟨seen, ht, -, htape⟩
  · cases h
  have htape := htape e rfl
  have hleft : left = seen ++ c.reader.left := ht.left
  have hpos : c.position = start + seen.length := ht.position
  have hlength := congrArg List.length hleft
  rw [List.length_append] at hlength
  -- behind the members that are read first, the text goes on with `rest`
  let rest := c.reader.left.take (e.1.next - c.position)
  have htext : left.take (e.1.next - start) = seen ++ rest := by
    rw [hleft, List.take_append, List.take_of_length_le (by omega),
      show e.1.next - start - seen.length = e.1.next - c.position by omega]
  have hrest : rest.length = e.1.next - c.position := List.length_take_of_le (by omega)
  obtain ⟨r, position, hposition, hr, hentry⟩ :=
    shifts_readEntryAfter start {} 0 0 (seen ++ rest) _ _ _ (ht.plays rest)
  obtain ⟨⟨e', he'⟩, rfl, hlater⟩ := Option.map_eq_some_iff.mp (hr.symm : Option.map _ r = _)
  have hlater : e'.later start = e.1 := hlater
  have hposition : c.position = start + position := hposition
  have hnext' : e.1.next = start + e'.next := by rw [← hlater]; rfl
  have hcontent : e.1.content = e'.content := by rw [← hlater]; rfl
  rw [hcontent] at htape
  rw [← hlater] at hx
  obtain ⟨c'', hitem⟩ : ∃ c'', (readItem e').Plays (⟨position, ⟨rest⟩⟩ : Spot Whole) x c'' [] :=
    readItem_take (e := e'.later start) hx (Nat.le_sub_of_add_le' htape) position
  have hend : position + rest.length = e'.next := by omega
  rw [htext]
  exact lists_singleton hentry hitem (ahead_of_readItem hitem hend)

/-- Each text of an archive that is read to its end is one of its items. -/
theorem list_plays_texts {items : List Item} {out : Bytes} (hon : c.On archive)
    (hpos : c.position ≤ start) (hp : (list start).Plays c items c' out) :
    List.Forall₂ (fun text x => Lists (⟨text⟩ : Whole) [x])
      (textsBetween archive start (entryEnds archive start)) items := by
  induction hd : limit - start using Nat.strongRecOn generalizing start c c' items out with
  | ind d ih =>
    rw [list] at hp
    obtain ⟨r, c₁, o₁, o₂, h₁, h₂, rfl⟩ := plays_bind_iff.mp hp
    obtain ⟨b, hahead, hcases⟩ := readEntry_takes hpos h₁
    obtain ⟨hb, hlength⟩ := hon.ahead hahead
    have hentry := (readEntryAfter_from hahead).mp h₁
    obtain ⟨-, rfl⟩ := (reads_readEntry start).gets.of_plays h₁
    rw [hb] at hentry
    cases r with
    | none =>
      obtain ⟨rfl, -, -⟩ := plays_pure_iff.mp h₂
      rw [entryEnds_of_stops ⟨c₁, hentry⟩]
      exact .nil
    | some e =>
      obtain ⟨x, c₂, o₃, o₄, h₃, h₄, rfl⟩ := plays_bind_iff.mp h₂
      obtain ⟨xs, c₃, o₅, o₆, h₅, h₆, rfl⟩ := plays_bind_iff.mp h₄
      obtain ⟨rfl, -, -⟩ := plays_pure_iff.mp h₆
      rcases hcases with ⟨h, -, -⟩ | ⟨seen, hseen, hpos₁, -, -, htape⟩
      · cases h
      have htape := htape e rfl
      have hon₁ : c₁.On archive := (hon.of_ahead hahead).take (b := seen) hseen hpos₁
      obtain ⟨-, taken, hleft, hpos₂, htaken⟩ := moves_readItem e.1 c₁ c₂ x o₃ trivial h₃
      obtain ⟨rfl, -⟩ := readItem_plays_iff.mp h₃
      have hon₂ : c₂.On archive := hon₁.take hleft hpos₂
      have hpos₂ : c₂.position ≤ e.1.next := by omega
      obtain ⟨b', hahead'⟩ : ∃ b', Ahead c₂ e.1.next b' := by
        rw [list] at h₅
        obtain ⟨_, _, _, _, h, -, -⟩ := plays_bind_iff.mp h₅
        exact ahead_of_readEntryAfter hpos₂ h
      have hresult : (Relay.run ((readEntry start).run start) (⟨archive.drop start⟩ : Whole)).result
          = .ok (some e, c₁.position) := hentry.1
      have h₀ := e.2.1
      rw [entryEnds, hresult]
      refine .cons (lists_text hentry h₃ ?_) (ih _ ?_ hon₂ hpos₂ h₅ rfl)
      · have := (hon₂.ahead hahead').2
        rw [hb] at hlength
        omega
      · have := e.2.2
        omega

theorem Lists.texts {items : List Item} (h : Lists (⟨archive⟩ : Whole) items) :
    List.Forall₂ (fun text x => Lists (⟨text⟩ : Whole) [x]) (entryTexts archive) items := by
  obtain ⟨position, h⟩ := h
  have hp : (list 0).Plays (⟨0, ⟨archive⟩⟩ : Spot Whole) items ⟨position, _⟩ _ := ⟨h, rfl, rfl⟩
  exact list_plays_texts ⟨[], rfl, rfl⟩ (Nat.le_refl 0) hp

/-! ## Entries outside a directory -/

theorem relabels_stripDecision (start : Bytes) : (stripDecision start).Relabels := by
  intro d e
  show e.Relabeled (stripStart start e).2
  unfold stripStart
  split
  · exact ⟨rfl, rfl, rfl, rfl⟩
  · exact ⟨rfl, rfl, rfl, rfl⟩
  · exact ⟨rfl, rfl, rfl, by simp⟩

/-- Does the entry stand below `start`? -/
def isBelow (start : Bytes) (x : Item) : Bool := (stripStart start x.entry).1

/-- The item at its place without `start`. -/
def stripped (start : Bytes) (x : Item) : Item := ⟨(stripStart start x.entry).2, x.content⟩

theorem kept_stripDecision (start : Bytes) (items : List Item) :
    kept (stripDecision start) () items = (items.filter (isBelow start)).map (stripped start) := by
  induction items with
  | nil => rfl
  | cons x xs ih =>
    show (if isBelow start x then stripped start x :: kept (stripDecision start) () xs
      else kept (stripDecision start) () xs) = _
    rw [List.filter_cons, ih]
    split <;> rfl

/-- The entries of an archive that are below `start`. -/
def entriesBelow (start archive : Bytes) : List Item := (entries archive).filter (isBelow start)

/-- The texts of these entries. -/
def textsBelow (start archive : Bytes) : List Bytes :=
  ((entryTexts archive).zip (entries archive)).filterMap fun p =>
    if isBelow start p.2 then some p.1 else none

theorem forall₂_textsBelow {P : Bytes → Item → Prop} {texts : List Bytes} {items : List Item}
    (start : Bytes) (h : List.Forall₂ P texts items) :
    List.Forall₂ P
      ((texts.zip items).filterMap fun p => if isBelow start p.2 then some p.1 else none)
      (items.filter (isBelow start)) := by
  induction h with
  | nil => exact .nil
  | @cons text x texts items h _ ih =>
    rw [List.zip_cons_cons, List.filterMap_cons, List.filter_cons]
    cases isBelow start x with
    | true => exact .cons h ih
    | false => exact ih

/-- The texts below `start` are read as the entries below it. -/
theorem Lists.textsBelow {items : List Item} (start : Bytes)
    (h : Lists (⟨archive⟩ : Whole) items) :
    List.Forall₂ (fun text x => Lists (⟨text⟩ : Whole) [x]) (textsBelow start archive)
      (entriesBelow start archive) := by
  rw [Filter.textsBelow, entriesBelow, h.entries_eq]
  exact forall₂_textsBelow start h.texts

section Hands

variable {σ τ : Type} [Reader σ] [Reader τ]
variable {I : σ → Prop} {output : σ → Bytes} {J : τ → Prop} {output' : τ → Bytes}

/-- What a filter gives that strips `start` and succeeds. -/
theorem drain_stripDecision (h : Reader.Hands I output) {s rest : σ} (hs : I s) {start : Bytes}
    {stats : FilterStats}
    (hfinish : (Filtered.start s (stripDecision start) ()).finish = (.ok stats, rest)) :
    ∃ items out, Lists (⟨output s⟩ : Whole) items
      ∧ stats.kept = (entriesBelow start (output s)).length
      ∧ RenderedAll ((entriesBelow start (output s)).map (stripped start)) out
      ∧ (Filtered.start s (stripDecision start) ()).drain.data = out ++ trailer := by
  obtain ⟨items, out, _, hlist, ht, hdata⟩ :=
    finish_transcript h hs (relabels_stripDecision start).revises hfinish
  have hkept := kept_stripDecision start items
  refine ⟨items, out, hlist, ?_, ?_, hdata⟩
  · rw [ht.kept, hkept, List.length_map, entriesBelow, hlist.entries_eq]
    exact Nat.zero_add _
  · rw [entriesBelow, hlist.entries_eq, ← hkept]
    exact ht.rendered

/-- Let filters strip the same `start` from two archives and succeed.  If the entries below it
have the same texts in both archives, or are the same but for what fills up their blocks, the two
outputs are the same, whatever else the archives hold.  If there are no such entries, the output
is a trailer. -/
theorem dropped_leave_no_trace (h : Reader.Hands I output) (h' : Reader.Hands J output') {s rest : σ}
    {t rest' : τ} (hs : I s) (ht : J t) {start : Bytes} {stats stats' : FilterStats}
    (hfinish : (Filtered.start s (stripDecision start) ()).finish = (.ok stats, rest))
    (hfinish' : (Filtered.start t (stripDecision start) ()).finish = (.ok stats', rest')) :
    (textsBelow start (output s) = textsBelow start (output' t) →
        (Filtered.start s (stripDecision start) ()).drain.data
          = (Filtered.start t (stripDecision start) ()).drain.data)
      ∧ (entriesBelow start (output s) = entriesBelow start (output' t) →
        (Filtered.start s (stripDecision start) ()).drain.data
          = (Filtered.start t (stripDecision start) ()).drain.data)
      ∧ stats.kept = (textsBelow start (output s)).length
      ∧ (textsBelow start (output s) = [] →
        (Filtered.start s (stripDecision start) ()).drain.data = List.replicate 1024 0) := by
  obtain ⟨items, out, hlist, hkept, hrendered, hdata⟩ := drain_stripDecision h hs hfinish
  obtain ⟨items', out', hlist', -, hrendered', hdata'⟩ := drain_stripDecision h' ht hfinish'
  have htexts := hlist.textsBelow start
  have hsame : entriesBelow start (output s) = entriesBelow start (output' t) →
      (Filtered.start s (stripDecision start) ()).drain.data
        = (Filtered.start t (stripDecision start) ()).drain.data := by
    intro e
    rw [← e] at hrendered'
    rw [hdata, hdata', hrendered.det hrendered']
  refine ⟨fun e => hsame ?_, hsame, ?_, fun e => ?_⟩
  · have htexts' := hlist'.textsBelow start
    rw [← e] at htexts'
    exact List.right_unique_forall₂'
      (fun text x y hx hy => List.singleton_inj.mp (hx.entries_eq.symm.trans hy.entries_eq)) htexts htexts'
  · rw [hkept, htexts.length_eq]
  · rw [e] at htexts
    rw [List.forall₂_nil_left_iff.mp htexts] at hrendered
    rw [hdata, hrendered.det .nil]
    rfl

end Hands

/-! ## A file with another one in front of it -/

/-- A file below the directory. -/
def belowMember : Bytes := fileMember (ascii "Files/a") (ascii "xyz")

theorem dropped_leave_no_trace_file :
    let s := Source.ofBytes (belowMember ++ trailer)
    let t := Source.ofBytes (fileMember (ascii "b") (ascii "q") ++ (belowMember ++ trailer))
    textsBelow (ascii "Files/") (belowMember ++ trailer) = [belowMember]
      ∧ (Filtered.start s (stripDecision (ascii "Files/")) ()).drain.data
        = (Filtered.start t (stripDecision (ascii "Files/")) ()).drain.data := by
  intro s t
  obtain ⟨rest, hs⟩ := exists_finish ⟨1, 0⟩
    (show (Relay.run (produce (stripDecision (ascii "Files/")) ()) s).result.1.toOption = _ by
      decide +kernel)
  obtain ⟨rest', ht⟩ := exists_finish ⟨1, 1⟩
    (show (Relay.run (produce (stripDecision (ascii "Files/")) ()) t).result.1.toOption = _ by
      decide +kernel)
  have htexts : textsBelow (ascii "Files/") s.remaining = textsBelow (ascii "Files/") t.remaining := by
    decide +kernel
  exact ⟨by decide +kernel, (dropped_leave_no_trace Source.hands Source.hands
    (Source.onlyData_ofBytes _).steady (Source.onlyData_ofBytes _).steady hs ht).1 htexts⟩

end Filter
end ContainerLayer
