import ContainerLayer.Proofs.Filter.Transcript
import ContainerLayer.Proofs.Tar.Rewriting
import ContainerLayer.Proofs.Tar.Sparse
import Mathlib.Data.List.Forall2

/-
Renderings read back.

What was written for an entry is a member with what stands in front of it
(`EntryHeader.Rendered.placed`).  It is found as an entry with the same records and the same
content, under names that are the same up to their spelling, unless its header has the map of
a sparse file with holes: then nothing is found there.
-/

namespace ContainerLayer

open Tar Tape Tar.Header

/-! ## Records -/

namespace EntryHeader

/-- The records that stand in front of an entry that was written. -/
def front (e : EntryHeader) : Option Bytes := if e.attributes = [] then none else some e.extensions

theorem key_ne_of_derived {e : EntryHeader} (he : ∀ a ∈ e.attributes, a.Proper) {key : Bytes}
    (hk : isDerived key = true) : ∀ r ∈ e.attributes.map Attribute.record, r.key ≠ key := by
  rintro r hr rfl
  obtain ⟨a, ha, rfl⟩ := List.mem_map.mp hr
  rw [(he a ha).derived] at hk
  cases hk

variable {e : EntryHeader} (he : e.Proper) (hlt : e.extensions.length < limit)

include he hlt in
theorem attributesOf_front :
    attributesOf ((e.front.map Pax.records).getD []) = .ok e.attributes := by
  unfold front
  split
  · rename_i hnil
    rw [hnil]
    rfl
  · show attributesOf (Pax.records e.extensions) = _
    rw [records_extensions he.attributes hlt]
    exact attributesOf_records he.attributes

include he hlt in
theorem value?_front {key : Bytes} (hk : isDerived key = true) :
    e.front.bind (Pax.value? key) = none := by
  unfold front
  split
  · rfl
  · exact Pax.value?_eq_none (records_extensions he.attributes hlt)
      (key_ne_of_derived he.attributes hk)

include he hlt in
theorem number?_front {key : Bytes} (hk : isDerived key = true) :
    ∀ data, e.front = some data → Pax.number? key data = none := by
  intro data hdata
  unfold front at hdata
  split at hdata
  · cases hdata
  · cases hdata
    rw [Pax.number?, records_extensions he.attributes hlt]
    exact Pax.numberAmong?_eq_none (key_ne_of_derived he.attributes hk)

include hlt in
/-- The member for the attributes is taken in. -/
theorem passes_extensionBytes :
    ({} : Preface).Passes e.extensionBytes { extensions := e.front } := by
  unfold extensionBytes front
  split
  · exact Preface.passes_nil _
  · exact (Preface.Takes.extension rfl).passes (kind_extensionHeader _) (good_extensionHeader hlt)
      (dialect_extensionHeader _)

end EntryHeader

/-! ## Headers -/

namespace EntryHeader

/-- The fields of a header that are set when its entry is written. -/
def setFields (e : EntryHeader) : List Field :=
  .size :: .linkName :: .checksum :: pathFields e.header.dialect

theorem apart_setFields (e : EntryHeader) {f : Field}
    (hf : ∀ g ∈ [Field.size, .linkName, .checksum, .name, .front], f.Apart g) :
    ∀ g ∈ e.setFields, f.Apart g := by
  have hpath := apart_pathFields (hf .name (by simp)) (hf .front (by simp)) e.header.dialect
  unfold setFields
  simp only [List.mem_cons] at hf ⊢
  intro g h
  obtain rfl | rfl | rfl | hg := h
  · exact hf _ (by simp)
  · exact hf _ (by simp)
  · exact hf _ (by simp)
  · exact hpath g hg

variable {e : EntryHeader} {f : Header} {n : Nat}

/-- What is read from the names that are written for the entry is written in the same way: they
leave the front field of a ustar header alone, which is empty, and the target of a link is not the
root without a slash at its end, which is written with one. -/
structure Settled (e : EntryHeader) : Prop where
  front : e.header.dialect = .ustar → (e.header.get .front).untilZero = []
  short : e.header.dialect = .ustar → e.path.length ≤ 100
  target : e.isLink = true → ∀ t, e.linkName = some t → Path.components t = [.root] →
    Path.endsWithSlash t = true

/-- A header that was written for an entry with `n` bytes of content. -/
structure Written (e : EntryHeader) (n : Nat) (f : Header) : Prop where
  good : f.Good n
  same : SameBut e.setFields e.header f

theorem Written.kind (hw : e.Written n f) : f.kind = e.header.kind :=
  hw.same.kind (e.apart_setFields (by decide))

/-- The header is read as it is behind the records of the entry. -/
theorem Written.fits (hw : e.Written n f) (he : e.Proper) (hlt : e.extensions.length < limit) :
    f.Fits n e.front := by
  have hrecords : ∀ data, recordsFor e.front f = some data →
      e.front = some data ∧ e.header.kind.isAbout = false ∧ data = e.extensions := by
    intro data hdata
    unfold recordsFor at hdata
    rw [hw.kind] at hdata
    split at hdata
    · cases hdata
    rename_i hk
    refine ⟨hdata, by simpa using hk, ?_⟩
    unfold front at hdata
    split at hdata
    · cases hdata
    · exact (Option.some.inj hdata).symm
  refine ⟨hw.good, ?_, ?_⟩
  · intro data hdata
    obtain ⟨-, hk, rfl⟩ := hrecords data hdata
    have ha := he.adopted hk hlt
    constructor
    · intro n hn
      rw [hw.same .uid (e.apart_setFields (by decide))]
      exact ha.uid n hn
    · intro n hn
      rw [hw.same .gid (e.apart_setFields (by decide))]
      exact ha.gid n hn
  · intro data hdata
    exact number?_front he hlt (by decide) data (hrecords data hdata).1

theorem written_of_same {h : Header} (hn : n < limit)
    (hs : SameBut (.linkName :: pathFields e.header.dialect) (e.header.setSize n) h) :
    e.Written n h.setChecksum := by
  constructor
  · refine good_setChecksum hn ?_
    rw [hs .size ?_]
    · exact e.header.get_setSize n
    · intro g hg
      rcases List.mem_cons.mp hg with rfl | hg
      · decide
      · exact apart_pathFields (by decide) (by decide) _ g hg
  · have hsize : SameBut e.setFields e.header (e.header.setSize n) :=
      sameBut_put List.mem_cons_self _ _
    have hnames : SameBut e.setFields (e.header.setSize n) h := by
      refine hs.mono fun g hg => ?_
      unfold setFields
      grind
    exact (hsize.trans hnames).trans (sameBut_setChecksum (by simp [setFields]) h)

end EntryHeader

/-! ## Entries -/

namespace Filter

/-- The second item is the first as it comes back from an archive.  Names are the same up to
their spelling, and a link with a target has no content. -/
structure Item.Faithful (x y : Item) : Prop where
  path : Path.Alike x.entry.path y.entry.path
  target : x.entry.isLink = true → Option.Rel SameTarget x.entry.linkName y.entry.linkName
  fields : SameBut x.entry.setFields x.entry.header y.entry.header
  attributes : y.entry.attributes = x.entry.attributes
  content : y.content
    = if x.entry.isLink = true ∧ x.entry.linkName.isSome = true then [] else x.content
  size : y.entry.size = y.content.length

/-- The second item is the first as it comes back from an archive, where its path may stand
behind the front of its header. -/
structure Item.Carried (x y : Item) : Prop where
  path : x.entry.header.ComesAs x.entry.path y.entry.path
  target : x.entry.isLink = true → Option.Rel SameTarget x.entry.linkName y.entry.linkName
  fields : SameBut x.entry.setFields x.entry.header y.entry.header
  attributes : y.entry.attributes = x.entry.attributes
  content : y.content
    = if x.entry.isLink = true ∧ x.entry.linkName.isSome = true then [] else x.content
  size : y.entry.size = y.content.length

theorem Item.Carried.faithful {x y : Item} (h : x.Carried y)
    (hf : x.entry.header.dialect = .ustar → (x.entry.header.get .front).untilZero = []) :
    x.Faithful y :=
  ⟨h.path.alike_of_front_eq_nil hf, h.target, h.fields, h.attributes, h.content, h.size⟩

variable {e : EntryHeader}

/-- An entry with the records of `e` in front of it is seen with these. -/
theorem seen_entry {x : Entry} (he : e.Proper) (hlt : e.extensions.length < limit)
    (hx : x.extensions = e.front) :
    EntryHeader.seen x = .ok ⟨pathOf x.longName x.header, linkNameOf x.longLink x.header, x.header,
      e.attributes, x.size⟩ := by
  have hpath := EntryHeader.value?_front he hlt
    (show EntryHeader.isDerived Pax.pathKey = true by decide)
  have hlink :=
    EntryHeader.value?_front he hlt (show EntryHeader.isDerived Pax.linkPathKey = true by decide)
  rw [EntryHeader.seen, hx, EntryHeader.attributesOf_front he hlt]
  show Except.ok _ = Except.ok _
  congr 2
  · unfold Entry.path pathOf
    cases x.longName with
    | none =>
      show (x.extensions.bind (Pax.value? Pax.pathKey)).getD x.header.path = _
      rw [hx, hpath]
      rfl
    | some b => rfl
  · unfold Entry.linkName linkNameOf
    cases x.longLink with
    | none =>
      show (x.extensions.bind (Pax.value? Pax.linkPathKey)).or x.header.linkName = _
      rw [hx, hlink]
      rfl
    | some b => rfl

/-- Reading at `start` comes to the item, and at `stop` the archive goes on with `rest`. -/
def Finds (c : Spot Whole) (start : Nat) (item : Item) (stop : Nat) (rest : Bytes) : Prop :=
  ∃ (x : { x : Entry // Behind start x.next }) (d c' : Spot Whole),
    (Tar.readEntry start).Plays c (some x) d [] ∧ (readItem x.1).Plays d item c' []
      ∧ x.1.next = stop ∧ Ahead c' stop rest

theorem length_extensions_le (e : EntryHeader) : e.extensions.length ≤ e.extensionBytes.length := by
  unfold EntryHeader.extensionBytes
  split
  · rename_i hnil
    rw [EntryHeader.extensions, hnil]
    exact Nat.le_refl 0
  · rw [length_memberBytes]
    omega

/-! ### The path of an entry -/

section Path

variable {n : Nat} {h : Header} {o : Bytes} (hp : PathWritten (e.header.setSize n) e.path h o)

theorem sameBut_setSize (e : EntryHeader) (n : Nat) :
    SameBut [.size] e.header (e.header.setSize n) := sameBut_put List.mem_cons_self _ _

include hp in
theorem sameBut_path : SameBut (pathFields e.header.dialect) (e.header.setSize n) h := by
  have hsame := hp.same
  rw [(sameBut_setSize e n).dialect (by decide)] at hsame
  exact hsame

include hp in
theorem passes_path (hl : (e.extensionBytes ++ o).length < limit) :
    ({} : Preface).Passes (e.extensionBytes ++ o)
        { longName := longOf e.path o, extensions := e.front }
      ∧ e.header.ComesAs e.path (pathOf (longOf e.path o) h) := by
  have hext := length_extensions_le e
  rw [List.length_append] at hl
  obtain ⟨hpasses, hcomes⟩ := hp.passes (by omega) (p := { extensions := e.front }) rfl
  exact ⟨(EntryHeader.passes_extensionBytes (by omega)).trans hpasses,
    hcomes.of_same (sameBut_setSize e n) (by decide)⟩

include hp in
/-- The header takes its size and the path that is read from it, and stays as it is. -/
theorem path_again (hs : e.Settled) {f : Header} {fs : List Field} (hsame : SameBut fs h f)
    (hfs : ∀ g ∈ [Field.magic, .name, .front, .size], ∀ x ∈ fs, g.Apart x) :
    PathWritten (f.setSize n) (pathOf (longOf e.path o) f) f o := by
  have hsize : f.get .size = Number.toField 12 n := by
    rw [hsame .size (hfs _ (by simp)),
      sameBut_path hp .size (apart_pathFields (by decide) (by decide) _)]
    exact e.header.get_setSize n
  have hd := (sameBut_setSize e n).dialect (by decide)
  rw [setSize_of_get hsize]
  refine hp.again hsame (fun g hg => hfs g ?_) ?_ ?_
  · simp only [List.mem_cons] at hg ⊢
    tauto
  · rw [hd, sameBut_setSize e n .front (by decide)]
    exact hs.front
  · rw [hd]
    exact hs.short

end Path

/-! ### Whole entries -/

/-- The entry that is seen for the header `f` with `p` in front of it. -/
def viewOf (p : Preface) (f : Header) (attributes : List Attribute) (size : Nat) : EntryHeader :=
  ⟨pathOf p.longName f, linkNameOf p.longLink f, f, attributes, size⟩

/-- A header that has its checksum is written as it is. -/
theorem rendered_plain {content : Bytes} {f : Header} {o : Bytes} (hf : f.setChecksum = f)
    (kind : e.isLink = true → e.linkName = none)
    (path : PathWritten (e.header.setSize e.size) e.path f o) :
    e.Rendered content (e.extensionBytes ++ o ++ memberBytes f content) := by
  have hr : e.Rendered content _ := .plain kind path
  rwa [hf, ← List.append_assoc] at hr

theorem rendered_link {content : Bytes} {f h : Header} {target o₁ o₂ : Bytes}
    (hf : f.setChecksum = f) (kind : e.isLink = true) (name : e.linkName = some target)
    (path : PathWritten (e.header.setSize 0) e.path h o₁) (link : LinkWritten h target f o₂) :
    e.Rendered content (e.extensionBytes ++ o₁ ++ o₂ ++ memberBytes f []) := by
  have hr : e.Rendered content _ := .link kind name path link
  rwa [hf, ← List.append_assoc, ← List.append_assoc, ← memberBytes_nil] at hr

/-- The entry `e` with the given content was written as the header `f` with `b` behind it, and
with `o` in front of it. -/
structure Placed (e : EntryHeader) (content o : Bytes) (f : Header) (b : Bytes)
    (p : Preface) : Prop where
  extensions : p.extensions = e.front
  short : e.extensions.length < limit
  passes : ({} : Preface).Passes o p
  fits : f.Fits b.length e.front
  carried : Item.Carried ⟨e, content⟩ ⟨viewOf p f e.attributes b.length, b⟩
  again : e.Settled → (viewOf p f e.attributes b.length).Rendered b (o ++ memberBytes f b)

section Rendered

variable {content : Bytes} (he : e.Proper)

include he in
theorem placed_plain {h : Header} {o : Bytes} (hkind : e.isLink = true → e.linkName = none)
    (hpath : PathWritten (e.header.setSize e.size) e.path h o) (hn : content.length = e.size)
    (hl : (e.extensionBytes ++ o ++ memberBytes h.setChecksum content).length < limit) :
    ∃ p, Placed e content (e.extensionBytes ++ o) h.setChecksum content p := by
  have hcheck : SameBut [.checksum] h h.setChecksum := sameBut_setChecksum List.mem_cons_self _
  have hblock := length_memberBytes h.setChecksum content
  have hext := length_extensions_le e
  have hfront : (e.extensionBytes ++ o).length = e.extensionBytes.length + o.length :=
    List.length_append
  rw [List.length_append] at hl
  obtain ⟨hpasses, hcomes⟩ := passes_path hpath (by omega)
  have hw : e.Written content.length h.setChecksum := by
    rw [hn]
    exact EntryHeader.written_of_same (by omega)
      ((sameBut_path hpath).mono (List.subset_cons_self _ _))
  have hnone : e.isLink = true → h.setChecksum.linkName = none := by
    intro hk
    rw [hcheck.linkName (by decide),
      (sameBut_path hpath).linkName (apart_pathFields (by decide) (by decide) _),
      (sameBut_setSize e _).linkName (by decide), he.target (hkind hk)]
  refine ⟨_, rfl, by omega, hpasses, hw.fits he (by omega),
    ⟨?_, ?_, hw.same, rfl, ?_, rfl⟩, fun hs => ?_⟩
  · show e.header.ComesAs e.path (pathOf (longOf e.path o) h.setChecksum)
    rw [pathOf, hcheck.path (by decide)]
    exact hcomes
  · intro hk
    show Option.Rel SameTarget e.linkName h.setChecksum.linkName
    rw [hkind hk, hnone hk]
    exact .none
  · show content = _
    rw [if_neg]
    intro h
    obtain ⟨hk, hsome⟩ := h
    have hk : e.isLink = true := hk
    have hsome : e.linkName.isSome = true := hsome
    rw [hkind hk] at hsome
    cases hsome
  · have hkind' : h.setChecksum.kind = e.header.kind := hw.kind
    rw [← hn] at hpath
    exact rendered_plain h.setChecksum_setChecksum
      (fun hk => hnone ((congrArg EntryKind.isLink hkind').symm.trans hk))
      (path_again hpath hs hcheck (by decide))

include he in
theorem placed_link {h₁ h₂ : Header} {target o₁ o₂ : Bytes} (hkind : e.isLink = true)
    (hname : e.linkName = some target)
    (hpath : PathWritten (e.header.setSize 0) e.path h₁ o₁) (hlink : LinkWritten h₁ target h₂ o₂)
    (hl : (e.extensionBytes ++ o₁ ++ o₂ ++ memberBytes h₂.setChecksum []).length < limit) :
    ∃ p, Placed e content (e.extensionBytes ++ o₁ ++ o₂) h₂.setChecksum [] p := by
  have hcheck : SameBut [.checksum] h₂ h₂.setChecksum := sameBut_setChecksum List.mem_cons_self _
  have hext := length_extensions_le e
  have hfront : (e.extensionBytes ++ o₁).length = e.extensionBytes.length + o₁.length :=
    List.length_append
  rw [List.length_append, List.length_append] at hl
  obtain ⟨hpasses₁, hcomes⟩ := passes_path hpath (by omega)
  obtain ⟨hpasses₂, text, htext, htarget⟩ := hlink.passes (by omega)
    (p := { longName := longOf e.path o₁, extensions := e.front }) rfl
  have hw : e.Written 0 h₂.setChecksum :=
    EntryHeader.written_of_same (by decide)
      (((sameBut_path hpath).mono (List.subset_cons_self _ _)).trans (hlink.same.mono (by simp)))
  refine ⟨_, rfl, by omega, hpasses₁.trans hpasses₂, hw.fits he (by omega),
    ⟨?_, ?_, hw.same, rfl, ?_, rfl⟩, fun hs => ?_⟩
  · show e.header.ComesAs e.path (pathOf (longOf e.path o₁) h₂.setChecksum)
    rw [pathOf, hcheck.path (by decide), hlink.same.path (by decide)]
    exact hcomes
  · intro _
    show Option.Rel SameTarget e.linkName (linkNameOf (longOf target o₂) h₂.setChecksum)
    rw [linkNameOf] at htext ⊢
    rw [hcheck.linkName (by decide), hname, htext]
    exact .some htarget
  · show [] = _
    have hsome : e.linkName.isSome = true := by rw [hname]; rfl
    rw [if_pos ⟨hkind, hsome⟩]
  · have hkind' : h₂.setChecksum.kind = e.header.kind := hw.kind
    obtain ⟨text', htext', hlink'⟩ := hlink.again (hcheck .linkName (by decide))
      (hs.target hkind target hname)
    have hsame : SameBut [.linkName, .checksum] h₁ h₂.setChecksum :=
      (hlink.same.mono (by simp)).trans (hcheck.mono (by simp))
    exact rendered_link h₂.setChecksum_setChecksum
      ((congrArg EntryKind.isLink hkind').trans hkind) htext'
      (path_again hpath hs hsame (by decide)) hlink'

include he in
/-- What is written for an entry is a member with what stands in front of it. -/
theorem rendered_placed {out : Bytes} (hr : e.Rendered content out) (hn : content.length = e.size)
    (hl : out.length < limit) :
    ∃ o f b p, out = o ++ memberBytes f b ∧ Placed e content o f b p := by
  cases hr with
  | plain hkind hpath =>
    rw [← List.append_assoc] at hl ⊢
    obtain ⟨p, hp⟩ := placed_plain he hkind hpath hn hl
    exact ⟨_, _, _, p, rfl, hp⟩
  | link hkind hname hpath hlink =>
    rw [← List.append_assoc, ← List.append_assoc, ← memberBytes_nil] at hl ⊢
    obtain ⟨p, hp⟩ := placed_link he hkind hname hpath hlink hl
    exact ⟨_, _, _, p, rfl, hp⟩

end Rendered

section Placed

variable {content o b rest : Bytes} {f : Header} {p : Preface} {c : Spot Whole} {start : Nat}
variable (he : e.Proper) (hp : Placed e content o f b p)

include hp

theorem Placed.kind : f.kind = e.header.kind :=
  hp.carried.fields.kind (e.apart_setFields (by decide))

/-- A sparse file keeps its map. -/
theorem Placed.sameMap (hd : e.header.dialect = .gnu) : e.header.SameMap f := by
  have hfields : e.setFields = [.size, .linkName, .checksum, .name] := by
    rw [EntryHeader.setFields, pathFields, hd]
    rfl
  intro g hg
  refine hp.carried.fields g ?_
  rw [hfields]
  revert g
  decide

/-- A sparse file has its whole length behind its header. -/
theorem Placed.length_of_sparse (hn : content.length = e.size) (hk : e.header.kind = .sparse) :
    b.length = e.size := by
  have hcontent : b = if e.isLink = true ∧ e.linkName.isSome = true then [] else content :=
    hp.carried.content
  have hlink : e.isLink = false := by
    rw [EntryHeader.isLink, hk]
    rfl
  rw [hcontent, hlink, if_neg (by simp), hn]

include he in
/-- Reading comes to the header, and goes on as its map says. -/
theorem Placed.comes_iff (ha : Ahead c start (o ++ memberBytes f b ++ rest))
    (hl : start + (o ++ memberBytes f b).length < limit) :
    ∃ h : Behind (start + o.length) (start + (o ++ memberBytes f b).length), ∀ r d,
      ({} : Preface).Comes start c r d ↔
        ∃ x, (readSparse (start + o.length)
            ⟨p.entry f b.length (start + (o ++ memberBytes f b).length), h⟩).Plays
          ⟨start + o.length + 512, ⟨b ++ (Bytes.padding b.length ++ rest)⟩⟩ x d []
          ∧ some x.1 = r := by
  have hnext : start + (o ++ memberBytes f b).length
      = start + o.length + 512 + (b.length + 511) / 512 * 512 := by
    rw [List.length_append, length_memberBytes]
    omega
  have hmember : f.dialect ≠ .old →
      f.kind ≠ .longName ∧ f.kind ≠ .longLink ∧ f.kind ≠ .extension := by
    rw [hp.kind, show f.dialect = e.header.dialect from
      hp.carried.fields.dialect (e.apart_setFields (by decide))]
    exact he.member
  have hfits : f.Fits b.length p.extensions := by
    rw [hp.extensions]
    exact hp.fits
  rw [hnext] at hl ⊢
  rw [List.append_assoc] at ha
  obtain ⟨c₁, ha₁, hcomes⟩ := hp.passes start c _ ha (by omega)
  rw [memberBytes, List.append_assoc, List.append_assoc] at ha₁
  obtain ⟨h, hentry⟩ := Preface.comes_entry_iff hfits hmember ha₁ hl
  exact ⟨h, fun r d => (hcomes r d).trans (hentry r d)⟩

end Placed

section Rendered

variable {content rest out : Bytes} {c : Spot Whole} {start : Nat} (he : e.Proper)
variable (hr : e.Rendered content out) (hn : content.length = e.size)
variable (ha : Ahead c start (out ++ rest)) (hl : start + out.length < limit)

include he hr hn ha hl

/-- What was written for an entry is found as the entry, and if its names are settled, what is
found is written in the same way. -/
theorem rendered_found (hs : e.header.kind = .sparse → e.header.Solid e.size) :
    ∃ item, Finds c start item (start + out.length) rest ∧ Item.Carried ⟨e, content⟩ item
      ∧ (e.Settled → item.entry.Rendered item.content out) := by
  obtain ⟨o, f, b, p, rfl, hp⟩ := rendered_placed he hr hn (by omega)
  obtain ⟨h, hcomes⟩ := hp.comes_iff he ha hl
  have hsolid : f.kind = .sparse → f.Solid b.length := by
    rw [hp.kind]
    intro hk
    rw [hp.length_of_sparse hn hk]
    exact (hp.sameMap (hs hk).dialect).solid (hs hk)
  obtain ⟨segments, hsparse, hexpand⟩ :=
    readSparse_plays_of_solid (e := p.entry f b.length (start + (o ++ memberBytes f b).length))
      (h := h) (n := b.length) rfl rfl hsolid
      (c := ⟨start + o.length + 512, ⟨b ++ (Bytes.padding b.length ++ rest)⟩⟩)
  obtain ⟨hbehind, hplays⟩ := ((hcomes _ _).mpr ⟨_, hsparse, rfl⟩).exists_plays
  obtain ⟨position, hcollect, hposition⟩ := Content.collect_plays segments
    (start + o.length + 512) (b ++ (Bytes.padding b.length ++ rest))
  rw [hexpand b _ rfl] at hcollect hposition
  refine ⟨_, ⟨⟨_, hbehind⟩, _, _, hplays,
    readItem_plays (seen_entry he hp.short hp.extensions) rfl hcollect, rfl,
    Bytes.padding b.length, rfl, ?_⟩, hp.carried, hp.again⟩
  have hpad := Bytes.length_padding b.length
  show position + (Bytes.padding b.length).length = start + (o ++ memberBytes f b).length
  rw [List.length_append, length_memberBytes]
  simp only [List.length_append] at hposition
  omega

/-- Nothing is found for a sparse file with holes. -/
theorem rendered_lost (hk : e.header.kind = .sparse) (hg : e.header.Gapped e.size)
    {r : Option { x : Entry // Behind start x.next }} {d : Spot Whole} {o : Bytes} :
    ¬ (Tar.readEntry start).Plays c r d o := by
  intro hplays
  obtain ⟨o, f, b, p, rfl, hp⟩ := rendered_placed he hr hn (by omega)
  obtain ⟨h, hcomes⟩ := hp.comes_iff he ha hl
  obtain ⟨-, rfl⟩ := (reads_readEntry start).gets.of_plays hplays
  obtain ⟨x, hsparse, -⟩ := (hcomes _ d).mp ⟨r, hplays, rfl⟩
  have hg : f.Gapped b.length := by
    rw [hp.length_of_sparse hn hk]
    exact (hp.sameMap hg.dialect).gapped hg
  exact not_readSparse_plays (hp.kind.trans hk) rfl hg hsparse

end Rendered

/-! ### Renderings one behind the other -/

/-- The item, if it is a sparse file, has no holes. -/
def Item.Solid (x : Item) : Prop :=
  x.entry.header.kind = .sparse → x.entry.header.Solid x.entry.size

instance (x : Item) : Decidable x.Solid := inferInstanceAs (Decidable (_ → _))

/-- The item is a sparse file with holes. -/
structure Item.Gapped (x : Item) : Prop where
  kind : x.entry.header.kind = .sparse
  map : x.entry.header.Gapped x.entry.size

section RenderedAll

variable {xs front : List Item} {out rest : Bytes} {c : Spot Whole} {start : Nat}

theorem lists_iff_plays {archive : Bytes} {items : List Item} :
    Lists (⟨archive⟩ : Whole) items ↔
      ∃ d, (list 0).Plays (⟨0, ⟨archive⟩⟩ : Spot Whole) items d [] := by
  constructor
  · intro h
    obtain ⟨position, h⟩ := h
    have hp : (list 0).Plays (⟨0, ⟨archive⟩⟩ : Spot Whole) items ⟨position, _⟩ _ := ⟨h, rfl, rfl⟩
    have hnil := ((reads_list 0).gets.of_plays hp).2
    exact ⟨_, hnil ▸ hp⟩
  · rintro ⟨d, hp⟩
    exact ⟨d.position, hp.1⟩

/-- Behind the item that is found at `start`, listing goes on at `stop`. -/
theorem Finds.list_plays_iff {item : Item} {stop : Nat} (hf : Finds c start item stop rest) :
    ∃ c', Ahead c' stop rest ∧ ∀ items d,
      (list start).Plays c items d [] ↔
        ∃ later, items = item :: later ∧ (list stop).Plays c' later d [] := by
  obtain ⟨x, d, c', hentry, hitem, rfl, hahead⟩ := hf
  refine ⟨c', hahead, fun items d => ?_⟩
  rw [list, hentry.bind_iff]
  dsimp only
  rw [hitem.bind_iff]
  constructor
  · intro hp
    obtain ⟨later, c₁, o₁, o₂, h₁, h₂, ho⟩ := plays_bind_iff.mp hp
    obtain ⟨rfl, rfl, rfl⟩ := plays_pure_iff.mp h₂
    obtain ⟨rfl, -⟩ := List.append_eq_nil_iff.mp ho.symm
    exact ⟨later, rfl, h₁⟩
  · rintro ⟨later, rfl, hp⟩
    exact hp.bind_nil (plays_pure _ _)

/-- The renderings in front are read as the items that were written, if these have no holes, and
listing goes on behind them. -/
theorem renderedAll_carried (hr : RenderedAll (front ++ xs) out)
    (hx : ∀ x ∈ front, x.Proper ∧ x.Solid) (ha : Ahead c start (out ++ rest))
    (hl : start + out.length < limit) :
    ∃ ys later c' stop, RenderedAll xs later ∧ Ahead c' stop (later ++ rest)
      ∧ stop + later.length < limit ∧ List.Forall₂ Item.Carried front ys
      ∧ ∀ items d, (list start).Plays c items d [] ↔
        ∃ items', items = ys ++ items' ∧ (list stop).Plays c' items' d [] := by
  induction front generalizing out c start with
  | nil => exact ⟨[], out, c, start, hr, ha, hl, .nil, fun items d => by simp⟩
  | cons x front ih =>
    obtain ⟨o, out, h, hs, rfl⟩ : ∃ o out', x.entry.Rendered x.content o
        ∧ RenderedAll (front ++ xs) out' ∧ out = o ++ out' := by
      cases hr with
      | cons h hs => exact ⟨_, _, h, hs, rfl⟩
    obtain ⟨hproper, hsolid⟩ := hx x List.mem_cons_self
    rw [List.append_assoc] at ha
    rw [List.length_append] at hl
    obtain ⟨y, hfinds, hy, -⟩ :=
      rendered_found hproper.entry h hproper.length ha (by omega) hsolid
    obtain ⟨c₁, ha₁, hfirst⟩ := hfinds.list_plays_iff
    obtain ⟨ys, later, c', stop, hlater, hahead, hlimit, hys, hrest⟩ :=
      ih hs (fun z hz => hx z (List.mem_cons_of_mem x hz)) ha₁ (by omega)
    refine ⟨y :: ys, later, c', stop, hlater, hahead, hlimit, .cons hy hys, fun items d => ?_⟩
    rw [hfirst]
    constructor
    · rintro ⟨items, rfl, hp⟩
      obtain ⟨items', rfl, hp'⟩ := (hrest _ _).mp hp
      exact ⟨items', rfl, hp'⟩
    · rintro ⟨items', rfl, hp⟩
      exact ⟨_, rfl, (hrest _ _).mpr ⟨items', rfl, hp⟩⟩

/-- A trailer ends the archive. -/
theorem readEntry_plays_trailer (ha : Ahead c start trailer) :
    ∃ d, (readEntry start).Plays c none d [] := by
  have htrailer : trailer = List.replicate 512 0 ++ List.replicate 512 0 := by
    rw [List.replicate_append_replicate]
    rfl
  rw [htrailer] at ha
  exact ⟨_, readEntry_plays_none ha⟩

theorem list_plays_trailer (ha : Ahead c start trailer) : ∃ d, (list start).Plays c [] d [] := by
  obtain ⟨d, hend⟩ := readEntry_plays_trailer ha
  rw [list]
  exact ⟨d, hend.bind_nil (plays_pure _ _)⟩

/-- Renderings with a trailer behind them are read as the items that were written. -/
theorem renderedAll_listed (hr : RenderedAll xs out) (hx : ∀ x ∈ xs, x.Proper ∧ x.Solid)
    (ha : Ahead c start (out ++ trailer)) (hl : start + out.length < limit) :
    ∃ ys d, (list start).Plays c ys d [] ∧ List.Forall₂ Item.Carried xs ys := by
  rw [← List.append_nil xs] at hr
  obtain ⟨ys, later, c', stop, hlater, hahead, -, hys, hiff⟩ := renderedAll_carried hr hx ha hl
  cases hlater
  obtain ⟨d, hend⟩ := list_plays_trailer hahead
  exact ⟨ys, d, (hiff ys d).mpr ⟨[], (List.append_nil ys).symm, hend⟩, hys⟩

/-- Renderings are not read to their end if there is a sparse file with holes among them, behind
items without. -/
theorem renderedAll_lost {x : Item} (hr : RenderedAll (front ++ x :: xs) out)
    (hx : ∀ x ∈ front, x.Proper ∧ x.Solid) (hproper : x.Proper) (hgap : x.Gapped)
    (ha : Ahead c start (out ++ rest)) (hl : start + out.length < limit) {items : List Item}
    {d : Spot Whole} : ¬ (list start).Plays c items d [] := by
  intro hp
  obtain ⟨ys, later, c', stop, hlater, hahead, hlimit, -, hiff⟩ := renderedAll_carried hr hx ha hl
  obtain ⟨items', -, hp⟩ := (hiff items d).mp hp
  cases hlater with
  | cons h hs =>
    rw [List.append_assoc] at hahead
    rw [List.length_append] at hlimit
    rw [list] at hp
    obtain ⟨r, c₁, o₁, o₂, h₁, -, -⟩ := plays_bind_iff.mp hp
    exact rendered_lost hproper.entry h hproper.length hahead (by omega) hgap.kind hgap.map h₁

end RenderedAll

end Filter
end ContainerLayer
