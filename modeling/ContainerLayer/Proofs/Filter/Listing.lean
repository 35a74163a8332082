import ContainerLayer.Proofs.Tar.Pax
import ContainerLayer.Proofs.Tar.Reading

/-
Archives read to their end.

`Filter.list` reads every entry of an archive with its content.  An item is an entry as
a decision sees it, with the records that stand in front of it, and its whole content.
The listing does not depend on how the archive is handed out (`reads_list`).
-/

namespace ContainerLayer

open Tar Tape

/-! ## Attributes -/

/-- The extension record that an attribute stands for. -/
def Attribute.record (a : Attribute) : PaxRecord := ⟨Bytes.ofText a.key, a.value⟩

/-- The attribute can be written as a record, which is read back as the attribute. -/
structure Attribute.Proper (a : Attribute) : Prop where
  line : Pax.IsLine a.record
  derived : EntryHeader.isDerived a.record.key = false
  key : Utf8.decode? a.record.key = some a.key

namespace EntryHeader

/-- Attributes are the records that the filter does not work out itself. -/
theorem attributesOf_eq_ok {rs : List (Option PaxRecord)} {as : List Attribute}
    (h : attributesOf rs = .ok as) :
    ∃ records : List PaxRecord, rs = records.map some
      ∧ as.map Attribute.record = records.filter (fun r => !isDerived r.key)
      ∧ ∀ a ∈ as, Utf8.decode? a.record.key = some a.key := by
  induction rs generalizing as with
  | nil =>
    cases h
    exact ⟨[], rfl, rfl, by simp⟩
  | cons r rs ih =>
    cases r with
    | none => cases h
    | some r =>
      unfold attributesOf at h
      split at h
      · cases h
      rename_i key hkey
      obtain ⟨rest, hrest, hgoal⟩ := bind_eq_ok.mp h
      obtain ⟨records, rfl, hmap, hdecode⟩ := ih hrest
      have hr : Attribute.record ⟨key, r.value⟩ = r := by
        rw [Attribute.record, Utf8.ofText_of_decode? hkey]
      have h : (if isDerived r.key then rest else ⟨key, r.value⟩ :: rest) = as :=
        Except.ok.inj hgoal
      refine ⟨r :: records, rfl, ?_⟩
      cases hd : isDerived r.key with
      | true =>
        rw [if_pos hd] at h
        subst h
        exact ⟨by rw [hmap, List.filter_cons_of_neg (by simp [hd])], hdecode⟩
      | false =>
        rw [if_neg (by simp [hd])] at h
        subst h
        refine ⟨by rw [List.map_cons, hr, hmap, List.filter_cons_of_pos (by simp [hd])], ?_⟩
        intro a ha
        rcases List.mem_cons.mp ha with rfl | ha
        · rw [hr]
          exact hkey
        · exact hdecode a ha

theorem proper_of_attributesOf {data : Bytes} {as : List Attribute}
    (h : attributesOf (Pax.records data) = .ok as) : ∀ a ∈ as, a.Proper := by
  obtain ⟨records, hrs, hmap, hdecode⟩ := attributesOf_eq_ok h
  intro a ha
  have hmem : a.record ∈ records.filter (fun r => !isDerived r.key) := by
    rw [← hmap]
    exact List.mem_map_of_mem ha
  obtain ⟨hr, hd⟩ := List.mem_filter.mp hmem
  have hline : some a.record ∈ Pax.records data := by
    rw [hrs]
    exact List.mem_map_of_mem hr
  exact ⟨Pax.isLine_of_mem_records hline, by simpa using hd, hdecode a ha⟩

/-- Records of attributes are read as these attributes. -/
theorem attributesOf_records {as : List Attribute} (h : ∀ a ∈ as, a.Proper) :
    attributesOf ((as.map Attribute.record).map some) = .ok as := by
  induction as with
  | nil => rfl
  | cons a as ih =>
    have ha := h a List.mem_cons_self
    rw [List.map_cons, List.map_cons, attributesOf, ha.key]
    dsimp only
    rw [ih fun b hb => h b (List.mem_cons_of_mem a hb)]
    show Except.ok (if isDerived a.record.key then as else ⟨a.key, a.record.value⟩ :: as) = _
    rw [if_neg (by simp [ha.derived])]
    rfl

theorem numberAmong?_filter {key : Bytes} (hk : isDerived key = false) (rs : List PaxRecord) :
    Pax.numberAmong? key ((rs.filter fun r => !isDerived r.key).map some)
      = Pax.numberAmong? key (rs.map some) := by
  induction rs with
  | nil => rfl
  | cons r rs ih =>
    cases hd : isDerived r.key with
    | true =>
      have hne : r.key ≠ key := by
        intro e
        subst e
        rw [hk] at hd
        cases hd
      rw [List.filter_cons_of_neg (by simp [hd]), List.map_cons, Pax.numberAmong?, if_neg hne, ih]
    | false =>
      rw [List.filter_cons_of_pos (by simp [hd]), List.map_cons, List.map_cons, Pax.numberAmong?,
        Pax.numberAmong?, ih]

/-! ## Entries as decisions see them -/

/-- The entry that a decision sees, going by the records that stand in front of it. -/
def seen (e : Entry) : Except Fault EntryHeader := do
  let attributes ← attributesOf ((e.extensions.map Pax.records).getD [])
  return { path := e.path, linkName := e.linkName, header := e.header, attributes, size := e.size }

/-- The data that the attributes are written as. -/
def extensions (e : EntryHeader) : Bytes := Pax.render (e.attributes.map Attribute.record)

/-- The entry can be written so that reading gives it back. -/
structure Proper (e : EntryHeader) : Prop where
  member : e.header.dialect ≠ .old →
    e.header.kind ≠ .longName ∧ e.header.kind ≠ .longLink ∧ e.header.kind ≠ .extension
  attributes : ∀ a ∈ e.attributes, a.Proper
  target : e.linkName = none → e.header.linkName = none
  adopted : e.header.kind.isAbout = false → e.extensions.length < limit →
    e.header.Adopted e.extensions

theorem records_extensions {e : EntryHeader} (h : ∀ a ∈ e.attributes, a.Proper)
    (hlt : e.extensions.length < limit) :
    Pax.records e.extensions = (e.attributes.map Attribute.record).map some := by
  refine Pax.records_render ?_ hlt
  intro r hr
  obtain ⟨a, ha, rfl⟩ := List.mem_map.mp hr
  exact (h a ha).line

theorem proper_seen {e : Entry} {view : EntryHeader} (hs : e.Sound) (h : seen e = .ok view) :
    view.Proper ∧ view.size = e.size := by
  obtain ⟨as, has, h⟩ := bind_eq_ok.mp h
  have h := (Except.ok.inj h).symm
  subst h
  refine ⟨⟨hs.member, ?_, ?_, ?_⟩, rfl⟩
  · cases hx : e.extensions with
    | none =>
      rw [hx] at has
      cases has
      simp
    | some data =>
      rw [hx] at has
      exact proper_of_attributesOf has
  · intro hl
    have hl : e.linkName = none := hl
    unfold Entry.linkName at hl
    split at hl
    · cases hl
    · exact (Option.or_eq_none_iff.mp hl).2
  · intro hkind hlt
    cases hx : e.extensions with
    | none =>
      rw [hx] at has
      cases has
      constructor <;> exact fun n hn => nomatch hn
    | some data =>
      rw [hx] at has
      have hadopted : e.header.Adopted data := by
        refine hs.adopted data ?_
        rw [recordsFor, hkind, hx]
        rfl
      obtain ⟨records, hrs, hmap, -⟩ := attributesOf_eq_ok has
      have hnumber : ∀ key, isDerived key = false →
          Pax.number? key (Pax.render (as.map Attribute.record)) = Pax.number? key data := by
        intro key hk
        have hback := records_extensions
          (e := ⟨e.path, e.linkName, e.header, as, e.size⟩) (proper_of_attributesOf has) hlt
        have hback : Pax.records (Pax.render (as.map Attribute.record)) = _ := hback
        have hrs : Pax.records data = records.map some := hrs
        rw [Pax.number?, Pax.number?, hback, hrs]
        dsimp only
        rw [hmap, numberAmong?_filter hk]
      constructor
      · intro n hn
        exact hadopted.uid n ((hnumber _ (by decide)).symm.trans hn)
      · intro n hn
        exact hadopted.gid n ((hnumber _ (by decide)).symm.trans hn)

end EntryHeader

namespace Filter

/-- An entry of an archive with its content. -/
structure Item where
  entry : EntryHeader
  content : Bytes

/-- Reads the content of an entry. -/
def readItem (e : Entry) : Tape Item :=
  match EntryHeader.seen e with
  | .error f => throw f
  | .ok entry => do
    let content ← e.content.collect
    if content.length = e.size then return ⟨entry, content⟩
    else throw (Exact.mk (e.size - content.length)).short

/-- Reads the entries from `start` on with their content. -/
def list (start : Nat) : Tape (List Item) := do
  match ← Tar.readEntry start with
  | none => return []
  | some e => do
    let item ← readItem e.1
    have := e.2.1
    have := e.2.2
    let items ← list e.1.next
    return item :: items
termination_by limit - start
decreasing_by omega

/-- The archive can be read to its end, and these are its entries. -/
def Lists {σ : Type} [Reader σ] (s : σ) (items : List Item) : Prop :=
  ∃ position, (Relay.run ((list 0).run 0) s).result = .ok (items, position)

theorem reads_readItem (e : Entry) : Reads (fun _ => True) (readItem e) := by
  unfold readItem
  split
  · exact reads_throw _
  · refine (Content.reads_collect e.content).bind fun content _ => ?_
    split
    · exact reads_pure trivial
    · exact reads_throw _

theorem reads_list (start : Nat) : Reads (fun _ => True) (list start) := by
  induction hd : limit - start using Nat.strongRecOn generalizing start with
  | ind d ih =>
    rw [list]
    refine (reads_readEntry start).bind fun r _ => ?_
    cases r with
    | none => exact reads_pure trivial
    | some e =>
      refine (reads_readItem e.1).bind fun item _ => ?_
      have h₁ := e.2.1
      have h₂ := e.2.2
      exact (ih _ (by omega) _ rfl).bind fun items _ => reads_pure trivial

end Filter
end ContainerLayer
