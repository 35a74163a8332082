import ContainerLayer.Proofs.Filter.Listing
import ContainerLayer.Proofs.Tar.Writing

/-
What the filter writes for an entry.

A rendering is made of members for what does not go into the header, the header block,
and the content where there is any.  Whatever is kept, and whatever reader its content
comes from, what is written is a rendering (`append_plays`).
-/

namespace ContainerLayer
namespace EntryHeader

open Tar Tape

/-- The member for the attributes, if there are any. -/
def extensionBytes (e : EntryHeader) : Bytes :=
  if e.attributes = [] then [] else memberBytes (extensionHeader e.extensions.length) e.extensions

/-- What is written for an entry with the given content. -/
inductive Rendered (e : EntryHeader) (content : Bytes) : Bytes → Prop
  | link {target : Bytes} {h₁ h₂ : Header} {o₁ o₂ : Bytes} (kind : e.isLink = true)
      (name : e.linkName = some target) (path : PathWritten (e.header.setSize 0) e.path h₁ o₁)
      (written : LinkWritten h₁ target h₂ o₂) :
      Rendered e content (e.extensionBytes ++ (o₁ ++ (o₂ ++ h₂.setChecksum.bytes)))
  | plain {h : Header} {o : Bytes} (kind : e.isLink = true → e.linkName = none)
      (path : PathWritten (e.header.setSize e.size) e.path h o) :
      Rendered e content (e.extensionBytes ++ (o ++ memberBytes h.setChecksum content))

/-- There is one way to write an entry. -/
theorem Rendered.det {e : EntryHeader} {content out out' : Bytes} (h : e.Rendered content out)
    (h' : e.Rendered content out') : out = out' := by
  cases h with
  | link kind name path written =>
    cases h' with
    | link kind' name' path' written' =>
      cases name.symm.trans name'
      obtain ⟨rfl, rfl⟩ := path.det path'
      obtain ⟨rfl, rfl⟩ := written.det written'
      rfl
    | plain kind' path' => cases name.symm.trans (kind' kind)
  | plain kind path =>
    cases h' with
    | link kind' name' path' written' => cases name'.symm.trans (kind kind')
    | plain kind' path' =>
      obtain ⟨rfl, rfl⟩ := path.det path'
      rfl

theorem length_extensionBytes (e : EntryHeader) : e.extensionBytes.length % 512 = 0 := by
  unfold extensionBytes
  split
  · rfl
  · exact aligned_memberBytes _ _

theorem Rendered.aligned {e : EntryHeader} {content out : Bytes} (h : e.Rendered content out) :
    out.length % 512 = 0 := by
  have hext := e.length_extensionBytes
  have hpath : ∀ {h h' : Header} {path o : Bytes}, PathWritten h path h' o → o.length % 512 = 0 := by
    intro h h' path o hp
    cases hp with
    | whole e => rfl
    | cut e _ e' => exact aligned_memberBytes _ _
  cases h with
  | link kind name path written =>
    rename_i target h₁ h₂ o₁ o₂
    have hblock := h₂.setChecksum.length_eq
    have hname := hpath path
    have htarget : o₂.length % 512 = 0 := by
      cases written with
      | whole e => rfl
      | cut e _ => exact aligned_memberBytes _ _
    simp only [List.length_append]
    omega
  | plain kind path =>
    rename_i h o
    have hname := hpath path
    have hmember := aligned_memberBytes h.setChecksum content
    simp only [List.length_append]
    omega

variable {σ : Type} [Reader σ] {I : σ → Prop} {output : σ → Bytes} (h : Reader.Hands I output)

include h in
theorem dropContent_plays {e : EntryHeader} {content : Content} {c c' : Spot σ} {u : Unit}
    {out : Bytes} (hc : I c.reader) (ht : Content.total content ≤ e.size)
    (hp : (e.dropContent content).Plays c u c' out) :
    ∃ bytes, bytes.length = e.size ∧ e.size = Content.total content ∧ out = [] ∧ I c'.reader
      ∧ Content.expand content (output c.reader) = (bytes, output c'.reader)
      ∧ c'.position + (output c'.reader).length = c.position + (output c.reader).length := by
  obtain ⟨content', c₁, o₁, o₂, h₁, h₂, rfl⟩ := plays_bind_iff.mp hp
  obtain ⟨-, rfl, rfl⟩ := plays_pure_iff.mp h₂
  obtain ⟨bytes, h₃, h₄, rfl, h₅⟩ := e.copyContent_plays h Content.sinks_forget hc ht h₁
  exact ⟨bytes, h₃, h₄, rfl, h₅⟩

include h in
/-- What is written for a kept entry is a rendering of it, with the content that is on the
tape. -/
theorem append_plays {e : EntryHeader} {content : Content} {c c' : Spot σ} {u : Unit} {out : Bytes}
    (hc : I c.reader) (ht : Content.total content ≤ e.size)
    (hp : (e.append content).Plays c u c' out) :
    ∃ bytes, bytes.length = e.size ∧ e.size = Content.total content ∧ e.Rendered bytes out
      ∧ I c'.reader
      ∧ Content.expand content (output c.reader) = (bytes, output c'.reader)
      ∧ c'.position + (output c'.reader).length = c.position + (output c.reader).length := by
  obtain ⟨o, hout, hbody⟩ : ∃ o, out = e.extensionBytes ++ o
      ∧ (e.appendMember content).Plays c u c' o := by
    unfold append at hp
    unfold extensionBytes
    split at hp
    · rename_i hattr
      rw [if_pos hattr]
      exact ⟨out, rfl, hp⟩
    · rename_i hattr
      obtain ⟨_, c₁, o₁, o₂, h₁, h₂, rfl⟩ := plays_bind_iff.mp hp
      obtain ⟨rfl, rfl⟩ := writeMember_plays_iff.mp h₁
      rw [if_neg hattr]
      exact ⟨o₂, rfl, h₂⟩
  subst hout
  unfold appendMember at hbody
  split at hbody
  · rename_i target hname hkind
    obtain ⟨_, c₁, o₁, o₂, h₁, h₂, rfl⟩ := plays_bind_iff.mp hbody
    obtain ⟨h', c₂, o₃, o₄, h₃, h₄, rfl⟩ := plays_bind_iff.mp h₂
    obtain ⟨h'', c₃, o₅, o₆, h₅, h₆, rfl⟩ := plays_bind_iff.mp h₄
    obtain ⟨bytes, hlen, hsize, rfl, hc', hexp⟩ := e.dropContent_plays h hc ht h₁
    obtain ⟨rfl, hpath⟩ := writePath_plays_iff.mp h₃
    obtain ⟨rfl, hlink⟩ := writeLinkName_plays_iff.mp h₅
    obtain ⟨rfl, rfl⟩ := plays_write_iff.mp h₆
    exact ⟨bytes, hlen, hsize, .link hkind hname hpath hlink, hc', hexp⟩
  · rename_i hno
    obtain ⟨h', c₁, o₁, o₂, h₁, h₂, rfl⟩ := plays_bind_iff.mp hbody
    obtain ⟨_, c₂, o₃, o₄, h₃, h₄, rfl⟩ := plays_bind_iff.mp h₂
    obtain ⟨content', c₃, o₅, o₆, h₅, h₆, rfl⟩ := plays_bind_iff.mp h₄
    obtain ⟨rfl, hpath⟩ := writePath_plays_iff.mp h₁
    obtain ⟨rfl, rfl⟩ := plays_write_iff.mp h₃
    obtain ⟨bytes, hlen, hsize, hout, hc', hexp⟩ := e.copyContent_plays h Content.sinks_write hc ht h₅
    have hout : o₅ = bytes := hout
    subst hout
    obtain ⟨rfl, rfl⟩ := plays_write_iff.mp h₆
    have hkind : e.isLink = true → e.linkName = none := by
      intro hk
      cases hn : e.linkName with
      | none => rfl
      | some target => exact absurd hk (hno target hn)
    have hr : e.Rendered o₅ _ := .plain hkind hpath
    rw [memberBytes, hlen] at hr
    exact ⟨o₅, hlen, hsize, hr, hc', hexp⟩

end EntryHeader
end ContainerLayer
