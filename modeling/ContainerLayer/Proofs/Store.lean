import ContainerLayer.Proofs.Digest.Grammar
import ContainerLayer.Proofs.Path.Above
import ContainerLayer.Proofs.Text.Utf8
import ContainerLayer.Store

/-
Where a store keeps its blobs.

The names of a blob's path come from the text of a digest, which whoever describes a layer is
free to choose.  No part of a well-formed digest can mean anything but a name, so the path leads
two names down from the directory of all blobs, and it tells which digest it is for.
-/

namespace ContainerLayer

namespace Bytes

theorem toList_eq_data (b : ByteArray) : b.toList = b.data.toList := by
  rw [ByteArray.toList, Utf8.toList_loop]
  rfl

/-- Texts with the same bytes are the same. -/
theorem ofText_injective {s t : String} (h : ofText s = ofText t) : s = t := by
  rw [ofText, ofText, toList_eq_data, toList_eq_data] at h
  exact String.toByteArray_inj.mp (ByteArray.ext (Array.toList_inj.mp h))

theorem flatMap_ascii {cs : List Char} (h : ∀ c ∈ cs, c.val ≤ 127) :
    cs.flatMap String.utf8EncodeChar = cs.map fun c => c.val.toUInt8 := by
  induction cs with
  | nil => rfl
  | cons c cs ih =>
    obtain ⟨hc, hcs⟩ := List.forall_mem_cons.mp h
    have hsize : c.utf8Size = 1 := if_pos hc
    have hone := String.utf8EncodeChar_eq_singleton hsize
    rw [List.flatMap_cons, hone, ih hcs]
    rfl

/-- Characters of ASCII are one byte each. -/
theorem ofText_eq_ascii {s : String} (h : ∀ c ∈ s.toList, c.val ≤ 127) : ofText s = ascii s := by
  have htext : s.toUTF8 = (s.toList.flatMap String.utf8EncodeChar).toByteArray := by
    rw [← List.utf8Encode, ← String.toByteArray_ofList, String.ofList_toList]
    rfl
  rw [ofText, htext, Utf8.toList_toByteArray, flatMap_ascii h]
  rfl

/-- No other character of ASCII has the same byte. -/
theorem eq_of_toUInt8_eq {c a : Char} (hc : c.val ≤ 127) (ha : a.val ≤ 127)
    (h : c.val.toUInt8 = a.val.toUInt8) : c = a := by
  have hbyte := congrArg UInt8.toNat h
  rw [UInt32.toNat_toUInt8, UInt32.toNat_toUInt8] at hbyte
  rw [UInt32.le_iff_toNat_le] at hc ha
  have hbound : (127 : UInt32).toNat = 127 := rfl
  exact Char.ext (UInt32.toNat_inj.mp (by omega))

end Bytes

namespace Path

open ContainerLayer.Tree

/-- A text of ASCII characters without slashes that does not begin with a dot is a name. -/
theorem isName_ofText {s : String} (hchars : ∀ c ∈ s.toList, c.val ≤ 127 ∧ c ≠ '/')
    (hhead : ∃ c rest, s.toList = c :: rest ∧ c ≠ '.') :
    Bytes.ofText s ≠ [] ∧ IsPlain (Bytes.ofText s) ∧ slash ∉ Bytes.ofText s := by
  have hbytes : Bytes.ofText s = s.toList.map fun c => c.val.toUInt8 :=
    Bytes.ofText_eq_ascii fun c hc => (hchars c hc).1
  obtain ⟨c, rest, hs, hdot⟩ := hhead
  have hfirst : (Bytes.ofText s).head? ≠ some 46 := by
    intro e
    rw [hbytes, hs, List.map_cons, List.head?_cons, Option.some.injEq] at e
    have hc := (hchars c (by rw [hs]; exact List.mem_cons_self)).1
    exact hdot (Bytes.eq_of_toUInt8_eq hc (show ('.' : Char).val ≤ 127 by decide) e)
  refine ⟨?_, ⟨?_, ?_⟩, ?_⟩
  · rw [hbytes, hs]
    exact List.cons_ne_nil _ _
  · intro e
    rw [e] at hfirst
    exact hfirst rfl
  · intro e
    rw [e] at hfirst
    exact hfirst rfl
  · rw [hbytes, List.mem_map]
    rintro ⟨a, ha, e⟩
    obtain ⟨hascii, hslash⟩ := hchars a ha
    exact hslash (Bytes.eq_of_toUInt8_eq hascii (show ('/' : Char).val ≤ 127 by decide) e)

end Path

namespace Digest

variable {c : Char}

/-- A range of characters that ends within ASCII and begins behind the slash. -/
theorem ascii_of_between {low high : Char} (h : low ≤ c ∧ c ≤ high) (hlow : '/' < low)
    (hhigh : high.val ≤ 127) : c.val ≤ 127 ∧ c ≠ '/' ∧ c ≠ '.' := by
  refine ⟨UInt32.le_trans h.2 hhigh, ?_, ?_⟩
  · rintro rfl
    exact absurd h.1 (Char.not_le.mpr hlow)
  · rintro rfl
    exact absurd h.1 (Char.not_le.mpr (Char.lt_trans (by decide) hlow))

theorem ascii_of_isPartChar (h : isPartChar c = true) : c.val ≤ 127 ∧ c ≠ '/' ∧ c ≠ '.' := by
  simp only [isPartChar, Bool.or_eq_true, Bool.and_eq_true, decide_eq_true_eq] at h
  rcases h with h | h
  · exact ascii_of_between h (by decide) (by decide)
  · exact ascii_of_between h (by decide) (by decide)

theorem ascii_of_isJoint (h : isJoint c = true) : c.val ≤ 127 ∧ c ≠ '/' := by
  simp only [isJoint, Bool.or_eq_true, beq_iff_eq] at h
  rcases h with ((rfl | rfl) | rfl) | rfl <;> decide

theorem ascii_of_isValueChar (h : isValueChar c = true) : c.val ≤ 127 ∧ c ≠ '/' ∧ c ≠ '.' := by
  simp only [isValueChar, Bool.or_eq_true, Bool.and_eq_true, decide_eq_true_eq, beq_iff_eq] at h
  rcases h with (((h | h) | rfl) | rfl) | rfl
  · exact ascii_of_isPartChar h
  · exact ascii_of_between h (by decide) (by decide)
  all_goals decide

variable {d : Digest}

/-- The dot is a joint, but no algorithm begins with one. -/
theorem WellFormed.algorithm_isName (h : d.WellFormed) :
    Bytes.ofText d.algorithm ≠ [] ∧ Tree.IsPlain (Bytes.ofText d.algorithm) ∧
      Path.slash ∉ Bytes.ofText d.algorithm := by
  obtain ⟨⟨c, rest, hcs, hc⟩, hchars⟩ := h.algorithm.chars
  refine Path.isName_ofText (fun c hc => ?_) ⟨c, rest, hcs, (ascii_of_isPartChar hc).2.2⟩
  rcases hchars c hc with hc | hc
  · exact ⟨(ascii_of_isPartChar hc).1, (ascii_of_isPartChar hc).2.1⟩
  · exact ascii_of_isJoint hc

theorem WellFormed.encoded_isName (h : d.WellFormed) :
    Bytes.ofText d.encoded ≠ [] ∧ Tree.IsPlain (Bytes.ofText d.encoded) ∧
      Path.slash ∉ Bytes.ofText d.encoded := by
  obtain ⟨c, rest, hcs⟩ := List.exists_cons_of_ne_nil h.encoded_ne_nil
  have hc := ascii_of_isValueChar (h.valueChars c (by rw [hcs]; exact List.mem_cons_self))
  refine Path.isName_ofText (fun c hc => ?_) ⟨c, rest, hcs, hc.2.2⟩
  have hc := ascii_of_isValueChar (h.valueChars c hc)
  exact ⟨hc.1, hc.2.1⟩

end Digest

namespace Store

open ContainerLayer.Path

/-- The path of a blob has three more components than the root of the store. -/
theorem components_blobPath (s : Store) {d : Digest} (h : d.WellFormed) :
    components (s.blobPath d) = components s.root ++
      [.name (ascii "blobs"), .name (Bytes.ofText d.algorithm), .name (Bytes.ofText d.encoded)] := by
  obtain ⟨hne, hplain, hslash⟩ := h.algorithm_isName
  obtain ⟨hne', hplain', hslash'⟩ := h.encoded_isName
  have hblobs : Tree.IsPlain (ascii "blobs") := ⟨by decide, by decide⟩
  rw [blobPath, components_join hslash' hne' hplain', components_join hslash hne hplain,
    components_join (by decide) (by decide) hblobs]
  simp

/-- Whatever text is accepted as a digest, the blob is two names below the directory of all
blobs in the store: that of the algorithm, and that of the value.  Neither of them can be left
out, be absolute, lead up or stay in place.  No other text that is accepted leads to the same
path. -/
theorem blobPath_stays (s : Store) {text : String} {d : Digest} (h : Digest.parse text = .ok d) :
    text = d.algorithm ++ ":" ++ d.encoded ∧
      components (s.blobPath d) = components s.root ++ [.name (ascii "blobs"),
        .name (Bytes.ofText d.algorithm), .name (Bytes.ofText d.encoded)] ∧
      (∀ part ∈ [Bytes.ofText d.algorithm, Bytes.ofText d.encoded],
        part ≠ [] ∧ part ≠ dot ∧ part ≠ dots ∧ isAbsolute part = false ∧ slash ∉ part) ∧
      ∀ text' d', Digest.parse text' = .ok d' →
        components (s.blobPath d') = components (s.blobPath d) → text' = text := by
  obtain ⟨htext, hd⟩ := Digest.parse_eq_ok_iff.mp h
  refine ⟨htext, s.components_blobPath hd, ?_, ?_⟩
  · have hname : ∀ part : Bytes, part ≠ [] ∧ Tree.IsPlain part ∧ slash ∉ part →
        part ≠ [] ∧ part ≠ dot ∧ part ≠ dots ∧ isAbsolute part = false ∧ slash ∉ part := by
      rintro part ⟨hne, hplain, hslash⟩
      refine ⟨hne, hplain.ne_dot, hplain.ne_dots, ?_, hslash⟩
      rw [isAbsolute, beq_eq_false_iff_ne]
      exact fun e => hslash (List.mem_of_mem_head? e)
    intro part hpart
    simp only [List.mem_cons, List.not_mem_nil, or_false] at hpart
    rcases hpart with rfl | rfl
    · exact hname _ hd.algorithm_isName
    · exact hname _ hd.encoded_isName
  · intro text' d' h' hpath
    obtain ⟨htext', hd'⟩ := Digest.parse_eq_ok_iff.mp h'
    rw [s.components_blobPath hd, s.components_blobPath hd', List.append_cancel_left_eq] at hpath
    simp only [List.cons.injEq, Component.name.injEq, and_true, true_and] at hpath
    have halgorithm := Bytes.ofText_injective hpath.1
    have hencoded := Bytes.ofText_injective hpath.2
    rw [htext', htext, Digest.render, Digest.render, halgorithm, hencoded]

/-- An algorithm that nobody has registered, with dots in its name. -/
theorem blobPath_stays_dotted :
    Digest.parse "multi.2+sha:A=_-" = .ok ⟨"multi.2+sha", "A=_-"⟩ ∧
      components (blobPath { root := ascii "/srv/../store/" } ⟨"multi.2+sha", "A=_-"⟩)
        = [.root, .name (ascii "srv"), .up, .name (ascii "store"), .name (ascii "blobs"),
            .name (ascii "multi.2+sha"), .name (ascii "A=_-")] := by
  have h : Digest.parse "multi.2+sha:A=_-" = .ok ⟨"multi.2+sha", "A=_-"⟩ := by decide
  have hpath := (blobPath_stays { root := ascii "/srv/../store/" } h).2.1
  dsimp only at hpath
  rw [Bytes.ofText_eq_ascii (by simp), Bytes.ofText_eq_ascii (by simp)] at hpath
  exact ⟨h, hpath⟩

end Store
end ContainerLayer
