import ContainerLayer.Proofs.Applier.Refusals

/-
Which names are those of layers.

A name can be one of the specification, one of the older names, or a name outside both that has
the form of a layer's.  Each of these is found out in its own way, and `layerNames` lists the
names that all ways together come to.  It makes no difference whether a name was looked up
before or is taken as it stands, and whether an older name was replaced or not.
-/

namespace ContainerLayer
namespace MediaType

/-- The names of layers, each with the compression that it stands for. -/
def layerNames : List (String × Compression) :=
  [("application/vnd.oci.image.layer.v1.tar", .none),
    ("application/vnd.oci.image.layer.v1.tar+gzip", .gzip),
    ("application/vnd.oci.image.layer.v1.tar+zstd", .zstd),
    ("application/vnd.oci.image.layer.nondistributable.v1.tar", .none),
    ("application/vnd.oci.image.layer.nondistributable.v1.tar+gzip", .gzip),
    ("application/vnd.oci.image.layer.nondistributable.v1.tar+zstd", .zstd),
    ("application/vnd.docker.image.rootfs.diff.tar", .none),
    ("application/vnd.docker.image.rootfs.diff.tar.gzip", .gzip),
    ("application/vnd.docker.image.rootfs.diff.tar.zstd", .zstd),
    ("application/vnd.docker.image.rootfs.foreign.diff.tar", .none),
    ("application/vnd.docker.image.rootfs.foreign.diff.tar.gzip", .gzip)]

/-- The types that a name can be taken for: looked up or not, and normalized or not. -/
def takenFor (s : String) : List MediaType :=
  [ofText s, other s, (ofText s).normalize, (other s).normalize]

variable {s : String} {c : Compression}

/-- What follows the first plus sign is a suffix, or there is no plus sign. -/
theorem eq_of_ofForm? (h : ofForm? s = some c) :
    s = layerBase ++ c.suffix ∨ s = nonDistributableBase ++ c.suffix := by
  have hcut := List.takeWhile_append_dropWhile (p := (· != '+')) (l := s.toList)
  unfold ofForm? at h
  dsimp only at h
  split at h
  · rename_i hbase
    rw [Bool.or_eq_true, decide_eq_true_eq, decide_eq_true_eq] at hbase
    have hback : s.toList.dropWhile (· != '+') = c.suffix.toList := by
      split at h <;> rename_i hback <;> cases h <;> rw [hback] <;> decide
    rw [hback] at hcut
    rcases hbase with hbase | hbase
    · refine .inl (String.toList_inj.mp ?_)
      rw [String.toList_append, ← hcut, hbase]
    · refine .inr (String.toList_inj.mp ?_)
      rw [String.toList_append, ← hcut, hbase]
  · cases h

/-- A name that is taken as it stands is that of a layer if it is one of the list. -/
theorem compression?_other_iff : (other s).compression? = some c ↔ (s, c) ∈ layerNames := by
  constructor
  · intro h
    rcases Option.or_eq_some_iff.mp h with h | ⟨-, h⟩
    · unfold ofOldName? at h
      split at h
      · rename_i hs
        cases h
        rw [Bool.or_eq_true, decide_eq_true_eq, decide_eq_true_eq] at hs
        rcases hs with rfl | rfl <;> simp [layerNames, oldLayer, oldForeignLayer]
      split at h
      · rename_i hs
        cases h
        rw [Bool.or_eq_true, decide_eq_true_eq, decide_eq_true_eq] at hs
        rcases hs with rfl | rfl <;> simp [layerNames, oldLayer, oldForeignLayer]
      split at h
      · rename_i hs
        cases h
        subst hs
        simp [layerNames, oldZstdLayer]
      · cases h
    · rcases eq_of_ofForm? h with rfl | rfl
      · cases c <;> simp [layerNames, layerBase, Compression.suffix]
      · cases c <;> simp [layerNames, nonDistributableBase, Compression.suffix]
  · have hall : ∀ n ∈ layerNames, (other n.1).compression? = some n.2 := by decide +kernel
    exact hall (s, c)

/-- Every type says the same as its name does when that is taken as it stands. -/
theorem compression?_other_text (m : MediaType) :
    (other m.text).compression? = m.compression? := by
  cases m with
  | layer c =>
    refine compression?_other_iff.mpr ?_
    cases c <;> simp [layerNames, text, layerBase, Compression.suffix]
  | nonDistributableLayer c =>
    refine compression?_other_iff.mpr ?_
    cases c <;> simp [layerNames, text, nonDistributableBase, Compression.suffix]
  | document d =>
    refine Option.eq_none_iff_forall_ne_some.mpr fun c h => ?_
    have hname := compression?_other_iff.mp h
    cases d <;> simp [layerNames, text, DocumentType.text] at hname
  | other t => rfl

/-- Looking a name up finds a type of that name. -/
theorem text_ofText (s : String) : (ofText s).text = s := by
  unfold ofText
  cases hfind : specified.find? fun m => m.text = s with
  | none => rfl
  | some m => simpa using List.find?_some hfind

/-- A type that is not that of a layer keeps its name. -/
theorem normalize_of_compression?_none {m : MediaType} (h : m.compression? = none) :
    m.normalize = m := by
  cases m with
  | other t =>
    refine if_neg fun ht => ?_
    subst ht
    cases h
  | _ => rfl

/-- However a name is taken for a type, it says the same, and it is what a refusal names. -/
theorem compression?_takenFor {m : MediaType} (hm : m ∈ takenFor s) :
    m.compression? = (other s).compression? ∧ (m.compression? = none → m.text = s) := by
  have htext := text_ofText s
  have hlooked : (ofText s).compression? = (other s).compression? := by
    rw [← compression?_other_text (ofText s), htext]
  simp only [takenFor, List.mem_cons, List.not_mem_nil, or_false] at hm
  rcases hm with rfl | rfl | rfl | rfl
  · exact ⟨hlooked, fun _ => htext⟩
  · exact ⟨rfl, fun _ => rfl⟩
  · rw [compression?_normalize]
    exact ⟨hlooked, fun h => by rw [normalize_of_compression?_none h, htext]⟩
  · rw [compression?_normalize]
    exact ⟨rfl, fun h => by rw [normalize_of_compression?_none h, text]⟩

/-- Whatever type a name is taken for, it is that of a layer exactly if it is one of the list,
with the compression that stands there.  Else an applier refuses the layer, whatever it finds in
its store, and names exactly this name.  Normalizing any type a second time changes nothing. -/
theorem compression?_takenFor_iff (s : String) :
    (∀ m ∈ takenFor s,
      (∀ c, m.compression? = some c ↔ (s, c) ∈ layerNames) ∧
        ((∀ c, (s, c) ∉ layerNames) → m.compression? = none ∧
          ∀ store (d : Descriptor) mounts t,
            Applier.prepare store { d with mediaType := m } mounts t
              = .error (.unsupportedMediaType s))) ∧
      ∀ m : MediaType, m.normalize.normalize = m.normalize := by
  refine ⟨fun m hm => ⟨fun c => ?_, fun hnone => ?_⟩, normalize_normalize⟩
  · rw [(compression?_takenFor hm).1]
    exact compression?_other_iff
  · obtain ⟨hsame, htext⟩ := compression?_takenFor hm
    have hrefused : m.compression? = none := by
      rw [hsame]
      exact Option.eq_none_iff_forall_ne_some.mpr fun c h => hnone c (compression?_other_iff.mp h)
    refine ⟨hrefused, fun store d mounts t => ?_⟩
    unfold Applier.prepare
    dsimp only
    rw [hrefused, htext hrefused]

/-- A second suffix, an empty one and one of the older kind behind a name of the specification
make it none of a layer. -/
example : ∀ s ∈ ["application/vnd.oci.image.layer.v1.tar+gzip+gzip",
    "application/vnd.oci.image.layer.v1.tar+", "application/vnd.oci.image.layer.v1.tar.gzip"],
    ∀ m ∈ takenFor s, m.compression? = none := by decide +kernel

end MediaType
end ContainerLayer
