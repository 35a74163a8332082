import ContainerLayer.Proofs.Tree.Arriving
import ContainerLayer.Proofs.Unpack.Making

/-
Unpacking an entry over something that has its name.

If the entry's path leads through directories to something that is no directory
(`Occupied`), there is nothing to make on the way, and all depends on the kind of the
entry.  A file and a symbolic link take the place of what is there, since that is dropped
and the name is then free.  A hard link is only ever made under a free name.
-/

namespace ContainerLayer
namespace Unpack

open Tar ContainerLayer.Tree TreeWork

/-- Behind `root` the names lead, through directories, to `n`, which is no directory, and
`root` itself does not lead there by way of `n`. -/
structure Occupied (t : Tree) (root : PathParts) (r : Location) (names : List Bytes) (n : Node) :
    Prop where
  closed : t.Closed
  named : names ≠ []
  start : t.canonicalize root = .ok r
  found : t.find false (root ++ names) = .ok (r ++ names, n)
  occupant : n.isDirectory = false
  apart : (t.erase (r ++ names)).canonicalize root = .ok r

theorem run_requireInside {t : Tree} {root path : PathParts} {r d : Location}
    (hr : t.canonicalize root = .ok r) (hd : t.canonicalize path = .ok d) (hpre : r <+: d) :
    (requireInside root path).run t = (.ok r, t) := by
  rw [requireInside, run_bind, run_inspect, hd]
  dsimp only
  rw [run_bind, run_inspect, hr]
  dsimp only
  rw [if_pos (by simpa using hpre)]
  rfl

/-- Nothing is missing on the way to something. -/
theorem run_makeWay {t : Tree} {root path : PathParts} (h : t.hasEntry path = true) :
    (makeWay root path).run t = (.ok (), t) := by
  have hmissing : missing t path.reverse = [] := by
    cases hrev : path.reverse with
    | nil => rfl
    | cons name above =>
      rw [missing, ← hrev, List.reverse_reverse, if_pos h]
  rw [makeWay, run_bind, run_get]
  dsimp only
  rw [hmissing]
  rfl

/-- A text that a symbolic link can hold. -/
structure IsTarget (target : Bytes) : Prop where
  ne_nil : target ≠ []
  no_zero : 0 ∉ target
  length_lt : target.length < maxPath

/-- The path of what a hard link is to give a second name. -/
def linked (outer : Location) (target : Bytes) : PathParts :=
  (if Path.isAbsolute target then [] else outer) ++ Tree.partsOf target

namespace Occupied

variable {t : Tree} {root : PathParts} {r : Location} {names : List Bytes} {n : Node}

theorem resolves (h : Occupied t root r names n) :
    t.resolve false (root ++ names) = .ok (r ++ names) := (find_eq_ok_iff.mp h.found).1

theorem there (h : Occupied t root r names n) : t.lookup (r ++ names) = some n :=
  (find_eq_ok_iff.mp h.found).2

theorem descends (h : Occupied t root r names n) : t.Descends r names :=
  h.closed.descends (by simp [h.there])

/-- The directory that the entry goes to is where its path says. -/
theorem above (h : Occupied t root r names n) (hplain : ∀ name ∈ names, IsPlain name) :
    t.canonicalize (root ++ names.dropLast) = .ok (r ++ names.dropLast) := by
  have hpre : names.dropLast <+: names := List.dropLast_prefix names
  have hne : names.dropLast ≠ names := fun e => by
    have := congrArg List.length e
    have := List.length_pos_iff.mpr h.named
    simp only [List.length_dropLast] at *
    omega
  have hlegal : Legal (root ++ names.dropLast ++ [names.getLast h.named]) := by
    rw [List.append_assoc, List.dropLast_concat_getLast h.named]
    exact legal_of_resolve h.resolves
  have hlen := length_le_of_resolve h.start hplain h.descends h.resolves
  refine canonicalize_names h.start hlegal.of_append (fun name hm => hplain name (hpre.subset hm))
    (fun name hm => hlen name (hpre.subset hm)) (fun q hq hq' => ?_) (h.descends _ hpre hne)
  refine h.descends q (hq.trans hpre) fun e => hq' ?_
  exact hq.eq_of_length_le (by rw [e]; exact hpre.length_le)

/-- Without what is there, the path leads to a free name. -/
theorem resolves_erase (h : Occupied t root r names n) (hplain : ∀ name ∈ names, IsPlain name) :
    (t.erase (r ++ names)).resolve false (root ++ names) = .ok (r ++ names) := by
  refine resolve_names h.apart (legal_of_resolve h.resolves) h.named hplain
    (length_le_of_resolve h.start hplain h.descends h.resolves) (fun q hq hne => ?_) (.inl rfl)
  rw [Tree.isDirectory, lookup_erase_ne fun e => hne (List.append_cancel_left e)]
  exact h.descends q hq hne

theorem unlink (h : Occupied t root r names n) :
    t.unlink (root ++ names) = .ok (t.erase (r ++ names)) := by
  simp only [Tree.unlink, h.found, bind, Except.bind, h.occupant, Bool.false_eq_true, if_false]
  rfl

theorem run_prepare {e : Entry} (h : Occupied t root r (Path.names e.path) n) :
    (prepare root e).run t = (place r e (root ++ Path.names e.path)).run t := by
  have habove := h.above fun _ => Path.isPlain_of_mem_names
  unfold prepare
  dsimp only
  rw [if_neg h.named, run_bind, run_makeWay (hasEntry_of_canonicalize habove)]
  dsimp only
  rw [run_bind, run_requireInside h.start habove (List.prefix_append _ _)]

/-- A new file takes the place of what is there. -/
theorem run_placeFile (h : Occupied t root r names n) (hplain : ∀ name ∈ names, IsPlain name) :
    (placeFile (root ++ names)).run t
      = (.ok (r ++ names), (t.erase (r ++ names)).insertFile (r ++ names) [] 0o644 none) := by
  have hcreate : t.createFile (root ++ names) = .error .alreadyExists := by
    simp only [createFile, h.resolves, bind, Except.bind, h.there]
    rfl
  have hagain : (t.erase (r ++ names)).createFile (root ++ names)
      = .ok (r ++ names, (t.erase (r ++ names)).insertFile (r ++ names) [] 0o644 none) := by
    simp only [createFile, h.resolves_erase hplain, bind, Except.bind, lookup_erase_self]
    rfl
  rw [placeFile, run_bind, run_inspect, hcreate]
  simp only [h.unlink, bind, Except.bind, hagain]
  rfl

/-- A new symbolic link takes the place of what is there. -/
theorem run_placeSymlink (h : Occupied t root r names n) (hplain : ∀ name ∈ names, IsPlain name)
    {target : Bytes} (ht : IsTarget target) :
    (placeSymlink target (root ++ names)).run t
      = (.ok (), (t.erase (r ++ names)).insert (r ++ names) (.symlink target)) := by
  obtain ⟨hne, hzero, hlen⟩ := ht
  have hmake : t.makeSymlink (root ++ names) target = .error .alreadyExists := by
    simp only [makeSymlink, List.contains_iff_mem, hzero, hne, Nat.not_le.mpr hlen, if_false,
      h.resolves, bind, Except.bind, h.there]
    rfl
  have hagain : (t.erase (r ++ names)).makeSymlink (root ++ names) target
      = .ok ((t.erase (r ++ names)).insert (r ++ names) (.symlink target)) := by
    simp only [makeSymlink, List.contains_iff_mem, hzero, hne, Nat.not_le.mpr hlen, if_false,
      h.resolves_erase hplain, bind, Except.bind, pure, Except.pure, lookup_erase_self]
  rw [placeSymlink, run_change, hmake]
  simp only [h.unlink, bind, Except.bind, hagain]

/-- A hard link does not take the place of anything. -/
theorem run_placeHardLink (h : Occupied t root r names n) {target : Bytes} {outer : Location}
    (hin : Inside outer (linked outer target) t) :
    (placeHardLink outer target (root ++ names)).run t = (.error (.ofKind .alreadyExists), t) := by
  obtain ⟨_, _, ho, hi, hpre⟩ := hin
  have hentry := hasEntry_of_canonicalize hi
  rw [placeHardLink, run_bind, ← linked, run_requireInside ho hi hpre]
  dsimp only
  rw [run_change]
  unfold hasEntry at hentry
  cases hf : t.find false (linked outer target) with
  | error k =>
    rw [hf] at hentry
    cases hentry
  | ok found =>
    simp only [makeHardLink, hf, h.resolves, bind, Except.bind, h.there, Option.isSome_some, if_true]
    rfl

end Occupied

/-! ## By the kind of the entry -/

/-- The entry is unpacked as a file: it makes no directory and no link, and is not about
another entry. -/
structure IsFile (e : Entry) : Prop where
  notDirectory : isDirectory e = false
  notLink : e.header.kind.isLink = false
  notAbout : e.header.kind.isAbout = false

theorem run_targetOf {e : Entry} {target : Bytes} (h : e.linkName = some target)
    (hne : Path.components target ≠ []) (t : Tree) : (targetOf e).run t = (.ok target, t) := by
  rw [targetOf, h]
  dsimp only
  rw [if_neg hne]
  rfl

theorem isDirectory_of_isLink {e : Entry} (h : e.header.kind.isLink = true) :
    isDirectory e = false := by
  have hkind : e.header.kind ≠ .directory := by
    intro e'
    rw [e'] at h
    revert h
    decide
  simp [isDirectory, h, hkind]

section Place

variable {t t' : Tree} {e : Entry} (outer : Location) {path : PathParts}

theorem run_place_file (he : IsFile e) {l : Location}
    (h : (placeFile path).run t = (.ok l, t')) :
    (place outer e path).run t = (.ok (some l), t') := by
  have hkind : e.header.kind ≠ .hardLink ∧ e.header.kind ≠ .symlink := by
    have := he.notLink
    rwa [EntryKind.isLink, Bool.or_eq_false_iff, beq_eq_false_iff_ne, beq_eq_false_iff_ne] at this
  rw [place, if_neg (by simp [he.notDirectory]), if_neg hkind.1, if_neg hkind.2,
    if_neg (by simp [he.notAbout]), run_bind, h]
  rfl

theorem run_place_symlink (hk : e.header.kind = .symlink) {target : Bytes}
    (ht : e.linkName = some target) (hne : Path.components target ≠ [])
    (h : (placeSymlink target path).run t = (.ok (), t')) :
    (place outer e path).run t = (.ok none, t') := by
  have hlink : e.header.kind.isLink = true := by rw [hk]; rfl
  rw [place, if_neg (by simp [isDirectory_of_isLink hlink]), if_neg (by simp [hk]), if_pos hk,
    run_bind, run_targetOf ht hne]
  dsimp only
  rw [run_bind, h]
  rfl

theorem run_place_hardLink (hk : e.header.kind = .hardLink) {target : Bytes}
    (ht : e.linkName = some target) (hne : Path.components target ≠ []) {f : Fault}
    (h : (placeHardLink outer target path).run t = (.error f, t')) :
    (place outer e path).run t = (.error f, t') := by
  have hlink : e.header.kind.isLink = true := by rw [hk]; rfl
  rw [place, if_neg (by simp [isDirectory_of_isLink hlink]), if_pos hk, run_bind,
    run_targetOf ht hne]
  dsimp only
  rw [run_bind, h]

end Place

/-! ## What is written into a new file -/

theorem lookup_applyMode {header : Header} {l : Location} {t : Tree} {f : StoredFile}
    (h : t.lookup l = some (.file f)) :
    (applyMode header l t).lookup l
      = some (.file { f with mode := (modeOf header).getD f.mode }) := by
  unfold applyMode
  cases modeOf header with
  | none => exact h
  | some mode =>
    dsimp only
    rw [setMode, lookup_modify, if_pos rfl, h]
    rfl

theorem lookup_fill {header : Header} {l : Location} {data : Bytes} {t : Tree} {f : StoredFile}
    (h : t.lookup l = some (.file f)) :
    (fill header l data true t).lookup l = some (.file
      { f with
        data
        mode := (modeOf header).getD f.mode
        mtime := (mtimeOf header).or f.mtime }) := by
  have hd : (t.setData l data).lookup l = some (.file { f with data }) := by
    rw [setData, lookup_modify, if_pos rfl, h]
    rfl
  unfold fill
  rw [if_pos rfl]
  cases mtimeOf header with
  | none => exact lookup_applyMode hd
  | some mtime =>
    have hm : ((t.setData l data).setMtime l mtime).lookup l
        = some (.file { f with data, mtime := some mtime }) := by
      rw [setMtime, lookup_modify, if_pos rfl, hd]
      rfl
    exact lookup_applyMode hm

end Unpack
end ContainerLayer
