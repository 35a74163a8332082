import ContainerLayer.Proofs.Tree.Arriving
import ContainerLayer.Proofs.Unpack.Outcome

/-
Under which names unpacking an entry changes anything.

At its own place an entry may do much, but all of that is under the last of its names
(`Placed.sameBut`).  Under any other name it can only make a directory that was missing
on the way, and only under a name that its path has further to the front (`Unpacks.makes`),
where a first part of the path leads (`Way.opens`).
-/

namespace ContainerLayer

namespace Tree

/-- Nothing was changed but what is at `l`. -/
def SameBut (l : Location) (t t' : Tree) : Prop := ∀ k, k ≠ l → t'.lookup k = t.lookup k

namespace SameBut

variable {l : Location} {t t' t'' : Tree}

theorem refl (l : Location) (t : Tree) : SameBut l t t := fun _ _ => rfl

theorem trans (h : SameBut l t t') (h' : SameBut l t' t'') : SameBut l t t'' :=
  fun k hk => (h' k hk).trans (h k hk)

end SameBut

theorem Puts.sameBut {t t' : Tree} {path : PathParts} {l : Location} (h : Puts t path l t') :
    SameBut l t t' := by
  obtain ⟨_, _, n, hn⟩ := h
  exact fun k hk => by rw [hn, if_neg hk]

theorem Drops.sameBut {t t' : Tree} {path : PathParts} {l : Location} (h : Drops t path l t') :
    SameBut l t t' := by
  obtain ⟨_, _, _, rfl⟩ := h
  exact fun k hk => lookup_erase_ne hk

theorem Puts.covers {t t' : Tree} {path : PathParts} {l : Location} (h : Puts t path l t') :
    t'.Covers t := by
  intro k m hm
  refine ⟨m, (h.sameBut k ?_).trans hm, .refl m⟩
  rintro rfl
  rw [h.2.1] at hm
  cases hm

/-- A directory that was put at the end of a path can be opened by it. -/
theorem Puts.opens {t t' : Tree} (ht : t.Closed) {above : PathParts} {name : Bytes}
    {d l : Location} (h : Puts t (above ++ [name]) l t') (hd : t.canonicalize above = .ok d)
    (hl : t'.isDirectory l = true) : t'.openDirectory (above ++ [name]) = .ok l := by
  obtain ⟨_, _, _, hpath, hname, -, -⟩ := ht.exists_concat_of_resolve h.1 h.2.1
  obtain rfl := List.singleton_inj.mp (List.append_inj' hpath rfl).2
  obtain ⟨rfl, hdir⟩ := resolve_concat (Fades.refl t) hname hd h.1 (.inl rfl)
  have hlen := length_le_of_resolve hd (by simpa using hname) (descends_singleton hdir name) h.1
  have hopen := openDirectory_of_covers h.covers (openDirectory_iff.mpr ⟨hd, hdir⟩)
  exact (openDirectory_child hopen hname hl).1 ⟨legal_of_resolve h.1, by simpa using hlen⟩

/-- A path that leads to something does not lead to a free name. -/
theorem Puts.not_present {t t' : Tree} {path : PathParts} {l : Location} (h : Puts t path l t') :
    ¬ t.Present path := by
  intro hp
  obtain ⟨d, hd, hn⟩ := hp
  exact hn ((leads_of_resolve h.1).not_vacant h.2.1 hd)

end Tree

namespace Unpack

open Tar ContainerLayer.Tree

theorem sameBut_applyMode (header : Header) (l : Location) (t : Tree) :
    SameBut l t (applyMode header l t) := by
  unfold applyMode
  cases modeOf header with
  | none => exact .refl l t
  | some mode => exact fun k hk => lookup_setMode_ne hk mode

theorem sameBut_fill (header : Header) (l : Location) (data : Bytes) (complete : Bool) (t : Tree) :
    SameBut l t (fill header l data complete t) := by
  have hd : SameBut l t (t.setData l data) := fun k hk => lookup_setData_ne hk data
  unfold fill
  cases complete with
  | false => exact hd
  | true =>
    cases mtimeOf header with
    | none => exact hd.trans (sameBut_applyMode header l _)
    | some mtime =>
      have hm : SameBut l (t.setData l data) ((t.setData l data).setMtime l mtime) :=
        fun k hk => lookup_setMtime_ne hk mtime
      exact (hd.trans hm).trans (sameBut_applyMode header l _)

/-- What an entry does at its own path is under its last name, in the directory that the path
without that name leads to. -/
theorem Placed.sameBut {above : PathParts} {name : Bytes} (hname : IsPlain name) {t t' : Tree}
    {o : Option Location} (h : Placed (above ++ [name]) t o t') {d : Location}
    (hd : t.canonicalize above = .ok d) :
    SameBut (d ++ [name]) t t' ∧ ∀ l, o = some l → l = d ++ [name] := by
  have hplace : ∀ {u l}, t.Fades u → u.resolve false (above ++ [name]) = .ok l → l = d ++ [name] :=
    fun hu hl => (resolve_concat hu hname hd hl (.inl rfl)).1
  cases h with
  | nothing => exact ⟨.refl _ t, fun _ e => by cases e⟩
  | put hp ho =>
    obtain rfl := hplace (Fades.refl t) hp.1
    exact ⟨hp.sameBut, ho⟩
  | replaced hdrop hp ho =>
    obtain rfl := hplace (Fades.refl t) hdrop.1
    obtain rfl := hplace hdrop.fades hp.1
    exact ⟨hdrop.sameBut.trans hp.sameBut, ho⟩
  | @directory k t₁ l hk h hdir hl header =>
    obtain rfl := hplace (Fades.refl t) hk
    obtain ⟨mode, hmode⟩ := isDirectory_iff.mp hdir
    have hlast : t.Fades t₁ → l = d ++ [name] := fun hf =>
      (resolve_concat hf hname hd hl (.inr (by simp [hmode]))).1
    refine ⟨?_, fun _ e => by cases e⟩
    rcases h with rfl | hp
    · rw [hlast (Fades.refl _)]
      exact sameBut_applyMode header _ _
    · rw [hlast hp.fades]
      exact hp.sameBut.trans (sameBut_applyMode header _ _)

/-- What is missing on the way is missing behind `root`, which leads somewhere. -/
theorem exists_behind_root {root names above : List Bytes} {name : Bytes} {l : Location}
    {t t' : Tree} (hpre : above ++ [name] <+: root ++ names) (hin : Inside root above t)
    (hput : Puts t (above ++ [name]) l t') :
    ∃ q, above = root ++ q ∧ q ++ [name] <+: names := by
  have hroot : ¬ above ++ [name] <+: root := by
    rintro ⟨more, rfl⟩
    obtain ⟨_, _, ho, _⟩ := hin
    exact hput.not_present (present_of_canonicalize ho).of_append
  obtain ⟨q, hq⟩ :=
    (List.prefix_or_prefix_of_prefix hpre (List.prefix_append root names)).resolve_left hroot
  have hne : q ≠ [] := by
    rintro rfl
    rw [List.append_nil] at hq
    exact hroot (hq ▸ List.prefix_refl root)
  obtain ⟨front, last, rfl⟩ := (List.eq_nil_or_concat q).resolve_left hne
  rw [← hq, List.prefix_append_right_inj] at hpre
  rw [List.concat_eq_append, ← List.append_assoc] at hq
  obtain ⟨rfl, hlast⟩ := List.append_inj' hq rfl
  obtain rfl := List.singleton_inj.mp hlast
  exact ⟨front, rfl, by rwa [List.concat_eq_append] at hpre⟩

/-- Directories made on the way: where there is anything else than before there was nothing, and
there is a directory at a place for which `P` holds, if `P` holds of every place where one is
made. -/
theorem Way.lookup_or_of {root path : PathParts} {t t' : Tree} {P : Location → Prop}
    (h : Way root path t t')
    (hP : ∀ {t₁ t₂ above name l}, Way root path t t₁ →
      (∀ k, t₁.lookup k = t.lookup k ∨ t₁.isDirectory k = true) → above ++ [name] <+: path →
      Inside root above t₁ → Puts t₁ (above ++ [name]) l t₂ → P l) (k : Location) :
    t'.lookup k = t.lookup k ∨ (t.lookup k = none ∧ t'.isDirectory k = true ∧ P k) := by
  induction h generalizing k with
  | start => exact .inl rfl
  | @made t₁ t₂ above name l hway hpre hin hput hdir ih =>
    by_cases hk : k = l
    · subst hk
      -- what was there at the start would still be there
      have hstart : t.lookup k = none := by
        rcases ih k with e | ⟨e, _⟩
        · rw [← e, hput.2.1]
        · exact e
      exact .inr ⟨hstart, hdir, hP hway (fun k => (ih k).imp_right fun h => h.2.1) hpre hin hput⟩
    · rw [Tree.isDirectory, hput.sameBut k hk]
      exact ih k

theorem Way.closed {root path : PathParts} {t t' : Tree} (h : Way root path t t')
    (ht : t.Closed) : t'.Closed := by
  induction h with
  | start => exact ht
  | made _ _ _ hput _ ih => exact hput.closed ih

/-- On the way nothing is changed but that directories are made where there was nothing, each
under a name that the path has behind `root`. -/
theorem Way.lookup_or {root names : List Bytes} {t t' : Tree} (h : Way root (root ++ names) t t')
    (ht : t.Closed) (k : Location) :
    t'.lookup k = t.lookup k ∨
      (t.lookup k = none ∧ t'.isDirectory k = true ∧ ∃ d name, k = d ++ [name] ∧ name ∈ names) := by
  refine h.lookup_or_of (P := fun k => ∃ d name, k = d ++ [name] ∧ name ∈ names)
    (fun hway _ hpre hin hput => ?_) k
  obtain ⟨q, rfl, hq⟩ := exists_behind_root hpre hin hput
  obtain ⟨_, name', d, hpath, _, _, rfl⟩ :=
    (hway.closed ht).exists_concat_of_resolve hput.1 hput.2.1
  obtain rfl := List.singleton_inj.mp (List.append_inj' hpath rfl).2
  exact ⟨d, _, rfl, hq.subset (by simp)⟩

/-- The directories made on the way are where a first part of the path leads now. -/
theorem Way.opens {root names : List Bytes} {t t' : Tree} (h : Way root (root ++ names) t t')
    (ht : t.Closed) (k : Location) :
    t'.lookup k = t.lookup k ∨
      (t.lookup k = none ∧ ∃ q, q <+: names ∧ t'.openDirectory (root ++ q) = .ok k) := by
  induction h generalizing k with
  | start => exact .inl rfl
  | @made t₁ t₂ above name l hway hpre hin hput hdir ih =>
    by_cases hk : k = l
    · subst hk
      have hstart : t.lookup k = none := by
        rcases ih k with e | ⟨e, _⟩
        · rw [← e, hput.2.1]
        · exact e
      obtain ⟨q, rfl, hq⟩ := exists_behind_root hpre hin hput
      obtain ⟨_, _, _, hd, _⟩ := hin
      refine .inr ⟨hstart, q ++ [name], hq, ?_⟩
      rw [← List.append_assoc]
      exact hput.opens (hway.closed ht) hd hdir
    · rw [hput.sameBut k hk]
      refine (ih k).imp_right fun ⟨hstart, q, hq, hopen⟩ => ?_
      exact ⟨hstart, q, hq, openDirectory_of_covers hput.covers hopen⟩

/-- Under a name that is not the last of `names` nothing was changed, but that directories were
made under names further to the front. -/
def Makes (names : List Bytes) (t t' : Tree) : Prop :=
  ∀ l name, names.getLast? ≠ some name →
    t'.lookup (l ++ [name]) = t.lookup (l ++ [name]) ∨
      (t.lookup (l ++ [name]) = none ∧ t'.isDirectory (l ++ [name]) = true ∧
        name ∈ names.dropLast)

theorem Way.makes {root names : List Bytes} {t t' : Tree}
    (h : Way root (root ++ names.dropLast) t t') (ht : t.Closed) : Makes names t t' := by
  intro l name _
  rcases h.lookup_or ht (l ++ [name]) with e | ⟨h₁, h₂, d, name', e, h₃⟩
  · exact .inl e
  · obtain rfl := List.singleton_inj.mp (List.append_inj' e rfl).2
    exact .inr ⟨h₁, h₂, h₃⟩

/-- A change under the last name adds nothing to say. -/
theorem Makes.sameBut {names : List Bytes} {t t₁ t' : Tree} (h : Makes names t t₁) {d : Location}
    {last : Bytes} (hlast : names.getLast? = some last) (hs : SameBut (d ++ [last]) t₁ t') :
    Makes names t t' := by
  intro l name hname
  have hne : l ++ [name] ≠ d ++ [last] := by
    intro e
    rw [List.singleton_inj.mp (List.append_inj' e rfl).2] at hname
    exact hname hlast
  have he := hs _ hne
  rw [he, Tree.isDirectory, he]
  exact h l name hname

/-- The directories that are missing on the way are made, and then nothing is changed but what is
under the last name in the directory that the path without that name leads to. -/
theorem Unpacks.exists_way {root : PathParts} {e : Entry} {t t' : Tree} {fault : Option Fault}
    (h : Unpacks root e t fault t') :
    ∃ t₁, Way root (root ++ (Path.names e.path).dropLast) t t₁ ∧
      (t' = t₁ ∨ ∃ d last, (Path.names e.path).getLast? = some last ∧
        t₁.canonicalize (root ++ (Path.names e.path).dropLast) = .ok d ∧
        SameBut (d ++ [last]) t₁ t') := by
  obtain ⟨o, t₁, hp, h⟩ := h.exists_prepares
  cases hp with
  | way hway =>
    rcases h with rfl | ⟨_, _, e, _⟩
    · exact ⟨_, hway, .inl rfl⟩
    · cases e
  | @placed t₂ _ _ hnames hway hin hp =>
    have hlast := List.getLast?_eq_some_getLast hnames
    rw [← List.dropLast_concat_getLast hnames, ← List.append_assoc] at hp
    obtain ⟨_, d, _, hd, _⟩ := hin
    obtain ⟨hs, ho⟩ := hp.sameBut (Path.isPlain_of_mem_names (List.getLast_mem hnames)) hd
    refine ⟨t₂, hway, .inr ⟨d, _, hlast, hd, ?_⟩⟩
    rcases h with rfl | ⟨l, data, hl, rfl⟩
    · exact hs
    · rw [ho l hl]
      exact hs.trans (sameBut_fill _ _ _ _ _)

theorem Unpacks.makes {root : PathParts} {e : Entry} {t t' : Tree} {fault : Option Fault}
    (h : Unpacks root e t fault t') (ht : t.Closed) : Makes (Path.names e.path) t t' := by
  obtain ⟨t₁, hway, rfl | ⟨d, last, hlast, -, hs⟩⟩ := h.exists_way
  · exact hway.makes ht
  · exact (hway.makes ht).sameBut hlast hs

end Unpack
end ContainerLayer
