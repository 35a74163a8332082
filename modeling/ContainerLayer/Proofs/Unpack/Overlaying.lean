import ContainerLayer.Proofs.Tree.Unlinked
import ContainerLayer.Proofs.Unpack.Replacing

/-
Unpacking a file or a directory where no links are on the way.

Without links a path leads to its own location, so what is made for an entry is made where its
names say.  If all goes well, the entry is there, the directories above it are there, and
nothing else was changed (`Laid`).
-/

namespace ContainerLayer
namespace Unpack

open Tar ContainerLayer.Tree TreeWork

/-- The entry makes a file or a directory, and says with which mode and time. -/
structure Plain (e : Entry) : Prop where
  notLink : e.header.kind.isLink = false
  notAbout : e.header.kind.isAbout = false
  mode : (modeOf e.header).isSome = true
  mtime : (mtimeOf e.header).isSome = true

/-- At `l` there is what the entry is about, with `data` for its content. -/
structure Holds (t : Tree) (l : Location) (e : Entry) (data : Bytes) : Prop where
  directory : isDirectory e = true →
    ∃ mode, modeOf e.header = some mode ∧ t.lookup l = some (.directory mode)
  file : isDirectory e = false → ∃ id mode mtime, modeOf e.header = some mode ∧
    mtimeOf e.header = some mtime ∧
    t.lookup l = some (.file { id, data, mode, mtime := some mtime })

theorem Holds.ne_none {t : Tree} {l : Location} {e : Entry} {data : Bytes}
    (h : Holds t l e data) : t.lookup l ≠ none := by
  cases hd : isDirectory e with
  | true =>
    obtain ⟨mode, -, hl⟩ := h.directory hd
    simp [hl]
  | false =>
    obtain ⟨id, mode, mtime, -, -, hl⟩ := h.file hd
    simp [hl]

theorem Holds.congr {t t' : Tree} {l : Location} {e : Entry} {data : Bytes}
    (h : Holds t l e data) (hl : t'.lookup l = t.lookup l) : Holds t' l e data :=
  ⟨fun hd => by rw [hl]; exact h.directory hd, fun hd => by rw [hl]; exact h.file hd⟩

/-- Where there is anything else in `t'` than in `t` there was nothing, and there is a directory on
the way down from `r` by the names. -/
def Elsewhere (r : Location) (names : List Bytes) (t t' : Tree) (k : Location) : Prop :=
  t'.lookup k = t.lookup k ∨
    (t.lookup k = none ∧ t'.isDirectory k = true ∧ ∃ q, q <+: names ∧ k = r ++ q)

/-! ## The way without links -/

section Way

variable {root : PathParts} {r : Location} {names : List Bytes} {last : Bytes} {t t' : Tree}

/-- The directories that are missing on the way are made where the names say. -/
theorem Way.elsewhere (h : Way root (root ++ names) t t') (ht : t.Closed)
    (hroot : t.OnlyTo root r) (hplain : ∀ n ∈ names, IsPlain n)
    (hlinks : t.Unlinked r (names ++ [last])) (k : Location) : Elsewhere r names t t' k := by
  refine h.lookup_or_of (P := fun k => ∃ q, q <+: names ∧ k = r ++ q) ?_ k
  intro t₁ t₂ above name l hway hsame hpre hin hput
  obtain ⟨q, rfl, hq⟩ := exists_behind_root hpre hin hput
  obtain ⟨-, -, hroot₁⟩ := hway.confined ⟨ht, SameOutside.refl r t, hroot⟩
  have hlinks₁ : t₁.Unlinked r (q ++ [name]) := by
    obtain ⟨more, rfl⟩ := hq
    rw [List.append_assoc] at hlinks
    exact hlinks.of_append.of_directories hsame
  have hname : IsPlain name := hplain name (hq.subset (by simp))
  obtain ⟨_, d, _, hd, _⟩ := hin
  obtain rfl := (hroot₁.unlinked (fun n hn => hplain n (hq.subset (by simp [hn]))) hlinks₁)
    |>.eq_of_canonicalize hd
  rw [(resolve_concat (Fades.refl t₁) hname hd hput.1 (.inl rfl)).1, List.append_assoc]
  exact ⟨q ++ [name], hq, rfl⟩

/-- The directory above the last name is where the names say. -/
theorem Inside.eq_append (h : Inside root (root ++ names) t) (hroot : t.OnlyTo root r)
    (hplain : ∀ n ∈ names, IsPlain n) (hlinks : t.Unlinked r (names ++ [last])) :
    t.canonicalize (root ++ names) = .ok (r ++ names) := by
  obtain ⟨_, d, _, hd, _⟩ := h
  rw [hd, (hroot.unlinked hplain hlinks).eq_of_canonicalize hd]

end Way

/-! ## The entry itself -/

/-- `t'` is `t` with a directory or an empty file at the path, as the entry asks for. -/
inductive Sets (e : Entry) (path : PathParts) (t : Tree) : Option Location → Tree → Prop
  | directory {t'} (he : isDirectory e = true) (h : HasDirectory e.header path t t') :
      Sets e path t none t'
  | file {l t'} (he : isDirectory e = false) (h : HasFile path t l t') : Sets e path t (some l) t'

theorem Sets.placed {e : Entry} {path : PathParts} {t t' : Tree} {o : Option Location}
    (h : Sets e path t o t') : Placed path t o t' := by
  cases h with
  | directory _ h => exact h.placed
  | file _ h => exact h.1

theorem ensures_place_plain {e : Entry} (he : Plain e) (outer : Location) {path : PathParts}
    {t : Tree} : Ensures (· = t) (place outer e path) (Sets e path t) (fun _ => True) := by
  have hkind : e.header.kind ≠ .hardLink ∧ e.header.kind ≠ .symlink := by
    have := he.notLink
    rwa [EntryKind.isLink, Bool.or_eq_false_iff, beq_eq_false_iff_ne, beq_eq_false_iff_ne] at this
  unfold place
  by_cases hd : isDirectory e = true
  · rw [if_pos hd]
    exact ensures_bind ((ensures_placeDirectory e.header).mono (fun _ _ h => h) fun _ _ => trivial)
      fun _ => ensures_pure fun _ h => .directory hd h
  · rw [if_neg hd, if_neg hkind.1, if_neg hkind.2, if_neg (by simp [he.notAbout])]
    exact ensures_bind (ensures_placeFile.mono (fun _ _ h => h) fun _ _ => trivial)
      fun _ => ensures_pure fun _ h => .file (by simpa using hd) h

/-- What comes of preparing for a file or a directory if it does not fail. -/
theorem ensures_prepare_plain {e : Entry} (he : Plain e) (hnames : Path.names e.path ≠ [])
    {root : PathParts} {t : Tree} :
    Ensures (· = t) (prepare root e) (fun o t' => ∃ t₁,
      Way root (root ++ (Path.names e.path).dropLast) t t₁ ∧
      Inside root (root ++ (Path.names e.path).dropLast) t₁ ∧
      Sets e (root ++ Path.names e.path) t₁ o t') (fun _ => True) := by
  unfold prepare
  dsimp only
  rw [if_neg hnames]
  refine ensures_bind (ensures_makeWay.mono (fun _ _ h => h) fun _ _ => trivial) fun _ => ?_
  refine ensures_bind ((ensures_requireInside _ root _).mono (fun _ _ h => h) fun _ _ => trivial)
    fun outer => ?_
  intro t₁ h
  exact (ensures_place_plain he outer).mono (fun o t' hs => ⟨t₁, h.1, h.2, hs⟩) (fun _ h => h) t₁ rfl

theorem lookup_applyMode_directory {header : Header} {l : Location} {t : Tree} {mode : Nat}
    (h : t.isDirectory l = true) (hmode : modeOf header = some mode) :
    (applyMode header l t).lookup l = some (.directory mode) := by
  obtain ⟨old, hl⟩ := isDirectory_iff.mp h
  unfold applyMode
  rw [hmode]
  dsimp only
  rw [setMode, lookup_modify, if_pos rfl, hl]
  rfl

/-- A directory is where the names say, and has the mode that the header gives. -/
theorem HasDirectory.lookup {header : Header} {above : PathParts} {name : Bytes}
    (hname : IsPlain name) {t t' : Tree} (h : HasDirectory header (above ++ [name]) t t')
    {d : Location} (hd : t.canonicalize above = .ok d) {mode : Nat}
    (hmode : modeOf header = some mode) :
    t'.lookup (d ++ [name]) = some (.directory mode) := by
  cases h with
  | @intro k t₁ l hk h hdir hl =>
    obtain rfl := (resolve_concat (Fades.refl t) hname hd hk (.inl rfl)).1
    obtain ⟨old, hold⟩ := isDirectory_iff.mp hdir
    have hfades : t.Fades t₁ := h.elim (fun e => e ▸ Fades.refl t) Puts.fades
    obtain rfl := (resolve_concat hfades hname hd hl (.inr (by simp [hold]))).1
    exact lookup_applyMode_directory hdir hmode

/-- What unpacking an entry for a file or a directory leaves if it does not fail: the entry is
where its names say, and nothing else was changed but that directories were made on the way. -/
structure Laid (r : Location) (names : List Bytes) (e : Entry) (data : Bytes) (t t' : Tree) :
    Prop where
  holds : Holds t' (r ++ names) e data
  elsewhere : ∀ k, k ≠ r ++ names → Elsewhere r names t t' k

/-- No links come in where an entry is laid down. -/
theorem Laid.unlinked {r : Location} {names more : List Bytes} {e : Entry} {data : Bytes}
    {t t' : Tree} (h : Laid r names e data t t') (hlinks : t.Unlinked r more) :
    t'.Unlinked r more := by
  refine hlinks.of_links fun l target hl => ?_
  by_cases hk : l = r ++ names
  · subst hk
    cases hd : isDirectory e with
    | true =>
      obtain ⟨mode, -, hnode⟩ := h.holds.directory hd
      rw [hnode] at hl
      cases hl
    | false =>
      obtain ⟨id, mode, mtime, -, -, hnode⟩ := h.holds.file hd
      rw [hnode] at hl
      cases hl
  · rcases h.elsewhere l hk with he | ⟨-, hdir, -⟩
    · exact he ▸ hl
    · obtain ⟨mode, hmode⟩ := isDirectory_iff.mp hdir
      rw [hmode] at hl
      cases hl

theorem Sets.laid {e : Entry} (he : Plain e) {root above : PathParts} {r : Location} {last : Bytes}
    {t t₁ t' : Tree} {o : Option Location} (ht : t.Closed) (hroot : t.OnlyTo root r)
    (hplain : ∀ n ∈ above ++ [last], IsPlain n) (hlinks : t.Unlinked r (above ++ [last]))
    (hway : Way root (root ++ above) t t₁) (hin : Inside root (root ++ above) t₁)
    (h : Sets e (root ++ above ++ [last]) t₁ o t') (data : Bytes) :
    Laid r (above ++ [last]) e data t (o.elim t' fun l => fill e.header l data true t') := by
  have habove : ∀ n ∈ above, IsPlain n := fun n hn => hplain n (by simp [hn])
  have hlast : IsPlain last := hplain last (by simp)
  have hways := hway.elsewhere ht hroot habove hlinks
  have hroot₁ := (hway.confined ⟨ht, SameOutside.refl r t, hroot⟩).only
  have hlinks₁ := hlinks.of_directories fun k => (hways k).imp_right fun h => h.2.1
  have hd := hin.eq_append hroot₁ habove hlinks₁
  obtain ⟨hsame, ho⟩ := h.placed.sameBut hlast hd
  rw [List.append_assoc] at hsame ho
  -- apart from its own place, the entry leaves what was made on the way
  have helse : ∀ {t''}, SameBut (r ++ (above ++ [last])) t₁ t'' → ∀ k, k ≠ r ++ (above ++ [last]) →
      Elsewhere r (above ++ [last]) t t'' k := by
    intro t'' hs k hk
    rw [Elsewhere, Tree.isDirectory, hs k hk]
    refine (hways k).imp_right ?_
    rintro ⟨h₁, h₂, q, hq, hk⟩
    exact ⟨h₁, h₂, q, hq.trans (List.prefix_append above [last]), hk⟩
  obtain ⟨mode, hmode⟩ := Option.isSome_iff_exists.mp he.mode
  obtain ⟨mtime, hmtime⟩ := Option.isSome_iff_exists.mp he.mtime
  cases h with
  | directory hdir h =>
    have hnode := h.lookup hlast hd hmode
    rw [List.append_assoc] at hnode
    exact ⟨⟨fun _ => ⟨mode, hmode, hnode⟩, fun hne => absurd hdir (by simp [hne])⟩, helse hsame⟩
  | @file l t' hdir h =>
    obtain rfl := ho l rfl
    obtain ⟨id, hfile⟩ := h.2
    have hnode : (fill e.header _ data true t').lookup (r ++ (above ++ [last])) = _ :=
      lookup_fill hfile
    rw [hmode, hmtime] at hnode
    have hsame' := hsame.trans (sameBut_fill e.header _ data true t')
    exact ⟨⟨fun hne => absurd hne (by simp [hdir]),
      fun _ => ⟨id, mode, mtime, hmode, hmtime, hnode⟩⟩, helse hsame'⟩

/-- Where no links are on the way, preparing for a file or a directory and filling it lays the
entry down. -/
theorem laid_of_prepare {e : Entry} (he : Plain e) (hnames : Path.names e.path ≠ [])
    {root : PathParts} {r : Location} {t t' : Tree} {o : Option Location} (ht : t.Closed)
    (hroot : t.OnlyTo root r) (hlinks : t.Unlinked r (Path.names e.path))
    (h : (prepare root e).run t = (.ok o, t')) (data : Bytes) :
    Laid r (Path.names e.path) e data t (o.elim t' fun l => fill e.header l data true t') := by
  have hensures := (ensures_prepare_plain he hnames : Ensures (· = t) (prepare root e) _ _) t rfl
  rw [h] at hensures
  obtain ⟨t₁, hway, hin, hsets⟩ := hensures
  have hplain : ∀ n ∈ Path.names e.path, IsPlain n := fun _ => Path.isPlain_of_mem_names
  obtain ⟨above, last, hsplit⟩ := (List.eq_nil_or_concat (Path.names e.path)).resolve_left hnames
  rw [List.concat_eq_append] at hsplit
  rw [hsplit] at hway hin hsets hlinks hplain ⊢
  rw [List.dropLast_concat] at hway hin
  rw [← List.append_assoc] at hsets
  exact hsets.laid he ht hroot hplain hlinks hway hin data

end Unpack
end ContainerLayer
