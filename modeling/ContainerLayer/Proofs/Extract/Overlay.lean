import ContainerLayer.Proofs.Extract.Following
import ContainerLayer.Proofs.Unpack.Overlaying

/-
Archives of files and directories.

Where no links are on the ways to the entries, an archive is laid over the tree, entry by entry.
What an entry leaves stays until an entry with the same names is laid over it, and everything that
no entry names stays as it is, apart from directories that were missing (`overlay_outcome`).
-/

namespace ContainerLayer
namespace Extract

open Tar Tape Unpack ContainerLayer.Tree

/-- An entry for a file or a directory that has a name and is no whiteout. -/
structure Ordinary (e : Entry) : Prop extends Plain e where
  whiteout : whiteout? e.path = none
  named : Path.names e.path ≠ []

/-- The last of the entries that has these names. -/
def lastNamed (items : List (Entry × Bytes)) (names : List Bytes) : Option (Entry × Bytes) :=
  (items.filter fun x => Path.names x.1.path = names).getLast?

/-- What the entries leave of `t`, if they are unpacked to the directory at `r` one after the
other: of those with the same names the last one is there, so are the directories above each of
them, and elsewhere nothing is changed but that missing directories were made. -/
structure Overlays (r : Location) (items : List (Entry × Bytes)) (t t' : Tree) : Prop where
  last : ∀ names x, lastNamed items names = some x → Holds t' (r ++ names) x.1 x.2
  above : ∀ x ∈ items, ∀ q, q <+: Path.names x.1.path → q ≠ Path.names x.1.path →
    t'.isDirectory (r ++ q) = true
  elsewhere : ∀ k, (∀ x ∈ items, k ≠ r ++ Path.names x.1.path) → t'.lookup k = t.lookup k ∨
    (t.lookup k = none ∧ t'.isDirectory k = true ∧
      ∃ x ∈ items, ∃ q, q <+: Path.names x.1.path ∧ k = r ++ q)

section Items

variable {r : Location} {items : List (Entry × Bytes)} {x : Entry × Bytes} {t t₁ t' : Tree}

theorem lastNamed_cons (x : Entry × Bytes) (items : List (Entry × Bytes)) (names : List Bytes) :
    lastNamed (x :: items) names = if Path.names x.1.path = names
      then some ((lastNamed items names).getD x) else lastNamed items names := by
  unfold lastNamed
  rw [List.filter_cons]
  by_cases h : Path.names x.1.path = names
  · rw [if_pos (by simpa using h), if_pos h, List.getLast?_cons]
  · rw [if_neg (by simpa using h), if_neg h]

theorem lastNamed_eq_none_iff {names : List Bytes} :
    lastNamed items names = none ↔ ∀ x ∈ items, Path.names x.1.path ≠ names := by
  rw [lastNamed, List.getLast?_eq_none_iff, List.filter_eq_nil_iff]
  simp

theorem Overlays.nil (r : Location) (t : Tree) : Overlays r [] t t where
  last names x h := by cases h
  above x hx := absurd hx List.not_mem_nil
  elsewhere k _ := .inl rfl

/-- Every entry that was unpacked has something in its place. -/
theorem Overlays.ne_none (h : Overlays r items t t') (hx : x ∈ items) :
    t'.lookup (r ++ Path.names x.1.path) ≠ none := by
  cases hl : lastNamed items (Path.names x.1.path) with
  | none => exact absurd rfl (lastNamed_eq_none_iff.mp hl x hx)
  | some y => exact (h.last _ y hl).ne_none

/-- One more entry in front of the others. -/
theorem Overlays.cons (h : Overlays r items t₁ t') (ht' : t'.Closed)
    (hx : Laid r (Path.names x.1.path) x.1 x.2 t t₁) : Overlays r (x :: items) t t' := by
  have hlast : ∀ names y, lastNamed (x :: items) names = some y →
      Holds t' (r ++ names) y.1 y.2 := by
    intro names y hy
    rw [lastNamed_cons] at hy
    by_cases hnames : Path.names x.1.path = names
    · rw [if_pos hnames] at hy
      cases hl : lastNamed items names with
      | some z =>
        rw [hl] at hy
        exact h.last names y (hl.trans hy)
      | none =>
        -- no later entry has these names, so what `x` left is still there
        rw [hl] at hy
        obtain rfl : x = y := Option.some.inj hy
        subst hnames
        refine hx.holds.congr ((h.elsewhere _ fun z hz e => ?_).resolve_right fun hnone => ?_)
        · exact lastNamed_eq_none_iff.mp hl z hz (List.append_cancel_left e).symm
        · exact hx.holds.ne_none hnone.1
    · rw [if_neg hnames] at hy
      exact h.last names y hy
  refine ⟨hlast, fun y hy q hq hne => ?_, fun k hk => ?_⟩
  · obtain ⟨z, hz⟩ := Option.ne_none_iff_exists'.mp fun hnone =>
      lastNamed_eq_none_iff.mp hnone y hy rfl
    exact ht'.descends (hlast _ z hz).ne_none q hq hne
  · obtain ⟨hkx, hk⟩ := List.forall_mem_cons.mp hk
    rcases h.elsewhere k hk with hsame | ⟨hnone, hdir, z, hz, hq⟩
    · rw [Tree.isDirectory, hsame]
      refine (hx.elsewhere k hkx).imp_right ?_
      rintro ⟨h₁, h₂, hq⟩
      exact ⟨h₁, h₂, x, List.mem_cons_self, hq⟩
    · refine .inr ⟨?_, hdir, z, List.mem_cons_of_mem _ hz, hq⟩
      rcases hx.elsewhere k hkx with he | ⟨he, -⟩
      · rw [← he, hnone]
      · exact he

end Items

/-- An entry that is applied to its end is laid down where no links are on the way. -/
theorem Done.laid {root : PathParts} {e : Entry} {b : Bytes} {p p' : Progress}
    (h : Done root e b p p') (he : Ordinary e) {r : Location} (ht : p.tree.Closed)
    (hroot : p.tree.OnlyTo root r) (hlinks : p.tree.Unlinked r (Path.names e.path)) :
    Laid r (Path.names e.path) e (e.content.expand b).1 p.tree p'.tree := by
  cases h with
  | removed hw _ =>
    rw [he.whiteout] at hw
    cases hw
  | placed _ _ h => exact laid_of_prepare he.toPlain he.named ht hroot hlinks h _
  | filled _ _ h _ => exact laid_of_prepare he.toPlain he.named ht hroot hlinks h _

theorem Follows.overlays {root : PathParts} {archive : Bytes} {start stop : Nat} {p p' : Progress}
    {items : List (Entry × Bytes)} (h : Follows root archive start p items stop p') {r : Location}
    (hitems : ∀ x ∈ items, Ordinary x.1) (ht : p.tree.Closed) (hroot : p.tree.OnlyTo root r)
    (hlinks : ∀ x ∈ items, p.tree.Unlinked r (Path.names x.1.path)) :
    Overlays r items p.tree p'.tree := by
  induction h with
  | here start p => exact .nil r p.tree
  | entry h hd hs ih =>
    obtain ⟨hx, hitems⟩ := List.forall_mem_cons.mp hitems
    obtain ⟨hlx, hlinks⟩ := List.forall_mem_cons.mp hlinks
    have hlaid := hd.laid hx ht hroot hlx
    obtain ⟨ht₁, hroot₁⟩ := hd.applies.closed_and_onlyTo ht hroot
    exact (ih hitems ht₁ hroot₁ fun x hx => hlaid.unlinked (hlinks x hx)).cons (hs.closed ht₁) hlaid

/-- What comes of applying an archive of files and directories that are named without links on
the way, if that succeeds: the result is how many entries there are, each of them is there unless
a later one has the same names, the directories above it are there, and everything else is as it
was, but that directories which were missing were made. -/
theorem overlay_outcome {σ : Type} [Reader σ] {I : σ → Prop} {output : σ → Bytes}
    (h : Reader.Hands I output) {s : σ} (hs : I s) {root : PathParts} {t : Tree} (ht : t.Closed)
    {r : Location} (hroot : t.canonicalize root = .ok r)
    (hitems : ∀ x ∈ entriesFrom (output s) 0, Ordinary x.1)
    (hlinks : ∀ x ∈ entriesFrom (output s) 0, t.Unlinked r (Path.names x.1.path))
    {n : Nat} {t' : Tree} (hrun : (Relay.run (applyArchive root t) s).result = (.ok n, t')) :
    n = (entriesFrom (output s) 0).length ∧ Overlays r (entriesFrom (output s) 0) t t' := by
  obtain ⟨items, stop, p, c, hf, hc, hends⟩ :=
    exists_follows h root { tree := t } (within_start output hs)
  rw [show (Relay.run (applyEntries root 0 _ _) _).result = (.ok n, t') from hrun] at hends
  cases hends with
  | done hread =>
    have hentries : entriesFrom (output s) 0 = items := by
      rw [hf.entries, entriesFrom_of_stops (hc.stops h hread), List.append_nil]
    rw [hentries] at hitems hlinks ⊢
    refine ⟨?_, hf.overlays hitems ht (onlyTo_of_canonicalize hroot) hlinks⟩
    rw [hf.count]
    exact Nat.zero_add _

/-- A file, another one of the same name, and the directory that both of them are in. -/
def layers : Bytes :=
  plainMember .regular (ascii "x/b") (ascii "old") 0o644
    ++ plainMember .regular (ascii "./x//b") (ascii "new") 0o600
    ++ plainMember .directory (ascii "x/") [] 0o700

/-- The second file is there in place of the first one, the directory has its own mode, although
it was made for the first one, and a file beside it is left alone. -/
theorem layers_laid_over :
    ∃ t', (Relay.run (applyArchive [ascii "root"] twoFiles) (Source.ofBytes layers)).result
        = (.ok 3, t') ∧
      (∃ id, t'.lookup [ascii "root", ascii "x", ascii "b"]
        = some (.file { id, data := ascii "new", mode := 0o600, mtime := some 1 })) ∧
      t'.lookup [ascii "root", ascii "x"] = some (.directory 0o700) ∧
      t'.lookup [ascii "root", ascii "a"] = twoFiles.lookup [ascii "root", ascii "a"] := by
  have honly := Source.onlyData_ofBytes layers
  have hremaining : (Source.ofBytes layers).remaining = layers := List.append_nil _
  have hseen : (entriesFrom layers 0).map (fun x => ((x.1.header.kind, Unpack.isDirectory x.1),
        (modeOf x.1.header, mtimeOf x.1.header), x.1.path, x.2))
      = [((.regular, false), (some 0o644, some 1), ascii "x/b", ascii "old"),
        ((.regular, false), (some 0o600, some 1), ascii "./x//b", ascii "new"),
        ((.directory, true), (some 0o700, some 1), ascii "x/", [])] := by
    decide +kernel
  obtain ⟨x, _, hitems, hx, hrest⟩ := List.map_eq_cons_iff.mp hseen
  obtain ⟨y, _, rfl, hy, hrest⟩ := List.map_eq_cons_iff.mp hrest
  obtain ⟨z, _, rfl, hz, hrest⟩ := List.map_eq_cons_iff.mp hrest
  obtain rfl := List.map_eq_nil_iff.mp hrest
  simp only [Prod.mk.injEq] at hx hy hz
  obtain ⟨⟨hxk, -⟩, ⟨hxm, hxt⟩, hxp, -⟩ := hx
  obtain ⟨⟨hyk, hyd⟩, ⟨hym, hyt⟩, hyp, hyb⟩ := hy
  obtain ⟨⟨hzk, hzd⟩, ⟨hzm, hzt⟩, hzp, -⟩ := hz
  have hxn : Path.names x.1.path = [ascii "x", ascii "b"] := by rw [hxp]; decide
  have hyn : Path.names y.1.path = [ascii "x", ascii "b"] := by rw [hyp]; decide
  have hzn : Path.names z.1.path = [ascii "x"] := by rw [hzp]; decide
  have hordinary : ∀ w ∈ entriesFrom layers 0, Ordinary w.1 := by
    rw [hitems]
    simp only [List.forall_mem_cons, List.not_mem_nil, false_imp_iff, implies_true, and_true]
    refine ⟨⟨⟨?_, ?_, ?_, ?_⟩, ?_, ?_⟩, ⟨⟨?_, ?_, ?_, ?_⟩, ?_, ?_⟩, ⟨⟨?_, ?_, ?_, ?_⟩, ?_, ?_⟩⟩
    all_goals simp only [hxk, hyk, hzk, hxm, hym, hzm, hxt, hyt, hzt, hxp, hyp, hzp]
    all_goals decide
  have hlinks : ∀ l target, twoFiles.lookup l ≠ some (.symlink target) := by
    intro l target h
    obtain ⟨p, hp, hnode⟩ := Option.map_eq_some_iff.mp h
    have hmem := List.mem_of_find?_eq_some hp
    have hnone : ∀ p ∈ twoFiles.nodes, p.2 ≠ .symlink target := by simp [twoFiles]
    exact hnone p hmem hnode
  have hok : (Relay.run (applyArchive [ascii "root"] twoFiles) (Source.ofBytes layers)).result.1
      = .ok 3 := by
    decide +kernel
  obtain ⟨-, hover⟩ := overlay_outcome Source.hands honly.steady (r := [ascii "root"])
    (t := twoFiles) (by decide) (by rfl) (by rwa [hremaining]) (fun _ _ _ _ _ => hlinks _)
    (Prod.ext hok rfl)
  rw [hremaining, hitems] at hover
  refine ⟨_, Prod.ext hok rfl, ?_, ?_, ?_⟩
  · have hlast : lastNamed [x, y, z] [ascii "x", ascii "b"] = some y := by
      rw [lastNamed_cons, lastNamed_cons, lastNamed_cons, hxn, hyn, hzn]
      rfl
    obtain ⟨id, mode, mtime, hmode, hmtime, hnode⟩ := (hover.last _ y hlast).file hyd
    rw [hym] at hmode
    rw [hyt] at hmtime
    cases hmode
    cases hmtime
    rw [hyb] at hnode
    exact ⟨id, hnode⟩
  · have hlast : lastNamed [x, y, z] [ascii "x"] = some z := by
      rw [lastNamed_cons, lastNamed_cons, lastNamed_cons, hxn, hyn, hzn]
      rfl
    obtain ⟨mode, hmode, hnode⟩ := (hover.last _ z hlast).directory hzd
    rw [hzm] at hmode
    cases hmode
    exact hnode
  · refine (hover.elsewhere _ ?_).resolve_right fun hnone => absurd hnone.1 (by decide)
    simp only [List.forall_mem_cons, List.not_mem_nil, false_imp_iff, implies_true, and_true, hxn,
      hyn, hzn]
    decide

end Extract
end ContainerLayer
