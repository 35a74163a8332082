import ContainerLayer.Proofs.Tree.Arriving
import ContainerLayer.Proofs.Tree.Removal
import Mathlib.Data.List.Induction
import Mathlib.Data.List.Infix

/-
Ways without symbolic links.

Names that come to no link before their end can lead nowhere but to their own location.  They
do so unless something is in the way (`Obstructed`) or missing (`follow_unlinked`), so what a
removal by such a path does is known from the tree without following the path.
-/

namespace ContainerLayer

def Node.isSymlink : Node → Bool
  | symlink _ => true
  | _ => false

namespace Tree

/-- No symbolic link is on the way down from `here` by the names, except perhaps at its end. -/
def Unlinked (t : Tree) (here : Location) (names : List Bytes) : Prop :=
  ∀ q, q <+: names → q ≠ names → ∀ target, t.lookup (here ++ q) ≠ some (.symlink target)

/-- There is something that is no directory. -/
def Blocked (t : Tree) (l : Location) : Prop := t.lookup l ≠ none ∧ t.isDirectory l = false

/-- On the way down from `here` by the names there is something that is no directory, or a
directory in which a name is looked up that is too long. -/
def Obstructed (t : Tree) (here : Location) (names : List Bytes) : Prop :=
  ∃ q name more, names = q ++ name :: more ∧
    (t.Blocked (here ++ q) ∨ t.isDirectory (here ++ q) = true ∧ maxName < name.length)

/-- A path that is too long as a whole. -/
def Overlong (path : PathParts) : Prop := maxPath ≤ pathLength path

section Ways

variable {t : Tree} {here : Location} {name : Bytes} {names : List Bytes}

theorem unlinked_nil : t.Unlinked here [] := fun _ hq hne => absurd (List.prefix_nil.mp hq) hne

theorem unlinked_cons : t.Unlinked here (name :: names) ↔
    (∀ target, t.lookup here ≠ some (.symlink target)) ∧ t.Unlinked (here ++ [name]) names := by
  constructor
  · intro h
    refine ⟨fun target => ?_, fun q hq hne => ?_⟩
    · simpa using h [] List.nil_prefix (by simp) target
    · rw [List.append_assoc]
      exact h (name :: q) (List.cons_prefix_cons.mpr ⟨rfl, hq⟩) (by simpa using hne)
  · intro h q hq hne
    cases q with
    | nil => simpa using h.1
    | cons first q =>
      obtain ⟨rfl, hrest⟩ := List.cons_prefix_cons.mp hq
      rw [List.append_cons]
      exact h.2 q hrest (by simpa using hne)

theorem Unlinked.of_append {more : List Bytes} (h : t.Unlinked here (names ++ more)) :
    t.Unlinked here names := by
  refine fun q hq hne => h q (hq.trans (List.prefix_append names more)) ?_
  rintro rfl
  exact hne (hq.eq_of_length_le (by simp))

/-- Without further links in the tree there are none on the way, either. -/
theorem Unlinked.of_links {t' : Tree} (h : t.Unlinked here names)
    (hl : ∀ l target, t'.lookup l = some (.symlink target) →
      t.lookup l = some (.symlink target)) : t'.Unlinked here names :=
  fun q hq hne target e => h q hq hne target (hl _ target e)

/-- Directories that are made are no links. -/
theorem Unlinked.of_directories {t' : Tree} (h : t.Unlinked here names)
    (hd : ∀ l, t'.lookup l = t.lookup l ∨ t'.isDirectory l = true) : t'.Unlinked here names := by
  refine h.of_links fun l target e => ?_
  rcases hd l with hl | hl
  · exact hl ▸ e
  · obtain ⟨mode, hmode⟩ := isDirectory_iff.mp hl
    rw [hmode] at e
    cases e

theorem obstructed_nil : ¬ t.Obstructed here [] := by
  rintro ⟨q, name, more, e, _⟩
  simp at e

theorem obstructed_cons : t.Obstructed here (name :: names) ↔
    t.Blocked here ∨ (t.isDirectory here = true ∧ maxName < name.length) ∨
      t.Obstructed (here ++ [name]) names := by
  constructor
  · rintro ⟨q, name', more, e, h⟩
    cases q with
    | nil =>
      cases e
      rw [List.append_nil] at h
      exact h.imp_right .inl
    | cons first q =>
      cases e
      rw [List.append_cons] at h
      exact .inr (.inr ⟨q, name', more, rfl, h⟩)
  · rintro (h | h | ⟨q, name', more, rfl, h⟩)
    · exact ⟨[], name, names, rfl, .inl (by rwa [List.append_nil])⟩
    · exact ⟨[], name, names, rfl, .inr (by rwa [List.append_nil])⟩
    · exact ⟨name :: q, name', more, rfl, by rwa [List.append_cons]⟩

/-- Where there is nothing, nothing is in the way, either. -/
theorem Closed.not_obstructed (ht : t.Closed) (h : t.lookup here = none) :
    ¬ t.Obstructed here names := by
  rintro ⟨q, name, more, _, hq⟩
  have hthere : t.lookup (here ++ q) ≠ none :=
    hq.elim And.left fun hq => ne_none_of_isDirectory hq.1
  by_cases hnil : q = []
  · rw [hnil, List.append_nil] at hthere
    exact hthere h
  · exact ne_none_of_isDirectory (ht.isDirectory_of_append hthere hnil) h

theorem follow_of_none {last : Bool} {links : Nat} (h : t.lookup here = none) :
    t.follow last links here (name :: names) = .error .notFound := by
  rw [follow_eq_walk, walk, h]

theorem follow_of_blocked {last : Bool} {links : Nat} (h : t.Blocked here) :
    t.follow last links here (name :: names) = .error .notADirectory := by
  obtain ⟨hthere, hdir⟩ := h
  obtain ⟨n, hn⟩ := Option.ne_none_iff_exists'.mp hthere
  rw [follow_eq_walk, walk, hn]
  cases n with
  | file f => rfl
  | symlink target => rfl
  | directory mode => simp [isDirectory, hn, Node.isDirectory] at hdir

/-- From a directory a name leads to its place there, unless there is a link to follow. -/
theorem follow_step {last : Bool} {links : Nat} (hd : t.isDirectory here = true) (hp : IsPlain name)
    (hlen : name.length ≤ maxName) (h : t.Unlinked here (name :: names))
    (hlast : last = false ∨ ∀ target, t.lookup (here ++ name :: names) ≠ some (.symlink target)) :
    t.follow last links here (name :: names) = t.follow last links (here ++ [name]) names := by
  cases hn : t.lookup (here ++ [name]) with
  | none =>
    rw [follow_vacant hd hp hlen hn]
    cases names with
    | nil => rw [if_pos rfl, follow_nil]
    | cons next names => rw [if_neg (List.cons_ne_nil _ _), follow_of_none hn]
  | some n =>
    cases names with
    | nil =>
      rcases hlast with rfl | hlast
      · rw [follow_last hd hp hlen, follow_nil]
      · refine follow_cons hd hp hlen hn fun target e => ?_
        exact hlast target (by rw [hn, e])
    | cons next names =>
      refine follow_cons hd hp hlen hn fun target e => ?_
      exact h [name] (by simp) (by simp) target (by rw [hn, e])

/-- Names without links lead to their own location, unless something is in the way, or nothing
is there because a directory is missing. -/
theorem follow_unlinked {last : Bool} (ht : t.Closed) (links : Nat)
    (hplain : ∀ n ∈ names, IsPlain n) (h : t.Unlinked here names)
    (hlast : last = false ∨ ∀ target, t.lookup (here ++ names) ≠ some (.symlink target)) :
    (t.Obstructed here names ∧
        ∃ k, t.follow last links here names = .error k ∧ k ≠ .notFound) ∨
      (¬ t.Obstructed here names ∧ t.lookup (here ++ names) = none ∧
        t.follow last links here names = .error .notFound) ∨
      (¬ t.Obstructed here names ∧ t.follow last links here names = .ok (here ++ names)) := by
  induction names generalizing here with
  | nil => exact .inr (.inr ⟨obstructed_nil, by rw [follow_nil, List.append_nil]⟩)
  | cons name names ih =>
    obtain ⟨hp, hplain⟩ := List.forall_mem_cons.mp hplain
    by_cases hnone : t.lookup here = none
    · refine .inr (.inl ⟨ht.not_obstructed hnone, ?_, follow_of_none hnone⟩)
      refine Classical.byContradiction fun hthere => ?_
      exact ne_none_of_isDirectory (ht.isDirectory_of_append hthere (by simp)) hnone
    rw [obstructed_cons]
    by_cases hdir : t.isDirectory here = true
    · by_cases hlong : maxName < name.length
      · exact .inl ⟨.inr (.inl ⟨hdir, hlong⟩), _, follow_of_long hdir hp hlong, by decide⟩
      have hblocked : ¬ t.Blocked here := fun hb => by simp [hb.2] at hdir
      rw [follow_step hdir hp (Nat.not_lt.mp hlong) h hlast]
      rw [List.append_cons here name names] at hlast ⊢
      have ih := ih hplain (unlinked_cons.mp h).2 hlast
      simpa only [hblocked, hlong, and_false, false_or] using ih
    · have hblocked : t.Blocked here := ⟨hnone, by simpa using hdir⟩
      exact .inl ⟨.inl hblocked, _, follow_of_blocked hblocked, by decide⟩

end Ways

section Paths

variable {t : Tree} {root : PathParts} {r : Location} {names : List Bytes}

/-- A path on which there are no links leads nowhere but to its own location. -/
theorem OnlyTo.unlinked (hroot : t.OnlyTo root r) (hplain : ∀ n ∈ names, IsPlain n) {last : Bytes}
    (h : t.Unlinked r (names ++ [last])) : t.OnlyTo (root ++ names) (r ++ names) := by
  induction names using List.reverseRecOn generalizing last with
  | nil => rwa [List.append_nil, List.append_nil]
  | append_singleton front name ih =>
    intro l hl hn
    rw [← List.append_assoc] at hl ⊢
    obtain ⟨d, hd, hdir, hlast⟩ := hl.concat (hplain name (by simp))
    obtain rfl := ih (fun n hn => hplain n (by simp [hn])) h.of_append d hd
      (ne_none_of_isDirectory hdir)
    refine hlast (.inr ?_)
    rw [List.append_assoc]
    exact h _ (List.prefix_append _ _) (by simp)

/-- A path that starts with one that leads somewhere is refused only for its length. -/
theorem resolve_of_overlong (last : Bool) (hroot : t.canonicalize root = .ok r)
    (hzero : ∀ n ∈ names, 0 ∉ n) :
    (Overlong (root ++ names) → t.resolve last (root ++ names) = .error .invalidFilename) ∧
      (¬ Overlong (root ++ names) → Legal (root ++ names)) := by
  obtain ⟨n, hf⟩ := canonicalize_eq_ok_iff.mp hroot
  have hlegal := legal_of_resolve (find_eq_ok_iff.mp hf).1
  have hnames : (names.any fun n => n.contains 0) = false := by simpa using hzero
  have hany : ((root ++ names).any fun n => n.contains 0) = false := by
    rw [List.any_append, hlegal.1, hnames]
    rfl
  refine ⟨fun hlong => ?_, fun hlong => ⟨hany, Nat.not_le.mp hlong⟩⟩
  rw [resolve, if_neg (by rw [hany]; decide)]
  exact if_pos hlong

/-- What is found by a path without links. -/
theorem find_unlinked (last : Bool) (ht : t.Closed) (hroot : t.canonicalize root = .ok r)
    (hne : names ≠ []) (hplain : ∀ n ∈ names, IsPlain n) (hzero : ∀ n ∈ names, 0 ∉ n)
    (h : t.Unlinked r names)
    (hlast : last = false ∨ ∀ target, t.lookup (r ++ names) ≠ some (.symlink target)) :
    ((Overlong (root ++ names) ∨ t.Obstructed r names) ∧
        ∃ k, t.find last (root ++ names) = .error k ∧ k ≠ .notFound) ∨
      (¬ (Overlong (root ++ names) ∨ t.Obstructed r names) ∧ t.lookup (r ++ names) = none ∧
        t.find last (root ++ names) = .error .notFound) ∨
      (¬ (Overlong (root ++ names) ∨ t.Obstructed r names) ∧
        ∃ n, t.find last (root ++ names) = .ok (r ++ names, n)) := by
  obtain ⟨hrefused, hlegal⟩ := resolve_of_overlong last hroot hzero
  by_cases hlong : Overlong (root ++ names)
  · refine .inl ⟨.inl hlong, .invalidFilename, ?_, by decide⟩
    rw [find, hrefused hlong]
    rfl
  simp only [hlong, false_or]
  obtain ⟨links, hfollow⟩ := exists_follow_of_canonicalize hroot (hlegal hlong) hne
  rcases follow_unlinked ht links hplain h hlast with ⟨ho, k, hf, hk⟩ | ⟨ho, hnone, hf⟩ | ⟨ho, hf⟩
  · refine .inl ⟨ho, k, ?_, hk⟩
    rw [find, hfollow, hf]
    rfl
  · refine .inr (.inl ⟨ho, hnone, ?_⟩)
    rw [find, hfollow, hf]
    rfl
  · rw [← hfollow] at hf
    cases hn : t.lookup (r ++ names) with
    | none =>
      refine .inr (.inl ⟨ho, rfl, ?_⟩)
      rw [find, hf]
      simp only [bind, Except.bind, hn]
      rfl
    | some n => exact .inr (.inr ⟨ho, n, find_eq_ok_iff.mpr ⟨hf, hn⟩⟩)

/-- Removing by a path without links fails just if something is in the way or the path is too
long.  Otherwise what is at the location of the path goes, with everything below it.  Only a
directory that `root` does not lead past any more once it is empty stays itself. -/
theorem Closed.removeAll_unlinked (ht : t.Closed) (hroot : t.canonicalize root = .ok r)
    (hne : names ≠ []) (hplain : ∀ n ∈ names, IsPlain n) (hzero : ∀ n ∈ names, 0 ∉ n)
    (h : t.Unlinked r names) :
    ((Overlong (root ++ names) ∨ t.Obstructed r names) ∧
        ∃ k, t.removeAll (root ++ names) = .error k) ∨
      (¬ (Overlong (root ++ names) ∨ t.Obstructed r names) ∧
        ∃ t', t.removeAll (root ++ names) = .ok t' ∧
          Without (fun k => r ++ names <+: k ∧ (k = r ++ names → t.isDirectory k = true →
            (t.hollow k).hasEntry (root ++ names) = true)) t t' ∧
          (t'.canonicalize root = .ok r → Without (r ++ names <+: ·) t t') ∧
          (t.lookup (r ++ names) = none → t' = t)) := by
  rcases find_unlinked false ht hroot hne hplain hzero h (.inl rfl) with
    ⟨hbad, k, hf, hk⟩ | ⟨hgood, hnone, hf⟩ | ⟨hgood, n, hf⟩
  · exact .inl ⟨hbad, k, removeAll_of_error hf hk⟩
  · have hremove : t.removeAll (root ++ names) = .ok t := by rw [removeAll, hf]
    have hbelow : ∀ k, t.lookup k ≠ none → ¬ r ++ names <+: k := by
      rintro _ hk ⟨more, rfl⟩
      by_cases hmore : more = []
      · rw [hmore, List.append_nil] at hk
        exact hk hnone
      · exact ne_none_of_isDirectory (ht.isDirectory_of_append hk hmore) hnone
    exact .inr ⟨hgood, t, hremove,
      (Without.refl t).congr fun k hk => ⟨False.elim, fun hp => hbelow k hk hp.1⟩,
      fun _ => (Without.refl t).congr fun k hk => ⟨False.elim, hbelow k hk⟩, fun _ => rfl⟩
  · obtain ⟨t', hremove⟩ := exists_removeAll hf
    have hwithout := ht.without_of_removeAll hremove
    have hn := (find_eq_ok_iff.mp hf).2
    have hdir : t.isDirectory (r ++ names) = n.isDirectory := by rw [Tree.isDirectory, hn]; rfl
    refine .inr ⟨hgood, t', hremove, hwithout.congr fun k _ => ?_, fun hroot' => ?_,
      fun hnone => ?_⟩
    · rw [removes_iff hf, ← hdir]
      refine and_congr_right fun _ => forall_congr' fun e => ?_
      rw [e]
    · refine hwithout.congr fun k _ => ?_
      rw [removes_iff hf]
      refine and_iff_left fun _ _ => ?_
      refine hasEntry_of_canonicalize_root ht (ht.hollow _) hne hplain hroot hf
        (canonicalize_of_covers (hwithout.hollow_covers hf) hroot') ?_
      rw [lookup_hollow, if_neg fun hb => hb.2 rfl, hn]
      exact Option.some_ne_none n
    · rw [hnone] at hn
      cases hn

end Paths

/-! ## Paths that are locations -/

theorem Closed.canonicalize_nil {t : Tree} (ht : t.Closed) : t.canonicalize [] = .ok [] := by
  obtain ⟨mode, hm⟩ := isDirectory_iff.mp ht.root
  refine canonicalize_eq_ok_iff.mpr ⟨_, find_eq_ok_iff.mpr ⟨?_, hm⟩⟩
  rw [resolve_of_legal ⟨rfl, by decide⟩, follow_nil]

/-- A path of names only, none of which leads to a symbolic link. -/
structure Straight (t : Tree) (path : PathParts) : Prop where
  plain : ∀ n ∈ path, IsPlain n
  unlinked : ∀ q, q <+: path → ∀ target, t.lookup q ≠ some (.symlink target)

/-- It is enough to look at the places on the way. -/
theorem straight_iff_inits {t : Tree} {path : PathParts} :
    t.Straight path ↔ (∀ n ∈ path, n ≠ Path.dot ∧ n ≠ Path.dots) ∧
      ∀ q ∈ path.inits, (t.lookup q).any Node.isSymlink = false := by
  constructor
  · refine fun h => ⟨fun n hn => ⟨(h.plain n hn).ne_dot, (h.plain n hn).ne_dots⟩, fun q hq => ?_⟩
    have hlinks := h.unlinked q ((List.mem_inits q path).mp hq)
    rcases hn : t.lookup q with _ | _ | _ | target
    · rfl
    · rfl
    · rfl
    · exact absurd hn (hlinks target)
  · rintro ⟨hplain, hlinks⟩
    refine ⟨fun n hn => ⟨(hplain n hn).1, (hplain n hn).2⟩, fun q hq target e => ?_⟩
    have := hlinks q ((List.mem_inits q path).mpr hq)
    rw [e] at this
    cases this

instance (t : Tree) (path : PathParts) : Decidable (t.Straight path) :=
  decidable_of_iff' _ straight_iff_inits

namespace Straight

variable {t u : Tree} {path : PathParts} {d : Location} {name : Bytes}

theorem onlyTo (h : t.Straight path) : t.OnlyTo path path := by
  have hroot : t.OnlyTo [] [] := by
    intro l hl _
    cases hl
    rfl
  have hways : t.Unlinked [] (path ++ [[]]) := by
    intro q hq hne target
    rcases List.prefix_concat_iff.mp hq with hq | hq
    · exact absurd hq hne
    · exact h.unlinked q hq target
  simpa using hroot.unlinked h.plain hways

/-- Such a path leads to itself as a location. -/
theorem eq_of_openDirectory (h : t.Straight path) (hd : t.openDirectory path = .ok d) :
    d = path := by
  obtain ⟨mode, hf⟩ := openDirectory_eq_ok_iff.mp hd
  obtain ⟨hr, hn⟩ := find_eq_ok_iff.mp hf
  exact h.onlyTo d (leads_of_resolve hr) (by simp [hn])

theorem of_covers (h : t.Straight path) (ht : t.Covers u) : u.Straight path := by
  refine ⟨h.plain, fun q hq target e => ?_⟩
  obtain ⟨n, hn, ha⟩ := ht q _ e
  cases n with
  | symlink target' => exact h.unlinked q hq target' hn
  | directory mode => exact ha.elim
  | file f => exact ha.elim

theorem concat (h : t.Straight path) (hname : IsPlain name)
    (hd : t.isDirectory (path ++ [name]) = true) : t.Straight (path ++ [name]) := by
  refine ⟨?_, fun q hq target e => ?_⟩
  · simpa [or_imp, forall_and] using ⟨h.plain, hname⟩
  · rcases List.prefix_concat_iff.mp hq with rfl | hq
    · rw [Tree.isDirectory, e] at hd
      cases hd
    · exact h.unlinked q hq target e

/-- It still leads there when only things below the directory were taken away. -/
theorem openDirectory_of_loses (h : t.Straight path) (ht : t.Closed) (hu : u.Closed)
    (hd : t.openDirectory path = .ok path) {p : Location → Prop} (hp : ∀ k, p k → Below path k)
    (hl : Loses p t u) : u.openDirectory path = .ok path := by
  obtain ⟨mode, hf⟩ := openDirectory_eq_ok_iff.mp hd
  obtain ⟨hr, hn⟩ := find_eq_ok_iff.mp hf
  have hlegal := legal_of_resolve hr
  have hthere : t.lookup ([] ++ path) ≠ none := by
    rw [List.nil_append, hn]
    exact Option.some_ne_none _
  rw [← List.nil_append path] at hr
  have hlen := length_le_of_resolve ht.canonicalize_nil h.plain (ht.descends hthere) hr
  have hdir : u.isDirectory path = true := by
    rw [hl.isDirectory fun hk => (hp _ hk).2 rfl]
    exact isDirectory_iff.mpr ⟨mode, hn⟩
  have hdown : u.Descends [] path := hu.descends (by simpa using ne_none_of_isDirectory hdir)
  exact openDirectory_iff.mpr
    ⟨canonicalize_names hu.canonicalize_nil hlegal h.plain hlen hdown hdir, hdir⟩

/-- How a directory is opened by such a path, unless the path is no good or something is in the
way: then it is another failure than that nothing is there. -/
theorem openDirectory_eq (h : t.Straight path) (ht : t.Closed) :
    (Legal path ∧ ¬ t.Obstructed [] path → t.openDirectory path = match t.lookup path with
      | none => .error .notFound
      | some n => if n.isDirectory then .ok path else .error .notADirectory) ∧
      (¬ (Legal path ∧ ¬ t.Obstructed [] path) →
        ∃ k, k ≠ .notFound ∧ t.openDirectory path = .error k) := by
  have hopen : ∀ {k}, t.find true path = .error k → t.openDirectory path = .error k := by
    intro k hf
    rw [openDirectory, hf]
    rfl
  by_cases hlegal : Legal path
  · by_cases hne : path = []
    · obtain ⟨mode, hm⟩ := isDirectory_iff.mp ht.root
      subst hne
      refine ⟨fun _ => ?_, fun hbad => absurd ⟨hlegal, obstructed_nil⟩ hbad⟩
      rw [openDirectory_iff.mpr ⟨ht.canonicalize_nil, ht.root⟩, hm]
      rfl
    have hlong : ¬ Overlong path := Nat.not_le.mpr hlegal.2
    have hfound := find_unlinked true ht ht.canonicalize_nil hne h.plain
      (by simpa using hlegal.1) (fun q hq _ => h.unlinked q hq)
      (.inr (h.unlinked path List.prefix_rfl))
    rw [List.nil_append] at hfound
    simp only [hlong, false_or] at hfound
    rcases hfound with ⟨ho, k, hf, hk⟩ | ⟨ho, hn, hf⟩ | ⟨ho, n, hf⟩
    · exact ⟨fun hgood => absurd ho hgood.2, fun _ => ⟨k, hk, hopen hf⟩⟩
    · exact ⟨fun _ => by rw [hopen hf, hn], fun hbad => absurd ⟨hlegal, ho⟩ hbad⟩
    · refine ⟨fun _ => ?_, fun hbad => absurd ⟨hlegal, ho⟩ hbad⟩
      rw [openDirectory, hf, (find_eq_ok_iff.mp hf).2]
      rfl
  · obtain ⟨k, hk, hresolve⟩ := exists_error_of_not_legal hlegal
    refine ⟨fun hgood => absurd hgood.1 hlegal, fun _ => ⟨k, hk, hopen ?_⟩⟩
    rw [find, hresolve]
    rfl

/-- Where no directory is found because nothing is there, there is none. -/
theorem not_isDirectory_of_notFound (h : t.Straight path) (ht : t.Closed)
    (hd : t.openDirectory path = .error .notFound) : t.isDirectory path = false := by
  obtain ⟨hgood, hbad⟩ := h.openDirectory_eq ht
  by_cases hlegal : Legal path ∧ ¬ t.Obstructed [] path
  · rw [hgood hlegal] at hd
    cases hn : t.lookup path with
    | none =>
      rw [Tree.isDirectory, hn]
      rfl
    | some n =>
      rw [hn] at hd
      dsimp only at hd
      split at hd <;> cases hd
  · obtain ⟨k, hk, hopen⟩ := hbad hlegal
    rw [hd] at hopen
    cases hopen
    exact absurd rfl hk

end Straight

end Tree
end ContainerLayer
