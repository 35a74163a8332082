import ContainerLayer.Proofs.Tree.Staying

/-
Paths that are sure to arrive.

A path that leads to a node goes on, with more parts behind it, from that node
(`Arrives.follow_append`).  From there, names lead down through directories to their own location
(`follow_names`).  So where the directories are known, a path need not be followed again
after a change that leaves them alone.
-/

namespace ContainerLayer
namespace Tree

/-- Where a link leads to, with `links` links left to follow, itself among them. -/
def jump (t : Tree) (last : Bool) (links : Nat) (here : Location) (parts : PathParts) :
    Except FaultKind Location :=
  match links with
  | 0 => .error .filesystemLoop
  | links + 1 => t.follow last links here parts

theorem follow_eq_walk (t : Tree) (last : Bool) (links : Nat) :
    t.follow last links = t.walk last (t.jump last links) := by
  cases links <;> rfl

@[simp] theorem follow_nil (t : Tree) (last : Bool) (links : Nat) (here : Location) :
    t.follow last links here [] = .ok here := by
  rw [follow_eq_walk]
  rfl

section Steps

variable {t : Tree} {last : Bool} {links : Nat} {here l : Location} {part : Bytes}
variable {rest : PathParts}

/-- Nothing leads on but from a directory. -/
theorem isDirectory_of_follow (h : t.follow last links here (part :: rest) = .ok l) :
    t.isDirectory here = true := by
  rw [follow_eq_walk, walk] at h
  split at h
  · cases h
  · cases h
  · cases h
  · rename_i mode hhere
    exact isDirectory_iff.mpr ⟨mode, hhere⟩

theorem follow_dot (hd : t.isDirectory here = true) :
    t.follow last links here (Path.dot :: rest) = t.follow last links here rest := by
  obtain ⟨mode, hhere⟩ := isDirectory_iff.mp hd
  rw [follow_eq_walk, walk, hhere]
  simp only [if_true]

theorem follow_dots (hd : t.isDirectory here = true) :
    t.follow last links here (Path.dots :: rest) = t.follow last links here.dropLast rest := by
  obtain ⟨mode, hhere⟩ := isDirectory_iff.mp hd
  rw [follow_eq_walk, walk, hhere]
  simp only [if_neg (show Path.dots ≠ Path.dot by decide), if_true]

variable (hd : t.isDirectory here = true) (hp : IsPlain part)
include hd hp

theorem length_le_of_follow (h : t.follow last links here (part :: rest) = .ok l) :
    part.length ≤ maxName := by
  obtain ⟨mode, hhere⟩ := isDirectory_iff.mp hd
  rw [follow_eq_walk, walk, hhere] at h
  simp only [if_neg hp.ne_dot, if_neg hp.ne_dots] at h
  refine Nat.not_lt.mp fun hlong => ?_
  rw [if_pos hlong] at h
  cases h

theorem follow_of_long (h : maxName < part.length) :
    t.follow last links here (part :: rest) = .error .invalidFilename := by
  obtain ⟨mode, hhere⟩ := isDirectory_iff.mp hd
  rw [follow_eq_walk, walk, hhere]
  simp only [if_neg hp.ne_dot, if_neg hp.ne_dots, if_pos h]

variable (hlen : part.length ≤ maxName)
include hlen

theorem follow_vacant (hn : t.lookup (here ++ [part]) = none) :
    t.follow last links here (part :: rest)
      = if rest = [] then .ok (here ++ [part]) else .error .notFound := by
  obtain ⟨mode, hhere⟩ := isDirectory_iff.mp hd
  rw [follow_eq_walk, walk, hhere]
  simp only [if_neg hp.ne_dot, if_neg hp.ne_dots, if_neg (Nat.not_lt.mpr hlen), hn]

theorem follow_symlink {target : Bytes} (hn : t.lookup (here ++ [part]) = some (.symlink target)) :
    t.follow last links here (part :: rest)
      = if rest = [] && !last then .ok (here ++ [part])
        else t.jump last links (if Path.isAbsolute target then [] else here)
          (partsOf target ++ rest) := by
  obtain ⟨mode, hhere⟩ := isDirectory_iff.mp hd
  rw [follow_eq_walk, walk, hhere]
  simp only [if_neg hp.ne_dot, if_neg hp.ne_dots, if_neg (Nat.not_lt.mpr hlen), hn]

theorem follow_cons {n : Node} (hn : t.lookup (here ++ [part]) = some n)
    (hs : ∀ target, n ≠ .symlink target) :
    t.follow last links here (part :: rest) = t.follow last links (here ++ [part]) rest := by
  obtain ⟨mode, hhere⟩ := isDirectory_iff.mp hd
  rw [follow_eq_walk, walk, hhere]
  cases n with
  | symlink target => exact absurd rfl (hs target)
  | directory mode =>
    simp only [if_neg hp.ne_dot, if_neg hp.ne_dots, if_neg (Nat.not_lt.mpr hlen), hn]
  | file f =>
    simp only [if_neg hp.ne_dot, if_neg hp.ne_dots, if_neg (Nat.not_lt.mpr hlen), hn]

/-- A name at the end of a path leads to its place in the directory, whatever is there. -/
theorem follow_last : t.follow false links here [part] = .ok (here ++ [part]) := by
  cases hn : t.lookup (here ++ [part]) with
  | none => rw [follow_vacant hd hp hlen hn, if_pos rfl]
  | some n =>
    by_cases hs : ∃ target, n = .symlink target
    · obtain ⟨target, rfl⟩ := hs
      rw [follow_symlink hd hp hlen hn]
      rfl
    · rw [follow_cons hd hp hlen hn fun target e => hs ⟨target, e⟩, follow_nil]

end Steps

/-! ## Paths with more behind them -/

/-- How a path is followed to a node at `d`, with `links` links left to follow.  This is
`Leads` with all that the look-up checks on the way, so that it can be done again. -/
inductive Arrives (t : Tree) (d : Location) : (links : Nat) → Location → PathParts → Prop
  | here {links} : Arrives t d links d []
  | dot {links here part rest} (hd : t.isDirectory here = true) (hp : part = Path.dot)
      (h : Arrives t d links here rest) : Arrives t d links here (part :: rest)
  | dots {links here part rest} (hd : t.isDirectory here = true) (hp : part = Path.dots)
      (h : Arrives t d links here.dropLast rest) : Arrives t d links here (part :: rest)
  | jump {links here name target rest} (hd : t.isDirectory here = true) (hp : IsPlain name)
      (hlen : name.length ≤ maxName) (hn : t.lookup (here ++ [name]) = some (.symlink target))
      (h : Arrives t d links (if Path.isAbsolute target then [] else here)
        (partsOf target ++ rest)) : Arrives t d (links + 1) here (name :: rest)
  | step {links here name n rest} (hd : t.isDirectory here = true) (hp : IsPlain name)
      (hlen : name.length ≤ maxName) (hn : t.lookup (here ++ [name]) = some n)
      (hs : ∀ target, n ≠ .symlink target) (h : Arrives t d links (here ++ [name]) rest) :
      Arrives t d links here (name :: rest)

section Append

variable {t : Tree} {links : Nat} {d here : Location} {parts : PathParts}

/-- The steps up to the first jump, given how the jumps go on. -/
theorem arrives_of_jump (hd : t.lookup d ≠ none)
    (hjump : ∀ here parts, t.jump true links here parts = .ok d →
      ∃ links', links = links' + 1 ∧ Arrives t d links' here parts)
    (h : t.follow true links here parts = .ok d) : Arrives t d links here parts := by
  induction parts generalizing here with
  | nil =>
    rw [follow_nil] at h
    cases h
    exact .here
  | cons part rest ih =>
    have hhere := isDirectory_of_follow h
    by_cases hdot : part = Path.dot
    · subst hdot
      rw [follow_dot hhere] at h
      exact .dot hhere rfl (ih h)
    by_cases hdots : part = Path.dots
    · subst hdots
      rw [follow_dots hhere] at h
      exact .dots hhere rfl (ih h)
    have hp : IsPlain part := ⟨hdot, hdots⟩
    have hlen := length_le_of_follow hhere hp h
    cases hn : t.lookup (here ++ [part]) with
    | none =>
      rw [follow_vacant hhere hp hlen hn] at h
      split at h
      · cases h
        exact absurd hn hd
      · cases h
    | some n =>
      by_cases hs : ∃ target, n = .symlink target
      · obtain ⟨target, rfl⟩ := hs
        rw [follow_symlink hhere hp hlen hn, if_neg (by simp)] at h
        obtain ⟨links', rfl, hrest⟩ := hjump _ _ h
        exact .jump hhere hp hlen hn hrest
      · have hs : ∀ target, n ≠ .symlink target := fun target e => hs ⟨target, e⟩
        rw [follow_cons hhere hp hlen hn hs] at h
        exact .step hhere hp hlen hn hs (ih h)

theorem arrives_of_follow (hd : t.lookup d ≠ none) (h : t.follow true links here parts = .ok d) :
    Arrives t d links here parts := by
  induction links generalizing here parts with
  | zero => exact arrives_of_jump hd (fun _ _ e => by cases e) h
  | succ links ih => exact arrives_of_jump hd (fun _ _ e => ⟨links, rfl, ih e⟩) h

/-- What comes behind a path that leads to a node is followed from there on. -/
theorem Arrives.follow_append (h : Arrives t d links here parts) :
    ∃ links', ∀ last more, more ≠ [] →
      t.follow last links here (parts ++ more) = t.follow last links' d more := by
  induction h with
  | @here links => exact ⟨links, fun _ _ _ => rfl⟩
  | dot hd hp _ ih =>
    obtain ⟨links', ih⟩ := ih
    refine ⟨links', fun last more hmore => ?_⟩
    rw [hp, List.cons_append, follow_dot hd, ih last more hmore]
  | dots hd hp _ ih =>
    obtain ⟨links', ih⟩ := ih
    refine ⟨links', fun last more hmore => ?_⟩
    rw [hp, List.cons_append, follow_dots hd, ih last more hmore]
  | jump hd hp hlen hn _ ih =>
    obtain ⟨links', ih⟩ := ih
    refine ⟨links', fun last more hmore => ?_⟩
    rw [List.cons_append, follow_symlink hd hp hlen hn, if_neg (by simp [hmore]), Tree.jump,
      ← List.append_assoc, ih last more hmore]
  | step hd hp hlen hn hs _ ih =>
    obtain ⟨links', ih⟩ := ih
    refine ⟨links', fun last more hmore => ?_⟩
    rw [List.cons_append, follow_cons hd hp hlen hn hs, ih last more hmore]

/-- Where a path leads to something, there is something at its end before its last link is
followed. -/
theorem Arrives.follow_false (hd : t.lookup d ≠ none) (h : Arrives t d links here parts) :
    ∃ d', t.follow false links here parts = .ok d' ∧ t.lookup d' ≠ none := by
  induction h with
  | @here links => exact ⟨d, follow_nil t false links d, hd⟩
  | dot hd hp _ ih =>
    rw [hp, follow_dot hd]
    exact ih
  | dots hd hp _ ih =>
    rw [hp, follow_dots hd]
    exact ih
  | @jump _ _ _ _ rest hd hp hlen hn _ ih =>
    rw [follow_symlink hd hp hlen hn]
    by_cases hrest : rest = []
    · exact ⟨_, by rw [if_pos (by simp [hrest])], by simp [hn]⟩
    · rw [if_neg (by simp [hrest])]
      exact ih
  | step hd hp hlen hn hs _ ih =>
    rw [follow_cons hd hp hlen hn hs]
    exact ih

theorem Arrives.follow (h : Arrives t d links here parts) :
    t.follow true links here parts = .ok d := by
  induction h with
  | @here links => exact follow_nil t true links d
  | dot hd hp _ ih => rw [hp, follow_dot hd, ih]
  | dots hd hp _ ih => rw [hp, follow_dots hd, ih]
  | jump hd hp hlen hn _ ih =>
    rw [follow_symlink hd hp hlen hn, if_neg (by simp)]
    exact ih
  | step hd hp hlen hn hs _ ih => rw [follow_cons hd hp hlen hn hs, ih]

theorem Arrives.of_covers {t' : Tree} (ht : t.Covers t') (h : Arrives t' d links here parts) :
    Arrives t d links here parts := by
  induction h with
  | here => exact .here
  | dot hd hp _ ih => exact .dot (ht.isDirectory hd) hp ih
  | dots hd hp _ ih => exact .dots (ht.isDirectory hd) hp ih
  | jump hd hp hlen hn _ ih =>
    obtain ⟨n, hm, ha⟩ := ht _ _ hn
    cases n with
    | symlink target' =>
      cases ha
      exact .jump (ht.isDirectory hd) hp hlen hm ih
    | directory mode => exact ha.elim
    | file f => exact ha.elim
  | @step _ _ _ m _ hd hp hlen hn hs _ ih =>
    obtain ⟨n, hm, ha⟩ := ht _ _ hn
    refine .step (ht.isDirectory hd) hp hlen hm ?_ ih
    rintro target rfl
    cases m with
    | symlink target' => exact hs target' rfl
    | directory mode => exact ha.elim
    | file f => exact ha.elim

end Append

/-! ## Names that lead down -/

/-- The names lead down from `here` through directories. -/
def Descends (t : Tree) (here : Location) (names : List Bytes) : Prop :=
  ∀ q, q <+: names → q ≠ names → t.isDirectory (here ++ q) = true

theorem Descends.cons {t : Tree} {here : Location} {name : Bytes} {names : List Bytes}
    (h : t.Descends here (name :: names)) :
    t.isDirectory here = true ∧ t.Descends (here ++ [name]) names := by
  constructor
  · have := h [] List.nil_prefix (by simp)
    rwa [List.append_nil] at this
  · intro q hq hne
    rw [List.append_assoc]
    exact h (name :: q) (List.cons_prefix_cons.mpr ⟨rfl, hq⟩) (by simpa using hne)

theorem descends_singleton {t : Tree} {here : Location} (h : t.isDirectory here = true)
    (name : Bytes) : t.Descends here [name] := by
  intro q hq hne
  have hnil : q = [] := by
    refine List.eq_nil_of_length_eq_zero (Nat.lt_one_iff.mp (Nat.lt_of_not_le fun hlen => hne ?_))
    exact hq.eq_of_length_le hlen
  rwa [hnil, List.append_nil]

/-- In a closed tree the way to a node leads through directories. -/
theorem Closed.descends {t : Tree} (ht : t.Closed) {here : Location} {names : List Bytes}
    (h : t.lookup (here ++ names) ≠ none) : t.Descends here names := by
  intro q hq hne
  obtain ⟨more, rfl⟩ := hq
  rw [← List.append_assoc] at h
  exact ht.isDirectory_of_append h fun e => hne (by simp [e])

section Descending

variable {t : Tree} {links : Nat} {here l : Location} {names : List Bytes}

theorem length_le_of_descends (hplain : ∀ name ∈ names, IsPlain name) (h : t.Descends here names)
    {last : Bool} (hf : t.follow last links here names = .ok l) :
    ∀ name ∈ names, name.length ≤ maxName := by
  induction names generalizing here with
  | nil => simp
  | cons name names ih =>
    obtain ⟨hhere, hrest⟩ := h.cons
    obtain ⟨hp, hplain⟩ := List.forall_mem_cons.mp hplain
    have hlen := length_le_of_follow hhere hp hf
    refine List.forall_mem_cons.mpr ⟨hlen, ?_⟩
    cases names with
    | nil => simp
    | cons next names =>
      obtain ⟨mode, hmode⟩ := isDirectory_iff.mp hrest.cons.1
      rw [follow_cons hhere hp hlen hmode (by simp)] at hf
      exact ih hplain hrest hf

/-- The names lead to their own location; if there is a link, it must not be followed. -/
theorem follow_names {last : Bool} (hplain : ∀ name ∈ names, IsPlain name)
    (hlen : ∀ name ∈ names, name.length ≤ maxName) (h : t.Descends here names)
    (hlast : last = false ∨ t.isDirectory (here ++ names) = true) :
    t.follow last links here names = .ok (here ++ names) := by
  induction names generalizing here with
  | nil => rw [follow_nil, List.append_nil]
  | cons name names ih =>
    obtain ⟨hhere, hrest⟩ := h.cons
    obtain ⟨hp, hplain⟩ := List.forall_mem_cons.mp hplain
    obtain ⟨hl, hlen⟩ := List.forall_mem_cons.mp hlen
    rw [List.append_cons] at hlast ⊢
    by_cases hdir : t.isDirectory (here ++ [name]) = true
    · obtain ⟨mode, hmode⟩ := isDirectory_iff.mp hdir
      rw [follow_cons hhere hp hl hmode (by simp), ih hplain hlen hrest hlast]
    · -- only the last name may lead to something else
      cases names with
      | cons next names => exact absurd hrest.cons.1 hdir
      | nil =>
        rw [List.append_nil] at hlast ⊢
        obtain rfl := hlast.resolve_right hdir
        exact follow_last hhere hp hl

end Descending

/-! ## Whole paths -/

/-- A path that no look-up refuses at once. -/
def Legal (path : PathParts) : Prop :=
  (path.any fun p => p.contains 0) = false ∧ pathLength path < maxPath

theorem resolve_of_legal {path : PathParts} (h : Legal path) (t : Tree) (last : Bool) :
    t.resolve last path = t.follow last linkBudget [] path := by
  rw [resolve, if_neg (by rw [h.1]; decide), if_neg (Nat.not_le.mpr h.2)]

theorem legal_of_resolve {t : Tree} {last : Bool} {path : PathParts} {l : Location}
    (h : t.resolve last path = .ok l) : Legal path := by
  refine ⟨?_, pathLength_lt_of_resolve h⟩
  unfold resolve at h
  split at h
  · cases h
  · rename_i hzero
    simpa using hzero

theorem le_foldl_length (path : PathParts) (n : Nat) :
    n ≤ path.foldl (fun n p => n + p.length + 1) n := by
  induction path generalizing n with
  | nil => exact Nat.le_refl n
  | cons p path ih =>
    have := ih (n + p.length + 1)
    rw [List.foldl_cons]
    omega

theorem Legal.of_append {path more : PathParts} (h : Legal (path ++ more)) : Legal path := by
  obtain ⟨hzero, hlen⟩ := h
  rw [List.any_append, Bool.or_eq_false_iff] at hzero
  rw [pathLength, List.foldl_append] at hlen
  exact ⟨hzero.1, Nat.lt_of_le_of_lt (le_foldl_length more _) hlen⟩

/-- A path that no look-up refuses at once is refused in no tree, and any other one in all. -/
theorem exists_error_of_not_legal {path : PathParts} (h : ¬ Legal path) :
    ∃ k, k ≠ .notFound ∧ ∀ (t : Tree) last, t.resolve last path = .error k := by
  by_cases hzero : (path.any fun p => p.contains 0) = true
  · exact ⟨.invalidInput, by decide, fun t last => if_pos hzero⟩
  · refine ⟨.invalidFilename, by decide, fun t last => ?_⟩
    rw [resolve, if_neg hzero, if_pos]
    exact Nat.not_lt.mp fun hlen => h ⟨by simpa using hzero, hlen⟩

section Names

variable {t : Tree} {root : PathParts} {r l : Location} {names : List Bytes}

/-- Behind a path that leads somewhere, names are followed from there. -/
theorem exists_follow_of_canonicalize (hroot : t.canonicalize root = .ok r)
    (hlegal : Legal (root ++ names)) (hne : names ≠ []) :
    ∃ links, ∀ last, t.resolve last (root ++ names) = t.follow last links r names := by
  obtain ⟨n, hf⟩ := canonicalize_eq_ok_iff.mp hroot
  obtain ⟨hr, hn⟩ := find_eq_ok_iff.mp hf
  rw [resolve_of_legal hlegal.of_append] at hr
  obtain ⟨links, h⟩ := (arrives_of_follow (by simp [hn]) hr).follow_append
  exact ⟨links, fun last => by rw [resolve_of_legal hlegal, h last names hne]⟩

theorem length_le_of_resolve (hroot : t.canonicalize root = .ok r)
    (hplain : ∀ name ∈ names, IsPlain name) (h : t.Descends r names) {last : Bool}
    (hf : t.resolve last (root ++ names) = .ok l) : ∀ name ∈ names, name.length ≤ maxName := by
  by_cases hne : names = []
  · simp [hne]
  · obtain ⟨links, hfollow⟩ := exists_follow_of_canonicalize hroot (legal_of_resolve hf) hne
    rw [hfollow] at hf
    exact length_le_of_descends hplain h hf

theorem resolve_names (hroot : t.canonicalize root = .ok r) (hlegal : Legal (root ++ names))
    (hne : names ≠ []) (hplain : ∀ name ∈ names, IsPlain name)
    (hlen : ∀ name ∈ names, name.length ≤ maxName) (h : t.Descends r names) {last : Bool}
    (hlast : last = false ∨ t.isDirectory (r ++ names) = true) :
    t.resolve last (root ++ names) = .ok (r ++ names) := by
  obtain ⟨links, hfollow⟩ := exists_follow_of_canonicalize hroot hlegal hne
  rw [hfollow, follow_names hplain hlen h hlast]

/-- Names that lead down through directories only, the last one included. -/
theorem canonicalize_names (hroot : t.canonicalize root = .ok r) (hlegal : Legal (root ++ names))
    (hplain : ∀ name ∈ names, IsPlain name) (hlen : ∀ name ∈ names, name.length ≤ maxName)
    (h : t.Descends r names) (hdir : t.isDirectory (r ++ names) = true) :
    t.canonicalize (root ++ names) = .ok (r ++ names) := by
  by_cases hne : names = []
  · rw [hne, List.append_nil, List.append_nil, hroot]
  · obtain ⟨mode, hmode⟩ := isDirectory_iff.mp hdir
    exact canonicalize_eq_ok_iff.mpr
      ⟨_, find_eq_ok_iff.mpr ⟨resolve_names hroot hlegal hne hplain hlen h (.inr hdir), hmode⟩⟩

end Names

theorem openDirectory_iff {t : Tree} {path : PathParts} {d : Location} :
    t.openDirectory path = .ok d ↔ t.canonicalize path = .ok d ∧ t.isDirectory d = true := by
  rw [openDirectory_eq_ok_iff, canonicalize_eq_ok_iff, isDirectory_iff]
  constructor
  · rintro ⟨mode, hf⟩
    exact ⟨⟨_, hf⟩, mode, (find_eq_ok_iff.mp hf).2⟩
  · rintro ⟨⟨n, hf⟩, mode, hn⟩
    have := (find_eq_ok_iff.mp hf).2
    rw [hn] at this
    cases this
    exact ⟨mode, hf⟩

/-- A path that leads somewhere has led there before things were taken away. -/
theorem canonicalize_of_covers {t t' : Tree} (ht : t.Covers t') {path : PathParts} {d : Location}
    (h : t'.canonicalize path = .ok d) : t.canonicalize path = .ok d := by
  obtain ⟨n, hf⟩ := canonicalize_eq_ok_iff.mp h
  obtain ⟨hr, hn⟩ := find_eq_ok_iff.mp hf
  have hlegal := legal_of_resolve hr
  rw [resolve_of_legal hlegal] at hr
  have harrives := (arrives_of_follow (by simp [hn]) hr).of_covers ht
  obtain ⟨m, hm, -⟩ := ht d n hn
  refine canonicalize_eq_ok_iff.mpr ⟨m, find_eq_ok_iff.mpr ⟨?_, hm⟩⟩
  rw [resolve_of_legal hlegal, harrives.follow]

theorem openDirectory_of_covers {t t' : Tree} (ht : t.Covers t') {path : PathParts} {d : Location}
    (h : t'.openDirectory path = .ok d) : t.openDirectory path = .ok d := by
  obtain ⟨hcanon, hdir⟩ := openDirectory_iff.mp h
  exact openDirectory_iff.mpr ⟨canonicalize_of_covers ht hcanon, ht.isDirectory hdir⟩

/-- Something that is found in the directory that `root` leads to is found in any tree in which
it is there and `root` leads to that directory. -/
theorem hasEntry_of_canonicalize_root {t u : Tree} (ht : t.Closed) (hu : u.Closed)
    {root names : PathParts} {r : Location} {n : Node} (hne : names ≠ [])
    (hplain : ∀ name ∈ names, IsPlain name) (hroot : t.canonicalize root = .ok r)
    (hf : t.find false (root ++ names) = .ok (r ++ names, n)) (hroot' : u.canonicalize root = .ok r)
    (hn : u.lookup (r ++ names) ≠ none) : u.hasEntry (root ++ names) = true := by
  obtain ⟨hr, hthere⟩ := find_eq_ok_iff.mp hf
  have hlen := length_le_of_resolve hroot hplain (ht.descends (by simp [hthere])) hr
  obtain ⟨m, hm⟩ := Option.ne_none_iff_exists'.mp hn
  have hr' : u.resolve false (root ++ names) = .ok (r ++ names) :=
    resolve_names hroot' (legal_of_resolve hr) hne hplain hlen (hu.descends hn) (.inl rfl)
  rw [hasEntry, find_eq_ok_iff.mpr ⟨hr', hm⟩]
  rfl

/-! ## Names looked up in a directory -/

/-- A name that can be looked up in a directory that was opened by `path`. -/
def Fits (path : PathParts) (name : Bytes) : Prop :=
  Legal (path ++ [name]) ∧ name.length ≤ maxName

section Child

variable {t : Tree} {path : PathParts} {d : Location} {name : Bytes}
variable (hd : t.openDirectory path = .ok d) (hname : IsPlain name)
include hd hname

theorem resolve_of_fits (hfits : Fits path name) {last : Bool}
    (hlast : last = false ∨ t.isDirectory (d ++ [name]) = true) :
    t.resolve last (path ++ [name]) = .ok (d ++ [name]) := by
  obtain ⟨hcanon, hdir⟩ := openDirectory_iff.mp hd
  exact resolve_names hcanon hfits.1 (by simp) (by simpa using hname) (by simpa using hfits.2)
    (descends_singleton hdir name) hlast

theorem resolve_of_not_fits (hfits : ¬ Fits path name) (last : Bool) :
    ∃ k, k ≠ .notFound ∧ t.resolve last (path ++ [name]) = .error k := by
  by_cases hlegal : Legal (path ++ [name])
  · obtain ⟨hcanon, hdir⟩ := openDirectory_iff.mp hd
    obtain ⟨links, hfollow⟩ := exists_follow_of_canonicalize hcanon hlegal (by simp)
    refine ⟨.invalidFilename, by decide, ?_⟩
    rw [hfollow, follow_of_long hdir hname]
    exact Nat.not_le.mp fun hlen => hfits ⟨hlegal, hlen⟩
  · obtain ⟨k, hk, hresolve⟩ := exists_error_of_not_legal hlegal
    exact ⟨k, hk, hresolve t last⟩

/-- What is found of a child: what is at its place in the directory. -/
theorem find_child (hfits : Fits path name) :
    t.find false (path ++ [name])
      = match t.lookup (d ++ [name]) with
        | some n => .ok (d ++ [name], n)
        | none => .error .notFound := by
  rw [find, resolve_of_fits hd hname hfits (.inl rfl)]
  simp only [bind, Except.bind]
  cases t.lookup (d ++ [name]) <;> rfl

/-- A child that is a directory is opened by its path, unless its name is no good. -/
theorem openDirectory_child (hdir : t.isDirectory (d ++ [name]) = true) :
    (Fits path name → t.openDirectory (path ++ [name]) = .ok (d ++ [name])) ∧
      (¬ Fits path name → ∃ k, k ≠ .notFound ∧ t.openDirectory (path ++ [name]) = .error k) := by
  refine ⟨fun hfits => ?_, fun hfits => ?_⟩
  · obtain ⟨mode, hn⟩ := isDirectory_iff.mp hdir
    exact openDirectory_eq_ok_iff.mpr
      ⟨mode, find_eq_ok_iff.mpr ⟨resolve_of_fits hd hname hfits (.inr hdir), hn⟩⟩
  · obtain ⟨k, hk, hresolve⟩ := resolve_of_not_fits hd hname hfits true
    refine ⟨k, hk, ?_⟩
    rw [openDirectory, find, hresolve]
    rfl

/-- Removing a child takes all of it away if its directory can still be opened by its path. -/
theorem Closed.gone_of_removeAll {t' : Tree} (ht : t'.Closed)
    (h : t'.removeAll (path ++ [name]) = .ok t) {k : Location} (hk : d ++ [name] <+: k) :
    t.lookup k = none := by
  have hwithout := ht.without_of_removeAll h
  have hd' := openDirectory_of_covers hwithout.loses.covers hd
  by_cases hfits : Fits path name
  · have hfind := find_child hd' hname hfits
    cases hn : t'.lookup (d ++ [name]) with
    | none =>
      refine hwithout.loses.eq_none ?_
      by_cases he : k = d ++ [name]
      · rw [he, hn]
      · refine ht.lookup_of_not_isDirectory ?_ ⟨hk, he⟩
        rw [Tree.isDirectory, hn]
        rfl
    | some n =>
      rw [hn] at hfind
      refine (hwithout k).1 ((removes_iff hfind).mpr ⟨hk, fun _ _ => ?_⟩)
      -- the directory is still there once the child is empty, and so the child is found there
      rw [hasEntry, find_child (openDirectory_of_covers (hwithout.hollow_covers hfind) hd) hname
        hfits, lookup_hollow, if_neg fun hb => hb.2 rfl, hn]
      rfl
  · obtain ⟨e, he, hresolve⟩ := resolve_of_not_fits hd' hname hfits false
    rw [removeAll_of_error (by rw [find, hresolve]; rfl) he] at h
    cases h

end Child

/-- Where a path leads to something, it has an entry at its end, perhaps a link. -/
theorem hasEntry_of_canonicalize {t : Tree} {path : PathParts} {l : Location}
    (h : t.canonicalize path = .ok l) : t.hasEntry path = true := by
  obtain ⟨n, hf⟩ := canonicalize_eq_ok_iff.mp h
  obtain ⟨hr, hl⟩ := find_eq_ok_iff.mp hf
  have hlegal := legal_of_resolve hr
  rw [resolve_of_legal hlegal] at hr
  have hthere : t.lookup l ≠ none := by simp [hl]
  obtain ⟨d, hd, hn⟩ := (arrives_of_follow hthere hr).follow_false hthere
  obtain ⟨m, hm⟩ := Option.ne_none_iff_exists'.mp hn
  rw [hasEntry, find_eq_ok_iff.mpr ⟨(resolve_of_legal hlegal t false).trans hd, hm⟩]
  rfl

end Tree
end ContainerLayer
