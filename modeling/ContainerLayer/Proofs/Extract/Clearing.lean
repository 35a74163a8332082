import ContainerLayer.Extract
import ContainerLayer.Proofs.Path
import ContainerLayer.Proofs.Tree.Unlinked
import ContainerLayer.Proofs.Unpack.Ensures

/-
Clearing a directory of what was not applied.

A place is spared only if it was applied, and each directory on the way to it, from the one that
is cleared on (`Spared`).  The others are `Lower`.  Clearing takes nothing away but what is at
those, whether or not it comes to its end (`loses_clearIn`).  If it does, all of that is gone,
unless the directory cannot be opened by its path any more (`gone_of_clearIn`).  It goes by paths,
and where a link on the way is itself taken away, what comes later is not found.  All this holds in
whatever order directories are listed.
-/

namespace ContainerLayer
namespace Extract

open ContainerLayer.Tree

/-- Each place on the way down `rest`, the last one included, was applied under the path
that `names` begins. -/
def Spared (applied : Applied) (names rest : List Bytes) : Prop :=
  ∀ q, q <+: rest → q ≠ [] → names ++ q ∈ applied

theorem spared_nil (applied : Applied) (names : List Bytes) : Spared applied names [] :=
  fun _ hq hne => absurd (List.prefix_nil.mp hq) hne

theorem spared_cons {applied : Applied} {names rest : List Bytes} {name : Bytes} :
    Spared applied names (name :: rest)
      ↔ names ++ [name] ∈ applied ∧ Spared applied (names ++ [name]) rest := by
  constructor
  · intro h
    refine ⟨h [name] (by simp) (by simp), fun q hq _ => ?_⟩
    rw [List.append_assoc]
    exact h (name :: q) (List.cons_prefix_cons.mpr ⟨rfl, hq⟩) (by simp)
  · rintro ⟨h₁, h₂⟩ q hq hne
    cases q with
    | nil => exact absurd rfl hne
    | cons x q =>
      obtain ⟨rfl, hrest⟩ := List.cons_prefix_cons.mp hq
      by_cases hnil : q = []
      · rw [hnil]
        exact h₁
      · have := h₂ q hrest hnil
        rwa [List.append_assoc] at this

/-- The locations below `l` that are not spared when `l` is reached by `names`. -/
def Lower (applied : Applied) (l : Location) (names : List Bytes) (k : Location) : Prop :=
  ∃ rest, k = l ++ rest ∧ ¬ Spared applied names rest

theorem not_lower_self (applied : Applied) (l : Location) (names : List Bytes) :
    ¬ Lower applied l names l := by
  intro h
  obtain ⟨rest, e, h⟩ := h
  rw [List.append_right_eq_self.mp e.symm] at h
  exact h (spared_nil applied names)

theorem Lower.below {applied : Applied} {l k : Location} {names : List Bytes}
    (h : Lower applied l names k) : Below l k := by
  refine ⟨?_, ?_⟩
  · obtain ⟨rest, rfl, _⟩ := h
    exact List.prefix_append l rest
  · intro e
    subst e
    exact not_lower_self applied _ names h

section Child

variable {applied : Applied} {l k : Location} {names : List Bytes} {name : Bytes}

/-- With a child that was not applied, all of it goes. -/
theorem lower_of_not_mem (h : names ++ [name] ∉ applied) (hk : l ++ [name] <+: k) :
    Lower applied l names k := by
  obtain ⟨rest, rfl⟩ := hk
  exact ⟨name :: rest, List.append_assoc l [name] rest, fun hs => h (spared_cons.mp hs).1⟩

/-- Below a child that was applied, what goes is what goes when that child is cleared. -/
theorem lower_child_iff (h : names ++ [name] ∈ applied) :
    Lower applied (l ++ [name]) (names ++ [name]) k
      ↔ l ++ [name] <+: k ∧ Lower applied l names k := by
  constructor
  · rintro ⟨rest, rfl, hs⟩
    exact ⟨List.prefix_append _ _, name :: rest, List.append_assoc l [name] rest,
      fun h => hs (spared_cons.mp h).2⟩
  · rintro ⟨⟨rest, rfl⟩, rest', e, hs⟩
    rw [List.append_assoc] at e
    obtain rfl := List.append_cancel_left e
    exact ⟨rest, rfl, fun hs' => hs (spared_cons.mpr ⟨h, hs'⟩)⟩

end Child

/-- The names are those of the children of the directory at `l`, in any order. -/
def Lists (t : Tree) (l : Location) (names : List Bytes) : Prop :=
  ∀ name, name ∈ names ↔ IsPlain name ∧ t.lookup (l ++ [name]) ≠ none

theorem lists_children (t : Tree) (l : Location) : Lists t l (t.children l) := fun _ =>
  mem_children.trans (and_congr_left fun _ => ⟨fun h => ⟨h.1, h.2⟩, fun h => ⟨h.1, h.2⟩⟩)

section Runs

variable {order : Tree → Location → List Bytes} {applied : Applied} {root : PathParts}
variable {names : List Bytes} {d : Location} {t u u' : Tree}

/-- Clears some children of the directory at `d`, one after the other. -/
abbrev clearEach (order : Tree → Location → List Bytes) (applied : Applied) (root : PathParts)
    (names : List Bytes) (d : Location) (todo : List Bytes) : TreeWork Unit :=
  todo.forM fun name =>
    clearChild applied root names (clearIn order applied root (names ++ [name])) d name

theorem run_clearIn (order : Tree → Location → List Bytes) (applied : Applied) (root : PathParts)
    (names : List Bytes) (t : Tree) :
    (clearIn order applied root names).run t = match t.openDirectory (root ++ names) with
      | .error .notFound => (.ok (), t)
      | .error k => (.error (.ofKind k), t)
      | .ok d => (clearEach order applied root names d (order t d)).run t := by
  rw [clearIn, TreeWork.run_bind, TreeWork.run_get]
  dsimp only
  split
  · rename_i h
    rw [h]
    rfl
  · rename_i k hk h
    rw [h]
    cases k <;> first | rfl | exact absurd rfl hk
  · rename_i l h
    rw [h]

theorem run_clearIn_of_error {k : FaultKind} (h : t.openDirectory (root ++ names) = .error k)
    (hk : k ≠ .notFound) : (clearIn order applied root names).run t = (.error (.ofKind k), t) := by
  rw [run_clearIn, h]
  cases k <;> first | rfl | exact absurd rfl hk

theorem run_clearChild (applied : Applied) (root : PathParts) (names : List Bytes)
    (below : TreeWork Unit) (d : Location) (name : Bytes) (t : Tree) :
    (clearChild applied root names below d name).run t
      = if names ++ [name] ∈ applied then
          if t.isDirectory (d ++ [name]) then below.run t else (.ok (), t)
        else match t.removeAll (root ++ (names ++ [name])) with
          | .ok t' => (.ok (), t')
          | .error k => (.error (.ofKind k), t) := by
  unfold clearChild
  by_cases h : names ++ [name] ∈ applied
  · rw [if_pos h, if_neg (by simpa using h), TreeWork.run_bind, TreeWork.run_get]
    dsimp only
    split <;> rfl
  · rw [if_neg h, if_pos (by simpa using h)]
    exact TreeWork.run_change _ t

/-! ## What is taken away -/

/-- What may go when the directory that `root ++ names` leads to is cleared. -/
def LowerAt (applied : Applied) (root : PathParts) (names : List Bytes) (t : Tree) (k : Location) :
    Prop :=
  ∃ d, t.openDirectory (root ++ names) = .ok d ∧ Lower applied d names k

/-- Clearing a child takes away only what is to be cleared in its directory, also if the way to
that has been lost since it was opened in `t`. -/
theorem loses_clearChild {below : TreeWork Unit} {name : Bytes}
    (hd : t.openDirectory (root ++ names) = .ok d) (hname : IsPlain name)
    (hbelow : ∀ u, u.Closed → (below.run u).2.Closed ∧
      Loses (LowerAt applied root (names ++ [name]) u) u (below.run u).2)
    (hu : u.Closed) (hf : t.Fades u) :
    ((clearChild applied root names below d name).run u).2.Closed ∧
      Loses (Lower applied d names) u ((clearChild applied root names below d name).run u).2 := by
  obtain ⟨hcanon, -⟩ := openDirectory_iff.mp hd
  rw [run_clearChild]
  by_cases happ : names ++ [name] ∈ applied
  · rw [if_pos happ]
    by_cases hdir : u.isDirectory (d ++ [name]) = true
    · rw [if_pos hdir]
      obtain ⟨hclosed, hloses⟩ := hbelow u hu
      refine ⟨hclosed, hloses.mono fun k hk => ?_⟩
      obtain ⟨d', hd', hlower⟩ := hk
      obtain ⟨mode, hfind⟩ := openDirectory_eq_ok_iff.mp hd'
      obtain ⟨mode', hmode'⟩ := isDirectory_iff.mp hdir
      rw [← List.append_assoc] at hfind
      obtain ⟨rfl, -⟩ := resolve_concat hf hname hcanon (find_eq_ok_iff.mp hfind).1
        (.inr (by simp [hmode']))
      exact ((lower_child_iff happ).mp hlower).2
    · rw [if_neg hdir]
      exact ⟨hu, .refl _ u⟩
  · rw [if_neg happ, ← List.append_assoc]
    cases hr : u.removeAll (root ++ names ++ [name]) with
    | error k => exact ⟨hu, .refl _ u⟩
    | ok u' =>
      refine ⟨hu.closed_of_removeAll hname hr, ?_⟩
      refine (hu.without_of_removeAll hr).loses.mono fun k hk => ?_
      obtain ⟨l, n, hfind, hl, -⟩ := hk
      obtain ⟨rfl, -⟩ := resolve_concat hf hname hcanon (find_eq_ok_iff.mp hfind).1 (.inl rfl)
      exact lower_of_not_mem happ hl

theorem loses_clearEach (order : Tree → Location → List Bytes) (todo : List Bytes)
    (hd : t.openDirectory (root ++ names) = .ok d)
    (htodo : ∀ name ∈ todo, IsPlain name)
    (hbelow : ∀ name u, u.Closed →
      ((clearIn order applied root (names ++ [name])).run u).2.Closed ∧
        Loses (LowerAt applied root (names ++ [name]) u) u
          ((clearIn order applied root (names ++ [name])).run u).2)
    (hu : u.Closed) (hf : t.Fades u) :
    ((clearEach order applied root names d todo).run u).2.Closed ∧
      Loses (Lower applied d names) u ((clearEach order applied root names d todo).run u).2 := by
  refine TreeWork.after_forM (P := fun w => w.Closed ∧ Loses (Lower applied d names) u w)
    (fun name hname w hw => ?_) ⟨hu, .refl _ u⟩
  obtain ⟨hclosed, hloses⟩ := hw
  obtain ⟨hclosed', hloses'⟩ :=
    loses_clearChild hd (htodo name hname) (hbelow name) hclosed (hf.loses hloses)
  exact ⟨hclosed', hloses.trans hloses'⟩

/-- Clearing takes nothing away but what is not spared, whether or not it comes to its end. -/
theorem loses_clearIn (horder : ∀ u l, Lists u l (order u l)) (applied : Applied)
    (root : PathParts) (names : List Bytes) (ht : t.Closed) :
    ((clearIn order applied root names).run t).2.Closed ∧
      Loses (LowerAt applied root names t) t ((clearIn order applied root names).run t).2 := by
  induction names using clearIn.induct root generalizing t with
  | case1 names ih =>
    rw [run_clearIn]
    cases hd : t.openDirectory (root ++ names) with
    | error k => cases k <;> exact ⟨ht, .refl _ t⟩
    | ok d =>
      obtain ⟨hclosed, hloses⟩ := loses_clearEach order (order t d) hd
        (fun name hname => ((horder t d name).mp hname).1)
        (fun name u hu => ih t d hd name hu) ht (Fades.refl t)
      exact ⟨hclosed, hloses.mono fun k hk => ⟨d, hd, hk⟩⟩

/-! ## What is gone in the end -/

/-- A child that was cleared can be opened by its path if its directory can. -/
theorem opens_child_of_clearIn (horder : ∀ u l, Lists u l (order u l)) (hu : u.Closed)
    {name : Bytes} (hname : IsPlain name)
    (hrun : (clearIn order applied root (names ++ [name])).run u = (.ok (), u'))
    (hd : u'.openDirectory (root ++ names) = .ok d) (hdir : u.isDirectory (d ++ [name]) = true) :
    u'.openDirectory (root ++ (names ++ [name])) = .ok (d ++ [name]) := by
  obtain ⟨-, hloses⟩ := loses_clearIn horder applied root (names ++ [name]) hu
  rw [hrun] at hloses
  have hd' := openDirectory_of_covers hloses.covers hd
  have hfits : Fits (root ++ names) name := by
    refine Classical.byContradiction fun hfits => ?_
    obtain ⟨k, hk, hopen⟩ := (openDirectory_child hd' hname hdir).2 hfits
    rw [List.append_assoc] at hopen
    rw [run_clearIn_of_error hopen hk] at hrun
    cases hrun
  have hopen := (openDirectory_child hd' hname hdir).1 hfits
  rw [← List.append_assoc]
  refine (openDirectory_child hd hname ?_).1 hfits
  rw [hloses.isDirectory, hdir]
  rintro ⟨l, hl, hlower⟩
  rw [← List.append_assoc, hopen] at hl
  cases hl
  exact not_lower_self applied _ _ hlower

/-- With a child that was looked at, what is not spared below it is gone, if the directory can
still be opened by its path. -/
theorem gone_of_clearChild (horder : ∀ u l, Lists u l (order u l)) (hu : u.Closed) {name : Bytes}
    {more : List Bytes} (hname : IsPlain name)
    (hrun : (clearChild applied root names (clearIn order applied root (names ++ [name])) d
      name).run u = (.ok (), u'))
    (hd : u'.openDirectory (root ++ names) = .ok d) (hs : ¬ Spared applied names (name :: more))
    (hbelow : (clearIn order applied root (names ++ [name])).run u = (.ok (), u') →
      u'.openDirectory (root ++ (names ++ [name])) = .ok (d ++ [name]) →
      ¬ Spared applied (names ++ [name]) more → u'.lookup (d ++ [name] ++ more) = none) :
    u'.lookup (d ++ name :: more) = none := by
  rw [List.append_cons]
  rw [run_clearChild] at hrun
  by_cases happ : names ++ [name] ∈ applied
  · have hmore : ¬ Spared applied (names ++ [name]) more := fun h => hs (spared_cons.mpr ⟨happ, h⟩)
    rw [if_pos happ] at hrun
    by_cases hdir : u.isDirectory (d ++ [name]) = true
    · rw [if_pos hdir] at hrun
      exact hbelow hrun (opens_child_of_clearIn horder hu hname hrun hd hdir) hmore
    · rw [if_neg hdir] at hrun
      cases hrun
      -- there is nothing below what is no directory
      refine hu.lookup_of_not_isDirectory (by simpa using hdir) (below_append ?_)
      rintro rfl
      exact hmore (spared_nil applied _)
  · rw [if_neg happ, ← List.append_assoc] at hrun
    cases hr : u.removeAll (root ++ names ++ [name]) with
    | error k =>
      rw [hr] at hrun
      cases hrun
    | ok w =>
      rw [hr] at hrun
      cases hrun
      exact hu.gone_of_removeAll hd hname hr (List.prefix_append _ more)

/-- When a directory was cleared and can still be opened by its path, all that is not spared in it
is gone. -/
theorem gone_of_clearIn (horder : ∀ u l, Lists u l (order u l)) {t' : Tree} (ht : t.Closed)
    (hrun : (clearIn order applied root names).run t = (.ok (), t'))
    (hd : t'.openDirectory (root ++ names) = .ok d) {rest : List Bytes}
    (hplain : ∀ n ∈ rest, IsPlain n) (hs : ¬ Spared applied names rest) :
    t'.lookup (d ++ rest) = none := by
  induction names using clearIn.induct root generalizing t t' d rest with
  | case1 names ih =>
    have hbelow := fun name u hu =>
      loses_clearIn (t := u) horder applied root (names ++ [name]) hu
    obtain ⟨-, hloses⟩ := loses_clearIn horder applied root names ht
    rw [hrun] at hloses
    have hopen := openDirectory_of_covers hloses.covers hd
    have htodo : ∀ name ∈ order t d, IsPlain name :=
      fun name hname => ((horder t d name).mp hname).1
    rw [run_clearIn, hopen] at hrun
    cases rest with
    | nil => exact absurd (spared_nil applied names) hs
    | cons name more =>
      obtain ⟨hname, hmore⟩ := List.forall_mem_cons.mp hplain
      by_cases hthere : t.lookup (d ++ [name]) = none
      · refine hloses.eq_none ?_
        rw [List.append_cons]
        by_cases hnil : more = []
        · rw [hnil, List.append_nil, hthere]
        · refine ht.lookup_of_not_isDirectory ?_ (below_append hnil)
          rw [Tree.isDirectory, hthere]
          rfl
      · -- the child is looked at, and nothing is put anywhere before that or later
        obtain ⟨before, after, u, u', hsplit, hbefore, hmid, hafter⟩ :=
          TreeWork.exists_run_of_mem hrun ((horder t d name).mpr ⟨hname, hthere⟩)
        rw [hsplit] at htodo
        obtain ⟨hu, hfirst⟩ := loses_clearEach order before hopen
          (fun n hn => htodo n (by simp [hn])) hbelow ht (Fades.refl t)
        rw [hbefore] at hu hfirst
        obtain ⟨hu', hsecond⟩ := loses_clearChild hopen hname (hbelow name) hu
          ((Fades.refl t).loses hfirst)
        rw [hmid] at hu' hsecond
        obtain ⟨-, hthird⟩ := loses_clearEach order after hopen
          (fun n hn => htodo n (by simp [hn])) hbelow hu'
          (((Fades.refl t).loses hfirst).loses hsecond)
        rw [hafter] at hthird
        exact hthird.eq_none (gone_of_clearChild horder hu hname hmid
          (openDirectory_of_covers hthird.covers hd) hs fun hrun hopen' hs' =>
            ih t d hopen name hu hrun hopen' hmore hs')

/-- A link back to the directory is cleared first.  The file in the directory is not found by way of
it any more, and is left. -/
example :
    let t : Tree := ⟨[([], .directory 0o755), ([ascii "root"], .directory 0o755),
      ([ascii "root", ascii "b"], .symlink (ascii ".")),
      ([ascii "root", ascii "a"], .file { id := 0 })], 1⟩
    let left := ((clear [] [ascii "root"] [ascii "b"]).run t).2
    left.lookup [ascii "root", ascii "b"] = none ∧
      left.lookup [ascii "root", ascii "a"] = some (.file { id := 0 }) := by
  decide +kernel

/-! ## Directories that are reached without links -/

/-- No clearing of a directory loses the way to it if there is no link on that. -/
theorem opens_of_straight (ht : t.Closed) (hu : u.Closed) (hs : t.Straight (root ++ names))
    (hd : t.openDirectory (root ++ names) = .ok d)
    (hl : Loses (LowerAt applied root names t) t u) : u.openDirectory (root ++ names) = .ok d := by
  obtain rfl := hs.eq_of_openDirectory hd
  refine hs.openDirectory_of_loses ht hu hd (fun k hk => ?_) hl
  obtain ⟨d, hd', hlower⟩ := hk
  rw [hd] at hd'
  cases hd'
  exact hlower.below

/-- Clearing comes to its end if each name in the directory can be looked up. -/
theorem clearIn_succeeds (horder : ∀ u l, Lists u l (order u l)) (applied : Applied) (ht : t.Closed)
    (hs : t.Straight (root ++ names)) (hd : t.openDirectory (root ++ names) = .ok (root ++ names))
    (hfits : ∀ front name, t.lookup (root ++ names ++ front ++ [name]) ≠ none →
      Fits (root ++ names ++ front) name) :
    ((clearIn order applied root names).run t).1 = .ok () := by
  induction names using clearIn.induct root generalizing t with
  | case1 names ih =>
    rw [run_clearIn, hd]
    refine TreeWork.run_forM_ok
      (P := fun w => w.Closed ∧ Loses (Lower applied (root ++ names) names) t w)
      (fun name hname w hw => ?_) ⟨ht, .refl _ t⟩
    obtain ⟨hclosed, hloses⟩ := hw
    obtain ⟨hname, hthere⟩ := (horder t _ name).mp hname
    obtain ⟨hclosed', hloses'⟩ := loses_clearChild (u := w) hd hname
      (fun u hu => loses_clearIn horder applied root (names ++ [name]) hu) hclosed
      ((Fades.refl t).loses hloses)
    refine ⟨?_, hclosed', hloses.trans hloses'⟩
    have hopen := opens_of_straight ht hclosed hs hd (hloses.mono fun k hk => ⟨_, hd, hk⟩)
    have hfit : Fits (root ++ names) name := by
      simpa using hfits [] name (by simpa using hthere)
    rw [run_clearChild]
    by_cases happ : names ++ [name] ∈ applied
    · rw [if_pos happ]
      by_cases hdir : w.isDirectory (root ++ names ++ [name]) = true
      · rw [if_pos hdir]
        have hstraight := (hs.of_covers hloses.covers).concat hname hdir
        have hchild := (openDirectory_child hopen hname hdir).1 hfit
        rw [List.append_assoc] at hstraight hchild
        refine ih t _ hd name hclosed hstraight hchild fun front more hmore => ?_
        rw [← List.append_assoc, List.append_assoc (root ++ names)] at hmore ⊢
        exact hfits ([name] ++ front) more (hloses.covers.ne_none hmore)
      · rw [if_neg hdir]
    · rw [if_neg happ, ← List.append_assoc]
      have hfind := find_child hopen hname hfit
      cases hn : w.lookup (root ++ names ++ [name]) with
      | none =>
        rw [hn] at hfind
        rw [removeAll, hfind]
      | some n =>
        rw [hn] at hfind
        obtain ⟨u, hu⟩ := exists_removeAll hfind
        rw [hu]

end Runs

end Extract
end ContainerLayer
