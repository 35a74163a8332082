import ContainerLayer.Unpack

/-
What work on a tree ensures, whether it returns or fails.

Faults leave what was done before them, so a statement about work on a tree has to
speak about the tree after a fault, too.  `TreeWork.Ensures` does, and there is a
lemma for each way in which such work is put together.
-/

namespace ContainerLayer
namespace TreeWork

variable {α β : Type}

theorem run_bind (w : TreeWork α) (f : α → TreeWork β) (t : Tree) :
    (w >>= f).run t = match w.run t with
      | (.ok a, t') => (f a).run t'
      | (.error k, t') => (.error k, t') := by
  simp only [ExceptT.run, bind, ExceptT.bind, ExceptT.mk, StateT.bind]
  rcases w t with ⟨_ | _, _⟩ <;> rfl

theorem run_get (t : Tree) : (get : TreeWork Tree).run t = (.ok t, t) := rfl

theorem run_inspect (f : Tree → Except FaultKind α) (t : Tree) :
    (inspect f).run t = match f t with
      | .ok a => (.ok a, t)
      | .error k => (.error (.ofKind k), t) := by
  rw [inspect, run_bind, run_get]
  dsimp only
  cases f t <;> rfl

theorem run_change (f : Tree → Except FaultKind Tree) (t : Tree) :
    (change f).run t = match f t with
      | .ok t' => (.ok (), t')
      | .error k => (.error (.ofKind k), t) := by
  rw [change, run_bind, run_inspect]
  cases f t <;> rfl

/-- Work that starts from a tree with `P` leaves one with `E` if it fails, and returns a
result that has `Q` together with the tree if it does not. -/
def Ensures (P : Tree → Prop) (w : TreeWork α) (Q : α → Tree → Prop) (E : Tree → Prop) : Prop :=
  ∀ t, P t → match w.run t with
    | (.ok a, t') => Q a t'
    | (.error _, t') => E t'

variable {P : Tree → Prop} {Q : α → Tree → Prop} {E : Tree → Prop}

theorem ensures_pure {a : α} (h : ∀ t, P t → Q a t) : Ensures P (pure a) Q E := h

theorem ensures_throw {f : Fault} (h : ∀ t, P t → E t) : Ensures P (throw f : TreeWork α) Q E := h

theorem ensures_bind {R : α → Tree → Prop} {S : β → Tree → Prop} {w : TreeWork α}
    {f : α → TreeWork β} (hw : Ensures P w R E) (hf : ∀ a, Ensures (R a) (f a) S E) :
    Ensures P (w >>= f) S E := by
  intro t ht
  have h := hw t ht
  rw [run_bind]
  rcases hr : w.run t with ⟨k | a, t'⟩
  · rw [hr] at h
    exact h
  · rw [hr] at h
    exact hf a t' h

theorem ensures_get {Q : Tree → Tree → Prop} (h : ∀ t, P t → Q t t) :
    Ensures P (get : TreeWork Tree) Q E := h

theorem ensures_inspect {f : Tree → Except FaultKind α} (hE : ∀ t, P t → E t)
    (h : ∀ t a, P t → f t = .ok a → Q a t) : Ensures P (inspect f) Q E := by
  intro t ht
  rw [run_inspect]
  cases hf : f t with
  | error k => exact hE t ht
  | ok a => exact h t a ht hf

theorem ensures_change {f : Tree → Except FaultKind Tree} {Q : Unit → Tree → Prop}
    (hE : ∀ t, P t → E t) (h : ∀ t t', P t → f t = .ok t' → Q () t') :
    Ensures P (change f) Q E := by
  intro t ht
  rw [run_change]
  cases hf : f t with
  | error k => exact hE t ht
  | ok t' => exact h t t' ht hf

theorem ensures_modify {f : Tree → Tree} {Q : Unit → Tree → Prop} (h : ∀ t, P t → Q () (f t)) :
    Ensures P (modify f : TreeWork Unit) Q E := h

theorem ensures_set {t' : Tree} {Q : Unit → Tree → Prop} (h : ∀ t, P t → Q () t') :
    Ensures P (set t' : TreeWork Unit) Q E := h

theorem Ensures.mono {Q' : α → Tree → Prop} {E' : Tree → Prop} {w : TreeWork α}
    (h : Ensures P w Q E) (hQ : ∀ a t, Q a t → Q' a t) (hE : ∀ t, E t → E' t) :
    Ensures P w Q' E' := by
  intro t ht
  have := h t ht
  rcases hr : w.run t with ⟨k | a, t'⟩
  · rw [hr] at this
    exact hE t' this
  · rw [hr] at this
    exact hQ a t' this

/-- A loop keeps what each of its rounds keeps. -/
theorem ensures_forIn {xs : List β} {f : β → TreeWork (ForInStep PUnit)}
    (h : ∀ x ∈ xs, Ensures P (f x) (fun r t => r = .yield PUnit.unit ∧ P t) P) :
    Ensures P (forIn xs PUnit.unit fun x _ => f x) (fun _ => P) P := by
  induction xs with
  | nil => exact ensures_pure fun _ ht => ht
  | cons x xs ih =>
    rw [List.forIn_cons]
    refine ensures_bind (h x List.mem_cons_self) ?_
    intro r t h
    obtain ⟨rfl, ht⟩ := h
    exact ih (fun y hy => h y (List.mem_cons_of_mem x hy)) t ht

/-! ## Work done for one after the other -/

section Each

variable {f : β → TreeWork Unit} {x : β} {xs : List β} {t t' : Tree}

theorem run_forM_cons (f : β → TreeWork Unit) (x : β) (xs : List β) (t : Tree) :
    ((x :: xs).forM f).run t = match (f x).run t with
      | (.ok _, t') => (xs.forM f).run t'
      | (.error k, t') => (.error k, t') := by
  rw [List.forM_eq_forM, List.forM_cons, run_bind]
  rcases (f x).run t with ⟨_ | _, _⟩ <;> rfl

/-- Whether or not the work comes to its end, it keeps what each part of it keeps. -/
theorem after_forM (h : ∀ x ∈ xs, ∀ t, P t → P ((f x).run t).2) (ht : P t) :
    P ((xs.forM f).run t).2 := by
  induction xs generalizing t with
  | nil => exact ht
  | cons x xs ih =>
    obtain ⟨hx, hxs⟩ := List.forall_mem_cons.mp h
    have hfirst := hx t ht
    rw [run_forM_cons]
    rcases hr : (f x).run t with ⟨k | _, u⟩
    · rw [hr] at hfirst
      exact hfirst
    · rw [hr] at hfirst
      exact ih hxs hfirst

/-- Work that comes to its end has done each part of it. -/
theorem exists_run_of_mem (h : (xs.forM f).run t = (.ok (), t')) (hx : x ∈ xs) :
    ∃ before after u u', xs = before ++ x :: after ∧ (before.forM f).run t = (.ok (), u) ∧
      (f x).run u = (.ok (), u') ∧ (after.forM f).run u' = (.ok (), t') := by
  induction xs generalizing t with
  | nil => exact absurd hx List.not_mem_nil
  | cons y xs ih =>
    rw [run_forM_cons] at h
    rcases hr : (f y).run t with ⟨k | _, u⟩
    · rw [hr] at h
      cases h
    · rw [hr] at h
      rcases List.mem_cons.mp hx with rfl | hx
      · exact ⟨[], xs, t, u, rfl, rfl, hr, h⟩
      · obtain ⟨before, after, u₁, u₂, rfl, hbefore, hmid, hafter⟩ := ih h hx
        refine ⟨y :: before, after, u₁, u₂, rfl, ?_, hmid, hafter⟩
        rw [run_forM_cons, hr]
        exact hbefore

/-- Work comes to its end if each part of it does. -/
theorem run_forM_ok (h : ∀ x ∈ xs, ∀ t, P t → ((f x).run t).1 = .ok () ∧ P ((f x).run t).2)
    (ht : P t) : ((xs.forM f).run t).1 = .ok () := by
  induction xs generalizing t with
  | nil => rfl
  | cons x xs ih =>
    obtain ⟨hx, hxs⟩ := List.forall_mem_cons.mp h
    obtain ⟨hok, hu⟩ := hx t ht
    rw [run_forM_cons]
    rcases hr : (f x).run t with ⟨k | _, u⟩
    · rw [hr] at hok
      cases hok
    · rw [hr] at hu
      exact ih hxs hu

end Each

end TreeWork
end ContainerLayer
