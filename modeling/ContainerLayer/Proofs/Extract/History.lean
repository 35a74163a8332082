import ContainerLayer.Proofs.Extract.Clear
import ContainerLayer.Proofs.Unpack.Outcome
import ContainerLayer.Stream.Source

/-
The history of a run.

A run goes through the entries one by one.  Its history lists them with what the work
had come to before and after each, so that what a run does is said step by step:
every step does what its entry asks for (`linked_history`), and the tree that the last
one leaves is the tree of the run (`tree_applyEntries`).
-/

namespace ContainerLayer
namespace Extract

open Tar ContainerLayer.Tree

/-- What one entry makes of the progress before it, and why it fails if it does. -/
inductive Applies (root : PathParts) (e : Entry) (p : Progress) :
    Option LayerError → Progress → Prop
  | removed {w t} (hw : whiteout? e.path = some w)
      (h : remove p.applied root e.path w p.tree = (none, t)) :
      Applies root e p none { p with tree := t, count := p.count + 1 }
  | refused {w err t} (hw : whiteout? e.path = some w)
      (h : remove p.applied root e.path w p.tree = (some err, t)) :
      Applies root e p (some err) { p with tree := t }
  | escapes (hw : whiteout? e.path = none) (hup : Path.hasUp e.path = true) :
      Applies root e p (some (.extract e.path .escapes)) p
  | failed {f t} (hw : whiteout? e.path = none) (hup : Path.hasUp e.path = false)
      (h : Unpack.Unpacks root e p.tree (some f) t) :
      Applies root e p (some (.extract e.path (.failed f))) { p with tree := t }
  | unpacked {t} (hw : whiteout? e.path = none) (hup : Path.hasUp e.path = false)
      (h : Unpack.Unpacks root e p.tree none t) :
      Applies root e p none
        { tree := t, applied := Path.names e.path :: p.applied, count := p.count + 1 }

/-- No outcome of the reads keeps an entry from being applied or refused. -/
theorem returns_applyEntry (root : PathParts) (e : Entry) (p : Progress) :
    Tape.Returns (fun r => Applies root e p r.1 r.2) (applyEntry root e p) := by
  unfold applyEntry
  dsimp only
  split
  · rename_i w hw
    split
    · rename_i t h
      exact Tape.returns_pure (.removed hw h)
    · rename_i err t h
      exact Tape.returns_pure (.refused hw h)
  · rename_i hw
    split
    · rename_i hup
      exact Tape.returns_pure (.escapes hw hup)
    · rename_i hup
      have hup : Path.hasUp e.path = false := by simpa using hup
      refine (Unpack.returns_entry root e p.tree).bind ?_
      rintro ⟨fault, t⟩ h
      cases fault with
      | some f => exact Tape.returns_pure (.failed hw hup h)
      | none => exact Tape.returns_pure (.unpacked hw hup h)

/-- One entry of a run, with the progress before and after it. -/
structure Step where
  entry : Entry
  before : Progress
  after : Progress
  /-- Why the run ended here, if it did. -/
  failure : Option LayerError

/-- The steps that `applyEntries` goes through, in order. -/
def history {σ : Type} [Reader σ] (root : PathParts) (start position : Nat) (p : Progress)
    (s : σ) : List Step :=
  let read := Relay.run ((readEntry start).run position) s
  match read.result with
  | .error _ => []
  | .ok (none, _) => []
  | .ok (some ⟨e, _⟩, position) =>
    let applied := Relay.run ((applyEntry root e p).run position) read.rest
    match applied.result with
    | .error _ => []
    | .ok ((some err, after), _) => [⟨e, p, after, some err⟩]
    | .ok ((none, after), position) =>
      ⟨e, p, after, none⟩ :: history root e.next position after applied.rest
termination_by limit - start
decreasing_by
  rename_i hnext _
  have := hnext.1
  have := hnext.2
  omega

/-- The tree after some steps from a tree. -/
def finalTree (t : Tree) : List Step → Tree
  | [] => t
  | x :: xs => finalTree x.after.tree xs

/-- Each step does what its entry asks for and starts where the one before it ended; none
comes after one that failed. -/
def Linked (root : PathParts) : Progress → List Step → Prop
  | _, [] => True
  | p, x :: xs =>
    x.before = p ∧ Applies root x.entry p x.failure x.after ∧ (x.failure = none ∨ xs = []) ∧
      Linked root x.after xs

section Runs

variable {σ : Type} [Reader σ] {root : PathParts}

theorem applies_of_run {e : Entry} {p after : Progress} {failure : Option LayerError}
    {position position' : Nat} {s : σ}
    (h : (Relay.run ((applyEntry root e p).run position) s).result
      = .ok ((failure, after), position')) : Applies root e p failure after := by
  obtain ⟨r, q, hr, ha⟩ := (returns_applyEntry root e p position).run s
  rw [h] at hr
  cases hr
  exact ha

theorem linked_history (start position : Nat) (p : Progress) (s : σ) :
    Linked root p (history root start position p s) := by
  fun_induction history root start position p s with
  | case1 => trivial
  | case2 => trivial
  | case3 => trivial
  | case4 start position p s _ e _ position' _ _ err after _ h =>
    exact ⟨rfl, applies_of_run h, .inr rfl, trivial⟩
  | case5 start position p s _ e _ position' _ _ after _ h ih =>
    exact ⟨rfl, applies_of_run h, .inl rfl, ih⟩

/-- A run reads one entry, applies it and goes on from what these two left. -/
theorem result_applyEntries (start position : Nat) (p : Progress) (s : σ) :
    (Relay.run (applyEntries root start position p) s).result
      = let read := Relay.run ((readEntry start).run position) s
        match read.result with
        | .error f => (.error (.stream f), p.tree)
        | .ok (none, _) => (.ok p.count, p.tree)
        | .ok (some ⟨e, _⟩, position) =>
          let applied := Relay.run ((applyEntry root e p).run position) read.rest
          match applied.result with
          | .error f => (.error (.stream f), p.tree)
          | .ok ((some err, p), _) => (.error err, p.tree)
          | .ok ((none, p), position) =>
            (Relay.run (applyEntries root e.next position p) applied.rest).result := by
  rw [applyEntries]
  refine (Relay.result_run_bind _ _ s).trans ?_
  dsimp only
  rcases (Relay.run ((readEntry start).run position) s).result with
    f | ⟨_ | ⟨e, _⟩, position⟩
  · rfl
  · rfl
  · refine (Relay.result_run_bind _ _ _).trans ?_
    dsimp only
    rcases (Relay.run ((applyEntry root e p).run position) _).result with
      f | ⟨⟨_ | err, p⟩, position⟩
    · rfl
    · rfl
    · rfl

/-- The tree that a run leaves is the one that its last step leaves. -/
theorem tree_applyEntries (start position : Nat) (p : Progress) (s : σ) :
    (Relay.run (applyEntries root start position p) s).result.2
      = finalTree p.tree (history root start position p s) := by
  rw [result_applyEntries]
  fun_induction history root start position p s with
  | case1 start position p s read f h =>
    simp only [read] at h
    simp only [h, finalTree]
  | case2 start position p s read _ h =>
    simp only [read] at h
    simp only [h, finalTree]
  | case3 start position p s read e _ position' h applied f h' =>
    simp only [read, applied] at h h'
    simp only [h, h', finalTree]
  | case4 start position p s read e _ position' h applied err after _ h' =>
    simp only [read, applied] at h h'
    simp only [h, h', finalTree]
  | case5 start position p s read e _ position' h applied after _ h' ih =>
    simp only [read, applied] at h h' ih
    simp only [h, h', finalTree]
    rw [result_applyEntries]
    exact ih

/-- A run comes to its end at the step that fails. -/
theorem result_of_failure {start position : Nat} {p : Progress} {s : σ} {x : Step}
    (h : x ∈ history root start position p s) {err : LayerError} (hx : x.failure = some err) :
    (Relay.run (applyEntries root start position p) s).result = (.error err, x.after.tree) := by
  rw [result_applyEntries]
  fun_induction history root start position p s with
  | case1 | case2 | case3 => exact absurd h List.not_mem_nil
  | case4 start position p s read e _ position' hread applied err' after _ happly =>
    simp only [read, applied] at hread happly
    rw [List.mem_singleton.mp h] at hx ⊢
    simp only [hread, happly]
    rw [Option.some.inj hx]
  | case5 start position p s read e _ position' hread applied after _ happly ih =>
    simp only [read, applied] at hread happly ih h
    simp only [hread, happly]
    rw [result_applyEntries]
    refine ih ((List.mem_cons.mp h).resolve_left fun e => ?_)
    rw [e] at hx
    cases hx

/-- The steps of a run over a whole archive. -/
def archiveHistory (root : PathParts) (t : Tree) (s : σ) : List Step :=
  history root 0 0 { tree := t } s

/-- The first step starts with the tree that the archive is applied to. -/
theorem before_of_cons {t : Tree} {s : σ} {x : Step} {xs : List Step}
    (h : archiveHistory root t s = x :: xs) : x.before = { tree := t } := by
  have hlinked : Linked root { tree := t } (x :: xs) := h ▸ linked_history 0 0 { tree := t } s
  exact hlinked.1

/-- The tree that applying an archive leaves, whatever comes of it. -/
def treeAfter (root : PathParts) (t : Tree) (s : σ) : Tree :=
  (Relay.run (applyArchive root t) s).result.2

theorem treeAfter_eq (root : PathParts) (t : Tree) (s : σ) :
    treeAfter root t s = finalTree t (archiveHistory root t s) :=
  tree_applyEntries 0 0 { tree := t } s

end Runs

/-- An archive member without content. -/
def emptyMember (kind : EntryKind) (path target : Bytes) : Bytes :=
  let h := (Header.newGnu.put .name path).put .linkName target
  (((h.setMode 0o644).setSize 0).setKind kind).setChecksum.bytes

/-! ## Properties that every step keeps -/

/-- What every step keeps holds of the progress before and after each of them. -/
theorem Linked.keeps {root : PathParts} {P : Progress → Prop}
    (hstep : ∀ {e p failure p'}, P p → Applies root e p failure p' → P p') {p : Progress}
    {xs : List Step} (h : Linked root p xs) (hp : P p) :
    ∀ x ∈ xs, P x.before ∧ P x.after := by
  induction xs generalizing p with
  | nil => simp
  | cons x xs ih =>
    obtain ⟨rfl, ha, _, hrest⟩ := h
    have hafter := hstep hp ha
    intro y hy
    rcases List.mem_cons.mp hy with rfl | hy
    · exact ⟨hp, hafter⟩
    · exact ih hrest hafter y hy

theorem Linked.applies {root : PathParts} {p : Progress} {xs : List Step}
    (h : Linked root p xs) : ∀ x ∈ xs, Applies root x.entry x.before x.failure x.after := by
  induction xs generalizing p with
  | nil => simp
  | cons x xs ih =>
    obtain ⟨rfl, ha, _, hrest⟩ := h
    intro y hy
    rcases List.mem_cons.mp hy with rfl | hy
    · exact ha
    · exact ih hrest y hy

/-- There is no step behind one that fails. -/
theorem Linked.nil_of_failure {root : PathParts} {p : Progress} {xs ys : List Step} {x : Step}
    (h : Linked root p (xs ++ x :: ys)) (hx : x.failure ≠ none) : ys = [] := by
  induction xs generalizing p with
  | nil => exact h.2.2.1.resolve_left hx
  | cons y xs ih => exact ih h.2.2.2

/-- An entry with the name of a whiteout does the removing that this asks for. -/
theorem Applies.remove_eq {root : PathParts} {e : Entry} {p p' : Progress}
    {failure : Option LayerError} (h : Applies root e p failure p') {w : Whiteout}
    (hw : whiteout? e.path = some w) :
    remove p.applied root e.path w p.tree = (failure, p'.tree) := by
  cases h with
  | removed hw' h | refused hw' h =>
    rw [hw] at hw'
    cases hw'
    exact h
  | escapes hw' _ | failed hw' _ _ | unpacked hw' _ _ =>
    rw [hw] at hw'
    cases hw'

/-- Every step leaves a closed tree, in which the directory is where it was or nowhere. -/
theorem Applies.closed_and_onlyTo {root : PathParts} {e : Entry} {p p' : Progress}
    {failure : Option LayerError} (h : Applies root e p failure p') (hp : p.tree.Closed)
    {r : Location} (hroot : p.tree.OnlyTo root r) : p'.tree.Closed ∧ p'.tree.OnlyTo root r := by
  cases h with
  | removed hw h | refused hw h =>
    obtain ⟨hclosed, hloses⟩ := loses_of_remove p.applied root hp hw
    rw [h] at hclosed hloses
    exact ⟨hclosed, hroot.of_covers hloses.covers⟩
  | escapes _ _ => exact ⟨hp, hroot⟩
  | failed _ _ h =>
    have hc := h.confined hp hroot
    exact ⟨hc.closed, hc.only⟩
  | unpacked _ _ h =>
    have hc := h.confined hp hroot
    exact ⟨hc.closed, hc.only⟩

theorem Applies.closed {root : PathParts} {e : Entry} {p p' : Progress}
    {failure : Option LayerError} (h : Applies root e p failure p') (hp : p.tree.Closed) :
    p'.tree.Closed := by
  obtain ⟨r, hr⟩ := exists_onlyTo p.tree root
  exact (h.closed_and_onlyTo hp hr).1

/-- An ordinary entry changes nothing outside, whether or not it fails. -/
theorem Applies.sameOutside {root : PathParts} {e : Entry} {p p' : Progress}
    {failure : Option LayerError} (h : Applies root e p failure p') (hp : p.tree.Closed)
    {r : Location} (hroot : p.tree.OnlyTo root r) (hw : whiteout? e.path = none) :
    SameOutside r p.tree p'.tree := by
  cases h with
  | removed hw' _ | refused hw' _ =>
    rw [hw] at hw'
    cases hw'
  | escapes _ _ => exact SameOutside.refl r p.tree
  | failed _ _ h => exact (h.confined hp hroot).same
  | unpacked _ _ h => exact (h.confined hp hroot).same

/-- A whiteout takes away only what it names, whether or not it is carried out. -/
theorem Applies.loses {root : PathParts} {e : Entry} {p p' : Progress}
    {failure : Option LayerError} (h : Applies root e p failure p') (hp : p.tree.Closed)
    {w : Whiteout} (hw : whiteout? e.path = some w) :
    Loses (Takes p.applied root e.path w p.tree) p.tree p'.tree := by
  have hloses := (loses_of_remove p.applied root hp hw).2
  rwa [h.remove_eq hw] at hloses

theorem Linked.closed {root : PathParts} {p : Progress} {xs : List Step} (h : Linked root p xs)
    (hp : p.tree.Closed) : ∀ x ∈ xs, x.before.tree.Closed := fun x hx =>
  (h.keeps (P := fun p => p.tree.Closed) (fun hp ha => ha.closed hp) hp x hx).1

end Extract
end ContainerLayer
