import ContainerLayer.Proofs.Filter.Schedule
import ContainerLayer.Stream.Counted
import ContainerLayer.Stream.Digested

/-
Readers that read the same.

If each read of two readers gives the same, every relay comes to the same on both
(`Reader.Mirrors`).  A reader around another one may keep an account of what it has handed out
(`Reader.Tallies`), as readers that count or hash do.  Whatever is run on it, its account is of
the bytes that are gone from the output of the reader inside.
-/

namespace ContainerLayer
namespace Reader

variable {α σ τ : Type} [Reader σ] [Reader τ]

/-- Reads of two readers that stand in `R` give the same, and keep `R`. -/
def Mirrors (R : σ → τ → Prop) : Prop :=
  ∀ n s t, R s t → (read n t).1 = (read n s).1 ∧ R (read n s).2 (read n t).2

namespace Mirrors

variable {R : σ → τ → Prop} (hR : Mirrors R) {s : σ} {t : τ}

include hR in
theorem answer (n : Nat) (patient : Bool) (h : R s t) :
    (Relay.answer n patient t).1 = (Relay.answer n patient s).1
      ∧ R (Relay.answer n patient s).2 (Relay.answer n patient t).2 := by
  cases patient with
  | false => exact hR n s t h
  | true =>
    show (Relay.answer n true t).1 = (readPatiently n s).1
      ∧ R (readPatiently n s).2 (Relay.answer n true t).2
    fun_induction readPatiently n s generalizing t with
    | case1 s b s' hs =>
      obtain ⟨hfst, hsnd⟩ := hR n s t h
      rw [hs] at hfst hsnd
      rw [Relay.answer_of_read (Prod.ext hfst rfl) (by simp)]
      exact ⟨rfl, hsnd⟩
    | case2 s f s' hs hf hlt ih =>
      obtain ⟨hfst, hsnd⟩ := hR n s t h
      rw [hs] at hfst hsnd
      rw [Relay.answer_of_interrupted (Prod.ext hfst rfl) hf]
      exact ih hsnd
    | case3 s f s' hs hf =>
      obtain ⟨hfst, hsnd⟩ := hR n s t h
      rw [hs] at hfst hsnd
      have hlast : ∀ g, Except.error f = Except.error (ε := Fault) (α := Bytes) g → true = true →
          g.isInterrupted = false := by
        intro g e _
        cases e
        exact Bool.eq_false_iff.mpr hf
      rw [Relay.answer_of_read (Prod.ext hfst rfl) hlast]
      exact ⟨rfl, hsnd⟩

include hR in
theorem runOnto (acc : List Bytes) (p : Relay α) (h : R s t) :
    (Relay.runOnto acc p t).result = (Relay.runOnto acc p s).result
      ∧ (Relay.runOnto acc p t).writes = (Relay.runOnto acc p s).writes
      ∧ R (Relay.runOnto acc p s).rest (Relay.runOnto acc p t).rest := by
  induction p generalizing acc s t with
  | done a => exact ⟨rfl, rfl, h⟩
  | read n patient next ih =>
    obtain ⟨hfst, hsnd⟩ := hR.answer n patient h
    rw [Relay.runOnto, Relay.runOnto]
    dsimp only
    rw [hfst]
    exact ih _ acc hsnd
  | write b next ih => exact ih _ (b :: acc) h

include hR in
/-- Relays come to the same on both readers. -/
theorem run (p : Relay α) (h : R s t) :
    (Relay.run p t).result = (Relay.run p s).result
      ∧ (Relay.run p t).writes = (Relay.run p s).writes
      ∧ R (Relay.run p s).rest (Relay.run p t).rest := hR.runOnto [] p h

end Mirrors

/-- `t` reads as `inside t` does, and keeps an account of the bytes that it has handed out. -/
structure Tallies (inside : τ → σ) (Told : τ → Bytes → Prop) : Prop where
  read_fst : ∀ n t, (read n t).1 = (read n (inside t)).1
  inside_read : ∀ n t, inside (read n t).2 = (read n (inside t)).2
  of_ok : ∀ n t b more, Told t b → (read n t).1 = .ok more → Told (read n t).2 (b ++ more)
  of_error : ∀ n t b f, Told t b → (read n t).1 = .error f → Told (read n t).2 b

namespace Tallies

variable {inside : τ → σ} {Told : τ → Bytes → Prop}

theorem none : Tallies (id : σ → σ) fun _ _ => True :=
  ⟨fun _ _ => rfl, fun _ _ => rfl, fun _ _ _ _ _ _ => trivial, fun _ _ _ _ _ _ => trivial⟩

/-- A reader that counts tallies the length. -/
theorem counted (h : Tallies inside Told) :
    Tallies (fun t : Counted τ => inside t.inner)
      fun t b => Told t.inner b ∧ t.count = b.length where
  read_fst n t := (Counted.read_fst n t).trans (h.read_fst n t.inner)
  inside_read n t :=
    (congrArg inside (Counted.read_inner n t)).trans (h.inside_read n t.inner)
  of_ok n t b more ht hr := by
    have hinner := Counted.read_inner n t
    have hr : (read n t.inner).1 = .ok more := (Counted.read_fst n t).symm.trans hr
    refine ⟨?_, ?_⟩
    · rw [show (read n t).2.inner = _ from hinner]
      exact h.of_ok n t.inner b more ht.1 hr
    · show (Counted.read n t).2.count = _
      rw [Counted.read, show read n t.inner = (.ok more, _) from Prod.ext hr rfl,
        List.length_append, ← ht.2]
  of_error n t b f ht hr := by
    have hinner := Counted.read_inner n t
    have hr : (read n t.inner).1 = .error f := (Counted.read_fst n t).symm.trans hr
    refine ⟨?_, ?_⟩
    · rw [show (read n t).2.inner = _ from hinner]
      exact h.of_error n t.inner b f ht.1 hr
    · show (Counted.read n t).2.count = _
      rw [Counted.read, show read n t.inner = (.error f, _) from Prod.ext hr rfl]
      exact ht.2

/-- A reader that digests tallies the hash. -/
theorem digested (h : Tallies inside Told) :
    Tallies (fun t : Digested τ => inside t.inner)
      fun t b => Told t.inner b ∧ t.hasher = Sha256.start.update b where
  read_fst n t := (Digested.read_fst n t).trans (h.read_fst n t.inner)
  inside_read n t :=
    (congrArg inside (Digested.read_inner n t)).trans (h.inside_read n t.inner)
  of_ok n t b more ht hr := by
    have hinner := Digested.read_inner n t
    have hr : (read n t.inner).1 = .ok more := (Digested.read_fst n t).symm.trans hr
    refine ⟨?_, ?_⟩
    · rw [show (read n t).2.inner = _ from hinner]
      exact h.of_ok n t.inner b more ht.1 hr
    · show (Digested.read n t).2.hasher = _
      rw [Digested.read, show read n t.inner = (.ok more, _) from Prod.ext hr rfl,
        Sha256.update_append, ← ht.2]
  of_error n t b f ht hr := by
    have hinner := Digested.read_inner n t
    have hr : (read n t.inner).1 = .error f := (Digested.read_fst n t).symm.trans hr
    refine ⟨?_, ?_⟩
    · rw [show (read n t).2.inner = _ from hinner]
      exact h.of_error n t.inner b f ht.1 hr
    · show (Digested.read n t).2.hasher = _
      rw [Digested.read, show read n t.inner = (.error f, _) from Prod.ext hr rfl]
      exact ht.2

/-- Of `whole`, the reader inside has its output to come, and the rest was told of. -/
structure Matches (inside : τ → σ) (Told : τ → Bytes → Prop) (I : σ → Prop) (output : σ → Bytes)
    (whole : Bytes) (s : σ) (t : τ) : Prop where
  inside_eq : inside t = s
  invariant : I s
  told : ∃ b, whole = b ++ output s ∧ Told t b

theorem mirrors {I : σ → Prop} {output : σ → Bytes} (h : Tallies inside Told)
    (hI : Hands I output) (whole : Bytes) : Mirrors (Matches inside Told I output whole) := by
  intro n s t hm
  obtain ⟨rfl, hs, b, hwhole, ht⟩ := hm
  refine ⟨h.read_fst n t, h.inside_read n t, hI.keeps n _ hs, ?_⟩
  cases hr : (read n (inside t)).1 with
  | ok more =>
    refine ⟨b ++ more, ?_, h.of_ok n t b more ht ((h.read_fst n t).trans hr)⟩
    rw [hwhole, (hI.of_ok n _ more hs hr).2, List.append_assoc]
  | error f =>
    refine ⟨b, ?_, h.of_error n t b f ht ((h.read_fst n t).trans hr)⟩
    rw [hwhole, hI.of_error n _ f hs hr]

/-- Whatever is run on a reader that keeps an account comes to the same as on the reader inside,
and the account is of what is gone from the output then. -/
theorem run {I : σ → Prop} {output : σ → Bytes} (h : Tallies inside Told)
    (hI : Hands I output) (p : Relay α) {t : τ} (hs : I (inside t)) (ht : Told t []) :
    (Relay.run p t).result = (Relay.run p (inside t)).result
      ∧ inside (Relay.run p t).rest = (Relay.run p (inside t)).rest
      ∧ ∃ taken, output (inside t) = taken ++ output (Relay.run p (inside t)).rest
        ∧ Told (Relay.run p t).rest taken := by
  obtain ⟨hresult, -, hrest⟩ :=
    (h.mirrors hI (output (inside t))).run p ⟨rfl, hs, [], rfl, ht⟩
  exact ⟨hresult, hrest.inside_eq, hrest.told⟩

end Tallies
end Reader
end ContainerLayer
