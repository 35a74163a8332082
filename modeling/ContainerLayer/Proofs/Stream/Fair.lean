/-
Schedules that are fair.

Several parties take turns on one state.  A schedule says who has which turn, for ever; it is
fair if every party has a turn again and again.  `Inevitable` says that a state leads to a goal
however the turns are dealt out: each turn leaves the state as it is or comes closer, and some
party comes closer with whatever turn it has next.
-/

namespace ContainerLayer

variable {S T P : Type}

/-- Every party has a turn again and again; turns of nobody do not count. -/
def Fair (party : T → Option P) (schedule : Nat → T) : Prop :=
  ∀ who n, ∃ m, n ≤ m ∧ party (schedule m) = some who

/-- The state after `n` turns. -/
def along (turn : S → T → S) (schedule : Nat → T) (s : S) (n : Nat) : S :=
  ((List.range n).map schedule).foldl turn s

theorem along_succ (turn : S → T → S) (schedule : Nat → T) (s : S) (n : Nat) :
    along turn schedule s (n + 1) = turn (along turn schedule s n) (schedule n) := by
  rw [along, List.range_succ, List.map_append, List.foldl_append]
  rfl

inductive Inevitable (turn : S → T → S) (party : T → Option P) (Goal : S → Prop) : S → Prop
  | reached {s : S} (h : Goal s) : Inevitable turn party Goal s
  | closer {s : S} (who : P)
    (turns : ∀ t, turn s t ≠ s → Inevitable turn party Goal (turn s t))
    (next : ∀ t, party t = some who → Inevitable turn party Goal (turn s t)) :
    Inevitable turn party Goal s

/-- A fair schedule comes to a goal that is inevitable. -/
theorem Inevitable.exists_along {turn : S → T → S} {party : T → Option P} {Goal : S → Prop}
    {schedule : Nat → T} (hfair : Fair party schedule) {s₀ s : S}
    (h : Inevitable turn party Goal s) {n : Nat} (hn : along turn schedule s₀ n = s) :
    ∃ m, n ≤ m ∧ Goal (along turn schedule s₀ m) := by
  induction h generalizing n with
  | reached h => exact ⟨n, Nat.le_refl n, hn ▸ h⟩
  | @closer s who turns next ihturns ihnext =>
    obtain ⟨m, hm, hwho⟩ := hfair who n
    -- up to the next turn of that party, the state stays as it is or has come closer
    induction hd : m - n generalizing n with
    | zero =>
      obtain rfl : n = m := by omega
      have hstep : along turn schedule s₀ (n + 1) = turn s (schedule n) := by
        rw [along_succ, hn]
      obtain ⟨m', hm', hgoal⟩ := ihnext _ hwho hstep
      exact ⟨m', by omega, hgoal⟩
    | succ d ih =>
      have hstep : along turn schedule s₀ (n + 1) = turn s (schedule n) := by
        rw [along_succ, hn]
      by_cases hstay : turn s (schedule n) = s
      · obtain ⟨m', hm', hgoal⟩ := ih (hstep.trans hstay) (by omega) (by omega)
        exact ⟨m', by omega, hgoal⟩
      · obtain ⟨m', hm', hgoal⟩ := ihturns _ hstay hstep
        exact ⟨m', by omega, hgoal⟩

end ContainerLayer
