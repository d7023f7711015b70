import Mathlib

/-!
A machine that steps until it returns: a step goes on to a new state or is done with a result,
and a run takes at most `fuel` steps, with `none` when they run out. This is how a loop with
early exits (a `for` with `return` and `goto` back to its head) is modelled. Its proof rule is
that of a `while` with an invariant and a variant: when every step from a state of the invariant
is done with a result of the postcondition or goes on to a state of the invariant with a
smaller measure, a run with more fuel than the measure returns, and with a result of the
postcondition.
-/

namespace FuelLoop

variable {σ ρ : Type}

/-- One step: go on to a state, or be done with a result. -/
inductive Step (σ ρ : Type) where
  | go (s : σ)
  | done (r : ρ)

/-- At most `fuel` steps from `s`; `none` when the fuel runs out first. -/
def loop (step : σ → Step σ ρ) : Nat → σ → Option ρ
  | 0, _ => none
  | fuel + 1, s =>
    match step s with
    | .done r => some r
    | .go s' => loop step fuel s'

section Rule

variable (step : σ → Step σ ρ) (Inv : σ → Prop) (Post : ρ → Prop) (μ : σ → Nat)

/-- What a step from `s` must do: be done with a result of the postcondition, or go on to a
state of the invariant with a smaller measure. -/
def Sound (s : σ) : Prop :=
  match step s with
  | .done r => Post r
  | .go s' => Inv s' ∧ μ s' < μ s

variable {step Inv Post μ}

/-- The loop rule: from a state of the invariant, more fuel than its measure is enough, and the
result satisfies the postcondition. -/
theorem loop_spec (hstep : ∀ s, Inv s → Sound step Inv Post μ s) :
    ∀ fuel s, Inv s → μ s < fuel → ∃ r, loop step fuel s = some r ∧ Post r := by
  intro fuel
  induction fuel with
  | zero => intro s _ hlt; omega
  | succ fuel ih =>
    intro s hs hlt
    have hsound := hstep s hs
    unfold Sound at hsound
    cases hs' : step s with
    | done r =>
      rw [hs'] at hsound
      exact ⟨r, by simp only [loop, hs'], hsound⟩
    | go s' =>
      rw [hs'] at hsound
      obtain ⟨hinv, hdec⟩ := hsound
      obtain ⟨r, hrun, hpost⟩ := ih s' hinv (by omega)
      exact ⟨r, by simp only [loop, hs', hrun], hpost⟩

end Rule

end FuelLoop
