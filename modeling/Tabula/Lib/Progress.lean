import Mathlib.Order.OrderIsoNat
import Tabula.Lib.Runs

/-!
# Runs that come to an end

A measure that every step lowers rules out infinite runs, when it takes its values in a
well-founded order. It may do so from the states with an invariant only.
-/

namespace Runs

variable {σ α β : Type*} {step : σ → α → σ → Prop} {I : σ → Prop}

/-- No step is left. -/
def Stuck (step : σ → α → σ → Prop) (s : σ) : Prop := ∀ a s', ¬step s a s'

/-- An infinite run. -/
def Diverges (step : σ → α → σ → Prop) (s : σ) : Prop :=
  ∃ run : ℕ → σ, run 0 = s ∧ ∀ n, ∃ a, step (run n) a (run (n + 1))

/-- **A measure that every step lowers rules out infinite runs.** -/
theorem not_diverges_of_measure [Preorder β] [WellFoundedLT β] (μ : σ → β)
    (hI : ∀ s a s', I s → step s a s' → I s') (hμ : ∀ s a s', I s → step s a s' → μ s' < μ s)
    {s : σ} (hs : I s) : ¬Diverges step s := by
  rintro ⟨run, rfl, hrun⟩
  have hinv : ∀ n, I (run n) := by
    intro n
    induction n with
    | zero => exact hs
    | succ n ih =>
      obtain ⟨a, ha⟩ := hrun n
      exact hI _ _ _ ih ha
  have hdesc : ∀ n, μ (run (n + 1)) < μ (run n) := by
    intro n
    obtain ⟨a, ha⟩ := hrun n
    exact hμ _ _ _ (hinv n) ha
  exact not_strictAnti_of_wellFoundedLT _
    (strictAnti_nat_of_succ_lt (f := fun n => μ (run n)) hdesc)

end Runs
