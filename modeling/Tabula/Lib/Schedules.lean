import Tabula.Lib.Runs

/-!
# Schedules

A list of labels, run by a function that computes the next state where it can. When the
function computes steps of a relation, a schedule that comes to its end is a run of the
relation (`Runs.exists_of_follow`), so that a run can be shown to exist by evaluation.
-/

namespace Runs

variable {σ α : Type*} {step : σ → α → σ → Prop} {next : σ → α → Option σ} {G : σ → α → Prop}
  [∀ s a, Decidable (G s a)] {s s' : σ} {as : List α}

/-- A schedule, step by step, as far as its steps meet a condition. -/
def follow (next : σ → α → Option σ) (G : σ → α → Prop) [∀ s a, Decidable (G s a)] (s : σ)
    (as : List α) : Option σ :=
  as.foldlM (fun s a => if G s a then next s a else none) s

/-- **A schedule that comes to its end is a run.** -/
theorem run_of_follow (hnext : ∀ {s a s'}, next s a = some s' → step s a s')
    (h : follow next G s as = some s') : Run (Guarded step G) s as s' := by
  induction as generalizing s with
  | nil =>
    obtain rfl := Option.some.inj h
    exact .nil
  | cons a as ih =>
    rw [follow, List.foldlM_cons] at h
    obtain ⟨s₁, h₁, h⟩ := Option.bind_eq_some_iff.mp h
    split at h₁
    · rename_i hG
      exact (Run.single ⟨hnext h₁, hG⟩).trans (ih h)
    · simp at h₁

/-- A schedule that leads to a state with a property. -/
theorem exists_of_follow (hnext : ∀ {s a s'}, next s a = some s' → step s a s')
    (G : σ → α → Prop) [∀ s a, Decidable (G s a)] (s : σ) (as : List α) (P : σ → Prop)
    [DecidablePred P] (h : (follow next G s as).any (fun s' => decide (P s')) = true) :
    ∃ s', Run (Guarded step G) s as s' ∧ P s' := by
  cases hs : follow next G s as with
  | none =>
    rw [hs, Option.any_none] at h
    exact absurd h Bool.false_ne_true
  | some s' =>
    rw [hs, Option.any_some] at h
    exact ⟨s', run_of_follow hnext hs, of_decide_eq_true h⟩

end Runs
