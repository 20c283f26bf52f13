import Mathlib.Tactic.Common

/-!
# Runs of a labelled step relation

A system is a relation `step s a s'`: in state `s` the label `a` can happen and
leads to `s'`. `Runs.Run` is the sequence of labels of a run, taken from its first
state; it grows at its end, so that an induction on a run looks at the last step.

A condition on the steps of a run is put into the relation (`Runs.Guarded`): a run
of the guarded relation is a run all of whose steps meet the condition, each in the
state it was taken in. An invariant is shown to hold at the start and to survive one
step, and then holds in every state reached (`Runs.Run.invariant`).
-/

namespace Runs

variable {σ α : Type*}

/-- The state a list of steps leads to. -/
inductive Run (step : σ → α → σ → Prop) (s : σ) : List α → σ → Prop
  | nil : Run step s [] s
  | snoc {as s' a s''} : Run step s as s' → step s' a s'' → Run step s (as ++ [a]) s''

/-- The steps that meet a condition in the state they are taken in. -/
def Guarded (step : σ → α → σ → Prop) (guard : σ → α → Prop) (s : σ) (a : α) (s' : σ) : Prop :=
  step s a s' ∧ guard s a

variable {step : σ → α → σ → Prop} {s s' s'' : σ} {as bs : List α}

/-- **What one step preserves, a run preserves.** -/
theorem Run.invariant {I : σ → Prop} (h : Run step s as s') (h0 : I s)
    (hstep : ∀ s a s', I s → step s a s' → I s') : I s' := by
  induction h with
  | nil => exact h0
  | snoc _ hs ih => exact hstep _ _ _ ih hs

/-- A run of fewer steps is a run of more. -/
theorem Run.mono {step' : σ → α → σ → Prop} (h : Run step s as s')
    (hsub : ∀ s a s', step s a s' → step' s a s') : Run step' s as s' := by
  induction h with
  | nil => exact .nil
  | snoc _ hs ih => exact ih.snoc (hsub _ _ _ hs)

/-- The labels of the steps are those of the run. -/
theorem Run.guarded_mem (h : Run step s as s') : Run (Guarded step fun _ a => a ∈ as) s as s' := by
  induction h with
  | nil => exact .nil
  | snoc _ hs ih =>
    exact (ih.mono fun _ _ _ h => ⟨h.1, List.mem_append_left _ h.2⟩).snoc
      ⟨hs, List.mem_append_right _ (List.mem_singleton_self _)⟩

/-- What every step says of its label. -/
theorem Run.forall_mem {P : α → Prop} (h : Run step s as s') (hP : ∀ s a s', step s a s' → P a) :
    ∀ a ∈ as, P a := by
  induction h with
  | nil => exact List.forall_mem_nil _
  | snoc _ hs ih =>
    intro a ha
    rcases List.mem_append.mp ha with ha | ha
    · exact ih a ha
    · exact List.mem_singleton.mp ha ▸ hP _ _ _ hs

theorem Run.single {a : α} (h : step s a s') : Run step s [a] s' := Run.nil.snoc h

theorem Run.trans (h : Run step s as s') (h' : Run step s' bs s'') :
    Run step s (as ++ bs) s'' := by
  induction h' with
  | nil => simpa using h
  | snoc _ hs ih =>
    rw [← List.append_assoc]
    exact ih.snoc hs

/-- A run comes by the states in the middle of it. -/
theorem Run.split (h : Run step s (as ++ bs) s'') :
    ∃ s', Run step s as s' ∧ Run step s' bs s'' := by
  generalize hlabels : as ++ bs = labels at h
  induction h generalizing bs with
  | nil =>
    obtain ⟨rfl, rfl⟩ := List.append_eq_nil_iff.mp hlabels
    exact ⟨s, .nil, .nil⟩
  | @snoc labels s₁ b s₂ hrun hs ih =>
    rcases List.eq_nil_or_concat bs with rfl | ⟨bs, b', rfl⟩
    · rw [List.append_nil] at hlabels
      exact ⟨s₂, hlabels ▸ hrun.snoc hs, .nil⟩
    · rw [List.concat_eq_append] at hlabels ⊢
      rw [← List.append_assoc] at hlabels
      obtain ⟨hfront, hlast⟩ := List.append_inj' hlabels rfl
      obtain rfl := List.singleton_inj.mp hlast
      obtain ⟨s', hrun, hrun'⟩ := ih hfront
      exact ⟨s', hrun, hrun'.snoc hs⟩

/-- **What is on a record that only grows, was recorded in one of the steps**, behind what was
on record before that step. -/
theorem Run.exists_of_mem_record {β : Type*} {record : σ → List β} (h : Run step s as s')
    (h0 : record s = []) (hgrows : ∀ s a s', step s a s' → record s <+: record s')
    {before after : List β} {b : β} (hb : record s' = before ++ b :: after) :
    ∃ bs s₁ a s₂ new new', Run step s bs s₁ ∧ step s₁ a s₂ ∧
      record s₂ = record s₁ ++ (new ++ b :: new') ∧ before = record s₁ ++ new := by
  induction h generalizing after with
  | nil => simp [h0] at hb
  | @snoc as s₁ a s₂ hrun hs ih =>
    obtain ⟨evs, hevs⟩ := hgrows _ _ _ hs
    rcases List.append_eq_append_iff.mp (hevs.trans hb) with ⟨new, rfl, rfl⟩ | ⟨old, hold, hafter⟩
    · exact ⟨as, s₁, a, s₂, new, after, hrun, hs, hevs.symm, rfl⟩
    · cases old with
      | nil =>
        rw [List.nil_append] at hafter
        rw [List.append_nil] at hold
        exact ⟨as, s₁, a, s₂, [], after, hrun, hs, by rw [← hevs, ← hafter, List.nil_append],
          by rw [hold, List.append_nil]⟩
      | cons b' old =>
        obtain ⟨rfl, -⟩ := List.cons.inj hafter
        exact ih hold

end Runs
