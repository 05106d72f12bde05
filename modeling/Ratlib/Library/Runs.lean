import Mathlib.Data.List.Induction

/-! Runs of a machine that may refuse a step: a list of operations from a state,
and the induction every invariant of such a machine goes by. -/
namespace Ratlib

/-- The state after the operations, if none of them is refused. -/
def run (step : σ → α → Option σ) (s : σ) (ops : List α) : Option σ := ops.foldlM step s

variable {step : σ → α → Option σ}

theorem run_cons : run step s (op :: ops) = (step s op).bind fun s' => run step s' ops := rfl

theorem run_cons_some (ran : run step s (op :: ops) = some s'') :
    ∃ s', step s op = some s' ∧ run step s' ops = some s'' := by
  rw [run_cons] at ran
  exact Option.bind_eq_some_iff.mp ran

/-- What every step of a run keeps, the run keeps. -/
theorem run_invariant_mem (inv : σ → Prop)
    (keeps : ∀ s, ∀ op, ∀ s', op ∈ ops → inv s → step s op = some s' → inv s') (initial : inv s)
    (ran : run step s ops = some s') : inv s' := by
  induction ops generalizing s with
  | nil =>
    cases ran
    exact initial
  | cons op ops ih =>
    obtain ⟨next, first, rest⟩ := run_cons_some ran
    have later := fun s op' s' member => keeps s op' s' (List.mem_cons_of_mem op member)
    exact ih later (keeps s op next List.mem_cons_self initial first) rest

/-- What every step keeps, every run keeps. -/
theorem run_invariant (inv : σ → Prop) (keeps : ∀ s op s', inv s → step s op = some s' → inv s')
    (initial : inv s) (ran : run step s ops = some s') : inv s' :=
  run_invariant_mem inv (fun s op s' _ => keeps s op s') initial ran

theorem run_append_some (ran : run step s (ops ++ ops') = some s'') :
    ∃ s', run step s ops = some s' ∧ run step s' ops' = some s'' := by
  rw [run, List.foldlM_append] at ran
  exact Option.bind_eq_some_iff.mp ran

theorem run_concat (ran : run step s ops = some s') : run step s (ops ++ [op]) = step s' op := by
  rw [run, List.foldlM_append, ← run, ran]
  simp

/-- The same for what looks back on the operations of the run. -/
theorem run_history (inv : List α → σ → Prop)
    (keeps : ∀ before, ∀ s', ∀ op, ∀ s'', op ∈ ops → run step s before = some s' → inv before s' →
      step s' op = some s'' → inv (before ++ [op]) s'')
    (initial : inv [] s) (ran : run step s ops = some s') : inv ops s' := by
  induction ops using List.reverseRecOn generalizing s' with
  | nil =>
    cases ran
    exact initial
  | append_singleton ops op ih =>
    obtain ⟨s₁, earlier, -⟩ := run_append_some ran
    have now := ih (fun before s' op s'' member => keeps before s' op s'' (List.mem_append_left _ member)) earlier
    exact keeps ops s₁ op s' (List.mem_append_right _ List.mem_cons_self) earlier now
      ((run_concat earlier).symm.trans ran)

end Ratlib
