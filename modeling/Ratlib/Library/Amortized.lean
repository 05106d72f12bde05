import Ratlib.Library.Runs

/-! Amortized costs: what the steps of a run cost altogether, by a potential that saves up
for the dear ones. -/
namespace Ratlib

/-- What the operations cost, each in the state that it meets. -/
def totalCost (step : σ → α → Option σ) (cost : σ → α → Nat) : σ → List α → Nat
  | _, [] => 0
  | s, op :: ops => cost s op + ((step s op).map fun s' => totalCost step cost s' ops).getD 0

variable {step : σ → α → Option σ} {cost gain : σ → α → Nat} {s s' : σ} {ops : List α}

theorem totalCost_cons (first : step s op = some s₁) :
    totalCost step cost s (op :: ops) = cost s op + totalCost step cost s₁ ops := by
  rw [totalCost, first]
  rfl

theorem totalCost_mul (k : Nat) (s : σ) (ops : List α) :
    totalCost step (fun s op => k * gain s op) s ops = k * totalCost step gain s ops := by
  induction ops generalizing s with
  | nil => rfl
  | cons op ops ih =>
    rw [totalCost, totalCost, Nat.mul_add]
    cases step s op with
    | none => rfl
    | some s₁ => exact congrArg _ (ih s₁)

theorem totalCost_add (s : σ) (ops : List α) :
    totalCost step (fun s op => cost s op + gain s op) s ops =
      totalCost step cost s ops + totalCost step gain s ops := by
  induction ops generalizing s with
  | nil => rfl
  | cons op ops ih =>
    rw [totalCost, totalCost, totalCost]
    cases step s op with
    | none => rfl
    | some s₁ =>
      simp only [Option.map_some, Option.getD_some]
      rw [ih s₁]
      omega

theorem totalCost_const (k : Nat) (s : σ) (ops : List α) :
    totalCost step (fun _ _ => k) s ops ≤ k * ops.length := by
  induction ops generalizing s with
  | nil => exact Nat.le_refl _
  | cons op ops ih =>
    rw [totalCost, List.length_cons, Nat.mul_succ]
    cases step s op with
    | none => exact Nat.le_add_left _ _
    | some s₁ =>
      simp only [Option.map_some, Option.getD_some]
      have later := ih s₁
      omega

/-- Where every step is paid for by its gain and what the potential loses, so is a run. -/
theorem run_potential (inv : σ → Prop) (saved : σ → Nat) (gain : σ → α → Nat)
    (keeps : ∀ s, ∀ op, ∀ s', op ∈ ops → inv s → step s op = some s' → inv s')
    (pays : ∀ s, ∀ op, ∀ s', op ∈ ops → inv s → step s op = some s' →
      cost s op + saved s' ≤ saved s + gain s op)
    (initial : inv s) (ran : run step s ops = some s') :
    totalCost step cost s ops + saved s' ≤ saved s + totalCost step gain s ops := by
  induction ops generalizing s with
  | nil =>
    cases ran
    exact Nat.le_of_eq (Nat.add_comm ..)
  | cons op ops ih =>
    obtain ⟨s₁, first, rest⟩ := run_cons_some ran
    have paid := pays s op s₁ List.mem_cons_self initial first
    have later := ih (fun s op s' member => keeps s op s' (List.mem_cons_of_mem _ member))
      (fun s op s' member => pays s op s' (List.mem_cons_of_mem _ member))
      (keeps s op s₁ List.mem_cons_self initial first) rest
    rw [totalCost_cons first, totalCost_cons first]
    omega

end Ratlib
