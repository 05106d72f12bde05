import Mathlib.Data.Nat.Count

/-! Bisection: a test that holds of a front part of the numbers below a bound, and the
loop that finds where the front part ends. The test may be undefined elsewhere. -/
namespace Ratlib

/-- Halves the interval until it is empty. -/
def bisect (test : Nat → Option Bool) : Nat → Nat → Nat → Option Nat
  | 0, left, right => if left < right then none else some left
  | rounds + 1, left, right =>
    if left < right then do
      let mid := left + (right - left) / 2
      let front ← test mid
      if front then bisect test rounds (mid + 1) right else bisect test rounds left mid
    else some left

/-- Of the numbers below `n`, `p` holds of those below `k`. -/
structure Front (p : Nat → Prop) (n k : Nat) : Prop where
  le : k ≤ n
  holds : ∀ i < k, p i
  fails : ∀ i, k ≤ i → i < n → ¬p i

variable {p : Nat → Prop} [DecidablePred p] {test : Nat → Option Bool}

/-- What is kept downwards holds of a front part, as long as it is often. -/
theorem front_count (down : ∀ i j, i ≤ j → j < n → p j → p i) : Front p n (Nat.count p n) := by
  induction n with
  | zero => exact ⟨Nat.le_refl _, by simp, by omega⟩
  | succ n ih =>
    by_cases last : p n
    · have all : ∀ i < n + 1, p i := fun i low => down i n (by omega) (Nat.lt_succ_self n) last
      rw [Nat.count_iff_forall.mpr all]
      exact ⟨Nat.le_refl _, all, by omega⟩
    · obtain ⟨le, holds, fails⟩ := ih fun i j le low => down i j le (by omega)
      rw [Nat.count_succ, if_neg last]
      refine ⟨by omega, holds, fun i low high => ?_⟩
      by_cases same : i = n
      · rwa [same]
      · exact fails i low (by omega)

/-- The loop finds the end of the front part, and tests numbers in the interval only. -/
theorem bisect_spec (front : Front p n k) (tested : ∀ i < n, test i = some (decide (p i)))
    (low : left ≤ k) (high : k ≤ right) (within : right ≤ n) (enough : right - left ≤ rounds) :
    bisect test rounds left right = some k := by
  induction rounds generalizing left right with
  | zero =>
    rw [bisect, if_neg (by omega), show left = k by omega]
  | succ rounds ih =>
    rw [bisect]
    split
    case isFalse done => rw [show left = k by omega]
    case isTrue more =>
      simp only [tested (left + (right - left) / 2) (by omega), Option.bind_eq_bind, Option.bind_some,
        decide_eq_true_eq]
      split
      case isTrue before =>
        have : left + (right - left) / 2 < k := by
          by_contra behind
          exact front.fails _ (by omega) (by omega) before
        exact ih (by omega) high within (by omega)
      case isFalse behind =>
        have : k ≤ left + (right - left) / 2 := by
          by_contra before
          exact behind (front.holds _ (by omega))
        exact ih low (by omega) (by omega) (by omega)

end Ratlib
