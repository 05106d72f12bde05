import Mathlib.Algebra.Polynomial.Div
import Mathlib.Algebra.Polynomial.Monic
import Ratlib.Library.Feedback

/-! Feedback registers as remainders. Where clocking a register multiplies its polynomial
by `X` modulo a monic one, and the tap is 1, the register holds the remainder of the
stream that it was fed. -/
namespace Ratlib.Feedback

open Polynomial

variable {R : Type*} [CommRing R] {M : Type*} [AddCommGroup M] {T : M →+ M} {tap r : M} {G q : R[X]}
  {φ : M →+ R[X]}

/-- The polynomial of a stream, the first bit leading. -/
noncomputable def ofStream (R : Type*) [CommRing R] (bits : List Bool) : R[X] :=
  bits.foldl (fun q bit => q * X + if bit then 1 else 0) 0

theorem ofStream_concat : ofStream R (bits ++ [bit]) = ofStream R bits * X + if bit then 1 else 0 := by
  rw [ofStream, List.foldl_append]
  rfl

theorem mul_mod (monic : G.Monic) (p q : R[X]) : (p * (q %ₘ G)) %ₘ G = (p * q) %ₘ G := by
  apply modByMonic_eq_of_dvd_sub monic
  rw [← mul_sub]
  exact (dvd_modByMonic_sub q G).mul_left p

theorem feed_mod (monic : G.Monic) (clocked : ∀ r, φ (T r) = (X * φ r) %ₘ G) (one : φ tap = 1 %ₘ G)
    (bits : List Bool) : φ (feed T tap 0 bits) = ofStream R bits %ₘ G := by
  induction bits using List.reverseRecOn with
  | nil =>
    rw [feed_nil, map_zero]
    exact (zero_modByMonic G).symm
  | append_singleton bits bit ih =>
    have entered : φ (if bit then tap else 0) = (if bit then 1 else 0) %ₘ G := by
      cases bit with
      | true => exact one
      | false =>
        rw [if_neg Bool.false_ne_true, if_neg Bool.false_ne_true, map_zero, zero_modByMonic]
    rw [feed_concat, clock, map_add, clocked, ih, entered, mul_mod monic, ofStream_concat,
      add_modByMonic, mul_comm X]

theorem iterate_mod (monic : G.Monic) (clocked : ∀ r, φ (T r) = (X * φ r) %ₘ G)
    (reduced : φ r = q %ₘ G) (n : Nat) : φ (T^[n] r) = (q * X ^ n) %ₘ G := by
  induction n with
  | zero => rwa [Function.iterate_zero_apply, pow_zero, mul_one]
  | succ n ih => rw [Function.iterate_succ_apply', clocked, ih, mul_mod monic, pow_succ', mul_left_comm]

end Ratlib.Feedback
