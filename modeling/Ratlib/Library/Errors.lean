import Mathlib.Algebra.BigOperators.Intervals
import Mathlib.Dynamics.PeriodicPts.Lemmas
import Ratlib.Library.Feedback

/-! What a feedback register notices. A stream is the superposition of its set bits, each
clocked on from where it entered. A functional that the clock preserves counts the set bits;
two of them cancel where the clock returns the tap to itself in between. -/
namespace Ratlib.Feedback

variable {M N : Type*} [AddCommGroup M] [AddCommGroup N] {T : M →+ M} {tap r : M} {bits : List Bool}

theorem feed_sum (bits : List Bool) : feed T tap 0 bits =
    ∑ i ∈ Finset.range bits.length, if bits[i]? = some true then T^[bits.length - 1 - i] tap else 0 := by
  induction bits using List.reverseRecOn with
  | nil => rfl
  | append_singleton bits bit ih =>
    have clocked : T (feed T tap 0 bits) = ∑ i ∈ Finset.range bits.length,
        if (bits ++ [bit])[i]? = some true then T^[bits.length - i] tap else 0 := by
      rw [ih, map_sum]
      refine Finset.sum_congr rfl fun i inside => ?_
      have inside := Finset.mem_range.mp inside
      rw [List.getElem?_append_left inside]
      split
      · rw [← Function.iterate_succ_apply' (⇑T)]
        congr 2
        omega
      · exact map_zero T
    rw [feed_concat, clock, clocked, List.length_append, List.length_singleton, Finset.sum_range_succ,
      Nat.add_sub_cancel, List.getElem?_concat_length, Nat.sub_self]
    cases bit <;> rfl

/-- The set bits as a functional sees them that the clock preserves. -/
theorem map_feed_count (φ : M →+ N) (preserved : ∀ r, φ (T r) = φ r) (bits : List Bool) :
    φ (feed T tap r bits) = φ r + bits.count true • φ tap := by
  induction bits generalizing r with
  | nil => rw [feed_nil, List.count_nil, zero_nsmul, add_zero]
  | cons bit bits ih =>
    rw [feed_cons, ih, clock, map_add, preserved]
    cases bit with
    | true => rw [if_pos rfl, List.count_cons_self, succ_nsmul', add_assoc]
    | false =>
      rw [if_neg Bool.false_ne_true, map_zero, add_zero, List.count_cons_of_ne (by decide)]

/-- Two set bits cancel exactly where the clock returns the tap to itself in between. -/
theorem feed_pair (own : ∀ x : M, x + x = 0) (injective : Function.Injective T) (order : i < j)
    (set : ∀ k : Nat, bits[k]? = some true ↔ k = i ∨ k = j) :
    feed T tap 0 bits = 0 ↔ Function.minimalPeriod T tap ∣ j - i := by
  have inside : j < bits.length := (List.getElem?_eq_some_iff.mp ((set j).mpr (.inr rfl))).1
  have pair : (Finset.range bits.length).filter (fun k => bits[k]? = some true) = {i, j} := by
    ext k
    rw [Finset.mem_filter, Finset.mem_range, set, Finset.mem_insert, Finset.mem_singleton]
    omega
  have gap : bits.length - 1 - i = (bits.length - 1 - j) + (j - i) := by omega
  rw [feed_sum, ← Finset.sum_filter, pair, Finset.sum_pair order.ne, gap, Function.iterate_add_apply,
    ← iterate_map_add, ← Function.isPeriodicPt_iff_minimalPeriod_dvd]
  constructor
  · intro zero
    have cancelled : T^[j - i] tap + tap = 0 := by
      apply injective.iterate (bits.length - 1 - j)
      rw [zero, iterate_map_zero]
    have opposite : -tap = tap := neg_eq_of_add_eq_zero_left (own tap)
    exact (add_eq_zero_iff_eq_neg.mp cancelled).trans opposite
  · intro back
    rw [back, own, iterate_map_zero]

/-- Clocking returns a tap after fewer steps than there are registers. -/
theorem period_bounds [Fintype M] [DecidableEq M] (injective : Function.Injective T) (tap_ne : tap ≠ 0) :
    0 < Function.minimalPeriod T tap ∧ Function.minimalPeriod T tap < Fintype.card M := by
  refine ⟨Function.minimalPeriod_pos_of_mem_periodicPts (injective.mem_periodicPts tap), ?_⟩
  have nonzero : ∀ n, T^[n] tap ≠ 0 := fun n zero =>
    tap_ne (injective.iterate n (zero.trans (iterate_map_zero T n).symm))
  have visited : (Finset.range (Function.minimalPeriod T tap)).image (fun n => T^[n] tap) ⊆
      Finset.univ.erase 0 := by
    intro r member
    obtain ⟨n, -, rfl⟩ := Finset.mem_image.mp member
    exact Finset.mem_erase.mpr ⟨nonzero n, Finset.mem_univ _⟩
  have distinct := Finset.card_image_of_injOn (s := Finset.range (Function.minimalPeriod T tap))
    (f := fun n => T^[n] tap) fun m m_lt n n_lt same => Function.iterate_injOn_Iio_minimalPeriod
      (Finset.mem_range.mp m_lt) (Finset.mem_range.mp n_lt) same
  have room := Finset.card_le_card visited
  rw [distinct, Finset.card_range, Finset.card_erase_of_mem (Finset.mem_univ _), Finset.card_univ] at room
  have := Fintype.card_pos (α := M)
  omega

end Ratlib.Feedback
