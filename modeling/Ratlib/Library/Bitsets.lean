import Mathlib.Data.BitVec
import Mathlib.Data.Set.Lattice

/-! Bit vectors as the sets of their one bits. What `&&&`, `|||`, `~~~` and shifts do to
the vector the set operations do to the set, and a vector is determined by its set. -/
namespace Ratlib.Bitset

variable {w : Nat} {x y : BitVec w}

def ones (x : BitVec w) : Set Nat := { i | x.getLsbD i = true }

theorem mem_ones : i ∈ ones x ↔ x.getLsbD i = true := Iff.rfl

theorem ones_lt (member : i ∈ ones x) : i < w := BitVec.lt_of_getLsbD member

theorem ones_injective (same : ones x = ones y) : x = y := by
  refine BitVec.eq_of_getLsbD_eq fun i _ => ?_
  have bit := Set.ext_iff.mp same i
  rw [mem_ones, mem_ones] at bit
  exact Bool.eq_iff_iff.mpr bit

theorem ones_eq_iff : ones x = ones y ↔ x = y := by
  constructor
  · exact ones_injective
  · rintro rfl
    rfl

@[simp] theorem ones_zero : ones 0#w = ∅ := by
  ext i
  simp [mem_ones]

@[simp] theorem ones_or : ones (x ||| y) = ones x ∪ ones y := by
  ext i
  simp [mem_ones]

@[simp] theorem ones_and : ones (x &&& y) = ones x ∩ ones y := by
  ext i
  simp [mem_ones]

theorem ones_and_not : ones (x &&& ~~~y) = ones x \ ones y := by
  ext i
  simp only [mem_ones, Set.mem_sdiff, BitVec.getLsbD_and, BitVec.getLsbD_not, Bool.and_eq_true,
    decide_eq_true_eq, Bool.not_eq_true', Bool.not_eq_true]
  exact ⟨fun both => ⟨both.1, both.2.2⟩, fun both => ⟨both.1, BitVec.lt_of_getLsbD both.1, both.2⟩⟩

theorem mem_ones_shiftLeft : i ∈ ones (x <<< n) ↔ i < w ∧ n ≤ i ∧ i - n ∈ ones x := by
  simp [mem_ones, and_assoc]

theorem mem_ones_ushiftRight : i ∈ ones (x >>> n) ↔ n + i ∈ ones x := by
  simp [mem_ones]

/-- Every question about two vectors as sets is one about the vectors. -/
theorem ones_subset_iff : ones y ⊆ ones x ↔ x &&& y = y := by
  rw [← ones_eq_iff, ones_and, Set.inter_eq_right]

theorem ones_nonempty_iff : (ones x).Nonempty ↔ x ≠ 0#w := by
  rw [Set.nonempty_iff_ne_empty, ← ones_zero (w := w), Ne, ones_eq_iff]

/-- A vector with the low `count` bits of a number is that number up to there. -/
theorem toNat_of_ones (low : ∀ i, i ∈ ones x ↔ i < count ∧ i ∈ ones y) : x.toNat = y.toNat % 2 ^ count := by
  refine Nat.eq_of_testBit_eq fun i => ?_
  rw [Nat.testBit_mod_two_pow, BitVec.testBit_toNat, BitVec.testBit_toNat]
  refine Bool.eq_iff_iff.mpr ?_
  simpa [mem_ones] using low i

end Ratlib.Bitset
