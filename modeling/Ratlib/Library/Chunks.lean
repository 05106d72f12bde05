import Mathlib.Data.List.Basic
import Mathlib.Data.List.Range

/-! Sequences cut into blocks of `n`, and what is left behind the last block: input that
comes in pieces is cut where the whole input is. -/
namespace Ratlib

variable {α : Type u} {n : Nat} {xs ys block : List α}

/-- The blocks of `n` elements, from the front. -/
def blocks (n : Nat) (xs : List α) : List (List α) :=
  (List.range (xs.length / n)).map fun i => (xs.drop (n * i)).take n

/-- The elements behind the blocks, fewer than `n`. -/
def leftover (n : Nat) (xs : List α) : List α := xs.drop (n * (xs.length / n))

theorem blocks_short (short : xs.length < n) : blocks n xs = [] := by
  rw [blocks, Nat.div_eq_of_lt short]
  rfl

theorem leftover_short (short : xs.length < n) : leftover n xs = xs := by
  rw [leftover, Nat.div_eq_of_lt short, Nat.mul_zero, List.drop_zero]

theorem leftover_length (n : Nat) (xs : List α) : (leftover n xs).length = xs.length % n := by
  rw [leftover, List.length_drop, Nat.mod_eq_sub]

section Append
variable (positive : 0 < n) (whole : block.length = n)

include positive whole in
theorem blocks_block : blocks n (block ++ xs) = block :: blocks n xs := by
  have count : (block ++ xs).length / n = xs.length / n + 1 := by
    rw [List.length_append, whole, Nat.add_div_left _ positive]
  rw [blocks, count, List.range_succ_eq_map, List.map_cons, List.map_map]
  have first : ((block ++ xs).drop (n * 0)).take n = block := by
    rw [Nat.mul_zero, List.drop_zero, ← whole, List.take_left]
  rw [first, blocks]
  congr 1
  refine List.map_congr_left fun i _ => ?_
  rw [Function.comp_apply, Nat.mul_succ, Nat.add_comm, ← List.drop_drop, ← whole, List.drop_left]

include positive whole in
theorem leftover_block : leftover n (block ++ xs) = leftover n xs := by
  have count : (block ++ xs).length / n = xs.length / n + 1 := by
    rw [List.length_append, whole, Nat.add_div_left _ positive]
  rw [leftover, count, Nat.mul_succ, Nat.add_comm, ← List.drop_drop, leftover, ← whole,
    List.drop_left]

include positive in
theorem chunks_append (xs ys : List α) :
    blocks n (xs ++ ys) = blocks n xs ++ blocks n (leftover n xs ++ ys) ∧
      leftover n (xs ++ ys) = leftover n (leftover n xs ++ ys) := by
  induction size : xs.length using Nat.strongRecOn generalizing xs with
  | ind k ih =>
    by_cases short : xs.length < n
    · rw [blocks_short short, leftover_short short]
      exact ⟨rfl, rfl⟩
    · have first : (xs.take n).length = n := List.length_take_of_le (Nat.le_of_not_lt short)
      have smaller : (xs.drop n).length < k := by
        rw [List.length_drop]
        omega
      obtain ⟨cut, rest⟩ := ih _ smaller (xs.drop n) rfl
      rw [← List.take_append_drop n xs, List.append_assoc, blocks_block positive first,
        leftover_block positive first, blocks_block positive first, leftover_block positive first, cut,
        rest]
      exact ⟨rfl, rfl⟩

end Append
end Ratlib
