import Ratlib.Arr.Elements

/-! What `rarr_resize` does to the elements: it keeps those up to the shorter run and moves
those behind the old run to behind the new one. -/
namespace Ratlib.Arr

variable {P : Platform} {m : Mem} {arr elemSize arrLen index count oldCount newCount i : Nat}

def lengthBefore (arrLen oldCount newCount : Nat) : Nat :=
  if oldCount < newCount then arrLen - (newCount - oldCount) else arrLen

def lengthAfter (arrLen oldCount newCount : Nat) : Nat :=
  if oldCount < newCount then arrLen else arrLen - (oldCount - newCount)

/-- Elements behind a gap are those that were at its place, the others stay, those that
the gap covers included. -/
theorem rarrInsert_elem (fits : arrLen * elemSize ≤ P.sizeMax) (positive : 0 < elemSize)
    (inside : index + count ≤ arrLen) (low : i < arrLen) :
    elem (rarrInsert P m arr elemSize arrLen index count).2 arr elemSize i =
      if index + count ≤ i then elem m arr elemSize (i - count) else elem m arr elemSize i := by
  rw [rarrInsert_run fits positive inside]
  split
  case isTrue behind =>
    obtain ⟨j, rfl⟩ := Nat.exists_eq_add_of_le behind
    apply elem_congr
    intro k inner
    have offset := offset_lt (show j < arrLen - (index + count) by omega) inner
    have source : arr + (index + count + j - count) * elemSize + k =
        arr + index * elemSize + (j * elemSize + k) := by
      rw [show index + count + j - count = index + j by omega, Nat.add_mul]
      omega
    have target : arr + (index + count + j) * elemSize + k =
        arr + (index + count) * elemSize + (j * elemSize + k) := by
      rw [Nat.add_mul _ j]
      omega
    rw [source, target]
    exact Mem.copy_in offset
  case isFalse before =>
    apply elem_congr
    intro k inner
    have := offset_lt (show i < index + count by omega) inner
    exact Mem.copy_out (by omega)

section Resize
variable (fits : arrLen * elemSize ≤ P.sizeMax)
  (asserts : ResizeAsserts elemSize arrLen index oldCount newCount)
include fits asserts

theorem rarrResize_grow (more : oldCount < newCount) :
    rarrResize P m arr elemSize arrLen index oldCount newCount =
      rarrInsert P m arr elemSize arrLen (index + oldCount) (newCount - oldCount) := by
  obtain ⟨positive, inside, room⟩ := asserts
  have small : arrLen ≤ P.sizeMax := Nat.le_trans (Nat.le_mul_of_pos_right arrLen positive) fits
  rw [if_pos more] at room
  rw [rarrResize, if_pos more, Platform.add_of_le (by omega), Platform.sub_of_le (by omega) (by omega)]

theorem rarrResize_shrink (fewer : ¬oldCount < newCount) :
    rarrResize P m arr elemSize arrLen index oldCount newCount =
      rarrRemove P m arr elemSize arrLen (index + newCount) (oldCount - newCount) := by
  obtain ⟨positive, inside, room⟩ := asserts
  have small : arrLen ≤ P.sizeMax := Nat.le_trans (Nat.le_mul_of_pos_right arrLen positive) fits
  rw [if_neg fewer] at room
  rw [rarrResize, if_neg fewer, Platform.add_of_le (by omega), Platform.sub_of_le (by omega) (by omega)]

end Resize

/-- The elements up to the shorter run stay, those behind the old run lie behind the new
one, and nothing is written outside the longer array. -/
structure Resized (m m' : Mem) (arr elemSize arrLen index oldCount newCount : Nat) : Prop where
  front : (elems m' arr elemSize (lengthAfter arrLen oldCount newCount)).take
      (index + min oldCount newCount) =
    (elems m arr elemSize (lengthBefore arrLen oldCount newCount)).take (index + min oldCount newCount)
  back : (elems m' arr elemSize (lengthAfter arrLen oldCount newCount)).drop (index + newCount) =
    (elems m arr elemSize (lengthBefore arrLen oldCount newCount)).drop (index + oldCount)
  outside : ∀ x, x < arr ∨ arr + arrLen * elemSize ≤ x → m' x = m x

theorem rarrResize_spec (m : Mem) (arr : Nat) (fits : arrLen * elemSize ≤ P.sizeMax)
    (asserts : ResizeAsserts elemSize arrLen index oldCount newCount) :
    (rarrResize P m arr elemSize arrLen index oldCount newCount).1 =
        arr + (index + min oldCount newCount) * elemSize ∧
      Resized m (rarrResize P m arr elemSize arrLen index oldCount newCount).2 arr elemSize arrLen
        index oldCount newCount := by
  have ⟨positive, inside, room⟩ := asserts
  by_cases more : oldCount < newCount
  · rw [if_pos more] at room
    have within : index + oldCount + (newCount - oldCount) ≤ arrLen := by omega
    obtain ⟨gap, length, list⟩ := rarrInsert_elems (m := m) fits positive within arr
    have shorter : min oldCount newCount = oldCount := Nat.min_eq_left more.le
    have front : ((elems m arr elemSize (arrLen - (newCount - oldCount))).take
        (index + oldCount)).length = index + oldCount := by
      rw [List.length_take, elems_length]
      omega
    rw [rarrResize_grow fits asserts more, shorter]
    refine ⟨congrArg Prod.fst (rarrInsert_run fits positive within arr), ?_, ?_,
      fun x => rarrInsert_out fits positive within arr⟩
    · rw [lengthAfter, lengthBefore, if_pos more, if_pos more, shorter, list, List.append_assoc,
        List.take_left' front]
    · have length' : ((elems m arr elemSize (arrLen - (newCount - oldCount))).take
          (index + oldCount) ++ gap).length = index + newCount := by
        rw [List.length_append, front, length]
        omega
      rw [lengthAfter, lengthBefore, if_pos more, if_pos more, list, List.drop_left' length']
  · rw [if_neg more] at room
    have within : index + newCount + (oldCount - newCount) ≤ arrLen := by omega
    have list := rarrRemove_elems (m := m) fits positive within arr
    have shorter : min oldCount newCount = newCount := Nat.min_eq_right (by omega)
    have front : ((elems m arr elemSize arrLen).take (index + newCount)).length = index + newCount := by
      rw [List.length_take, elems_length]
      omega
    rw [rarrResize_shrink fits asserts more, shorter]
    refine ⟨congrArg Prod.fst (rarrRemove_run fits positive within arr), ?_, ?_,
      fun x => rarrRemove_out fits positive within arr⟩
    · rw [lengthAfter, lengthBefore, if_neg more, if_neg more, shorter, list, List.take_left' front]
    · rw [lengthAfter, lengthBefore, if_neg more, if_neg more, list, List.drop_left' front]
      congr 1
      omega

/-- A run that was grown and is shrunk again leaves the array as it was. -/
theorem rarrResize_restores (fits : arrLen * elemSize ≤ P.sizeMax)
    (asserts : ResizeAsserts elemSize arrLen index oldCount newCount) (more : oldCount < newCount) :
    let m' := (rarrResize P m arr elemSize arrLen index oldCount newCount).2
    elems (rarrResize P m' arr elemSize arrLen index newCount oldCount).2 arr elemSize
        (lengthBefore arrLen oldCount newCount) =
      elems m arr elemSize (lengthBefore arrLen oldCount newCount) := by
  intro m'
  have ⟨positive, inside, room⟩ := asserts
  rw [if_pos more] at room
  have asserts' : ResizeAsserts elemSize arrLen index newCount oldCount :=
    ⟨positive, inside, by rwa [if_neg more.not_gt]⟩
  obtain ⟨front, back, -⟩ := (rarrResize_spec m arr fits asserts).2
  obtain ⟨front', back', -⟩ := (rarrResize_spec m' arr fits asserts').2
  have lengths : lengthAfter arrLen newCount oldCount = lengthBefore arrLen oldCount newCount := by
    rw [lengthAfter, lengthBefore, if_neg more.not_gt, if_pos more]
  have lengths' : lengthBefore arrLen newCount oldCount = lengthAfter arrLen oldCount newCount := by
    rw [lengthAfter, lengthBefore, if_neg more.not_gt, if_pos more]
  rw [lengths, lengths', Nat.min_comm, front, Nat.min_eq_left more.le] at front'
  rw [lengths, lengths', back] at back'
  rw [← List.take_append_drop (index + oldCount) (elems m arr elemSize _), ← front', ← back',
    List.take_append_drop]

end Ratlib.Arr
