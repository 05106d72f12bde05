import Ratlib.Arr.Model

/-! Arrays of `elemSize`-byte elements in memory, as lists, and what shifting a run
does to the list. -/
namespace Ratlib.Arr

def elem (m : Mem) (arr elemSize i : Nat) : List UInt8 := m.read (arr + i * elemSize) elemSize

def elems (m : Mem) (arr elemSize count : Nat) : List (List UInt8) :=
  (List.range count).map (elem m arr elemSize)

variable {P : Platform} {m m' : Mem} {arr a b elemSize count : Nat}

@[simp] theorem elems_length : (elems m arr elemSize count).length = count := by simp [elems]

theorem elems_getElem (inside : i < (elems m arr elemSize count).length) :
    (elems m arr elemSize count)[i] = elem m arr elemSize i := by simp [elems]

theorem elem_congr (same : ∀ k < elemSize, m (a + i * elemSize + k) = m' (b + j * elemSize + k)) :
    elem m a elemSize i = elem m' b elemSize j := by
  apply List.map_congr_left
  intro k member
  exact same k (List.mem_range.mp member)

theorem offset_lt (inside : i < count) (k_lt : k < elemSize) :
    i * elemSize + k < count * elemSize := by
  have := Nat.mul_le_mul_right elemSize (Nat.succ_le_of_lt inside)
  rw [Nat.succ_mul] at this
  omega

theorem elems_congr (same : ∀ x < count * elemSize, m (a + x) = m' (b + x)) :
    elems m a elemSize count = elems m' b elemSize count := by
  apply List.map_congr_left
  intro i member
  apply elem_congr
  intro k inside
  rw [Nat.add_assoc, Nat.add_assoc]
  exact same _ (offset_lt (List.mem_range.mp member) inside)

theorem elem_eq (same : elems m a elemSize count = elems m' b elemSize count) (low : i < count) :
    elem m a elemSize i = elem m' b elemSize i :=
  List.map_inj_left.mp same i (List.mem_range.mpr low)

theorem elems_take (few : n ≤ count) :
    (elems m arr elemSize count).take n = elems m arr elemSize n := by
  rw [elems, ← List.map_take, List.take_range, Nat.min_eq_left few, elems]

theorem elems_drop (n : Nat) :
    (elems m arr elemSize count).drop n = elems m (arr + n * elemSize) elemSize (count - n) := by
  apply List.ext_getElem (by simp)
  intro i _ inside
  rw [List.getElem_drop, elems_getElem, elems_getElem]
  apply elem_congr
  intro k _
  rw [Nat.add_mul, ← Nat.add_assoc arr]

theorem elems_append (i j : Nat) :
    elems m arr elemSize (i + j) =
      elems m arr elemSize i ++ elems m (arr + i * elemSize) elemSize j := by
  have split := List.take_append_drop i (elems m arr elemSize (i + j))
  rw [elems_take (Nat.le_add_right i j), elems_drop, Nat.add_sub_cancel_left] at split
  exact split.symm

theorem elems_write {bytes : List UInt8} (whole : bytes.length = elemSize) (i : Nat) :
    elems (m.write (arr + i * elemSize) bytes) arr elemSize count =
      (elems m arr elemSize count).set i bytes := by
  apply List.ext_getElem (by simp)
  intro j inside inside'
  rw [List.getElem_set, elems_getElem]
  split
  case isTrue same =>
    subst same whole
    exact Mem.read_write ..
  case isFalse other =>
    rw [elems_getElem]
    apply elem_congr
    intro k low
    rw [Nat.add_assoc]
    apply Mem.write_out
    rcases Nat.lt_or_gt_of_ne other with before | behind
    · have := Nat.mul_le_mul_right elemSize (Nat.succ_le_of_lt before)
      rw [Nat.succ_mul] at this
      omega
    · have := offset_lt behind low
      omega

section Shift
variable {index arrLen : Nat}

theorem mul_le_of_le (fits : total * elemSize ≤ P.sizeMax) (le : n ≤ total) :
    P.mul n elemSize = n * elemSize :=
  Platform.mul_of_le (Nat.le_trans (Nat.mul_le_mul_right elemSize le) fits)

theorem rarrRemove_run (fits : arrLen * elemSize ≤ P.sizeMax) (positive : 0 < elemSize)
    (inside : index + count ≤ arrLen) (arr : Nat) :
    rarrRemove P m arr elemSize arrLen index count =
      (arr + index * elemSize, m.copy (arr + index * elemSize) (arr + (index + count) * elemSize)
        ((arrLen - (index + count)) * elemSize)) := by
  have small : arrLen ≤ P.sizeMax := Nat.le_trans (Nat.le_mul_of_pos_right arrLen positive) fits
  rw [rarrRemove, Platform.sub_of_le (by omega) small, Platform.sub_of_le (by omega) (by omega),
    mul_le_of_le fits (by omega), mul_le_of_le fits (by omega), mul_le_of_le fits (by omega),
    Nat.add_mul, Nat.add_assoc, Nat.sub_sub]

theorem rarrInsert_run (fits : arrLen * elemSize ≤ P.sizeMax) (positive : 0 < elemSize)
    (inside : index + count ≤ arrLen) (arr : Nat) :
    rarrInsert P m arr elemSize arrLen index count =
      (arr + index * elemSize, m.copy (arr + (index + count) * elemSize) (arr + index * elemSize)
        ((arrLen - (index + count)) * elemSize)) := by
  have small : arrLen ≤ P.sizeMax := Nat.le_trans (Nat.le_mul_of_pos_right arrLen positive) fits
  rw [rarrInsert, Platform.sub_of_le (by omega) small, Platform.sub_of_le (by omega) (by omega),
    mul_le_of_le fits (by omega), mul_le_of_le fits (by omega), mul_le_of_le fits (by omega),
    Nat.add_mul, Nat.add_assoc, Nat.sub_sub]

/-- `rarr_remove` cuts the run out of the list. -/
theorem rarrRemove_elems (fits : arrLen * elemSize ≤ P.sizeMax) (positive : 0 < elemSize)
    (inside : index + count ≤ arrLen) (arr : Nat) :
    elems (rarrRemove P m arr elemSize arrLen index count).2 arr elemSize (arrLen - count) =
      (elems m arr elemSize arrLen).take index ++ (elems m arr elemSize arrLen).drop (index + count) := by
  have length : arrLen - count = index + (arrLen - (index + count)) := by omega
  rw [rarrRemove_run fits positive inside, length, elems_append, elems_take (by omega), elems_drop]
  congr 1
  · apply elems_congr
    intro x low
    exact Mem.copy_out (by omega)
  · apply elems_congr
    intro x low
    exact Mem.copy_in low

/-- `rarr_insert` opens a gap in the list. -/
theorem rarrInsert_elems (fits : arrLen * elemSize ≤ P.sizeMax) (positive : 0 < elemSize)
    (inside : index + count ≤ arrLen) (arr : Nat) :
    ∃ gap, gap.length = count ∧
      elems (rarrInsert P m arr elemSize arrLen index count).2 arr elemSize arrLen =
        (elems m arr elemSize (arrLen - count)).take index ++ gap ++
          (elems m arr elemSize (arrLen - count)).drop index := by
  have length : arrLen = index + count + (arrLen - (index + count)) := by omega
  have rest : arrLen - count - index = arrLen - (index + count) := by omega
  rw [rarrInsert_run fits positive inside, elems_take (by omega), elems_drop, rest]
  generalize arrLen - (index + count) = after at length ⊢
  subst length
  refine ⟨elems (m.copy (arr + (index + count) * elemSize) (arr + index * elemSize)
    (after * elemSize)) (arr + index * elemSize) elemSize count, elems_length, ?_⟩
  rw [elems_append, elems_append]
  congr 1
  · congr 1
    apply elems_congr
    intro x low
    rw [Nat.add_mul]
    exact Mem.copy_out (by omega)
  · apply elems_congr
    intro x low
    exact Mem.copy_in low

theorem rarrRemove_out (fits : arrLen * elemSize ≤ P.sizeMax) (positive : 0 < elemSize)
    (inside : index + count ≤ arrLen) (arr : Nat) (outside : x < arr ∨ arr + arrLen * elemSize ≤ x) :
    (rarrRemove P m arr elemSize arrLen index count).2 x = m x := by
  have within := Nat.mul_le_mul_right elemSize (show index + (arrLen - (index + count)) ≤ arrLen by omega)
  rw [Nat.add_mul] at within
  rw [rarrRemove_run fits positive inside]
  exact Mem.copy_out (by omega)

theorem rarrInsert_out (fits : arrLen * elemSize ≤ P.sizeMax) (positive : 0 < elemSize)
    (inside : index + count ≤ arrLen) (arr : Nat) (outside : x < arr ∨ arr + arrLen * elemSize ≤ x) :
    (rarrInsert P m arr elemSize arrLen index count).2 x = m x := by
  have within : (index + count) * elemSize + (arrLen - (index + count)) * elemSize =
      arrLen * elemSize := by rw [← Nat.add_mul, Nat.add_sub_cancel' inside]
  rw [rarrInsert_run fits positive inside]
  exact Mem.copy_out (by omega)

end Shift
end Ratlib.Arr
