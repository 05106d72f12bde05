import Ratlib.Arr.Elements
import Ratlib.Library.Bisection

/-! What the two binary searches find, for any comparator whose sign is monotone along
the array, and that the target fits in where they point. -/
namespace Ratlib.Arr

variable {P : Platform} {m : Mem} {arr elemSize arrLen target : Nat} {cmpFn : Rcmp} {sign : Nat → Int}

/-- The comparator is defined on the elements, with these results against the target. -/
def Compares (cmpFn : Rcmp) (m : Mem) (arr elemSize arrLen target : Nat) (sign : Nat → Int) : Prop :=
  ∀ i < arrLen, cmpFn m (arr + i * elemSize) elemSize target elemSize = some (sign i)

theorem searchLoop_eq (onward : Int → Bool) (fits : arrLen * elemSize ≤ P.sizeMax)
    (small : arrLen ≤ P.sizeMax) (within : right ≤ arrLen) :
    searchLoop P cmpFn m arr elemSize target onward rounds left right =
      bisect (fun i => (cmpFn m (arr + i * elemSize) elemSize target elemSize).map onward)
        rounds left right := by
  induction rounds generalizing left right with
  | zero => rfl
  | succ rounds ih =>
    rw [searchLoop, bisect]
    by_cases more : left < right
    · have mid : P.add left (P.sub right left / 2) = left + (right - left) / 2 := by
        rw [Platform.sub_of_le (by omega) (by omega), Platform.add_of_le (by omega)]
      simp only [if_pos more, mid, mul_le_of_le fits (show left + (right - left) / 2 ≤ arrLen by omega),
        Platform.add_of_le (show left + (right - left) / 2 + 1 ≤ P.sizeMax by omega)]
      cases cmpFn m (arr + (left + (right - left) / 2) * elemSize) elemSize target elemSize with
      | none => rfl
      | some cmp =>
        simp only [Option.bind_eq_bind, Option.bind_some, Option.map_some]
        rw [ih within, ih (by omega)]
    · rw [if_neg more, if_neg more]

section Results

def Ascending (sign : Nat → Int) (n : Nat) : Prop :=
  ∀ i j, i ≤ j → j < n → (sign j < 0 → sign i < 0) ∧ (sign j ≤ 0 → sign i ≤ 0)

def Descending (sign : Nat → Int) (n : Nat) : Prop :=
  ∀ i j, i ≤ j → j < n → (0 < sign j → 0 < sign i) ∧ (0 ≤ sign j → 0 ≤ sign i)

/-- The elements that compare less are counted, and the next one is the leftmost match,
if there is one. -/
structure FoundLeft (sign : Nat → Int) (n : Nat) (found : Bool) (index : Nat) : Prop where
  found_iff : found = true ↔ ∃ i < n, sign i = 0
  index_eq : index = Nat.count (fun i => sign i < 0) n
  leftmost : found = true → index < n ∧ sign index = 0 ∧ ∀ i < index, sign i ≠ 0

/-- The index is the rightmost match, or counts the elements that compare greater. -/
structure FoundRight (sign : Nat → Int) (n : Nat) (found : Bool) (index : Nat) : Prop where
  found_iff : found = true ↔ ∃ i < n, sign i = 0
  rightmost : found = true → index < n ∧ sign index = 0 ∧ ∀ i, index < i → i < n → sign i ≠ 0
  insertion : found = false → index = Nat.count (fun i => 0 < sign i) n

/-- The elements before the index compare less or equal, those from it on greater or equal. -/
structure Fits (sign : Nat → Int) (n index : Nat) : Prop where
  le : index ≤ n
  before : ∀ i < index, sign i ≤ 0
  behind : ∀ i, index ≤ i → i < n → 0 ≤ sign i

section Signs
variable {n k : Nat}

/-- Behind those that compare less, the next element tells whether any compares equal. -/
theorem found_left (ascending : Ascending sign n) (front : Front (fun i => sign i < 0) n k)
    (count : Nat.count (fun i => sign i < 0) n = k) :
    FoundLeft sign n (decide (k < n ∧ sign k = 0)) k := by
  refine ⟨?_, count.symm, fun match_ => ?_⟩
  · rw [decide_eq_true_iff]
    constructor
    · exact fun ⟨inside, zero⟩ => ⟨k, inside, zero⟩
    · rintro ⟨i, low, zero⟩
      have behind : k ≤ i := by
        by_contra before
        have := front.holds i (by omega)
        omega
      have := front.fails k (Nat.le_refl k) (by omega)
      have := (ascending k i behind low).2 zero.le
      exact ⟨by omega, by omega⟩
  · obtain ⟨inside, zero⟩ := of_decide_eq_true match_
    refine ⟨inside, zero, fun i low => ?_⟩
    have := front.holds i low
    omega

/-- A match that ends the elements on which the descending loop goes on is the last one. -/
theorem found_right (front : Front (fun i => 0 ≤ sign i) n k) (some : 0 < k) (zero : sign (k - 1) = 0) :
    FoundRight sign n true (k - 1) ∧ Fits (fun i => -sign i) n (k - 1) := by
  have within := front.le
  refine ⟨⟨⟨fun _ => ⟨k - 1, by omega, zero⟩, fun _ => rfl⟩, fun _ => ⟨by omega, zero, ?_⟩, nofun⟩,
    by omega, ?_, ?_⟩
  · intro i behind low
    have := front.fails i (by omega) low
    omega
  · intro i low
    have := front.holds i (by omega)
    omega
  · intro i behind low
    by_cases here : i = k - 1
    · subst here
      omega
    · have := front.fails i (by omega) low
      omega

theorem found_none (descending : Descending sign n) (front : Front (fun i => 0 ≤ sign i) n k)
    (count : Nat.count (fun i => 0 ≤ sign i) n = k) (last : 0 < k → sign (k - 1) ≠ 0) :
    FoundRight sign n false k ∧ Fits (fun i => -sign i) n k := by
  have within := front.le
  have none : ∀ i < n, sign i ≠ 0 := by
    intro i low zero
    have before : i < k := by
      by_contra behind
      exact front.fails i (by omega) low (by omega)
    have := front.holds (k - 1) (by omega)
    have := (descending i (k - 1) (by omega) (by omega)).1
    exact last (by omega) (by omega)
  have index : k = Nat.count (fun i => 0 < sign i) n := by
    rw [← count]
    apply Nat.le_antisymm
    · exact Nat.count_mono_left fun i low nonneg => lt_of_le_of_ne nonneg (none i low).symm
    · exact Nat.count_mono_left fun i _ positive => positive.le
  refine ⟨⟨⟨nofun, fun ⟨i, low, zero⟩ => absurd zero (none i low)⟩, nofun, fun _ => index⟩, within,
    fun i low => ?_, fun i behind low => ?_⟩
  · have := front.holds i low
    omega
  · have := front.fails i behind low
    omega

end Signs

variable (fits : arrLen * elemSize ≤ P.sizeMax) (positive : 0 < elemSize)
  (compares : Compares cmpFn m arr elemSize arrLen target sign)

include fits positive compares

/-- The loop returns where the elements end that it goes on behind. -/
theorem searchLoop_front (onward : Int → Bool) (front : Front (fun i => onward (sign i) = true) arrLen k) :
    searchLoop P cmpFn m arr elemSize target onward arrLen 0 arrLen = some k := by
  have small : arrLen ≤ P.sizeMax := Nat.le_trans (Nat.le_mul_of_pos_right arrLen positive) fits
  rw [searchLoop_eq onward fits small (Nat.le_refl _)]
  refine bisect_spec front ?_ (Nat.zero_le _) front.le (Nat.le_refl _) (Nat.sub_le _ _)
  intro i low
  rw [compares i low, Option.map_some, Bool.decide_eq_true]

theorem rarrBinSearch_spec (ascending : Ascending sign arrLen) :
    ∃ found index, rarrBinSearch P m arr elemSize arrLen cmpFn target = some (found, index) ∧
      FoundLeft sign arrLen found index ∧ Fits sign arrLen index := by
  have front : Front (fun i => sign i < 0) arrLen (Nat.count (fun i => sign i < 0) arrLen) :=
    front_count fun i j le low => (ascending i j le low).1
  have loop := searchLoop_front (P := P) fits positive compares (fun cmp => decide (cmp < 0))
    (by simpa using front)
  generalize count : Nat.count (fun i => sign i < 0) arrLen = k at front loop
  have place : Fits sign arrLen k := ⟨front.le, fun i low => (front.holds i low).le,
    fun i le low => Int.not_lt.mp (front.fails i le low)⟩
  refine ⟨_, k, ?_, found_left ascending front count, place⟩
  rw [rarrBinSearch, loop]
  simp only [Option.bind_eq_bind, Option.bind_some]
  by_cases inside : k < arrLen
  · rw [if_pos inside, mul_le_of_le fits inside.le, compares k inside]
    simp only [Option.bind_some, inside, true_and]
    rfl
  · rw [if_neg inside]
    simp [inside]

theorem rarrBinSearchDesc_spec (descending : Descending sign arrLen) :
    ∃ found index, rarrBinSearchDesc P m arr elemSize arrLen cmpFn target = some (found, index) ∧
      FoundRight sign arrLen found index ∧ Fits (fun i => -sign i) arrLen index := by
  have small : arrLen ≤ P.sizeMax := Nat.le_trans (Nat.le_mul_of_pos_right arrLen positive) fits
  have front : Front (fun i => 0 ≤ sign i) arrLen (Nat.count (fun i => 0 ≤ sign i) arrLen) :=
    front_count fun i j le low => (descending i j le low).2
  have loop := searchLoop_front (P := P) fits positive compares (fun cmp => decide (cmp ≥ 0))
    (by simpa using front)
  generalize count : Nat.count (fun i => 0 ≤ sign i) arrLen = k at front loop
  have within := front.le
  rw [rarrBinSearchDesc, loop]
  simp only [Option.bind_eq_bind, Option.bind_some]
  by_cases some : 0 < k
  · rw [if_pos some, Platform.sub_of_le some (by omega), mul_le_of_le fits (by omega),
      compares (k - 1) (by omega), Option.bind_some]
    by_cases zero : sign (k - 1) = 0
    · rw [if_pos zero]
      exact ⟨true, k - 1, rfl, found_right front some zero⟩
    · rw [if_neg zero]
      exact ⟨false, k, rfl, found_none descending front count fun _ => zero⟩
  · rw [if_neg some]
    exact ⟨false, k, rfl, found_none descending front count fun positive => absurd positive some⟩

end Results

section Insertion

/-- What a client does with the index: it opens a gap there and writes the target's bytes
into it. -/
def insertTarget (P : Platform) (m : Mem) (arr elemSize arrLen index target : Nat) : Mem :=
  let (b, m') := rarrInsert P m arr elemSize (arrLen + 1) index 1
  m'.write b (m.read target elemSize)

variable {index : Nat} {le : List UInt8 → List UInt8 → Prop}

theorem insertTarget_elems (room : (arrLen + 1) * elemSize ≤ P.sizeMax) (positive : 0 < elemSize)
    (inside : index ≤ arrLen) :
    elems (insertTarget P m arr elemSize arrLen index target) arr elemSize (arrLen + 1) =
      (elems m arr elemSize arrLen).take index ++ m.read target elemSize ::
        (elems m arr elemSize arrLen).drop index := by
  obtain ⟨gap, one, list⟩ := rarrInsert_elems (m := m) room positive
    (show index + 1 ≤ arrLen + 1 by omega) arr
  obtain ⟨old, rfl⟩ := List.length_eq_one_iff.mp one
  have place : (rarrInsert P m arr elemSize (arrLen + 1) index 1).1 = arr + index * elemSize := by
    rw [rarrInsert_run room positive (by omega)]
  have front : ((elems m arr elemSize arrLen).take index).length = index := by simp [inside]
  rw [insertTarget]
  dsimp only
  rw [place, elems_write (Mem.read_length ..), list, Nat.add_sub_cancel, List.append_assoc,
    List.set_append_right _ _ front.le, front, Nat.sub_self]
  rfl

theorem sorted_insert {α : Type u} {le : α → α → Prop} {xs : List α} {value : α} (sorted : xs.Pairwise le)
    (front : ∀ x ∈ xs.take index, le x value) (back : ∀ y ∈ xs.drop index, le value y) :
    (xs.take index ++ value :: xs.drop index).Pairwise le := by
  rw [← List.take_append_drop index xs] at sorted
  obtain ⟨sortedFront, sortedBack, across⟩ := List.pairwise_append.mp sorted
  refine List.pairwise_append.mpr ⟨sortedFront, List.pairwise_cons.mpr ⟨back, sortedBack⟩, ?_⟩
  intro x low y high
  rcases List.mem_cons.mp high with rfl | high
  · exact front x low
  · exact across x low y high

/-- A target that goes where it fits leaves the array in order. -/
theorem insertTarget_sorted (le : List UInt8 → List UInt8 → Prop)
    (room : (arrLen + 1) * elemSize ≤ P.sizeMax) (positive : 0 < elemSize) (inside : index ≤ arrLen)
    (before : ∀ i < index, le (elem m arr elemSize i) (m.read target elemSize))
    (behind : ∀ i, index ≤ i → i < arrLen → le (m.read target elemSize) (elem m arr elemSize i))
    (sorted : (elems m arr elemSize arrLen).Pairwise le) :
    (elems (insertTarget P m arr elemSize arrLen index target) arr elemSize (arrLen + 1)).Pairwise le := by
  have front : ∀ x ∈ (elems m arr elemSize arrLen).take index, le x (m.read target elemSize) := by
    intro x member
    rw [elems_take inside] at member
    obtain ⟨i, low, rfl⟩ := List.mem_map.mp member
    exact before i (List.mem_range.mp low)
  have back : ∀ y ∈ (elems m arr elemSize arrLen).drop index, le (m.read target elemSize) y := by
    intro y member
    obtain ⟨i, low, rfl⟩ := List.mem_drop_iff_getElem.mp member
    rw [elems_length] at low
    rw [elems_getElem]
    exact behind _ (Nat.le_add_right ..) (by omega)
  rw [insertTarget_elems room positive inside]
  exact sorted_insert sorted front back

/-- The comparator's signs agree with an order of the elements' bytes. -/
def Agrees (le : List UInt8 → List UInt8 → Prop) (m : Mem) (arr elemSize arrLen target : Nat)
    (sign : Nat → Int) : Prop :=
  ∀ i < arrLen, (sign i ≤ 0 → le (elem m arr elemSize i) (m.read target elemSize)) ∧
    (0 ≤ sign i → le (m.read target elemSize) (elem m arr elemSize i))

/-- Both searches end, with a comparator that is defined on the elements and nowhere else
as far as they know, find the target as far to their side as it is, and leave room for it
in the order of the array. -/
theorem binSearch_correct (fits : arrLen * elemSize ≤ P.sizeMax) (positive : 0 < elemSize)
    (compares : Compares cmpFn m arr elemSize arrLen target sign) :
    (Ascending sign arrLen → ∃ found index,
      rarrBinSearch P m arr elemSize arrLen cmpFn target = some (found, index) ∧
      FoundLeft sign arrLen found index ∧
      ∀ le, Agrees le m arr elemSize arrLen target sign → (arrLen + 1) * elemSize ≤ P.sizeMax →
        (elems m arr elemSize arrLen).Pairwise le →
        (elems (insertTarget P m arr elemSize arrLen index target) arr elemSize
          (arrLen + 1)).Pairwise le) ∧
    (Descending sign arrLen → ∃ found index,
      rarrBinSearchDesc P m arr elemSize arrLen cmpFn target = some (found, index) ∧
      FoundRight sign arrLen found index ∧
      ∀ le, Agrees le m arr elemSize arrLen target sign → (arrLen + 1) * elemSize ≤ P.sizeMax →
        (elems m arr elemSize arrLen).Pairwise (fun x y => le y x) →
        (elems (insertTarget P m arr elemSize arrLen index target) arr elemSize
          (arrLen + 1)).Pairwise fun x y => le y x) := by
  constructor
  · intro ascending
    obtain ⟨found, index, ended, result, place⟩ := rarrBinSearch_spec fits positive compares ascending
    refine ⟨found, index, ended, result, fun le agrees room sorted => ?_⟩
    refine insertTarget_sorted le room positive place.le ?_ ?_ sorted
    · exact fun i low => (agrees i (Nat.lt_of_lt_of_le low place.le)).1 (place.before i low)
    · exact fun i behind low => (agrees i low).2 (place.behind i behind low)
  · intro descending
    obtain ⟨found, index, ended, result, place⟩ :=
      rarrBinSearchDesc_spec fits positive compares descending
    refine ⟨found, index, ended, result, fun le agrees room sorted => ?_⟩
    refine insertTarget_sorted (fun x y => le y x) room positive place.le ?_ ?_ sorted
    · intro i low
      exact (agrees i (Nat.lt_of_lt_of_le low place.le)).2 (by have := place.before i low; omega)
    · intro i behind low
      exact (agrees i low).1 (by have := place.behind i behind low; omega)

/-- The test's array with a run of threes, and the comparator for bytes. -/
theorem binSearch_correct_lp64 : ∃ found index,
    rarrBinSearch .lp64 (Mem.write (fun _ => 3) 100 [1, 3, 3, 3, 5]) 100 1 5 rcmpUint8 200 =
      some (found, index) ∧ found = true ∧ index = 1 := by
  have signs : Compares rcmpUint8 (Mem.write (fun _ => 3) 100 [1, 3, 3, 3, 5]) 100 1 5 200
      (fun i => if i = 0 then -1 else if i = 4 then 1 else 0) := by
    rw [Compares]
    decide +kernel
  obtain ⟨found, index, ended, result, -⟩ :=
    (binSearch_correct (P := .lp64) (by decide) (by decide) signs).1 (by
      intro i j le low
      dsimp only
      split <;> split <;> omega)
  refine ⟨found, index, ended, result.found_iff.mpr ⟨1, by decide, rfl⟩, ?_⟩
  rw [result.index_eq]
  decide

end Insertion

end Ratlib.Arr
