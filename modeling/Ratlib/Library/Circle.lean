import Mathlib.Data.List.Basic
import Mathlib.Data.Nat.ModEq
import Mathlib.Logic.Function.Basic

/-! Sequences in a circle of slots: the one that starts at a slot and runs round, and what
becomes of it at either end. -/
namespace Ratlib.Circle

variable {α : Type u} {cap first i j n count : Nat} {f : Nat → α}

/-- The slot `i` places behind `first`, of `cap` slots. -/
def slot (cap first i : Nat) : Nat := (first + i) % cap

def contents (cap first count : Nat) (f : Nat → α) : List α :=
  (List.range count).map fun i => f (slot cap first i)

@[simp] theorem contents_length : (contents cap first count f).length = count := by simp [contents]

theorem contents_getElem (low : i < (contents cap first count f).length) :
    (contents cap first count f)[i] = f (slot cap first i) := by
  simp [contents]

theorem slot_lt (some : 0 < cap) : slot cap first i < cap := Nat.mod_lt _ some

@[simp] theorem slot_slot : slot cap (slot cap first n) i = slot cap first (n + i) := by
  rw [slot, slot, slot, Nat.mod_add_mod, Nat.add_assoc]

theorem slot_cap : slot cap first (cap + i) = slot cap first i := by
  rw [slot, slot, Nat.add_left_comm, Nat.add_mod_left]

/-- One conditional subtraction wraps an index. -/
theorem slot_eq (low : first < cap) (within : i ≤ cap) :
    slot cap first i = if cap ≤ first + i then first + i - cap else first + i := by
  rw [slot]
  split
  case isTrue wraps => rw [Nat.mod_eq_sub_mod wraps, Nat.mod_eq_of_lt (by omega)]
  case isFalse stays => exact Nat.mod_eq_of_lt (Nat.lt_of_not_le stays)

theorem slot_inj (low : i < cap) (low' : j < cap) (same : slot cap first i = slot cap first j) :
    i = j :=
  Nat.ModEq.eq_of_lt_of_lt (Nat.ModEq.add_left_cancel' first same) low low'

theorem contents_update (other : ∀ i < count, slot cap first i ≠ j) (v : α) :
    contents cap first count (Function.update f j v) = contents cap first count f := by
  refine List.map_congr_left fun i member => Function.update_of_ne ?_ ..
  exact other i (List.mem_range.mp member)

theorem contents_push (room : count < cap) (v : α) :
    contents cap first (count + 1) (Function.update f (slot cap first count) v) =
      contents cap first count f ++ [v] := by
  have others : ∀ i < count, slot cap first i ≠ slot cap first count := fun i low same =>
    Nat.ne_of_lt low (slot_inj (Nat.lt_trans low room) room same)
  have kept := contents_update (f := f) others v
  rw [contents] at kept ⊢
  rw [List.range_succ, List.map_append, kept, List.map_singleton, Function.update_self]

theorem contents_pushFront (room : count < cap) (v : α) :
    contents cap (slot cap first (cap - 1)) (count + 1)
        (Function.update f (slot cap first (cap - 1)) v) = v :: contents cap first count f := by
  have others : ∀ i < count, slot cap first i ≠ slot cap first (cap - 1) := fun i low same =>
    Nat.ne_of_lt (Nat.lt_of_lt_of_le low (Nat.le_sub_one_of_lt room))
      (slot_inj (Nat.lt_trans low room) (Nat.sub_one_lt_of_lt room) same)
  have behind : ∀ i, slot cap (slot cap first (cap - 1)) (i + 1) = slot cap first i := by
    intro i
    have whole : cap - 1 + (i + 1) = cap + i := by omega
    rw [slot_slot, whole, slot_cap]
  have front : slot cap (slot cap first (cap - 1)) 0 = slot cap first (cap - 1) := by
    rw [slot_slot, Nat.add_zero]
  have kept := contents_update (f := f) others v
  rw [contents, List.range_succ_eq_map, List.map_cons, front, Function.update_self, List.map_map]
  rw [← kept, contents]
  congr 1
  refine List.map_congr_left fun i _ => ?_
  rw [Function.comp_apply, Nat.succ_eq_add_one, behind]

theorem contents_pop (n : Nat) : contents cap first (count - n) f =
    (contents cap first count f).take (count - n) := by
  rw [contents, contents, ← List.map_take, List.take_range, Nat.min_eq_left (Nat.sub_le count n)]

theorem contents_popFront (n : Nat) : contents cap (slot cap first n) (count - n) f =
    (contents cap first count f).drop n := by
  apply List.ext_getElem
  · simp
  · intro i low high
    rw [List.getElem_drop, contents_getElem, contents_getElem, slot_slot]

theorem contents_set (room : count ≤ cap) (low : i < count) (v : α) :
    contents cap first count (Function.update f (slot cap first i) v) =
      (contents cap first count f).set i v := by
  apply List.ext_getElem
  · simp
  · intro j inside inside'
    rw [contents_getElem, List.getElem_set, contents_getElem]
    rw [contents_length] at inside
    split
    case isTrue same => rw [same, Function.update_self]
    case isFalse other =>
      refine Function.update_of_ne (fun same => other ?_) ..
      exact (slot_inj (Nat.lt_of_lt_of_le inside room) (Nat.lt_of_lt_of_le low room) same).symm

end Ratlib.Circle
