import Ratlib.Library.Bytes

/-! What the library assumes of a target: the width of `size_t` and of object
pointers, and `RAT_ALIGNMENT`. A `size_t` is a natural number below `2 ^ bits`,
with the wrapping written out; a pointer is a natural number, zero for NULL.

A definition with the name of a C function or macro in camel case translates it
(`ratAlign` is `RAT_ALIGN`, `ralcGenAlloc` is `ralcGen_alloc`). -/
namespace Ratlib

/-- `size_t` and pointers take `sizeT` bytes, four or eight. `RAT_ALIGNMENT` is the offset
of a union of pointers and wide integers behind a `char`: a power of two from 2 to 4096.
Other targets are not covered. -/
structure Platform where
  sizeT : Nat
  alignment : Nat
  sizeT_cases : sizeT = 4 ∨ sizeT = 8
  alignment_pow : ∃ k, alignment = 2 ^ (k + 1)
  alignment_le : alignment ≤ 4096

namespace Platform

variable (P : Platform)

def sizeMax : Nat := 256 ^ P.sizeT - 1

def wrap (n : Nat) : Nat := n % 256 ^ P.sizeT
def add (a b : Nat) : Nat := P.wrap (a + b)
def sub (a b : Nat) : Nat := P.wrap (a + (256 ^ P.sizeT - P.wrap b))
def mul (a b : Nat) : Nat := P.wrap (a * b)

def get (m : Mem) (a : Nat) : Nat := m.load a P.sizeT
def put (m : Mem) (a value : Nat) : Mem := m.store a P.sizeT value

def ratAlign (size : Nat) : Nat := P.wrap (size + (P.alignment - 1)) / P.alignment * P.alignment

theorem sizeMax_succ : P.sizeMax + 1 = 256 ^ P.sizeT := by
  have := Nat.pow_pos (n := P.sizeT) (show 0 < 256 by omega)
  simp only [sizeMax]
  omega

theorem sizeT_ge : 4 ≤ P.sizeT := by
  have := P.sizeT_cases
  omega

theorem sizeMax_ge : 2 ^ 32 - 1 ≤ P.sizeMax := by
  have := Nat.pow_le_pow_right (n := 256) (by omega) P.sizeT_ge
  have := P.sizeMax_succ
  omega

theorem alignment_pos : 0 < P.alignment := by
  obtain ⟨k, same⟩ := P.alignment_pow
  rw [same]
  exact Nat.two_pow_pos _

theorem alignment_even : 2 ∣ P.alignment := by
  obtain ⟨k, same⟩ := P.alignment_pow
  rw [same]
  exact ⟨2 ^ k, Nat.pow_succ'⟩

variable {P}

theorem wrap_of_le (small : n ≤ P.sizeMax) : P.wrap n = n :=
  Nat.mod_eq_of_lt (by have := P.sizeMax_succ; omega)

theorem wrap_le (n : Nat) : P.wrap n ≤ P.sizeMax := by
  have := P.sizeMax_succ
  have : P.wrap n < 256 ^ P.sizeT := Nat.mod_lt _ (by omega)
  omega

theorem add_of_le (small : a + b ≤ P.sizeMax) : P.add a b = a + b := wrap_of_le small

/-- A sum that wraps, wraps once. -/
theorem add_wraps (small : a ≤ P.sizeMax) (small' : b ≤ P.sizeMax) (large : P.sizeMax < a + b) :
    P.add a b = a + b - (P.sizeMax + 1) := by
  have succ := P.sizeMax_succ
  rw [add, wrap, ← succ, Nat.mod_eq_sub_mod (by omega), Nat.mod_eq_of_lt (by omega)]

theorem mul_of_le (small : a * b ≤ P.sizeMax) : P.mul a b = a * b := wrap_of_le small

theorem sub_of_le (ordered : b ≤ a) (small : a ≤ P.sizeMax) : P.sub a b = a - b := by
  have := P.sizeMax_succ
  have same : a + (256 ^ P.sizeT - b) = (a - b) + 256 ^ P.sizeT := by omega
  rw [sub, wrap_of_le (n := b) (by omega), same, wrap, Nat.add_mod_right]
  exact wrap_of_le (by omega)

theorem get_le (m : Mem) (a : Nat) : P.get m a ≤ P.sizeMax := by
  have := Mem.load_lt m a P.sizeT
  have := P.sizeMax_succ
  simp only [get]
  omega

theorem get_congr (same : Set.EqOn m m' (Set.Ico a (a + P.sizeT))) : P.get m a = P.get m' a :=
  Mem.load_congr same

theorem get_put (small : value ≤ P.sizeMax) : P.get (P.put m a value) a = value :=
  Mem.load_store_of_lt (by have := P.sizeMax_succ; omega)

theorem get_put_out (apart : b + P.sizeT ≤ a ∨ a + P.sizeT ≤ b) :
    P.get (P.put m a value) b = P.get m b := Mem.load_store_out apart

theorem put_out (outside : x < a ∨ a + P.sizeT ≤ x) : P.put m a value x = m x :=
  Mem.store_out outside

theorem ratAlign_dvd (size : Nat) : P.alignment ∣ P.ratAlign size := Nat.dvd_mul_left _ _

theorem ratAlign_eq (small : size + (P.alignment - 1) ≤ P.sizeMax) :
    P.ratAlign size = (size + (P.alignment - 1)) / P.alignment * P.alignment := by
  rw [ratAlign, wrap_of_le small]

theorem le_ratAlign (small : size + (P.alignment - 1) ≤ P.sizeMax) : size ≤ P.ratAlign size := by
  rw [ratAlign_eq small]
  have := Nat.lt_div_mul_add (a := size + (P.alignment - 1)) P.alignment_pos
  have := P.alignment_pos
  omega

theorem ratAlign_lt (small : size + (P.alignment - 1) ≤ P.sizeMax) :
    P.ratAlign size < size + P.alignment := by
  rw [ratAlign_eq small]
  have := Nat.div_mul_le_self (size + (P.alignment - 1)) P.alignment
  have := P.alignment_pos
  omega

theorem ratAlign_le (size : Nat) : P.ratAlign size ≤ P.sizeMax := by
  have := Nat.div_mul_le_self (P.wrap (size + (P.alignment - 1))) P.alignment
  have := wrap_le (P := P) (size + (P.alignment - 1))
  rw [ratAlign]
  omega

theorem ratAlign_of_dvd (aligned : P.alignment ∣ size)
    (small : size + (P.alignment - 1) ≤ P.sizeMax) : P.ratAlign size = size := by
  obtain ⟨k, rfl⟩ := aligned
  rw [ratAlign_eq small, Nat.add_comm, Nat.add_mul_div_left _ _ P.alignment_pos,
    Nat.div_eq_of_lt (by have := P.alignment_pos; omega), Nat.zero_add, Nat.mul_comm]

/-- What lies below an aligned size is not rounded beyond it. -/
theorem ratAlign_le_of_dvd (aligned : P.alignment ∣ bound) (room : bound + (P.alignment - 1) ≤ P.sizeMax)
    (le : size ≤ bound) : P.ratAlign size ≤ bound := by
  calc P.ratAlign size
      = (size + (P.alignment - 1)) / P.alignment * P.alignment := ratAlign_eq (by omega)
    _ ≤ (bound + (P.alignment - 1)) / P.alignment * P.alignment :=
        Nat.mul_le_mul_right _ (Nat.div_le_div_right (Nat.add_le_add_right le _))
    _ = P.ratAlign bound := (ratAlign_eq room).symm
    _ = bound := ratAlign_of_dvd aligned room

theorem alignment_dvd : P.alignment ∣ P.sizeMax + 1 := by
  obtain ⟨k, same⟩ := P.alignment_pow
  have small : 2 ^ (k + 1) ≤ 2 ^ 12 := by
    rw [← same]
    exact P.alignment_le
  have width := P.sizeT_ge
  have bits := (Nat.pow_le_pow_iff_right (by decide)).mp small
  rw [sizeMax_succ, same, show 256 = 2 ^ 8 from rfl, ← Nat.pow_mul]
  exact Nat.pow_dvd_pow 2 (by omega)

theorem aligned_room (aligned : P.alignment ∣ size) (small : size ≤ P.sizeMax) :
    size + (P.alignment - 1) ≤ P.sizeMax := by
  have := P.alignment_pos
  have := Nat.le_of_dvd (by omega) (Nat.dvd_sub P.alignment_dvd aligned)
  omega

theorem ratAlign_wraps (small : size ≤ P.sizeMax) (wraps : P.sizeMax < size + (P.alignment - 1)) :
    P.ratAlign size = 0 := by
  have := P.sizeMax_succ
  have := P.alignment_pos
  have := P.sizeMax_ge
  have := P.alignment_le
  have wrapped : P.wrap (size + (P.alignment - 1)) = size + (P.alignment - 1) - (P.sizeMax + 1) := by
    rw [wrap, ← sizeMax_succ, Nat.mod_eq_sub_mod (by omega), Nat.mod_eq_of_lt (by omega)]
  rw [ratAlign, wrapped, Nat.div_eq_of_lt (by omega), Nat.zero_mul]

theorem sixteen_pow : ∃ k, 16 = 2 ^ (k + 1) := ⟨3, rfl⟩
theorem sixteen_le : 16 ≤ 4096 := by decide

/-- The x86-64 target of the continuous integration. -/
def lp64 : Platform where
  sizeT := 8
  alignment := 16
  sizeT_cases := Or.inr rfl
  alignment_pow := sixteen_pow
  alignment_le := sixteen_le

end Platform
end Ratlib
