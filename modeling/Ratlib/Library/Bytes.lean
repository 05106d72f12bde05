import Mathlib.Algebra.Group.Nat.Defs
import Mathlib.Data.Set.Function
import Mathlib.Order.Interval.Set.Basic

/-! Byte memories: every address holds a byte. Words are little endian. Every
writer comes with the bytes it sets and the bytes it leaves, every reader with
the bytes it depends on; no address is special and nothing is allocated. -/
namespace Ratlib

abbrev Mem := Nat → UInt8

namespace Mem

def load (m : Mem) (a : Nat) : Nat → Nat
  | 0 => 0
  | width + 1 => (m a).toNat + 256 * load m (a + 1) width

def store (m : Mem) (a width value : Nat) : Mem := fun x =>
  if a ≤ x ∧ x < a + width then UInt8.ofNat (value / 256 ^ (x - a)) else m x

/-- `memmove`; with separate ranges also `memcpy`. -/
def copy (m : Mem) (dst src size : Nat) : Mem := fun x =>
  if dst ≤ x ∧ x < dst + size then m (src + (x - dst)) else m x

def fill (m : Mem) (a size : Nat) (byte : UInt8) : Mem := fun x =>
  if a ≤ x ∧ x < a + size then byte else m x

def read (m : Mem) (a size : Nat) : List UInt8 := (List.range size).map fun i => m (a + i)

def write (m : Mem) (a : Nat) (bytes : List UInt8) : Mem := fun x =>
  if a ≤ x ∧ x < a + bytes.length then bytes.getD (x - a) 0 else m x

variable {m m' : Mem} {a b x width size value dst src : Nat} {byte : UInt8}

theorem load_lt (m : Mem) (a width : Nat) : m.load a width < 256 ^ width := by
  induction width generalizing a with
  | zero => simp [load]
  | succ width ih =>
    have rest := ih (a + 1)
    have byte := (m a).toNat_lt
    rw [load, Nat.pow_succ]
    omega

theorem load_congr (same : Set.EqOn m m' (Set.Ico a (a + width))) :
    m.load a width = m'.load a width := by
  induction width generalizing a with
  | zero => rfl
  | succ width ih =>
    have first : m a = m' a := same ⟨by omega, by omega⟩
    have rest : Set.EqOn m m' (Set.Ico (a + 1) (a + 1 + width)) :=
      fun x hx => same ⟨by have := hx.1; omega, by have := hx.2; omega⟩
    rw [load, load, first, ih rest]

theorem load_shift (same : ∀ i < width, m (a + i) = m' (b + i)) :
    m.load a width = m'.load b width := by
  induction width generalizing a b with
  | zero => rfl
  | succ width ih =>
    have first : m a = m' b := same 0 (Nat.succ_pos width)
    have rest : m.load (a + 1) width = m'.load (b + 1) width := by
      apply ih
      intro i low
      rw [Nat.add_assoc, Nat.add_assoc, Nat.add_comm 1 i]
      exact same (i + 1) (Nat.succ_lt_succ low)
    rw [load, load, first, rest]

theorem load_digits (digits : ∀ i < width, m (a + i) = UInt8.ofNat (value / 256 ^ i)) :
    m.load a width = value % 256 ^ width := by
  induction width generalizing a value with
  | zero => simp [load, Nat.mod_one]
  | succ width ih =>
    have first : m a = UInt8.ofNat value := by simpa using digits 0 (by omega)
    have rest : m.load (a + 1) width = value / 256 % 256 ^ width := by
      apply ih
      intro i hi
      rw [Nat.add_assoc, Nat.add_comm 1 i, digits (i + 1) (by omega), Nat.div_div_eq_div_mul,
        Nat.pow_succ']
    rw [load, first, rest, Nat.pow_succ', Nat.mod_mul, UInt8.toNat_ofNat']

theorem store_in (inside : a ≤ x ∧ x < a + width) :
    m.store a width value x = UInt8.ofNat (value / 256 ^ (x - a)) := if_pos inside

theorem store_out (outside : x < a ∨ a + width ≤ x) : m.store a width value x = m x :=
  if_neg (by omega)

theorem store_congr (same : Set.EqOn m m' s) :
    Set.EqOn (m.store a width value) (m'.store a width value) s := by
  intro x member
  rw [store, store, same member]

theorem load_store (m : Mem) (a width value : Nat) :
    (m.store a width value).load a width = value % 256 ^ width := by
  apply load_digits
  intro i hi
  rw [store_in ⟨by omega, by omega⟩, Nat.add_sub_cancel_left]

theorem load_store_of_lt (fits : value < 256 ^ width) :
    (m.store a width value).load a width = value := by
  rw [load_store, Nat.mod_eq_of_lt fits]

theorem load_store_out (apart : b + size ≤ a ∨ a + width ≤ b) :
    (m.store a width value).load b size = m.load b size := by
  apply load_congr
  intro x hx
  have := hx.1
  have := hx.2
  exact store_out (by omega)

theorem copy_in (inside : i < size) : m.copy dst src size (dst + i) = m (src + i) := by
  rw [copy, if_pos ⟨by omega, by omega⟩, Nat.add_sub_cancel_left]

theorem copy_out (outside : x < dst ∨ dst + size ≤ x) : m.copy dst src size x = m x :=
  if_neg (by omega)

theorem fill_in (inside : a ≤ x ∧ x < a + size) : m.fill a size byte x = byte := if_pos inside

theorem fill_out (outside : x < a ∨ a + size ≤ x) : m.fill a size byte x = m x :=
  if_neg (by omega)

theorem load_fill_zero (inside : a ≤ b ∧ b + width ≤ a + size) :
    (m.fill a size 0).load b width = 0 := by
  have zeros : (m.fill a size 0).load b width = 0 % 256 ^ width := by
    apply load_digits
    intro i hi
    rw [fill_in ⟨by omega, by omega⟩, Nat.zero_div]
    rfl
  rw [zeros, Nat.zero_mod]

@[simp] theorem read_length (m : Mem) (a size : Nat) : (m.read a size).length = size := by
  simp [read]

theorem read_zero (m : Mem) (a : Nat) : m.read a 0 = [] := rfl

theorem read_succ (m : Mem) (a size : Nat) : m.read a (size + 1) = m a :: m.read (a + 1) size := by
  rw [read, List.range_succ_eq_map, List.map_cons, List.map_map, Nat.add_zero, read]
  congr 1
  refine List.map_congr_left fun i _ => ?_
  rw [Function.comp_apply, Nat.add_assoc, Nat.add_comm 1 i]

theorem read_congr (same : Set.EqOn m m' (Set.Ico a (a + size))) :
    m.read a size = m'.read a size := by
  apply List.map_congr_left
  intro i member
  have := List.mem_range.mp member
  exact same ⟨by omega, by omega⟩

theorem write_in {bytes : List UInt8} (inside : i < bytes.length) :
    m.write a bytes (a + i) = bytes[i] := by
  rw [write, if_pos ⟨by omega, by omega⟩, Nat.add_sub_cancel_left, List.getD_eq_getElem?_getD,
    List.getElem?_eq_getElem inside, Option.getD_some]

theorem write_out {bytes : List UInt8} (outside : x < a ∨ a + bytes.length ≤ x) :
    m.write a bytes x = m x := if_neg (by omega)

theorem read_write (m : Mem) (a : Nat) (bytes : List UInt8) :
    (m.write a bytes).read a bytes.length = bytes := by
  apply List.ext_getElem (by simp)
  intro i _ inside
  simp only [read, List.getElem_map, List.getElem_range]
  exact write_in inside

theorem load_write_out {bytes : List UInt8} (apart : b + width ≤ a ∨ a + bytes.length ≤ b) :
    (m.write a bytes).load b width = m.load b width := by
  apply load_congr
  intro x hx
  have := hx.1
  have := hx.2
  exact write_out (by omega)

end Mem
end Ratlib
