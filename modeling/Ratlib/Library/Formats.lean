import Ratlib.Library.Bytes

/-! Byte formats of fixed-width numbers. A format is a bijection between the numbers of its
width and the byte strings of that size; the mirrored format stores the same bytes in the
opposite order. -/
namespace Ratlib

structure Format (bits : Nat) where
  bytes : BitVec bits → List UInt8
  value : List UInt8 → BitVec bits
  length_bytes : ∀ v, (bytes v).length = bits / 8
  value_bytes : ∀ v, value (bytes v) = v
  bytes_value : ∀ bs, bs.length = bits / 8 → bytes (value bs) = bs

/-- The number with the given digits to the base 256, the lowest first. -/
def digits (n value : Nat) : List UInt8 := (List.range n).map fun i => UInt8.ofNat (value / 256 ^ i)

def ofDigits : List UInt8 → Nat
  | [] => 0
  | b :: bs => b.toNat + 256 * ofDigits bs

theorem length_digits : (digits n value).length = n := by
  rw [digits, List.length_map, List.length_range]

theorem digits_succ (n value : Nat) :
    digits (n + 1) value = UInt8.ofNat value :: digits n (value / 256) := by
  rw [digits, List.range_succ_eq_map, List.map_cons, List.map_map, Nat.pow_zero, Nat.div_one, digits]
  congr 1
  refine List.map_congr_left fun i _ => ?_
  rw [Function.comp_apply, Nat.pow_succ', Nat.div_div_eq_div_mul]

theorem ofDigits_digits (n value : Nat) : ofDigits (digits n value) = value % 256 ^ n := by
  induction n generalizing value with
  | zero => exact (Nat.mod_one value).symm
  | succ n ih =>
    have split : value % 256 ^ (n + 1) = value % 256 + 256 * (value / 256 % 256 ^ n) := by
      rw [Nat.pow_succ', Nat.mod_mul]
    rw [digits_succ, ofDigits, ih, UInt8.toNat_ofNat', split]

theorem ofDigits_lt (bs : List UInt8) : ofDigits bs < 256 ^ bs.length := by
  induction bs with
  | nil => exact Nat.one_pos
  | cons b bs ih =>
    have := b.toNat_lt
    rw [ofDigits, List.length_cons, Nat.pow_succ]
    omega

theorem digits_ofDigits (bs : List UInt8) : digits bs.length (ofDigits bs) = bs := by
  induction bs with
  | nil => rfl
  | cons b bs ih =>
    have small := b.toNat_lt
    have rest : (b.toNat + 256 * ofDigits bs) / 256 = ofDigits bs := by omega
    have first : UInt8.ofNat (b.toNat + 256 * ofDigits bs) = b := by
      apply UInt8.toNat_inj.mp
      rw [UInt8.toNat_ofNat']
      omega
    rw [ofDigits, List.length_cons, digits_succ, rest, ih, first]

theorem pow_bits (n : Nat) : 2 ^ (8 * n) = 256 ^ n := by
  rw [Nat.pow_mul]

namespace Format

def littleEndian (n : Nat) : Format (8 * n) where
  bytes v := digits n v.toNat
  value bs := BitVec.ofNat (8 * n) (ofDigits bs)
  length_bytes v := by rw [length_digits, Nat.mul_div_cancel_left n (by decide)]
  value_bytes v := by
    apply BitVec.eq_of_toNat_eq
    have small := v.isLt
    rw [pow_bits] at small
    rw [BitVec.toNat_ofNat, ofDigits_digits, pow_bits, Nat.mod_mod, Nat.mod_eq_of_lt small]
  bytes_value bs length := by
    rw [Nat.mul_div_cancel_left n (by decide)] at length
    subst length
    rw [BitVec.toNat_ofNat, pow_bits, Nat.mod_eq_of_lt (ofDigits_lt bs), digits_ofDigits]

def mirror (F : Format bits) : Format bits where
  bytes v := (F.bytes v).reverse
  value bs := F.value bs.reverse
  length_bytes v := by rw [List.length_reverse, F.length_bytes]
  value_bytes v := by rw [List.reverse_reverse, F.value_bytes]
  bytes_value bs length := by rw [F.bytes_value _ (by rwa [List.length_reverse]), List.reverse_reverse]

def bigEndian (n : Nat) : Format (8 * n) := (littleEndian n).mirror

variable {F : Format bits}

theorem mirror_mirror : F.mirror.mirror = F := by
  obtain ⟨bytes, value, -, -, -⟩ := F
  simp only [mirror, List.reverse_reverse]

theorem bytes_injective : Function.Injective F.bytes :=
  fun v v' same => by rw [← F.value_bytes v, same, F.value_bytes]

end Format

namespace Mem

variable {m : Mem} {a : Nat}

theorem read_add (m : Mem) (a size rest : Nat) :
    m.read a (size + rest) = m.read a size ++ m.read (a + size) rest := by
  rw [read, List.range_add, List.map_append, List.map_map, read, read]
  congr 1
  refine List.map_congr_left fun i _ => ?_
  rw [Function.comp_apply, Nat.add_assoc]

theorem write_append (m : Mem) (a : Nat) (bytes rest : List UInt8) :
    (m.write a bytes).write (a + bytes.length) rest = m.write a (bytes ++ rest) := by
  funext x
  simp only [write, List.length_append, List.getD_eq_getElem?_getD, List.getElem?_append]
  grind

theorem write_nil (m : Mem) (a : Nat) : m.write a [] = m := by
  funext x
  exact write_out (by simp; omega)

end Mem
end Ratlib
