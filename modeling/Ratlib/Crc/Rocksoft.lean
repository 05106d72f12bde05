import Ratlib.Crc.Model
import Ratlib.Library.Feedback

/-! The Rocksoft/RevEng parameter model, stated directly on a register of `w`
bits, and its register as a feedback register under exclusive or. The model
shares nothing with rcrc but the byte type. -/
namespace Ratlib.Crc

/-- The parameters of a CRC algorithm of width `w`. -/
structure Rocksoft (w : Nat) where
  poly : BitVec w
  init : BitVec w
  refIn : Bool
  refOut : Bool
  xorOut : BitVec w

namespace Rocksoft

/-- The bits of a byte in the order in which they enter the register. -/
def byteBits (refIn : Bool) (b : Byte) : List Bool :=
  (List.range 8).map (if refIn then b.reverse else b).getMsbD

def messageBits (refIn : Bool) (message : List Byte) : List Bool :=
  message.flatMap (byteBits refIn)

def shift (poly register : BitVec w) (bit : Bool) : BitVec w :=
  (register <<< 1) ^^^ (if register.msb ^^ bit then poly else 0#w)

def crc (p : Rocksoft w) (message : List Byte) : BitVec w :=
  let register := (messageBits p.refIn message).foldl (shift p.poly) p.init
  (if p.refOut then register.reverse else register) ^^^ p.xorOut

theorem messageBits_length (refIn : Bool) (message : List Byte) :
    (messageBits refIn message).length = 8 * message.length := by
  induction message with
  | nil => rfl
  | cons b rest ih =>
    simp only [messageBits, List.flatMap_cons, List.length_append, List.length_cons] at ih ⊢
    rw [ih]
    simp only [byteBits, List.length_map, List.length_range]
    omega

end Rocksoft

/-- The bit vectors of width `w` as an additive group under exclusive or. -/
@[ext] structure Residue (w : Nat) where
  bits : BitVec w

namespace Residue

instance : Add (Residue w) := ⟨fun a b => ⟨a.bits ^^^ b.bits⟩⟩
instance : Zero (Residue w) := ⟨⟨0#w⟩⟩
instance : Neg (Residue w) := ⟨fun a => a⟩

@[simp] theorem bits_add (a b : Residue w) : (a + b).bits = a.bits ^^^ b.bits := rfl

@[simp] theorem bits_zero : (0 : Residue w).bits = 0#w := rfl

instance : AddCommGroup (Residue w) where
  add_assoc a b c := Residue.ext (BitVec.xor_assoc a.bits b.bits c.bits)
  add_comm a b := Residue.ext (BitVec.xor_comm a.bits b.bits)
  zero_add a := Residue.ext BitVec.zero_xor
  add_zero a := Residue.ext BitVec.xor_zero
  neg_add_cancel a := Residue.ext BitVec.xor_self
  nsmul := nsmulRec
  zsmul := zsmulRec

theorem add_self (a : Residue w) : a + a = 0 := Residue.ext BitVec.xor_self

/-- Multiplication by `x` modulo the polynomial: the register without input. -/
def timesX (poly : BitVec w) : Residue w →+ Residue w where
  toFun r := ⟨Rocksoft.shift poly r.bits false⟩
  map_zero' := by
    apply Residue.ext
    simp [Rocksoft.shift]
  map_add' a b := by
    apply Residue.ext
    simp only [Rocksoft.shift, bits_add, BitVec.shiftLeft_xor_distrib, BitVec.msb_xor,
      Bool.xor_false]
    cases a.bits.msb <;> cases b.bits.msb <;>
      simp only [Bool.bne_true, Bool.bne_false, Bool.not_true, Bool.not_false, if_true, if_false,
        Bool.false_eq_true, BitVec.xor_zero]
    · ac_rfl
    · ac_rfl
    · rw [BitVec.xor_assoc, ← BitVec.xor_assoc poly, BitVec.xor_comm poly (b.bits <<< 1),
        BitVec.xor_assoc, BitVec.xor_self, BitVec.xor_zero]

@[simp] theorem bits_timesX (poly : BitVec w) (r : Residue w) :
    (timesX poly r).bits = Rocksoft.shift poly r.bits false := rfl

/-- As long as no bit leaves the register, clocking is a plain shift. -/
theorem iterate_timesX_shift (poly : BitVec w) {r : BitVec w} (fits : r.toNat * 2 ^ n < 2 ^ w) :
    (timesX poly)^[n] ⟨r⟩ = ⟨r <<< n⟩ := by
  induction n with
  | zero => simp
  | succ n ih =>
    have room : r.toNat * 2 ^ n * 2 < 2 ^ w := by rwa [Nat.mul_assoc, ← Nat.pow_succ]
    have clear : (r <<< n).msb = false := by
      rw [BitVec.msb_eq_false_iff_two_mul_lt, BitVec.toNat_shiftLeft, Nat.shiftLeft_eq,
        Nat.mod_eq_of_lt (by omega)]
      omega
    rw [Function.iterate_succ_apply', ih (by omega)]
    apply Residue.ext
    simp [Rocksoft.shift, clear, BitVec.shiftLeft_add]

/-- `x ^ w` is the polynomial without its leading term. -/
theorem iterate_timesX_one (poly : BitVec w) (positive : 0 < w) :
    (timesX poly)^[w] ⟨1#w⟩ = ⟨poly⟩ := by
  obtain ⟨k, rfl⟩ : ∃ k, w = k + 1 := ⟨w - 1, by omega⟩
  have one : (1#(k + 1)).toNat = 1 := by simp
  have fits : (1#(k + 1)).toNat * 2 ^ k < 2 ^ (k + 1) := by
    rw [one, Nat.pow_succ]
    have := Nat.two_pow_pos k
    omega
  rw [Function.iterate_succ_apply', iterate_timesX_shift poly fits]
  apply Residue.ext
  have top : (1#(k + 1) <<< k).msb = true := by
    simp [BitVec.msb_eq_getLsbD_last]
  have gone : 1#(k + 1) <<< k <<< 1 = 0#(k + 1) := by
    rw [← BitVec.shiftLeft_add]
    exact BitVec.shiftLeft_eq_zero (Nat.le_refl _)
  simp [Rocksoft.shift, top, gone]

end Residue

open Feedback in
theorem Rocksoft.shift_clock (poly register : BitVec w) (bit : Bool) :
    Rocksoft.shift poly register bit = (clock (Residue.timesX poly) ⟨poly⟩ ⟨register⟩ bit).bits := by
  change register <<< 1 ^^^ (if register.msb ^^ bit then poly else 0#w) =
    register <<< 1 ^^^ (if register.msb ^^ false then poly else 0#w) ^^^ (if bit then ⟨poly⟩ else 0 : Residue w).bits
  rw [BitVec.xor_assoc]
  congr 1
  cases bit <;> cases register.msb <;> simp

open Feedback in
theorem Rocksoft.foldl_shift (poly register : BitVec w) (bits : List Bool) :
    bits.foldl (Rocksoft.shift poly) register =
      (feed (Residue.timesX poly) ⟨poly⟩ ⟨register⟩ bits).bits := by
  induction bits generalizing register with
  | nil => rfl
  | cons bit bits ih =>
    rw [List.foldl_cons, feed_cons, ih, Rocksoft.shift_clock]

end Ratlib.Crc
