import Mathlib
import Ratlib.Crc.Correctness
import Ratlib.Library.Remainders

/-! rcrc as polynomial division over the field of two elements. The register holds the
remainder of the bits consumed so far, and the result that of these bits with `w` zeros
behind them. -/
namespace Ratlib.Crc

open Feedback Residue Rocksoft Polynomial

variable {w n : Nat} {poly init a b : BitVec w}

/-- The polynomial whose coefficients are the bits of a vector. -/
noncomputable def ofBits (v : BitVec n) : (ZMod 2)[X] :=
  ∑ i ∈ Finset.range n, if v.getLsbD i then X ^ i else 0

theorem coeff_ofBits (v : BitVec n) (i : Nat) :
    (ofBits v).coeff i = if v.getLsbD i then 1 else 0 := by
  have single : ∀ j, (if v.getLsbD j then X ^ j else (0 : (ZMod 2)[X])).coeff i =
      if j = i then (if v.getLsbD i then 1 else 0) else 0 := by
    intro j
    by_cases same : j = i
    · subst same
      cases v.getLsbD j <;> simp
    · cases v.getLsbD j <;> simp [coeff_X_pow, same, Ne.symm same]
  rw [ofBits, finsetSum_coeff]
  simp only [single, Finset.sum_ite_eq', Finset.mem_range]
  by_cases inside : i < n
  · rw [if_pos inside]
  · rw [if_neg inside, BitVec.getLsbD_of_ge v i (by omega)]
    rfl

theorem ofBits_xor (a b : BitVec n) : ofBits (a ^^^ b) = ofBits a + ofBits b := by
  ext i
  rw [coeff_add, coeff_ofBits, coeff_ofBits, coeff_ofBits, BitVec.getLsbD_xor]
  cases a.getLsbD i <;> cases b.getLsbD i <;> decide

theorem degree_ofBits_lt (v : BitVec n) : (ofBits v).degree < n := by
  rw [degree_lt_iff_coeff_zero]
  intro i above
  rw [coeff_ofBits, BitVec.getLsbD_of_ge v i above]
  rfl

/-- `x ^ w + poly` -/
noncomputable def generator (poly : BitVec w) : (ZMod 2)[X] := X ^ w + ofBits poly

theorem generator_monic : (generator poly).Monic := monic_X_pow_add (degree_ofBits_lt poly)

theorem degree_generator : (generator poly).degree = w := by
  rw [generator, degree_add_eq_left_of_degree_lt, degree_X_pow]
  rw [degree_X_pow]
  exact degree_ofBits_lt poly

/-- The polynomial of a residue, which is reduced. -/
noncomputable def toPolynomial : Residue w →+ (ZMod 2)[X] where
  toFun r := ofBits r.bits
  map_zero' := by
    ext i
    simp [coeff_ofBits]
  map_add' a b := ofBits_xor a.bits b.bits

/-- A shift multiplies by `X`, but for the bit that it drops. -/
theorem X_mul_ofBits (positive : 0 < w) (v : BitVec w) :
    X * ofBits v = ofBits (v <<< 1) + if v.msb then X ^ w else 0 := by
  have dropped : ∀ i, (if v.msb then X ^ w else (0 : (ZMod 2)[X])).coeff i =
      if v.msb ∧ i = w then 1 else 0 := by
    intro i
    cases v.msb <;> simp [coeff_X_pow]
  ext i
  rw [coeff_add, dropped, coeff_ofBits, BitVec.getLsbD_shiftLeft, BitVec.msb_eq_getLsbD_last]
  cases i with
  | zero =>
    have other : 0 ≠ w := positive.ne
    simp [other]
  | succ i =>
    rw [coeff_X_mul, coeff_ofBits, Nat.add_sub_cancel]
    rcases Nat.lt_trichotomy (i + 1) w with inside | last | above
    · simp [inside, inside.ne]
    · subst last
      simp
    · simp [BitVec.getLsbD_of_ge v i (by omega), above.ne', Nat.not_lt_of_gt above]

/-- One step of the long division. -/
theorem toPolynomial_timesX (positive : 0 < w) (r : Residue w) :
    toPolynomial (timesX poly r) = (X * toPolynomial r) %ₘ generator poly := by
  have stepped : toPolynomial (timesX poly r) + generator poly * (if r.bits.msb then 1 else 0) =
      X * toPolynomial r := by
    change ofBits (Rocksoft.shift poly r.bits false) + _ = X * ofBits r.bits
    rw [X_mul_ofBits positive, Rocksoft.shift, Bool.xor_false, ofBits_xor, generator]
    cases r.bits.msb with
    | true =>
      rw [if_pos rfl, if_pos rfl, if_pos rfl, mul_one, add_comm (X ^ w), add_assoc, ← add_assoc (ofBits poly),
        CharTwo.add_self_eq_zero, zero_add]
    | false =>
      have zero : ofBits (0#w) = 0 := map_zero toPolynomial
      simp [zero]
  refine (div_modByMonic_unique _ _ generator_monic ⟨stepped, ?_⟩).2.symm
  rw [degree_generator]
  exact degree_ofBits_lt _

theorem toPolynomial_one (positive : 0 < w) : toPolynomial ⟨1#w⟩ = 1 %ₘ generator poly := by
  have one : toPolynomial (⟨1#w⟩ : Residue w) = 1 := by
    ext i
    change (ofBits (1#w)).coeff i = _
    rw [coeff_ofBits, BitVec.getLsbD_one, coeff_one]
    simp [positive]
  have small : (1 : (ZMod 2)[X]).degree < (generator poly).degree := by
    rw [degree_one, degree_generator]
    exact_mod_cast positive
  rw [one, (modByMonic_eq_self_iff generator_monic).mpr small]

/-- The bits of a message, the leading ones met by the leading bits of `init`. -/
def consumedBits (init : BitVec w) (bits : List Bool) : List Bool :=
  let met := min w bits.length
  List.zipWith xor (bits.take met) ((List.range met).map init.getMsbD) ++ bits.drop met

theorem consumedBits_eq (init : BitVec w) (bits : List Bool) :
    consumedBits init bits = List.zipWith xor bits (initBits init bits.length) := by
  have lengths : (consumedBits init bits).length =
      (List.zipWith xor bits (initBits init bits.length)).length := by
    simp [consumedBits]
  refine List.ext_getElem lengths fun i inside inside' => ?_
  have low : i < bits.length := by simpa using inside'
  simp only [consumedBits, initBits, List.getElem_zipWith, List.getElem_map, List.getElem_range]
  by_cases met : i < min w bits.length
  · rw [List.getElem_append_left (by simpa using met)]
    simp
  · rw [List.getElem_append_right (by simp; omega), BitVec.getMsbD_of_ge init i (by omega)]
    have place : min w bits.length + (i - min w bits.length) = i := by omega
    simp [place]

theorem Consumed.remainder (positive : 0 < w) {r : Rocksoft w} (consumed : Consumed r p message) :
    toPolynomial (low w p.value) =
      ofStream (ZMod 2) (consumedBits r.init (messageBits r.refIn message)) %ₘ generator r.poly := by
  rw [consumed.register, consumedBits_eq, messageBits_length]
  exact feed_mod generator_monic (toPolynomial_timesX positive) (toPolynomial_one positive) _

theorem Consumed.plain {r : Rocksoft w} (consumed : Consumed r p message)
    (same : value.setWidth w = p.value.setWidth w) :
    Consumed { r with refOut := false, xorOut := 0#w }
      { p with value, refOut := false, xorOut := 0#64 } message := by
  have register : low w value = low w p.value := congrArg Residue.mk same
  refine { consumed with refOut := rfl, xorOut := ?_, register := register.trans consumed.register }
  simp

theorem ofBits_setWidth (bound : w ≤ n) (v : BitVec w) : ofBits (v.setWidth n) = ofBits v := by
  ext i
  rw [coeff_ofBits, coeff_ofBits, BitVec.getLsbD_setWidth]
  by_cases inside : i < n
  · simp [inside]
  · simp [BitVec.getLsbD_of_ge v i (by omega)]

theorem Consumed.result (positive : 0 < w) (bound : w ≤ 64) {r : Rocksoft w}
    (consumed : Consumed r p message) (same : value.setWidth w = p.value.setWidth w) :
    ofBits (rcrcResult { p with value, refOut := false, xorOut := 0#64 }) =
      (ofStream (ZMod 2) (consumedBits r.init (messageBits r.refIn message)) * X ^ w) %ₘ
        generator r.poly := by
  have plain := consumed.plain same
  have clocked := iterate_mod (T := timesX r.poly) generator_monic (toPolynomial_timesX positive)
    (plain.remainder positive) w
  rw [result_consumed positive bound plain, if_neg Bool.false_ne_true, BitVec.xor_zero,
    ofBits_setWidth bound]
  exact clocked

/-- However its bytes are bit-reversed and met by `init`, a message leaves the remainder of
its bits in the low bits of the register, and `rcrc_result` has the remainder of these bits
shifted by the width before the output stage, whatever lies above the low bits. -/
theorem rcrc_remainder {poly init xorOut : UintMax} (asserts : rcrcInitAsserts w poly init xorOut = true)
    (refIn refOut : Bool) (message : List Byte) :
    let p := message.foldl rcrcAddByte (rcrcInit w poly init refIn refOut xorOut)
    let D := ofStream (ZMod 2) (consumedBits (init.setWidth w) (messageBits refIn message))
    let G := generator (poly.setWidth w)
    ofBits (p.value.setWidth w) = D %ₘ G ∧
      ∀ value : UintMax, value.setWidth w = p.value.setWidth w →
        let result := rcrcResult { p with value, refOut := false, xorOut := 0#64 }
        ofBits result = (D * X ^ w) %ₘ G ∧
          rcrcResult { p with value } = (if refOut then reflect result w else result) ^^^ xorOut := by
  intro p D G
  obtain ⟨positive, bound, start⟩ := rcrcInit_start asserts refIn refOut
  let r : Rocksoft w := ⟨poly.setWidth w, init.setWidth w, refIn, refOut, xorOut.setWidth w⟩
  have consumed : Consumed r p message := by
    have after := consumed_add positive bound message (consumed_start r)
    rwa [← start] at after
  refine ⟨consumed.remainder positive, fun value same => ⟨consumed.result positive bound same, ?_⟩⟩
  have xorOut_eq : p.xorOut = xorOut := by
    rw [consumed.xorOut]
    exact (congrArg Rcrc.xorOut start).symm
  rw [rcrcResult, rcrcResult, consumed.bitWidth, consumed.refOut, xorOut_eq, if_neg Bool.false_ne_true,
    BitVec.xor_zero]

/-- One byte of CRC-16/IBM-3740: the register holds its eight bits, met by those of `init`,
and the result their remainder. -/
theorem rcrc_remainder_ibm3740 :
    ofBits (rcrcResult ([0x31#8].foldl rcrcAddByte (rcrcInit 16 0x1021 0xFFFF false false 0))) =
      (ofStream (ZMod 2) (consumedBits 0xFFFF#16 (messageBits false [0x31#8])) * X ^ 16) %ₘ
        generator 0x1021#16 :=
  ((rcrc_remainder (show rcrcInitAsserts 16 0x1021 0xFFFF 0 = true by decide) false false
    [0x31#8]).2 _ rfl).1

end Ratlib.Crc
