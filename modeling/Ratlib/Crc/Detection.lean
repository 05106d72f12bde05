import Mathlib
import Ratlib.Crc.Burst
import Ratlib.Crc.Polynomial
import Ratlib.Library.Errors

/-! Which differences rcrc misses. Two messages of one length have one result where the
generator divides the difference of their bits, shifted by the width; `init`, `xorOut` and
the reflection of the result play no part. A polynomial with an odd number of set bits, so a
generator with an even one, misses no odd number of errors, and one with a constant term
misses two errors only at the multiples of its order. -/
namespace Ratlib.Crc

open Feedback Residue Rocksoft Polynomial

variable {w : Nat} {poly : BitVec w} {refIn : Bool} {message message' : List Byte}

/-- The bits in which two messages differ, in the order in which `rcrc_addByte` consumes them. -/
def difference (refIn : Bool) (message message' : List Byte) : List Bool :=
  List.zipWith xor (messageBits refIn message) (messageBits refIn message')

theorem difference_met {xs ys zs : List Bool} (same : xs.length = ys.length) (met : xs.length = zs.length) :
    List.zipWith xor (List.zipWith xor xs zs) (List.zipWith xor ys zs) = List.zipWith xor xs ys := by
  induction xs generalizing ys zs with
  | nil => rfl
  | cons x xs ih =>
    obtain _ | ⟨y, ys⟩ := ys
    · contradiction
    obtain _ | ⟨z, zs⟩ := zs
    · contradiction
    have cancel : ((x ^^ z) ^^ (y ^^ z)) = (x ^^ y) := by
      cases x <;> cases y <;> cases z <;> rfl
    rw [List.zipWith_cons_cons, List.zipWith_cons_cons, List.zipWith_cons_cons, List.zipWith_cons_cons,
      ih (by simpa using same) (by simpa using met), cancel]

/-- What the code makes of two messages of one length differs as their difference is kept. -/
theorem calc_eq_iff {r : Rocksoft w} (positive : 0 < w) (bound : w ≤ 64)
    (length : message.length = message'.length) :
    rcrcResult (rcrcAdd r.start message) = rcrcResult (rcrcAdd r.start message') ↔
      (timesX r.poly)^[w] (feed (timesX r.poly) ⟨1#w⟩ 0 (difference r.refIn message message')) = 0 := by
  have consumed := consumed_add positive bound message (consumed_start r)
  have consumed' := consumed_add positive bound message' (consumed_start r)
  have lengths : (messageBits r.refIn message).length = (messageBits r.refIn message').length := by
    rw [messageBits_length, messageBits_length, length]
  have met : (messageBits r.refIn message).length = (initBits r.init (8 * message.length)).length := by
    rw [messageBits_length, initBits_length]
  rw [result_consumed positive bound consumed, result_consumed positive bound consumed',
    output_inj bound, ← Residue.ext_iff, consumed.register, consumed'.register, List.nil_append,
    List.nil_append, ← length, iterate_feed, iterate_feed, iterate_map_zero,
    feed_eq_iff add_self (by rw [List.length_zipWith, List.length_zipWith, lengths]),
    difference_met lengths met, iterate_feed, iterate_map_zero, difference]

theorem toPolynomial_injective : Function.Injective (toPolynomial : Residue w → (ZMod 2)[X]) := by
  intro a b same
  apply Residue.ext
  apply BitVec.eq_of_getLsbD_eq
  intro i inside
  have here : (ofBits a.bits).coeff i = (ofBits b.bits).coeff i := congrArg (·.coeff i) same
  rw [coeff_ofBits, coeff_ofBits] at here
  cases left : a.bits.getLsbD i <;> cases right : b.bits.getLsbD i <;> simp_all

/-- A stream leaves the register empty, after `n` further clocks, where the generator divides it. -/
theorem feed_zero_iff (poly : BitVec w) (positive : 0 < w) (bits : List Bool) (n : Nat) :
    (timesX poly)^[n] (feed (timesX poly) ⟨1#w⟩ 0 bits) = 0 ↔
      generator poly ∣ ofStream (ZMod 2) bits * X ^ n := by
  have held : toPolynomial (feed (timesX poly) ⟨1#w⟩ 0 bits) = ofStream (ZMod 2) bits %ₘ generator poly :=
    feed_mod generator_monic (toPolynomial_timesX positive) (toPolynomial_one positive) bits
  have clocked := iterate_mod generator_monic (toPolynomial_timesX positive) held n
  rw [← modByMonic_eq_zero_iff_dvd generator_monic, ← clocked]
  exact (map_eq_zero_iff _ toPolynomial_injective).symm

/-- Only equal messages have one CRC and differ in no more than `w` consecutive bits. -/
theorem burst_missed {r : Rocksoft w} (positive : 0 < w) (bound : w ≤ 64) (odd : r.poly.getLsbD 0 = true)
    (length : message.length = message'.length)
    (window : ∀ i : Nat, (difference r.refIn message message')[i]? = some true → first ≤ i ∧ i < first + w)
    (same : rcrcResult (rcrcAdd r.start message) = rcrcResult (rcrcAdd r.start message')) :
    message = message' := by
  have injective := timesX_injective positive odd
  have lengths : (messageBits r.refIn message).length = (messageBits r.refIn message').length := by
    rw [messageBits_length, messageBits_length, length]
  have zero : feed (timesX r.poly) ⟨1#w⟩ 0 (difference r.refIn message message') = 0 := by
    apply injective.iterate w
    rw [(calc_eq_iff positive bound length).mp same, iterate_map_zero]
  have clear := feed_burst injective (fun bits few none => (feed_short bits few).2 (congrArg Residue.bits none))
    window zero
  exact messageBits_injective (difference_clear lengths clear)

/-- The number of set bits, as the parity of the polynomial's value at 1. -/
theorem eval_ofBits (v : BitVec w) : (ofBits v).eval 1 = ((List.range w).countP v.getLsbD : ZMod 2) := by
  have count : ∀ n, ∑ i ∈ Finset.range n, (if v.getLsbD i then 1 else 0 : ZMod 2) =
      ((List.range n).countP v.getLsbD : ZMod 2) := by
    intro n
    induction n with
    | zero => rfl
    | succ n ih =>
      rw [Finset.sum_range_succ, ih, List.range_succ, List.countP_append, List.countP_singleton,
        Nat.cast_add]
      congr 1
      cases v.getLsbD n <;> simp
  rw [ofBits, eval_finsetSum, ← count w]
  refine Finset.sum_congr rfl fun i _ => ?_
  cases v.getLsbD i <;> simp

noncomputable def parity (w : Nat) : Residue w →+ ZMod 2 :=
  (evalRingHom 1).toAddMonoidHom.comp toPolynomial

/-- The clock keeps the parity where the polynomial has an odd number of set bits. -/
theorem parity_timesX (positive : 0 < w) (odd : (List.range w).countP poly.getLsbD % 2 = 1) (r : Residue w) :
    parity w (timesX poly r) = parity w r := by
  have root : (generator poly).eval 1 = 0 := by
    rw [generator, eval_add, eval_pow, eval_X, one_pow, eval_ofBits, ZMod.natCast_eq_one_iff_odd.mpr
      (Nat.odd_iff.mpr odd)]
    decide
  change eval 1 (toPolynomial (timesX poly r)) = eval 1 (toPolynomial r)
  rw [toPolynomial_timesX positive, modByMonic_eq_sub_mul_div, eval_sub, eval_mul, eval_X, one_mul,
    eval_mul, root, zero_mul, sub_zero]

theorem feed_odd (positive : 0 < w) (odd : (List.range w).countP poly.getLsbD % 2 = 1) {bits : List Bool}
    (errors : bits.count true % 2 = 1) (n : Nat) :
    (timesX poly)^[n] (feed (timesX poly) ⟨1#w⟩ 0 bits) ≠ 0 := by
  intro zero
  have one : parity w ⟨1#w⟩ = 1 := by
    have small : (1 : (ZMod 2)[X]) %ₘ generator poly = 1 := by
      rw [modByMonic_eq_self_iff generator_monic, degree_one, degree_generator]
      exact_mod_cast positive
    have reduced : toPolynomial ⟨1#w⟩ = 1 %ₘ generator poly := toPolynomial_one positive
    change eval 1 (toPolynomial ⟨1#w⟩) = 1
    rw [reduced, small, eval_one]
  have clocked : ∀ n r, parity w ((timesX poly)^[n] r) = parity w r := by
    intro n
    induction n with
    | zero => exact fun _ => rfl
    | succ n ih => exact fun r => (ih _).trans (parity_timesX positive odd r)
  have counted : parity w (feed (timesX poly) ⟨1#w⟩ 0 bits) = parity w 0 + bits.count true • parity w ⟨1#w⟩ :=
    map_feed_count (parity w) (parity_timesX positive odd) bits
  rw [← clocked n, zero, map_zero, one, zero_add, nsmul_one,
    ZMod.natCast_eq_one_iff_odd.mpr (Nat.odd_iff.mpr errors)] at counted
  exact zero_ne_one counted

/-- The least number of shifts after which the polynomial has the remainder 1 again. -/
noncomputable def order (poly : BitVec w) : Nat := Function.minimalPeriod (timesX poly) ⟨1#w⟩

def residueEquiv (w : Nat) : Residue w ≃ Fin (2 ^ w) where
  toFun r := r.bits.toFin
  invFun n := ⟨⟨n⟩⟩
  left_inv _ := rfl
  right_inv _ := rfl

theorem one_ne (positive : 0 < w) : (⟨1#w⟩ : Residue w) ≠ 0 := by
  intro zero
  have := congrArg (fun r => r.bits.getLsbD 0) zero
  simp [positive] at this

theorem order_bounds (positive : 0 < w) (odd : poly.getLsbD 0 = true) :
    0 < order poly ∧ order poly < 2 ^ w := by
  classical
  have : Fintype (Residue w) := Fintype.ofEquiv _ (residueEquiv w).symm
  have card : Fintype.card (Residue w) = 2 ^ w := by
    rw [Fintype.card_congr (residueEquiv w), Fintype.card_fin]
  rw [← card]
  exact period_bounds (timesX_injective positive odd) (one_ne positive)

/-- Two messages of one length have one CRC exactly where the generator divides their
difference and `x ^ w`; a constant term makes the latter vanish. With an odd number of set
bits in the polynomial no odd number of errors is missed, and two errors are missed only at
a multiple of the order, which is below `2 ^ w`. -/
theorem rcrc_detects {poly init xorOut : UintMax} (asserts : rcrcInitAsserts w poly init xorOut = true)
    (refIn refOut : Bool) (length : message.length = message'.length) :
    let crc := rcrcCalc w poly init refIn refOut xorOut
    let bits := difference refIn message message'
    let G := generator (poly.setWidth w)
    (crc message = crc message' ↔ G ∣ ofStream (ZMod 2) bits * X ^ w) ∧
      ((List.range w).countP poly.getLsbD % 2 = 1 → bits.count true % 2 = 1 →
        crc message ≠ crc message') ∧
      (poly.getLsbD 0 = true →
        (crc message = crc message' ↔ G ∣ ofStream (ZMod 2) bits) ∧
          0 < order (poly.setWidth w) ∧ order (poly.setWidth w) < 2 ^ w ∧
          ∀ i j, i < j → (∀ k : Nat, bits[k]? = some true ↔ k = i ∨ k = j) →
            (crc message = crc message' ↔ order (poly.setWidth w) ∣ j - i)) := by
  intro crc bits G
  obtain ⟨positive, bound, start⟩ := rcrcInit_start asserts refIn refOut
  let r : Rocksoft w := ⟨poly.setWidth w, init.setWidth w, refIn, refOut, xorOut.setWidth w⟩
  have kept : crc message = crc message' ↔ (timesX r.poly)^[w] (feed (timesX r.poly) ⟨1#w⟩ 0 bits) = 0 := by
    have result := calc_eq_iff (r := r) positive bound length
    rwa [← start] at result
  refine ⟨kept.trans (feed_zero_iff _ positive bits w), fun odd errors same => ?_, fun odd => ?_⟩
  · have odd : (List.range w).countP r.poly.getLsbD % 2 = 1 := by
      rw [← odd]
      congr 1
      refine List.countP_congr fun i member => ?_
      simp [r, List.mem_range.mp member]
    exact feed_odd positive odd errors w (kept.mp same)
  · have odd : r.poly.getLsbD 0 = true := by simpa [r, positive] using odd
    have injective := timesX_injective positive odd
    have plain : crc message = crc message' ↔ feed (timesX r.poly) ⟨1#w⟩ 0 bits = 0 := by
      rw [kept]
      constructor
      · intro zero
        apply injective.iterate w
        rw [zero, iterate_map_zero]
      · intro zero
        rw [zero, iterate_map_zero]
    refine ⟨?_, (order_bounds positive odd).1, (order_bounds positive odd).2, fun i j before set => ?_⟩
    · have divides := feed_zero_iff r.poly positive bits 0
      rw [pow_zero, mul_one] at divides
      exact plain.trans divides
    · exact plain.trans (feed_pair add_self injective before set)

/-- CRC-16/IBM-3740 and three errors, further apart than its width. -/
theorem rcrc_detects_ibm3740 :
    rcrcCalc 16 0x1021 0xFFFF false false 0 [0x31#8, 0x32#8, 0x33#8, 0x34#8] ≠
      rcrcCalc 16 0x1021 0xFFFF false false 0 [0xB1#8, 0x72#8, 0x33#8, 0x35#8] :=
  (rcrc_detects (show rcrcInitAsserts 16 0x1021 0xFFFF 0 = true by decide) false false
    (show [0x31#8, 0x32#8, 0x33#8, 0x34#8].length = [0xB1#8, 0x72#8, 0x33#8, 0x35#8].length from rfl)).2.1
    (by decide) (by decide)

end Ratlib.Crc
