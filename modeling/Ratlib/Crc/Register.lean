import Ratlib.Crc.Rocksoft

/-! The 64-bit register of rcrc against the residue register. Only the low `w`
bits are tracked: what accumulates above them never reaches the tap. -/
namespace Ratlib.Crc

open Feedback Residue

theorem rbitFlagGet_eq (x : UintMax) (i : Nat) : rbitFlagGet x i = x.getLsbD i := by
  by_cases small : i < 64
  · rw [rbitFlagGet, rbit]
    have single : (x &&& 1#64 <<< i) = if x.getLsbD i then 1#64 <<< i else 0#64 := by
      apply BitVec.eq_of_getLsbD_eq
      intro j hj
      by_cases same : j = i
      · subst same
        cases bit : x.getLsbD j <;> simp [bit]
      · have other : (1#64 <<< i).getLsbD j = false := by
          simp only [BitVec.getLsbD_shiftLeft, BitVec.getLsbD_one]
          grind
        split <;> simp [other]
    have nonzero : (1#64 <<< i) ≠ 0#64 := by
      intro zero
      have := congrArg (·.getLsbD i) zero
      simp [small] at this
    rw [single]
    cases x.getLsbD i <;> simp [nonzero]
  · have gone : rbit i = 0#64 := BitVec.shiftLeft_eq_zero (by omega)
    rw [rbitFlagGet, gone, BitVec.getLsbD_of_ge x i (by omega)]
    simp

theorem reflect_getLsbD (value : UintMax) (bits : Nat) (bound : bits ≤ 64) (i : Nat) :
    (reflect value bits).getLsbD i = (decide (i < bits) && value.getLsbD (bits - 1 - i)) := by
  have step : ∀ k, k ≤ bits → ((List.range k).foldl (fun result i => result |||
      rbitFlag i (rbitFlagGet value (bits - 1 - i))) 0#64).getLsbD i =
        (decide (i < k) && value.getLsbD (bits - 1 - i)) := by
    intro k hk
    induction k with
    | zero => simp
    | succ k ih =>
      rw [List.range_succ, List.foldl_append, List.foldl_cons, List.foldl_nil, BitVec.getLsbD_or,
        ih (by omega), rbitFlag, rbitFlagGet_eq]
      have place : (rbit k).getLsbD i = decide (i = k) := by
        simp only [rbit, BitVec.getLsbD_shiftLeft, BitVec.getLsbD_one]
        grind
      by_cases here : i = k
      · subst here
        cases value.getLsbD (bits - 1 - i) <;> simp [place]
      · cases value.getLsbD (bits - 1 - k) <;> simp [place, here] <;> grind
  exact step bits (Nat.le_refl _)

theorem reflect_setWidth (x : BitVec w) (bound : w ≤ 64) :
    reflect (x.setWidth 64) w = x.reverse.setWidth 64 := by
  apply BitVec.eq_of_getLsbD_eq
  intro i hi
  rw [reflect_getLsbD _ _ bound, BitVec.getLsbD_setWidth, BitVec.getLsbD_setWidth,
    BitVec.getLsbD_reverse, BitVec.getMsbD_eq_getLsbD]
  grind

theorem mask_getLsbD (bits : Nat) (bound : bits ≤ 64) (i : Nat) (inside : i < 64) :
    (mask bits).getLsbD i = decide (i < bits) := by
  rw [mask, uintMaxBits]
  split
  · subst bits
    rw [BitVec.getLsbD_allOnes]
  · have small : bits < 64 := by omega
    have ones : rbit bits - 1#64 = BitVec.ofNat 64 (2 ^ bits - 1) := by
      apply BitVec.eq_of_toNat_eq
      have := Nat.pow_lt_pow_right (a := 2) (by omega) small
      have := Nat.two_pow_pos bits
      simp only [rbit, BitVec.toNat_sub, BitVec.toNat_shiftLeft, BitVec.toNat_ofNat,
        Nat.shiftLeft_eq]
      omega
    rw [rbitMask, ones, BitVec.shiftLeft_zero, BitVec.getLsbD_ofNat, Nat.testBit_two_pow_sub_one]
    simp [inside]

theorem and_mask (x : UintMax) (bound : w ≤ 64) :
    x &&& mask w = (x.setWidth w).setWidth 64 := by
  apply BitVec.eq_of_getLsbD_eq
  intro i hi
  rw [BitVec.getLsbD_and, mask_getLsbD w bound i hi, BitVec.getLsbD_setWidth,
    BitVec.getLsbD_setWidth]
  grind

def low (w : Nat) (value : UintMax) : Residue w := ⟨value.setWidth w⟩

variable {w : Nat} {poly : BitVec w}

private theorem tap_mul (bit : Bool) (p : UintMax) :
    (BitVec.ofBool bit).setWidth 64 * p = if bit then p else 0#64 := by
  cases bit <;> simp

private theorem low_shift (positive : 0 < w) (bound : w ≤ 64) (value : UintMax) :
    ((value <<< 1) ^^^ if value.getLsbD (w - 1) then poly.setWidth 64 else 0#64).setWidth w =
      Rocksoft.shift poly (value.setWidth w) false := by
  have top : (value.setWidth w).msb = value.getLsbD (w - 1) := by
    rw [BitVec.msb_eq_getLsbD_last, BitVec.getLsbD_setWidth, decide_eq_true (by omega),
      Bool.true_and]
  have lowered : (value <<< 1).setWidth w = value.setWidth w <<< 1 := by
    apply BitVec.eq_of_getLsbD_eq
    intro i hi
    simp only [BitVec.getLsbD_setWidth, BitVec.getLsbD_shiftLeft]
    grind
  rw [BitVec.setWidth_xor, lowered, Rocksoft.shift, top, Bool.xor_false]
  split
  · rw [BitVec.setWidth_setWidth_of_le _ bound, BitVec.setWidth_eq]
  · simp

theorem low_resultBit (positive : 0 < w) (bound : w ≤ 64) (value : UintMax) :
    low w (resultBit w (poly.setWidth 64) value) = timesX poly (low w value) := by
  apply Residue.ext
  rw [bits_timesX, low, resultBit, rbitFlagGet_eq, tap_mul]
  exact low_shift positive bound value

theorem low_addBit (positive : 0 < w) (bound : w ≤ 64) (value : UintMax) (b : Byte) :
    low w (addBit w (poly.setWidth 64) (value, b)).1 =
      clock (timesX poly) ⟨1#w⟩ (low w value) b.msb := by
  have taken : (value <<< 1) ||| (BitVec.ofBool (rbitFlagGet (b.setWidth 64) (charBit - 1))).setWidth 64 =
      (value <<< 1) ^^^ if b.msb then 1#64 else 0#64 := by
    have top : rbitFlagGet (b.setWidth 64) (charBit - 1) = b.msb := by
      rw [rbitFlagGet_eq, BitVec.msb_eq_getLsbD_last, BitVec.getLsbD_setWidth]
      simp [charBit]
    rw [top]
    cases b.msb
    · simp
    · apply BitVec.eq_of_getLsbD_eq
      intro i hi
      simp only [if_true, BitVec.getLsbD_or, BitVec.getLsbD_xor, BitVec.getLsbD_shiftLeft,
        BitVec.getLsbD_setWidth, BitVec.getLsbD_one, BitVec.ofBool_true]
      by_cases first : i = 0 <;> simp [first]
  apply Residue.ext
  rw [addBit]
  simp only [low, taken, rbitFlagGet_eq value, tap_mul, clock]
  rw [BitVec.xor_assoc, BitVec.xor_comm (if b.msb = true then _ else _), ← BitVec.xor_assoc,
    BitVec.setWidth_xor, low_shift positive bound, bits_add, bits_timesX]
  congr 1
  cases b.msb
  · simp
  · apply BitVec.eq_of_getLsbD_eq
    intro i hi
    simp only [if_true, BitVec.getLsbD_setWidth, BitVec.getLsbD_one]
    grind

/-- All rounds of the byte loop feed the bits of `b`, most significant first. -/
theorem low_addBits (poly : BitVec w) (positive : 0 < w) (bound : w ≤ 64) (value : UintMax) (b : Byte) (rounds : Nat) :
    low w (Nat.repeat (addBit w (poly.setWidth 64)) rounds (value, b)).1 =
        feed (timesX poly) ⟨1#w⟩ (low w value) ((List.range rounds).map b.getMsbD) ∧
      (Nat.repeat (addBit w (poly.setWidth 64)) rounds (value, b)).2 = b <<< rounds := by
  induction rounds with
  | zero => simp [Nat.repeat]
  | succ rounds ih =>
    obtain ⟨fed, shifted⟩ := ih
    rw [Nat.repeat, List.range_succ, List.map_append, List.map_singleton, feed_concat, ← fed]
    generalize Nat.repeat (addBit w (poly.setWidth 64)) rounds (value, b) = state at *
    obtain ⟨v, c⟩ := state
    dsimp only at shifted
    subst shifted
    refine ⟨?_, ?_⟩
    · rw [low_addBit positive bound, BitVec.msb_eq_getMsbD_zero, BitVec.getMsbD_shiftLeft,
        Nat.zero_add]
    · simp [addBit, BitVec.shiftLeft_add]

theorem low_resultBits (poly : BitVec w) (positive : 0 < w) (bound : w ≤ 64) (value : UintMax) (rounds : Nat) :
    low w (Nat.repeat (resultBit w (poly.setWidth 64)) rounds value) =
      (timesX poly)^[rounds] (low w value) := by
  induction rounds with
  | zero => rfl
  | succ rounds ih => rw [Nat.repeat, low_resultBit positive bound, ih, Function.iterate_succ_apply']

end Ratlib.Crc
