import Ratlib.Crc.Correctness

/-! Burst errors. The parameters of rcrc other than the polynomial cancel when two
messages are compared; their difference is a stream of its own, which the register of a
polynomial with a constant term does not forget. -/
namespace Ratlib.Crc

open Feedback Residue Rocksoft

variable {w : Nat} {poly : BitVec w} {refIn : Bool} {message message' : List Byte}

/-- Multiplication by `x` can be undone where the polynomial has a constant term. -/
theorem timesX_injective (positive : 0 < w) (odd : poly.getLsbD 0 = true) :
    Function.Injective (timesX poly) := by
  rw [injective_iff_map_eq_zero]
  intro r zero
  have bits : Rocksoft.shift poly r.bits false = 0#w := congrArg Residue.bits zero
  rw [Rocksoft.shift, Bool.xor_false] at bits
  have top : r.bits.msb = false := by
    have lowest := congrArg (·.getLsbD 0) bits
    cases msb : r.bits.msb
    · rfl
    · simp [msb, odd] at lowest
  rw [top] at bits
  apply Residue.ext
  apply BitVec.eq_of_getLsbD_eq
  intro i inside
  by_cases last : i = w - 1
  · rw [last, ← BitVec.msb_eq_getLsbD_last, top]
    simp
  · have next := congrArg (·.getLsbD (i + 1)) bits
    simp only [BitVec.getLsbD_xor, BitVec.getLsbD_shiftLeft] at next
    simpa [show i + 1 < w by omega] using next

/-- A stream that fits the register stays in it as a number. -/
theorem feed_short (bits : List Bool) (few : bits.length ≤ w) :
    let register := (feed (timesX poly) ⟨1#w⟩ 0 bits).bits
    register.toNat < 2 ^ bits.length ∧ (register = 0#w → ∀ bit ∈ bits, bit = false) := by
  induction bits using List.reverseRecOn with
  | nil => simp
  | append_singleton bits bit ih =>
    rw [List.length_append, List.length_singleton] at few
    obtain ⟨bound, clear⟩ := ih (by omega)
    rw [feed_concat, clock]
    generalize feed (timesX poly) ⟨1#w⟩ 0 bits = r at bound clear
    have room := Nat.pow_le_pow_right (n := 2) (by omega) few
    rw [Nat.pow_succ] at room
    have shifted := iterate_timesX_shift poly (n := 1) (r := r.bits) (by omega)
    rw [Function.iterate_one] at shifted
    have doubled : (r.bits <<< 1).toNat = r.bits.toNat * 2 := by
      rw [BitVec.toNat_shiftLeft, Nat.shiftLeft_eq, Nat.mod_eq_of_lt (by omega)]
    have entered : (if bit then (⟨1#w⟩ : Residue w) else 0).bits.toNat = bit.toNat := by
      cases bit
      · simp
      · simpa using Nat.one_mod_two_pow_eq_one.mpr (show 0 < w by omega)
    have small := Bool.toNat_lt bit
    simp only [shifted, bits_add, List.length_append, List.length_singleton]
    generalize (if bit then (⟨1#w⟩ : Residue w) else 0).bits = b at entered
    constructor
    · have := Nat.two_pow_pos bits.length
      rw [BitVec.toNat_xor]
      apply Nat.xor_lt_two_pow
      · rw [doubled, Nat.pow_succ]
        omega
      · rw [entered, Nat.pow_succ]
        omega
    · intro zero
      have same := congrArg BitVec.toNat (BitVec.xor_eq_zero_iff.mp zero)
      rw [doubled, entered] at same
      have none : r.bits = 0#w := BitVec.eq_of_toNat_eq (by simp; omega)
      have last : bit = false := by
        cases bit
        · rfl
        · rw [Bool.toNat_true] at same
          omega
      intro other member
      rcases List.mem_append.mp member with member | member
      · exact clear none other member
      · rw [List.mem_singleton.mp member, last]

theorem byteBits_injective (refIn : Bool) : Function.Injective (byteBits refIn) := by
  intro b c same
  have reflected : (if refIn then b.reverse else b) = if refIn then c.reverse else c := by
    apply BitVec.eq_of_getMsbD_eq
    intro i inside
    have here := congrArg (·[i]?) same
    simpa [byteBits, inside] using here
  cases refIn
  · exact reflected
  · simpa using congrArg BitVec.reverse reflected

theorem messageBits_injective (same : messageBits refIn message = messageBits refIn message') :
    message = message' := by
  induction message generalizing message' with
  | nil =>
    have length := congrArg List.length same
    rw [messageBits_length, messageBits_length, List.length_nil] at length
    exact (List.length_eq_zero_iff.mp (by omega)).symm
  | cons b rest ih =>
    cases message' with
    | nil =>
      have length := congrArg List.length same
      rw [messageBits_length, messageBits_length, List.length_nil, List.length_cons] at length
      omega
    | cons c rest' =>
      have eight : ∀ b, (byteBits refIn b).length = 8 := fun b => by simp [byteBits]
      obtain ⟨first, others⟩ := List.append_inj same ((eight b).trans (eight c).symm)
      rw [byteBits_injective refIn first, ih others]

theorem difference_clear {xs ys : List Bool} (same : xs.length = ys.length)
    (clear : ∀ bit ∈ List.zipWith xor xs ys, bit = false) : xs = ys := by
  apply List.ext_getElem same
  intro i inside inside'
  have here := clear (xs[i] ^^ ys[i]) (List.mem_iff_getElem.mpr
    ⟨i, by rw [List.length_zipWith]; omega, List.getElem_zipWith⟩)
  simpa using here

/-- The differing bits lie within `w` consecutive bits, in the order in which
`rcrc_addByte` consumes them. -/
def Burst (w : Nat) (refIn : Bool) (message message' : List Byte) : Prop :=
  ∃ start, ∀ i : Nat, (messageBits refIn message)[i]? ≠ (messageBits refIn message')[i]? →
    start ≤ i ∧ i < start + w

/-- Two messages of one length that the code cannot tell apart leave the register of the
polynomial, without `init` and the output stage, in one state. -/
theorem calc_same {r : Rocksoft w} (positive : 0 < w) (bound : w ≤ 64) (odd : r.poly.getLsbD 0 = true)
    (length : message.length = message'.length)
    (same : rcrcResult (rcrcAdd r.start message) = rcrcResult (rcrcAdd r.start message')) :
    feed (timesX r.poly) ⟨1#w⟩ 0 (messageBits r.refIn message) =
      feed (timesX r.poly) ⟨1#w⟩ 0 (messageBits r.refIn message') := by
  have own : (⟨1#w⟩ : Residue w) + ⟨1#w⟩ = 0 := add_self _
  have split : ∀ message : List Byte, low w (rcrcAdd r.start message).value =
      feed (timesX r.poly) ⟨1#w⟩ 0 (messageBits r.refIn message) +
        feed (timesX r.poly) ⟨1#w⟩ 0 (initBits r.init (8 * message.length)) := by
    intro message
    have consumed := consumed_add positive bound message (consumed_start r)
    have lengths : (messageBits r.refIn message).length = (initBits r.init (8 * message.length)).length := by
      rw [messageBits_length, initBits_length]
    rw [consumed.register, List.nil_append, ← feed_superpose own lengths, add_zero]
  rw [result_consumed positive bound (consumed_add positive bound message (consumed_start r)),
    result_consumed positive bound (consumed_add positive bound message' (consumed_start r)),
    output_inj bound, ← Residue.ext_iff] at same
  have registers := (timesX_injective positive odd).iterate w same
  rwa [split, split, length, add_left_inj] at registers

/-- Burst-error detection: a difference within `w` consecutive bits changes the result,
whatever the other parameters and wherever it lies. -/
theorem rcrc_burst {poly init xorOut : UintMax} {refOut : Bool}
    (asserts : rcrcInitAsserts w poly init xorOut = true) (odd : poly.getLsbD 0 = true)
    (length : message.length = message'.length) (differ : message ≠ message')
    (burst : Burst w refIn message message') :
    rcrcCalc w poly init refIn refOut xorOut message ≠
      rcrcCalc w poly init refIn refOut xorOut message' := by
  obtain ⟨positive, bound, start⟩ := rcrcInit_start asserts refIn refOut
  let r : Rocksoft w := ⟨poly.setWidth w, init.setWidth w, refIn, refOut, xorOut.setWidth w⟩
  have odd' : r.poly.getLsbD 0 = true := by simpa [r, positive] using odd
  intro same
  rw [rcrcCalc, rcrcCalc, start] at same
  have registers := calc_same positive bound odd' length same
  have lengths : (messageBits refIn message).length = (messageBits refIn message').length := by
    rw [messageBits_length, messageBits_length, length]
  rw [feed_eq_iff add_self lengths] at registers
  obtain ⟨first, window⟩ := burst
  have inside : ∀ i : Nat, (List.zipWith xor (messageBits refIn message)
      (messageBits refIn message'))[i]? = some true → first ≤ i ∧ i < first + w := by
    intro i set
    obtain ⟨x, y, here, there, bit⟩ := List.getElem?_zipWith_eq_some.mp set
    apply window i
    rw [here, there]
    rintro ⟨⟩
    simp at bit
  have clear := feed_burst (timesX_injective positive odd')
    (fun bits few zero => (feed_short bits few).2 (congrArg Residue.bits zero)) inside registers
  apply differ
  exact messageBits_injective (difference_clear lengths clear)

theorem rcrc_burst_ibm3740 :
    rcrcCalc 16 0x1021#64 0xFFFF#64 false false 0#64 [0x31#8, 0x32#8, 0x33#8] ≠
      rcrcCalc 16 0x1021#64 0xFFFF#64 false false 0#64 [0x31#8, 0xCD#8, 0x33#8] := by
  refine rcrc_burst (by decide) (by decide) (by decide) (by decide) ⟨8, fun i differs => ?_⟩
  have before : ∀ i < 8, (messageBits false [0x31#8, 0x32#8, 0x33#8])[i]? =
      (messageBits false [0x31#8, 0xCD#8, 0x33#8])[i]? := by decide
  constructor
  · by_contra low
    exact differs (before i (by omega))
  · by_contra high
    rw [List.getElem?_eq_none (by simp only [messageBits_length, List.length_cons, List.length_nil]; omega),
      List.getElem?_eq_none (by simp only [messageBits_length, List.length_cons, List.length_nil]; omega)] at differs
    exact differs rfl

end Ratlib.Crc
