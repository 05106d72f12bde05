import Ratlib.Crc.Register

/-! rcrc against the Rocksoft model. The code starts its register at zero, meets
the first message bits with the leading bits of `init` and appends `w` zero bits
at the end. By superposition this is the register that starts at `init`, as long
as the message is long enough to meet every set bit of `init`. -/
namespace Ratlib.Crc

open Feedback Residue Rocksoft

variable {w : Nat} {poly init : BitVec w}

/-- The bits of `init`, most significant first, then zeros. -/
def initBits (init : BitVec w) (count : Nat) : List Bool := (List.range count).map init.getMsbD

@[simp] theorem initBits_length (init : BitVec w) (count : Nat) :
    (initBits init count).length = count := by simp [initBits]

def Rocksoft.start (r : Rocksoft w) : Rcrc :=
  rcrcInit w (r.poly.setWidth 64) (r.init.setWidth 64) r.refIn r.refOut (r.xorOut.setWidth 64)

/-- What `rcrc_init` asserts of a parameter makes it a bit vector of the width. -/
theorem narrow {x : UintMax} (bound : w ≤ 64) (masked : (x &&& ~~~mask w) = 0#64) :
    x = (x.setWidth w).setWidth 64 := by
  rw [← and_mask x bound]
  apply BitVec.eq_of_getLsbD_eq
  intro i inside
  have here := congrArg (·.getLsbD i) masked
  simp only [BitVec.getLsbD_and, BitVec.getLsbD_not, inside] at here
  cases bit : (mask w).getLsbD i
  · simpa [bit] using here
  · simp [bit]

/-- With parameters that `rcrc_init` accepts the code is that of the model. -/
theorem rcrcInit_start {poly init xorOut : UintMax} (asserts : rcrcInitAsserts w poly init xorOut = true)
    (refIn refOut : Bool) : 0 < w ∧ w ≤ 64 ∧ rcrcInit w poly init refIn refOut xorOut =
      Rocksoft.start ⟨poly.setWidth w, init.setWidth w, refIn, refOut, xorOut.setWidth w⟩ := by
  simp only [rcrcInitAsserts, Bool.and_eq_true, decide_eq_true_eq, beq_iff_eq] at asserts
  obtain ⟨⟨⟨⟨positive, bound⟩, polyFits⟩, initFits⟩, xorFits⟩ := asserts
  refine ⟨positive, bound, ?_⟩
  rw [Rocksoft.start, ← narrow bound polyFits, ← narrow bound initFits, ← narrow bound xorFits]

/-- What the code has consumed: the parameters are kept, `initOffset` counts the
whole bytes of the message until it passes the width, and the low bits hold the
message with the leading bits of `init` folded in. -/
structure Consumed (r : Rocksoft w) (p : Rcrc) (message : List Byte) : Prop where
  bitWidth : p.bitWidth = w
  poly : p.poly = r.poly.setWidth 64
  init : p.init = r.init.setWidth 64
  xorOut : p.xorOut = r.xorOut.setWidth 64
  refIn : p.refIn = r.refIn
  refOut : p.refOut = r.refOut
  offset : p.initOffset = 8 * message.length ∨ (w ≤ p.initOffset ∧ w ≤ 8 * message.length)
  register : low w p.value = feed (timesX r.poly) ⟨1#w⟩ 0
    (List.zipWith xor (messageBits r.refIn message) (initBits r.init (8 * message.length)))

theorem consumed_start (r : Rocksoft w) : Consumed r r.start [] where
  bitWidth := rfl
  poly := rfl
  init := rfl
  xorOut := rfl
  refIn := rfl
  refOut := rfl
  offset := Or.inl rfl
  register := by
    apply Residue.ext
    simp [Rocksoft.start, rcrcInit, low, messageBits]

/-- `foldInit` meets bit `j` of byte number `count` with bit `8 * count + j` of `init`. -/
theorem foldInit_bits {p : Rcrc} (width : p.bitWidth = w) (bound : w ≤ 64)
    (same : p.init = init.setWidth 64)
    (offset : p.initOffset = 8 * count ∨ (w ≤ p.initOffset ∧ w ≤ 8 * count)) (b : Byte)
    (j : Nat) (inside : j < 8) :
    (foldInit p b).2.getMsbD j = (b.getMsbD j ^^ init.getMsbD (8 * count + j)) := by
  rw [foldInit, charBit]
  by_cases early : p.initOffset < p.bitWidth
  · have here : p.initOffset = 8 * count := by omega
    have next : (p.initOffset + 8) % 2 ^ 8 = 8 * count + 8 := by omega
    rw [if_pos early, next]
    dsimp only
    split
    · rw [same, width, BitVec.getMsbD_xor, BitVec.getMsbD_eq_getLsbD (BitVec.setWidth 8 _),
        BitVec.getMsbD_eq_getLsbD init]
      simp only [BitVec.getLsbD_setWidth, BitVec.getLsbD_shiftLeft]
      grind
    · rw [same, width, BitVec.getMsbD_xor, BitVec.getMsbD_eq_getLsbD (BitVec.setWidth 8 _),
        BitVec.getMsbD_eq_getLsbD init]
      simp only [BitVec.getLsbD_setWidth, BitVec.getLsbD_ushiftRight]
      grind
  · rw [if_neg early, BitVec.getMsbD_of_ge init _ (by omega), Bool.xor_false]

theorem foldInit_offset {p : Rcrc} (width : p.bitWidth = w) (bound : w ≤ 64)
    (offset : p.initOffset = 8 * count ∨ (w ≤ p.initOffset ∧ w ≤ 8 * count)) (b : Byte) :
    (foldInit p b).1.initOffset = 8 * (count + 1) ∨
      (w ≤ (foldInit p b).1.initOffset ∧ w ≤ 8 * (count + 1)) := by
  rw [foldInit, charBit]
  by_cases early : p.initOffset < p.bitWidth
  · rw [if_pos early]
    dsimp only
    left
    split
    all_goals
      dsimp only
      omega
  · rw [if_neg early]
    dsimp only
    omega

theorem foldInit_frame (p : Rcrc) (b : Byte) :
    (foldInit p b).1 = { p with initOffset := (foldInit p b).1.initOffset } := by
  rw [foldInit]
  split
  · dsimp only
    split <;> rfl
  · rfl

theorem byteBits_split (init : BitVec w) (refIn : Bool) (message : List Byte) (b : Byte) :
    List.zipWith xor (messageBits refIn (message ++ [b])) (initBits init (8 * (message.length + 1))) =
      List.zipWith xor (messageBits refIn message) (initBits init (8 * message.length)) ++
        (List.range 8).map (fun j => ((if refIn then b.reverse else b).getMsbD j ^^
          init.getMsbD (8 * message.length + j))) := by
  have entered : messageBits refIn (message ++ [b]) =
      messageBits refIn message ++ byteBits refIn b := by simp [messageBits]
  have met : initBits init (8 * (message.length + 1)) = initBits init (8 * message.length) ++
      (List.range 8).map (fun j => init.getMsbD (8 * message.length + j)) := by
    rw [initBits, Nat.mul_succ, List.range_add, List.map_append, List.map_map, initBits]
    rfl
  rw [entered, met, List.zipWith_append (by rw [messageBits_length, initBits_length]), byteBits,
    List.zipWith_map, List.zipWith_self]

theorem consumed_addByte (positive : 0 < w) (bound : w ≤ 64) (before : Consumed r p message)
    (b : Byte) : Consumed (w := w) r (rcrcAddByte p b) (message ++ [b]) := by
  have reflected : (if p.refIn then (reflect (b.setWidth 64) charBit).setWidth 8 else b) =
      if r.refIn then b.reverse else b := by
    rw [before.refIn, charBit, reflect_setWidth b (by omega),
      BitVec.setWidth_setWidth_of_le _ (by omega), BitVec.setWidth_eq]
  rw [rcrcAddByte, reflected]
  generalize taken : (if r.refIn then b.reverse else b) = c
  have fold := foldInit_bits before.bitWidth bound before.init before.offset c
  have offset := foldInit_offset before.bitWidth bound before.offset c
  have frame := foldInit_frame p c
  generalize folded : foldInit p c = pair at fold offset frame ⊢
  obtain ⟨q, d⟩ := pair
  dsimp only at fold offset frame ⊢
  rw [frame]
  refine ⟨before.bitWidth, before.poly, before.init, before.xorOut, before.refIn, before.refOut,
    by simpa using offset, ?_⟩
  have bits := (low_addBits r.poly positive bound p.value d charBit).1
  rw [List.length_append, List.length_singleton, byteBits_split, feed_append, ← before.register,
    taken]
  dsimp only
  rw [before.bitWidth, before.poly, bits]
  congr 1
  apply List.map_congr_left
  intro j member
  exact fold j (List.mem_range.mp member)

theorem consumed_add (positive : 0 < w) (bound : w ≤ 64) (buf : List Byte)
    (before : Consumed r p message) : Consumed (w := w) r (rcrcAdd p buf) (message ++ buf) := by
  induction buf generalizing p message with
  | nil => simpa [rcrcAdd] using before
  | cons b buf ih =>
    have next := ih (consumed_addByte positive bound before b)
    simpa [rcrcAdd] using next

theorem consumed_calls (positive : 0 < w) (bound : w ≤ 64) (calls : List Call)
    (before : Consumed r p message) :
    Consumed (w := w) r (calls.foldl Call.apply p) (message ++ calls.flatMap Call.bytes) := by
  induction calls generalizing p message with
  | nil => simpa using before
  | cons call calls ih =>
    have next : Consumed r (call.apply p) (message ++ call.bytes) := by
      cases call with
      | addByte b => exact consumed_addByte positive bound before b
      | add buf => exact consumed_add positive bound buf before
    simpa using ih next

/-- While the register is not full, the leading bits of `init` are its content. -/
theorem feed_initBits_lt (init : BitVec w) (few : count ≤ w) :
    feed (timesX poly) ⟨1#w⟩ 0 (initBits init count) = ⟨init >>> (w - count)⟩ := by
  induction count with
  | zero =>
    apply Residue.ext
    simp [initBits, BitVec.ushiftRight_eq_zero]
  | succ count ih =>
    rw [initBits, List.range_succ, List.map_append, List.map_singleton, feed_concat, ← initBits,
      ih (by omega), clock]
    have room : (init >>> (w - count)).toNat * 2 ^ 1 < 2 ^ w := by
      have small : (init >>> (w - count)).toNat < 2 ^ count := by
        rw [BitVec.toNat_ushiftRight, Nat.shiftRight_eq_div_pow,
          Nat.div_lt_iff_lt_mul (Nat.two_pow_pos _), ← Nat.pow_add,
          show count + (w - count) = w by omega]
        exact init.isLt
      have := Nat.pow_le_pow_right (n := 2) (by omega) few
      rw [Nat.pow_succ] at this
      omega
    have shifted := iterate_timesX_shift poly room
    rw [Function.iterate_one] at shifted
    rw [shifted]
    apply Residue.ext
    apply BitVec.eq_of_getLsbD_eq
    intro i hi
    cases bit : init.getMsbD count
    · simp only [Bool.false_eq_true, if_false, add_zero, BitVec.getLsbD_shiftLeft,
        BitVec.getLsbD_ushiftRight]
      rw [BitVec.getMsbD_eq_getLsbD] at bit
      grind
    · simp only [if_true, bits_add, BitVec.getLsbD_xor, BitVec.getLsbD_shiftLeft,
        BitVec.getLsbD_ushiftRight, BitVec.getLsbD_one]
      rw [BitVec.getMsbD_eq_getLsbD] at bit
      grind

/-- After its `w` bits `init` is only clocked. -/
theorem feed_initBits_ge (init : BitVec w) (count : Nat) :
    feed (timesX poly) ⟨1#w⟩ 0 (initBits init (w + count)) = (timesX poly)^[count] ⟨init⟩ := by
  have rest : initBits init (w + count) = initBits init w ++ List.replicate count false := by
    rw [initBits, List.range_add, List.map_append, List.map_map, ← initBits]
    congr 1
    apply List.eq_replicate_iff.mpr
    refine ⟨by simp, ?_⟩
    intro bit member
    obtain ⟨i, _, rfl⟩ := List.mem_map.mp member
    exact BitVec.getMsbD_of_ge init _ (by simp)
  rw [rest, feed_append, feed_initBits_lt init (Nat.le_refl w), feed_zeros]
  simp

/-- Every set bit of `init` meets a message of `count` bits. -/
def InitMet (init : BitVec w) (count : Nat) : Prop := w ≤ count ∨ 2 ^ (w - count) ∣ init.toNat

instance (init : BitVec w) (count : Nat) : Decidable (InitMet init count) :=
  inferInstanceAs (Decidable (_ ∨ _))

private theorem residue_add_eq_zero {a b : Residue w} : a + b = 0 ↔ a = b :=
  add_eq_zero_iff_eq_neg

/-- The augmented register holds `init` clocked through the message exactly when
no set bit of `init` is left over. -/
theorem initBits_augmented (init : BitVec w) (count : Nat) :
    (timesX poly)^[w] (feed (timesX poly) ⟨1#w⟩ 0 (initBits init count)) =
        (timesX poly)^[count] ⟨init⟩ ↔ InitMet init count := by
  by_cases long : w ≤ count
  · obtain ⟨extra, rfl⟩ := Nat.exists_eq_add_of_le long
    rw [feed_initBits_ge, ← Function.iterate_add_apply]
    simp [InitMet]
  · have short : count < w := by omega
    let k := w - count
    let high : BitVec w := init >>> k
    have divided : high.toNat = init.toNat / 2 ^ k := by
      simp only [high, BitVec.toNat_ushiftRight, Nat.shiftRight_eq_div_pow]
    have back : (timesX poly)^[w] ⟨high⟩ = (timesX poly)^[count] ⟨high <<< k⟩ := by
      have fits : high.toNat * 2 ^ k < 2 ^ w := by
        rw [divided]
        have := Nat.div_mul_le_self init.toNat (2 ^ k)
        have := init.isLt
        omega
      rw [← iterate_timesX_shift poly fits, ← Function.iterate_add_apply]
      congr 2
      omega
    -- What is missing is the part of `init` below bit `k`, still clear of the tap.
    let rest : Residue w := ⟨high <<< k⟩ + ⟨init⟩
    have missing : rest.bits.toNat = init.toNat % 2 ^ k := by
      apply Nat.eq_of_testBit_eq
      intro i
      rw [Nat.testBit_mod_two_pow, BitVec.testBit_toNat, BitVec.testBit_toNat]
      simp only [rest, high, bits_add, BitVec.getLsbD_xor, BitVec.getLsbD_shiftLeft,
        BitVec.getLsbD_ushiftRight]
      by_cases below : i < k
      · simp [below]
      · have same : k + (i - k) = i := by omega
        by_cases inside : i < w
        · simp [below, same, inside]
        · simp [inside, BitVec.getLsbD_of_ge init i (by omega), below]
    have unclocked : (timesX poly)^[count] rest = 0 ↔ rest.bits.toNat = 0 := by
      have fits : rest.bits.toNat * 2 ^ count < 2 ^ w := by
        have whole : 2 ^ w = 2 ^ k * 2 ^ count := by rw [← Nat.pow_add]; congr 1; omega
        rw [missing, whole]
        exact Nat.mul_lt_mul_of_pos_right (Nat.mod_lt _ (Nat.two_pow_pos k)) (Nat.two_pow_pos count)
      rw [show rest = ⟨rest.bits⟩ from rfl, iterate_timesX_shift poly fits, Residue.ext_iff,
        ← BitVec.toNat_inj, BitVec.toNat_shiftLeft, Nat.shiftLeft_eq, Nat.mod_eq_of_lt fits]
      simp
    rw [feed_initBits_lt init (by omega), back, ← residue_add_eq_zero, ← iterate_map_add, unclocked,
      missing, InitMet, ← Nat.dvd_iff_mod_eq_zero]
    simp [long, k]

/-- `rcrc_result` in terms of the low bits: `w` clocks, then the output stage of the model. -/
theorem result_consumed (positive : 0 < w) (bound : w ≤ 64) {r : Rocksoft w}
    (consumed : Consumed r p message) :
    let register := ((timesX r.poly)^[w] (low w p.value)).bits
    rcrcResult p = ((if r.refOut then register.reverse else register) ^^^ r.xorOut).setWidth 64 := by
  intro register
  have clocked : (Nat.repeat (resultBit w (r.poly.setWidth 64)) w p.value).setWidth w = register :=
    congrArg Residue.bits (low_resultBits r.poly positive bound p.value w)
  rw [rcrcResult, consumed.bitWidth, consumed.poly, consumed.refOut, consumed.xorOut]
  rw [and_mask _ bound, clocked, BitVec.setWidth_xor]
  cases r.refOut
  · rfl
  · rw [if_pos rfl, if_pos rfl, reflect_setWidth register bound]

theorem output_inj (bound : w ≤ 64) (refOut : Bool) (xorOut a b : BitVec w) :
    ((if refOut then a.reverse else a) ^^^ xorOut).setWidth 64 =
        ((if refOut then b.reverse else b) ^^^ xorOut).setWidth 64 ↔ a = b := by
  constructor
  · intro same
    have narrow := congrArg (BitVec.setWidth w) same
    rw [BitVec.setWidth_setWidth_of_le _ bound, BitVec.setWidth_setWidth_of_le _ bound,
      BitVec.setWidth_eq, BitVec.setWidth_eq, BitVec.xor_left_inj] at narrow
    cases refOut
    · exact narrow
    · have twice := congrArg BitVec.reverse narrow
      simpa using twice
  · rintro rfl
    rfl

/-- The state the code reaches gives the CRC of the model exactly when the message
has met every set bit of `init`. -/
theorem consumed_correct_iff (positive : 0 < w) (bound : w ≤ 64) {r : Rocksoft w}
    (consumed : Consumed r p message) :
    rcrcResult p = (r.crc message).setWidth 64 ↔ InitMet r.init (8 * message.length) := by
  have same : (messageBits r.refIn message).length = (initBits r.init (8 * message.length)).length := by
    rw [messageBits_length, initBits_length]
  have own : (⟨1#w⟩ : Residue w) + ⟨1#w⟩ = 0 := add_self _
  have code : (timesX r.poly)^[w] (low w p.value) =
      (timesX r.poly)^[w] (feed (timesX r.poly) ⟨1#w⟩ 0 (initBits r.init (8 * message.length))) +
        feed (timesX r.poly) ⟨r.poly⟩ 0 (messageBits r.refIn message) := by
    have superposed := feed_superpose (T := timesX r.poly) (r := 0) (s := 0) own same
    rw [add_zero] at superposed
    rw [consumed.register, superposed, iterate_map_add, iterate_feed _ (messageBits _ _),
      iterate_timesX_one r.poly positive, iterate_map_zero, add_comm]
  have model : feed (timesX r.poly) ⟨r.poly⟩ ⟨r.init⟩ (messageBits r.refIn message) =
      (timesX r.poly)^[8 * message.length] ⟨r.init⟩ +
        feed (timesX r.poly) ⟨r.poly⟩ 0 (messageBits r.refIn message) := by
    rw [feed_split, messageBits_length]
  rw [result_consumed positive bound consumed, Rocksoft.crc, output_inj bound, foldl_shift,
    ← Residue.ext_iff, code, model, add_left_inj, initBits_augmented]

/-- rcrc computes the CRC of the model on exactly the messages that meet every set
bit of `init`: all of at least `w` bits, and the shorter ones after which only
zero bits of `init` are left. This covers the one-shot call and every sequence of
incremental calls. -/
theorem rcrc_correct_iff (positive : 0 < w) (bound : w ≤ 64) (r : Rocksoft w) :
    (∀ message : List Byte,
      rcrcCalc w (r.poly.setWidth 64) (r.init.setWidth 64) r.refIn r.refOut (r.xorOut.setWidth 64)
          message = (r.crc message).setWidth 64 ↔
        InitMet r.init (8 * message.length)) ∧
    (∀ calls : List Call,
      stream w (r.poly.setWidth 64) (r.init.setWidth 64) r.refIn r.refOut (r.xorOut.setWidth 64)
          calls = (r.crc (calls.flatMap Call.bytes)).setWidth 64 ↔
        InitMet r.init (8 * (calls.flatMap Call.bytes).length)) := by
  constructor
  · intro message
    have consumed := consumed_add positive bound message (consumed_start r)
    exact consumed_correct_iff positive bound consumed
  · intro calls
    have consumed := consumed_calls positive bound calls (consumed_start r)
    exact consumed_correct_iff positive bound consumed

/-- CRC-16/IBM-3740, whose `init` has every bit set. -/
def ibm3740 : Rocksoft 16 := ⟨0x1021#16, 0xFFFF#16, false, false, 0#16⟩

theorem rcrc_correct_ibm3740 :
    rcrcCalc 16 0x1021#64 0xFFFF#64 false false 0#64 [0x31#8, 0x32#8] =
      (ibm3740.crc [0x31#8, 0x32#8]).setWidth 64 :=
  ((rcrc_correct_iff (by decide) (by decide) ibm3740).1 [0x31#8, 0x32#8]).mpr (Or.inl (by decide))

/-- On the empty message the code never meets `init`. -/
theorem rcrc_misses_init :
    rcrcCalc 16 0x1021#64 0xFFFF#64 false false 0#64 [] ≠ (ibm3740.crc []).setWidth 64 := by
  decide +kernel

end Ratlib.Crc
