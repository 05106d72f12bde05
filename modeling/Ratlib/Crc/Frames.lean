import Ratlib.Crc.Burst
import Ratlib.Library.Formats

/-! Messages that carry their CRC. Behind a message stand the bytes of its CRC in the order
in which `rcrc_addByte` consumes bits: the highest byte first, or the lowest where the bytes
enter reflected. The register then holds `xorOut` whatever the message was, so one result
tells the intact messages from all others that end in as many bytes. -/
namespace Ratlib.Crc

open Feedback Residue Rocksoft

variable {n : Nat} {message : List Byte}

def crcBytes (n : Nat) (refIn : Bool) (crc : UintMax) : List Byte :=
  ((if refIn then Format.littleEndian n else Format.bigEndian n).bytes (crc.setWidth (8 * n))).map UInt8.toBitVec

theorem toBitVec_getLsbD (value i : Nat) : (UInt8.ofNat value).toBitVec.getLsbD i =
    (decide (i < 8) && value.testBit i) := by
  rw [← BitVec.testBit_toNat, UInt8.toNat_toBitVec, UInt8.toNat_ofNat', Nat.testBit_mod_two_pow]

theorem bits_littleEndian (n value : Nat) :
    messageBits true ((digits n value).map UInt8.toBitVec) = (List.range (8 * n)).map value.testBit := by
  induction n generalizing value with
  | zero => rfl
  | succ n ih =>
    have first : byteBits true (UInt8.ofNat value).toBitVec = (List.range 8).map value.testBit := by
      refine List.map_congr_left fun i member => ?_
      rw [if_pos rfl, BitVec.getMsbD_reverse, toBitVec_getLsbD]
      simp [List.mem_range.mp member]
    rw [digits_succ, List.map_cons, messageBits, List.flatMap_cons, ← messageBits, ih, first,
      show 8 * (n + 1) = 8 + 8 * n by omega, List.range_add, List.map_append, List.map_map]
    congr 1
    refine List.map_congr_left fun i _ => ?_
    rw [Function.comp_apply, show 256 = 2 ^ 8 from rfl, Nat.testBit_div_two_pow, Nat.add_comm]

theorem bits_bigEndian (n value : Nat) :
    messageBits false ((digits n value).reverse.map UInt8.toBitVec) =
      (List.range (8 * n)).map fun i => value.testBit (8 * n - 1 - i) := by
  induction n generalizing value with
  | zero => rfl
  | succ n ih =>
    have last : byteBits false (UInt8.ofNat value).toBitVec =
        (List.range 8).map fun i => value.testBit (7 - i) := by
      refine List.map_congr_left fun i member => ?_
      have inside := List.mem_range.mp member
      rw [if_neg Bool.false_ne_true, BitVec.getMsbD_eq_getLsbD, toBitVec_getLsbD]
      simp [inside, show 7 - i < 8 by omega]
    rw [digits_succ, List.reverse_cons, List.map_append, List.map_singleton, messageBits,
      List.flatMap_append, List.flatMap_singleton, ← messageBits, ih, last,
      show 8 * (n + 1) = 8 * n + 8 by omega, List.range_add, List.map_append, List.map_map]
    congr 1
    · refine List.map_congr_left fun i member => ?_
      have inside := List.mem_range.mp member
      rw [show 256 = 2 ^ 8 from rfl, Nat.testBit_div_two_pow]
      congr 1
      omega
    · refine List.map_congr_left fun i member => ?_
      rw [Function.comp_apply]
      congr 1
      omega

/-- The bits of a sent CRC, as the register takes them in. -/
theorem crcBytes_bits (n : Nat) (refIn : Bool) (crc : UintMax) :
    let v := crc.setWidth (8 * n)
    messageBits refIn (crcBytes n refIn crc) = initBits (if refIn then v.reverse else v) (8 * n) := by
  intro v
  cases refIn with
  | true =>
    have bits := bits_littleEndian n v.toNat
    rw [crcBytes, if_pos rfl, if_pos rfl]
    refine bits.trans (List.map_congr_left fun i _ => ?_)
    rw [BitVec.testBit_toNat, BitVec.getMsbD_reverse]
  | false =>
    have bits := bits_bigEndian n v.toNat
    rw [crcBytes, if_neg Bool.false_ne_true, if_neg Bool.false_ne_true]
    refine bits.trans (List.map_congr_left fun i member => ?_)
    have inside := List.mem_range.mp member
    rw [BitVec.testBit_toNat, BitVec.getMsbD_eq_getLsbD, decide_eq_true inside, Bool.true_and]

theorem length_crcBytes (n : Nat) (refIn : Bool) (crc : UintMax) : (crcBytes n refIn crc).length = n := by
  rw [crcBytes, List.length_map, Format.length_bytes, Nat.mul_div_cancel_left n (by decide)]

/-- Once all set bits of `init` have met the message, none is left for what follows. -/
theorem initBits_met {w count : Nat} {init : BitVec w} (met : InitMet init count) (rest : Nat) :
    initBits init (count + rest) = initBits init count ++ List.replicate rest false := by
  rw [initBits, List.range_add, List.map_append, List.map_map, ← initBits]
  congr 1
  refine List.eq_replicate_iff.mpr ⟨by simp, fun bit member => ?_⟩
  obtain ⟨i, -, rfl⟩ := List.mem_map.mp member
  rw [Function.comp_apply]
  by_cases inside : count + i < w
  · have divides : 2 ^ (w - count) ∣ init.toNat := by
      rcases met with long | divides
      · omega
      · exact divides
    obtain ⟨q, same⟩ := divides
    rw [BitVec.getMsbD_eq_getLsbD, ← BitVec.testBit_toNat, same, Nat.testBit_two_pow_mul]
    simp
    omega
  · exact BitVec.getMsbD_of_ge init _ (by omega)

theorem frame_register {w : Nat} (positive : 0 < w) (bound : w ≤ 64) {r : Rocksoft w} {v : BitVec w}
    {bytes : List Byte} (met : InitMet r.init (8 * message.length))
    (bits : messageBits r.refIn bytes = initBits v w) :
    low w (rcrcAdd r.start (message ++ bytes)).value =
      (timesX r.poly)^[w] (low w (rcrcAdd r.start message).value) + ⟨v⟩ := by
  have consumed := consumed_add positive bound message (consumed_start r)
  have framed := consumed_add positive bound (message ++ bytes) (consumed_start r)
  have size : 8 * bytes.length = w := by
    rw [← messageBits_length r.refIn, bits, initBits_length]
  have lengths : (messageBits r.refIn message).length = (initBits r.init (8 * message.length)).length := by
    rw [messageBits_length, initBits_length]
  have entered : messageBits r.refIn (message ++ bytes) = messageBits r.refIn message ++ initBits v w := by
    rw [messageBits, List.flatMap_append, ← messageBits, ← messageBits, bits]
  have unmet : List.zipWith xor (initBits v w) (List.replicate w false) = initBits v w := by
    apply List.ext_getElem (by simp)
    intro i inside inside'
    simp
  have whole : feed (timesX r.poly) ⟨1#w⟩ 0 (initBits v (w + 0)) = (timesX r.poly)^[0] ⟨v⟩ :=
    feed_initBits_ge v 0
  rw [Nat.add_zero, Function.iterate_zero_apply] at whole
  rw [framed.register, consumed.register, List.nil_append, List.nil_append, List.length_append,
    Nat.mul_add, size, initBits_met met, entered, List.zipWith_append lengths, unmet, feed_append,
    feed_split (initBits v w), initBits_length, whole]

/-- The output stage where bytes and result are reflected alike. -/
def output (refIn : Bool) (xorOut register : BitVec w) : BitVec w :=
  (if refIn then register.reverse else register) ^^^ xorOut

theorem reverse_xor (a b : BitVec w) : (a ^^^ b).reverse = a.reverse ^^^ b.reverse := by
  apply BitVec.eq_of_getLsbD_eq
  intro i _
  rw [BitVec.getLsbD_reverse, BitVec.getMsbD_xor, BitVec.getLsbD_xor, BitVec.getLsbD_reverse,
    BitVec.getLsbD_reverse]

theorem output_output (refIn : Bool) (xorOut register : BitVec w) :
    (if refIn then (output refIn xorOut register).reverse else output refIn xorOut register) =
      register ^^^ if refIn then xorOut.reverse else xorOut := by
  cases refIn with
  | true => simp [output, reverse_xor]
  | false => rfl

theorem result_output {w : Nat} (positive : 0 < w) (bound : w ≤ 64) {r : Rocksoft w} (alike : r.refOut = r.refIn)
    (message : List Byte) : rcrcResult (rcrcAdd r.start message) =
      (output r.refIn r.xorOut ((timesX r.poly)^[w] (low w (rcrcAdd r.start message).value)).bits).setWidth 64 := by
  rw [result_consumed positive bound (consumed_add positive bound message (consumed_start r)), alike]
  rfl

/-- Behind a message that met all of `init`, the bytes of its CRC leave `xorOut` in the register. -/
theorem crcBytes_register (positive : 0 < 8 * n) (bound : 8 * n ≤ 64) {r : Rocksoft (8 * n)}
    (alike : r.refOut = r.refIn) (met : InitMet r.init (8 * message.length)) :
    low (8 * n) (rcrcAdd r.start
        (message ++ crcBytes n r.refIn (rcrcResult (rcrcAdd r.start message)))).value =
      ⟨if r.refIn then r.xorOut.reverse else r.xorOut⟩ := by
  have bits := crcBytes_bits n r.refIn (rcrcResult (rcrcAdd r.start message))
  rw [result_output positive bound alike, BitVec.setWidth_setWidth_of_le _ bound, BitVec.setWidth_eq] at bits
  dsimp only at bits
  rw [output_output] at bits
  rw [result_output positive bound alike, frame_register positive bound met bits]
  apply Residue.ext
  rw [bits_add, ← BitVec.xor_assoc, BitVec.xor_self, BitVec.zero_xor]

theorem xorOut_register (positive : 0 < 8 * n) (bound : 8 * n ≤ 64) {r : Rocksoft (8 * n)} (none : r.init = 0#(8 * n))
    (xorOut : UintMax) (same : xorOut.setWidth (8 * n) = r.xorOut) :
    low (8 * n) (rcrcAdd r.start (crcBytes n r.refIn xorOut)).value =
      ⟨if r.refIn then r.xorOut.reverse else r.xorOut⟩ := by
  have bits := crcBytes_bits n r.refIn xorOut
  rw [same] at bits
  dsimp only at bits
  have met : InitMet r.init (8 * ([] : List Byte).length) := by
    rw [none]
    exact .inr (by simp)
  have alone := frame_register positive bound met bits
  have empty : low (8 * n) (rcrcAdd r.start []).value = 0 := by
    apply Residue.ext
    simp [rcrcAdd, Rocksoft.start, rcrcInit, low]
  rwa [List.nil_append, empty, iterate_map_zero, zero_add] at alone

/-- Behind one message no other bytes have the result of some. -/
theorem trailer_unique {w : Nat} (positive : 0 < w) (bound : w ≤ 64) {r : Rocksoft w} (odd : r.poly.getLsbD 0 = true)
    {bytes bytes' : List Byte} (few : 8 * bytes.length ≤ w) (length : bytes.length = bytes'.length)
    (same : rcrcResult (rcrcAdd r.start (message ++ bytes)) = rcrcResult (rcrcAdd r.start (message ++ bytes'))) :
    bytes = bytes' := by
  have registers := calc_same positive bound odd (by rw [List.length_append, List.length_append, length]) same
  have lengths : (messageBits r.refIn bytes).length = (messageBits r.refIn bytes').length := by
    rw [messageBits_length, messageBits_length, length]
  have split : ∀ bytes, messageBits r.refIn (message ++ bytes) =
      messageBits r.refIn message ++ messageBits r.refIn bytes := fun _ => List.flatMap_append
  rw [split, split, feed_append, feed_append, feed_eq_iff add_self lengths] at registers
  have short : (List.zipWith xor (messageBits r.refIn bytes) (messageBits r.refIn bytes')).length ≤ w := by
    rw [List.length_zipWith, messageBits_length, messageBits_length]
    omega
  have clear := (feed_short _ short).2 (congrArg Residue.bits registers)
  exact messageBits_injective (difference_clear lengths clear)

/-- A frame of a message and its CRC has one result whatever the message is, the CRC of the
bytes of `xorOut` with no `init`. With a constant term in the polynomial no other bytes in
place of the CRC have it. -/
theorem rcrc_frames {poly init xorOut : UintMax} (asserts : rcrcInitAsserts (8 * n) poly init xorOut = true)
    (refIn : Bool) (met : InitMet (init.setWidth (8 * n)) (8 * message.length)) :
    let crc := rcrcCalc (8 * n) poly init refIn refIn xorOut
    let residue := rcrcCalc (8 * n) poly 0 refIn refIn xorOut (crcBytes n refIn xorOut)
    crc (message ++ crcBytes n refIn (crc message)) = residue ∧
      (poly.getLsbD 0 = true → ∀ bytes : List Byte, bytes.length = n →
        (crc (message ++ bytes) = residue ↔ bytes = crcBytes n refIn (crc message))) := by
  intro crc residue
  obtain ⟨positive, bound, start⟩ := rcrcInit_start asserts refIn refIn
  let r : Rocksoft (8 * n) := ⟨poly.setWidth _, init.setWidth _, refIn, refIn, xorOut.setWidth _⟩
  let r₀ : Rocksoft (8 * n) := { r with init := (0 : UintMax).setWidth _ }
  have start₀ : rcrcInit (8 * n) poly 0 refIn refIn xorOut = r₀.start := by
    refine (rcrcInit_start (w := 8 * n) ?_ refIn refIn).2.2
    simp only [rcrcInitAsserts, Bool.and_eq_true] at asserts ⊢
    exact ⟨⟨asserts.1.1, by simp⟩, asserts.2⟩
  have whole : ∀ message, crc message = rcrcResult (rcrcAdd r.start message) := fun message => by
    rw [← start]
    rfl
  have framed : crc (message ++ crcBytes n refIn (crc message)) = residue := by
    have left := crcBytes_register positive bound (r := r) rfl met
    have right := xorOut_register positive bound (r := r₀) (by simp [r₀]) xorOut rfl
    have residue_eq : residue = rcrcResult (rcrcAdd r₀.start (crcBytes n refIn xorOut)) := by
      rw [← start₀]
      rfl
    rw [whole, whole, residue_eq, result_output positive bound (r := r) rfl,
      result_output positive bound (r := r₀) rfl, left, right]
  refine ⟨framed, fun odd bytes length => ⟨fun same => ?_, ?_⟩⟩
  · have odd : r.poly.getLsbD 0 = true := by simpa [r, positive] using odd
    rw [← framed, whole, whole] at same
    exact trailer_unique positive bound odd (by omega) (by rw [length, length_crcBytes]) same
  · rintro rfl
    exact framed

/-- CRC-16/IBM-SDLC, whose frames all leave 0x0F47, and a frame with another trailer. -/
theorem rcrc_frames_sdlc :
    let crc := rcrcCalc (8 * 2) 0x1021 0xFFFF true true 0xFFFF
    let message := [0x31#8, 0x32#8, 0x33#8]
    crc (message ++ crcBytes 2 true (crc message)) = 0x0F47#64 ∧ crc (message ++ [0x31#8, 0x32#8]) ≠ 0x0F47#64 := by
  intro crc message
  have residue : rcrcCalc (8 * 2) 0x1021 0 true true 0xFFFF (crcBytes 2 true 0xFFFF) = 0x0F47#64 := by
    decide +kernel
  have met : InitMet (BitVec.setWidth (8 * 2) 0xFFFF#64) (8 * message.length) := .inl (by decide)
  have frames := rcrc_frames (show rcrcInitAsserts (8 * 2) 0x1021 0xFFFF 0xFFFF = true by decide) true met
  rw [residue] at frames
  have other : ¬ [0x31#8, 0x32#8] = crcBytes 2 true (crc message) := by decide +kernel
  exact ⟨frames.1, fun same => other ((frames.2 (by decide) _ rfl).mp same)⟩

end Ratlib.Crc
