import Ratlib.Hash.HalfSip
import Ratlib.Hash.Model
import Ratlib.Library.Chunks

/-! The streamed hash is HalfSipHash-1-3 of everything that was added, in whatever pieces. -/
namespace Ratlib.Hash

variable {P : Platform} {v : Words} {w word : UInt32} {bytes xs ys buf message : List UInt8}
  {p : RHash} {offset : Nat}

def Words.state (v : Words) : HalfSip.State :=
  ⟨v.v0.toBitVec, v.v1.toBitVec, v.v2.toBitVec, v.v3.toBitVec⟩

section Rounds

theorem rotl_rotate (v n : UInt32) (some : 0 < n.toNat) (low : n.toNat < 32) :
    (rotl v n).toBitVec = v.toBitVec.rotateLeft n.toNat := by
  have back : (4294967296 - n.toNat) % 32 = 32 - n.toNat := by omega
  have there : n.toNat % 32 = n.toNat := Nat.mod_eq_of_lt low
  rw [rotl, UInt32.toBitVec_or, UInt32.toBitVec_shiftLeft, UInt32.toBitVec_shiftRight,
    BitVec.rotateLeft_def, there]
  congr 1
  · apply BitVec.eq_of_toNat_eq
    simp [BitVec.shiftLeft_eq', there]
  · apply BitVec.eq_of_toNat_eq
    simp [BitVec.ushiftRight_eq', back]

theorem sipround_round (v : Words) : (sipround v).state = HalfSip.round v.state := by
  have five := fun v => rotl_rotate v 5 (by decide) (by decide)
  have seven := fun v => rotl_rotate v 7 (by decide) (by decide)
  have eight := fun v => rotl_rotate v 8 (by decide) (by decide)
  have thirteen := fun v => rotl_rotate v 13 (by decide) (by decide)
  have sixteen := fun v => rotl_rotate v 16 (by decide) (by decide)
  simp only [Words.state, sipround, HalfSip.round, UInt32.toBitVec_xor, UInt32.toBitVec_add, five, seven,
    eight, thirteen, sixteen]
  rfl

theorem addWord_compress (v : Words) (word : UInt32) :
    (addWord v word).state = HalfSip.compress v.state word.toBitVec := by
  have round := sipround_round { v with v3 := v.v3 ^^^ word }
  rw [HalfSip.compress]
  change _ = { HalfSip.round (Words.state { v with v3 := v.v3 ^^^ word }) with
    v0 := (HalfSip.round (Words.state { v with v3 := v.v3 ^^^ word })).v0 ^^^ word.toBitVec }
  rw [← round]
  rfl

end Rounds

/-- Bytes or-ed in from byte `offset` on are added as digits. -/
theorem orBytes_toNat (low : w.toNat < 256 ^ offset) (room : offset + bytes.length ≤ 4) :
    (orBytes w offset bytes).toNat = w.toNat + 256 ^ offset * HalfSip.number bytes := by
  induction bytes generalizing w offset with
  | nil => simp [orBytes, HalfSip.number]
  | cons byte bytes ih =>
    rw [List.length_cons] at room
    have power : 256 ^ offset = 2 ^ (8 * offset) := by rw [Nat.pow_mul]
    have digit := byte.toNat_lt
    have shift : (UInt32.ofNat (8 * offset)).toNat % 32 = 8 * offset := by
      rw [UInt32.toNat_ofNat_of_lt' (by change _ < 2 ^ 32; omega), Nat.mod_eq_of_lt (by omega)]
    have below : byte.toNat * 2 ^ (8 * offset) < 2 ^ 32 := by
      have small : 2 ^ (8 * offset) ≤ 2 ^ 24 := Nat.pow_le_pow_right (by decide) (by omega)
      calc byte.toNat * 2 ^ (8 * offset) ≤ byte.toNat * 2 ^ 24 := Nat.mul_le_mul_left _ small
        _ < 2 ^ 8 * 2 ^ 24 := Nat.mul_lt_mul_of_pos_right digit (by decide)
    have here : (w ||| byte.toUInt32 <<< UInt32.ofNat (8 * offset)).toNat =
        w.toNat + 256 ^ offset * byte.toNat := by
      rw [UInt32.toNat_or, UInt32.toNat_shiftLeft, shift, UInt8.toNat_toUInt32, Nat.shiftLeft_eq,
        Nat.mod_eq_of_lt below, Nat.or_comm, Nat.mul_comm]
      rw [power] at low ⊢
      rw [← Nat.two_pow_add_eq_or_of_lt low, Nat.add_comm]
    have next : w.toNat + 256 ^ offset * byte.toNat < 256 ^ (offset + 1) := by
      rw [Nat.pow_succ]
      calc w.toNat + 256 ^ offset * byte.toNat < 256 ^ offset + 256 ^ offset * byte.toNat :=
            Nat.add_lt_add_right low _
        _ = 256 ^ offset * (byte.toNat + 1) := by rw [Nat.mul_succ, Nat.add_comm]
        _ ≤ 256 ^ offset * 256 := Nat.mul_le_mul_left _ digit
    rw [orBytes, ih (by rwa [here]) (by omega), here, HalfSip.number, HalfSip.number, List.map_cons,
      Nat.ofDigits_cons, Nat.pow_succ, Nat.mul_add, Nat.add_assoc, Nat.mul_assoc]

theorem orBytes_orBytes (xs ys : List UInt8) :
    orBytes (orBytes w offset xs) (offset + xs.length) ys = orBytes w offset (xs ++ ys) := by
  induction xs generalizing w offset with
  | nil => rfl
  | cons x xs ih =>
    rw [List.cons_append, orBytes, orBytes, List.length_cons, ← ih]
    congr 1
    omega

def absorb (v : Words) (bytes : List UInt8) : Words :=
  (blocks 4 bytes).foldl (fun v block => addWord v (orBytes 0 0 block)) v

theorem addWords_eq (v : Words) (bytes : List UInt8) :
    addWords v bytes = (absorb v bytes, leftover 4 bytes) := by
  fun_induction addWords v bytes with
  | case1 v b0 b1 b2 b3 bytes ih =>
    have cut : blocks 4 ([b0, b1, b2, b3] ++ bytes) = [b0, b1, b2, b3] :: blocks 4 bytes :=
      blocks_block (by decide) rfl
    have rest : leftover 4 ([b0, b1, b2, b3] ++ bytes) = leftover 4 bytes :=
      leftover_block (by decide) rfl
    change _ = (absorb v ([b0, b1, b2, b3] ++ bytes), leftover 4 ([b0, b1, b2, b3] ++ bytes))
    rw [ih, absorb, absorb, cut, rest]
    rfl
  | case2 v bytes none =>
    have short : bytes.length < 4 := by
      rcases bytes with _ | ⟨b0, _ | ⟨b1, _ | ⟨b2, _ | ⟨b3, bytes⟩⟩⟩⟩
      case cons.cons.cons.cons => exact absurd rfl (none b0 b1 b2 b3 bytes)
      all_goals simp
    rw [absorb, blocks_short short, leftover_short short]
    rfl

theorem absorb_append (v : Words) (xs ys : List UInt8) :
    absorb v (xs ++ ys) = absorb (absorb v xs) (leftover 4 xs ++ ys) := by
  rw [absorb, (chunks_append (by decide) xs ys).1, List.foldl_append]
  rfl

theorem absorb_block (whole : xs.length = 4) :
    absorb v (xs ++ ys) = absorb (addWord v (orBytes 0 0 xs)) ys := by
  rw [absorb, blocks_block (by decide) whole]
  rfl

structure Absorbed (P : Platform) (key0 key1 : UInt32) (p : RHash) (message : List UInt8) : Prop where
  val : p.val = absorb (rhashInit key0 key1).val message
  rem : p.rem = orBytes 0 0 (leftover 4 message)
  totalSize : p.totalSize = message.length

theorem rhashAdd_absorbed (absorbed : Absorbed P key0 key1 p message)
    (fits : (message ++ buf).length ≤ P.sizeMax) :
    Absorbed P key0 key1 (rhashAdd P p buf) (message ++ buf) := by
  obtain ⟨val, rem, size⟩ := absorbed
  have rest : (leftover 4 message).length = message.length % 4 := leftover_length 4 message
  have low : message.length % 4 < 4 := Nat.mod_lt _ (by decide)
  have total : P.add p.totalSize buf.length = (message ++ buf).length := by
    rw [List.length_append] at fits ⊢
    rw [size, Platform.add_of_le fits]
  have word : ∀ bytes, orBytes p.rem (message.length % 4) bytes =
      orBytes 0 0 (leftover 4 message ++ bytes) := by
    intro bytes
    rw [rem, ← rest, ← Nat.zero_add (leftover 4 message).length, orBytes_orBytes]
  have behind : leftover 4 (message ++ buf) = leftover 4 (leftover 4 message ++ buf) :=
    (chunks_append (by decide) message buf).2
  have absorbs := absorb_append (rhashInit key0 key1).val message buf
  rw [← val] at absorbs
  rw [rhashAdd, total, size]
  simp only [word]
  by_cases partly : message.length % 4 ≠ 0 ∧ 4 - message.length % 4 > buf.length
  · -- The early return: the word is not full yet.
    have short : (leftover 4 message ++ buf).length < 4 := by
      rw [List.length_append, rest]
      omega
    rw [if_pos partly]
    constructor
    · rw [absorbs, absorb, blocks_short short]
      rfl
    · rw [behind, leftover_short short]
    · rfl
  · rw [if_neg partly]
    by_cases pending : message.length % 4 ≠ 0
    · -- The word is filled, and what is left of the input makes words of its own.
      have enough : 4 - message.length % 4 ≤ buf.length := Nat.le_of_not_lt fun more => partly ⟨pending, more⟩
      have filled : (leftover 4 message ++ buf.take (4 - message.length % 4)).length = 4 := by
        rw [List.length_append, rest, List.length_take_of_le enough]
        omega
      have split : leftover 4 message ++ buf = leftover 4 message ++ buf.take (4 - message.length % 4) ++
          buf.drop (4 - message.length % 4) := by
        rw [List.append_assoc, List.take_append_drop]
      rw [if_pos pending]
      dsimp only
      rw [addWords_eq]
      constructor
      · rw [absorbs, split, absorb_block filled]
      · rw [behind, split, leftover_block (by decide) filled]
      · rfl
    · have none : leftover 4 message = [] := List.length_eq_zero_iff.mp (by omega)
      rw [if_neg pending]
      dsimp only
      rw [addWords_eq]
      constructor
      · rw [absorbs, none, List.nil_append]
      · rw [behind, none, List.nil_append]
      · rfl

theorem orBytes_number (short : bytes.length ≤ 4) :
    (orBytes 0 0 bytes).toBitVec = BitVec.ofNat 32 (HalfSip.number bytes) := by
  apply BitVec.eq_of_toNat_eq
  have digits := orBytes_toNat (w := 0) (by decide) (show 0 + bytes.length ≤ 4 by omega)
  have bound := (orBytes 0 0 bytes).toNat_lt
  rw [digits] at bound
  rw [UInt32.toNat_toBitVec, digits, BitVec.toNat_ofNat]
  simp only [UInt32.toNat_zero, Nat.pow_zero, Nat.one_mul, Nat.zero_add] at bound ⊢
  exact (Nat.mod_eq_of_lt bound).symm

theorem absorb_state (v : Words) (message : List UInt8) : (absorb v message).state =
    ((List.range (message.length / 4)).map (HalfSip.word message)).foldl HalfSip.compress v.state := by
  rw [absorb, blocks, List.foldl_map, List.foldl_map]
  generalize List.range (message.length / 4) = is
  induction is generalizing v with
  | nil => rfl
  | cons i is ih =>
    have word := orBytes_number (List.length_take_le 4 (message.drop (4 * i)))
    rw [List.foldl_cons, List.foldl_cons, ih, addWord_compress, word]
    rfl

/-- The tail word: the bytes that are left, and the low byte of the length. -/
theorem tail_word (message : List UInt8) :
    (orBytes 0 0 (leftover 4 message) ||| UInt32.ofNat message.length <<< 24).toBitVec =
      HalfSip.tail message := by
  have short : (leftover 4 message).length < 4 := by
    rw [leftover_length]
    exact Nat.mod_lt _ (by decide)
  have digits := orBytes_toNat (w := 0) (by decide) (show 0 + (leftover 4 message).length ≤ 4 by omega)
  simp only [UInt32.toNat_zero, Nat.pow_zero, Nat.one_mul, Nat.zero_add] at digits
  have low : HalfSip.number (leftover 4 message) < 2 ^ 24 := by
    have bytes : ∀ d ∈ (leftover 4 message).map UInt8.toNat, d < 256 := by
      intro d member
      obtain ⟨byte, -, rfl⟩ := List.mem_map.mp member
      exact byte.toNat_lt
    have bound := Nat.ofDigits_lt_base_pow_length (by decide) bytes
    rw [List.length_map] at bound
    exact Nat.lt_of_lt_of_le bound (Nat.pow_le_pow_right (by decide) (Nat.le_of_lt_succ short))
  have top : (UInt32.ofNat message.length <<< 24).toNat = 2 ^ 24 * (message.length % 256) := by
    rw [UInt32.toNat_shiftLeft, UInt32.toNat_ofNat', Nat.shiftLeft_eq]
    change message.length % 2 ^ 32 * 2 ^ 24 % 2 ^ 32 = _
    omega
  apply BitVec.eq_of_toNat_eq
  rw [UInt32.toNat_toBitVec, UInt32.toNat_or, digits, top, Nat.or_comm,
    ← Nat.two_pow_add_eq_or_of_lt low, HalfSip.tail, BitVec.toNat_ofNat]
  have whole : HalfSip.number (leftover 4 message) + message.length % 256 * 2 ^ 24 < 2 ^ 32 := by
    have small : message.length % 256 < 256 := Nat.mod_lt _ (by decide)
    omega
  change _ = (HalfSip.number (leftover 4 message) + message.length % 256 * 2 ^ 24) % 2 ^ 32
  rw [Nat.mod_eq_of_lt whole, Nat.add_comm, Nat.mul_comm]

/-- `rhash_result` takes in the tail and finishes. -/
theorem rhashResult_hash (absorbed : Absorbed P key0 key1 p message) :
    (rhashResult p).toBitVec = HalfSip.hash key0.toBitVec key1.toBitVec message := by
  obtain ⟨val, rem, size⟩ := absorbed
  have start : (rhashInit key0 key1).val.state = HalfSip.start key0.toBitVec key1.toBitVec := by
    simp [rhashInit, Words.state, HalfSip.start, BitVec.xor_comm]
  have final : (addWord p.val (p.rem ||| UInt32.ofNat p.totalSize <<< 24)).state =
      ((List.range (message.length / 4)).map (HalfSip.word message) ++ [HalfSip.tail message]).foldl
        HalfSip.compress (HalfSip.start key0.toBitVec key1.toBitVec) := by
    rw [addWord_compress, val, absorb_state, start, rem, size, tail_word, List.foldl_append]
    rfl
  have rounds : ∀ v : Words, (sipround^[drounds] v).state = HalfSip.round^[3] v.state := fun v => by
    simp only [drounds, Function.iterate_succ_apply', Function.iterate_zero_apply, sipround_round]
  simp only [rhashResult, HalfSip.hash]
  rw [← final]
  generalize addWord p.val (p.rem ||| UInt32.ofNat p.totalSize <<< 24) = v
  have last := rounds { v with v2 := v.v2 ^^^ 0xFF }
  change _ = (HalfSip.round^[3] (Words.state { v with v2 := v.v2 ^^^ 0xFF })).v1 ^^^
    (HalfSip.round^[3] (Words.state { v with v2 := v.v2 ^^^ 0xFF })).v3
  rw [← last]
  rfl

theorem foldl_absorbed (absorbed : Absorbed P key0 key1 p message) (chunks : List (List UInt8))
    (fits : (message ++ chunks.flatten).length ≤ P.sizeMax) :
    Absorbed P key0 key1 (chunks.foldl (rhashAdd P) p) (message ++ chunks.flatten) := by
  induction chunks generalizing p message with
  | nil => simpa using absorbed
  | cons chunk chunks ih =>
    rw [List.flatten_cons, ← List.append_assoc] at fits ⊢
    have first : (message ++ chunk).length ≤ P.sizeMax := by
      rw [List.length_append] at fits
      omega
    exact ih (rhashAdd_absorbed absorbed first) fits

/-- However a message is divided, the hash is HalfSipHash-1-3 of the whole, and that of
`rhash_calc`. -/
theorem rhash_halfsip (P : Platform) (key0 key1 : UInt32) (chunks : List (List UInt8))
    (fits : chunks.flatten.length ≤ P.sizeMax) :
    let result := rhashResult (chunks.foldl (rhashAdd P) (rhashInit key0 key1))
    result.toBitVec = HalfSip.hash key0.toBitVec key1.toBitVec chunks.flatten ∧
      result = rhashCalc P key0 key1 chunks.flatten := by
  intro result
  have start : Absorbed P key0 key1 (rhashInit key0 key1) [] := ⟨rfl, rfl, rfl⟩
  have streamed := rhashResult_hash (foldl_absorbed start chunks fits)
  have whole := rhashResult_hash (rhashAdd_absorbed start fits)
  exact ⟨streamed, UInt32.toBitVec_inj.mp (streamed.trans whole.symm)⟩

theorem rhash_halfsip_lp64 :
    let result := rhashResult ([[0, 1], [], [127, 128, 255, 34, 51, 68], [85]].foldl (rhashAdd .lp64)
      (rhashInit 0x01234567 0x89ABCDEF))
    result.toBitVec = HalfSip.hash 0x01234567 0x89ABCDEF [0, 1, 127, 128, 255, 34, 51, 68, 85] ∧
      result = rhashCalc .lp64 0x01234567 0x89ABCDEF [0, 1, 127, 128, 255, 34, 51, 68, 85] :=
  rhash_halfsip .lp64 0x01234567 0x89ABCDEF [[0, 1], [], [127, 128, 255, 34, 51, 68], [85]]
    (by decide +kernel)

end Ratlib.Hash
