import Ratlib.Bit.Model
import Ratlib.Crc.Register
import Ratlib.Library.Bitsets
import Ratlib.Library.Runs

/-! A word as a record: after any sequence of rbit.h macros it has the flags that sets would
have, and its fields hold what was written last. -/
namespace Ratlib.Bit

open Crc (UintMax rbit rbitFlag rbitFlagGet rbitMask)
open Bitset

variable {x y : UintMax} {s : Set Nat} {op : Op} {ops : List Op} {o c : Nat}

def fieldBits (bitOffset bitCount : Nat) : Set Nat := { i | bitOffset ≤ i ∧ i < bitOffset + bitCount ∧ i < 64 }

/-- The bits that a macro may change. -/
def Op.bits : Op → Set Nat
  | .flagSet bitOffset | .flagUnset bitOffset | .flagWrite bitOffset _ => {bitOffset}
  | .flagsSet flags | .flagsUnset flags => ones flags
  | .fieldSet bitOffset bitCount | .fieldUnset bitOffset bitCount | .fieldWrite bitOffset bitCount _ =>
    fieldBits bitOffset bitCount

/-- The bits that it leaves set there. -/
def Op.sets : Op → Set Nat
  | .flagSet bitOffset => {bitOffset}
  | .flagWrite bitOffset value => { i | i = bitOffset ∧ value ≠ 0#64 }
  | .flagsSet flags => ones flags
  | .fieldSet bitOffset bitCount => fieldBits bitOffset bitCount
  | .fieldWrite bitOffset bitCount value => { i | i ∈ fieldBits bitOffset bitCount ∧ i - bitOffset ∈ ones value }
  | .flagUnset _ | .flagsUnset _ | .fieldUnset _ _ => ∅

def Op.edit (s : Set Nat) (op : Op) : Set Nat := (s \ op.bits) ∪ op.sets

theorem ones_rbit (valid : Shifts o) : ones (rbit o) = {o} := by
  ext i
  rw [mem_ones, rbit, ← BitVec.twoPow_eq, BitVec.getLsbD_twoPow, Set.mem_singleton_iff]
  simp [show o < 64 from valid, eq_comm]

theorem ones_mask (valid : Shifts c) : ones (rbitMask 0 c) = { i | i < c } := by
  have small : c < 64 := valid
  ext i
  by_cases inside : i < 64
  · have bit := Crc.mask_getLsbD c (Nat.le_of_lt small) i inside
    rw [Crc.mask, if_neg (Nat.ne_of_lt valid)] at bit
    rw [mem_ones, bit, decide_eq_true_eq]
    rfl
  · constructor
    · exact fun member => absurd (ones_lt member) inside
    · exact fun below => absurd (Nat.lt_trans below small) inside

theorem ones_mask_offset (valid : Shifts c) : ones (rbitMask o c) = fieldBits o c := by
  have low := ones_mask valid
  rw [rbitMask, BitVec.shiftLeft_zero] at low
  ext i
  rw [rbitMask, mem_ones_shiftLeft, low]
  simp only [fieldBits, Set.mem_ofPred_eq]
  omega

theorem ones_field (valid : Shifts c) (value : UintMax) :
    ones (rbitField o c value) = { i | i ∈ fieldBits o c ∧ i - o ∈ ones value } := by
  ext i
  rw [rbitField, mem_ones_shiftLeft, ones_and, ones_mask valid]
  simp only [fieldBits, Set.mem_inter_iff, Set.mem_ofPred_eq]
  constructor
  · rintro ⟨inside, low, bit, high⟩
    exact ⟨⟨low, by omega, inside⟩, bit⟩
  · rintro ⟨⟨low, high, inside⟩, bit⟩
    exact ⟨inside, low, bit, by omega⟩

theorem ones_flag (valid : Shifts o) (value : UintMax) :
    ones (rbitFlag o (value != 0#64)) = { i | i = o ∧ value ≠ 0#64 } := by
  rw [rbitFlag]
  by_cases zero : value = 0#64
  · simp [zero]
  · simp [zero, ones_rbit valid]

/-- What a macro does to the word it does to the set. -/
theorem call_edit (valid : op.Valid) (x : UintMax) : ones (call x op) = op.edit (ones x) := by
  cases op with
  | flagSet bitOffset =>
    rw [call, rbitFlagSet, ones_or, ones_rbit valid]
    simp [Op.edit, Op.bits, Op.sets]
  | flagUnset bitOffset =>
    rw [call, rbitFlagUnset, ones_and_not, ones_rbit valid]
    simp [Op.edit, Op.bits, Op.sets]
  | flagWrite bitOffset value =>
    rw [call, rbitFlagWrite, rbitFlagUnset, ones_or, ones_and_not, ones_rbit valid, ones_flag valid]
    rfl
  | flagsSet flags =>
    rw [call, rbitFlagsSet, rbitFlags, ones_or]
    simp [Op.edit, Op.bits, Op.sets]
  | flagsUnset flags =>
    rw [call, rbitFlagsUnset, rbitFlags, ones_and_not]
    simp [Op.edit, Op.bits, Op.sets]
  | fieldSet bitOffset bitCount =>
    rw [call, rbitFieldSet, ones_or, ones_mask_offset valid.2]
    simp [Op.edit, Op.bits, Op.sets]
  | fieldUnset bitOffset bitCount =>
    rw [call, rbitFieldUnset, ones_and_not, ones_mask_offset valid.2]
    simp [Op.edit, Op.bits, Op.sets]
  | fieldWrite bitOffset bitCount value =>
    rw [call, rbitFieldWrite, rbitFieldUnset, ones_or, ones_and_not, ones_mask_offset valid.2, ones_field valid.2]
    rfl

theorem Op.sets_subset (op : Op) : op.sets ⊆ op.bits := by
  cases op with
  | flagSet | flagsSet | fieldSet => exact fun _ member => member
  | flagWrite | fieldWrite => exact fun _ member => member.1
  | flagUnset | flagsUnset | fieldUnset => exact Set.empty_subset _

theorem Op.edit_other (outside : i ∉ op.bits) : i ∈ op.edit s ↔ i ∈ s := by
  constructor
  · rintro (⟨member, -⟩ | member)
    · exact member
    · exact absurd (op.sets_subset member) outside
  · exact fun member => .inl ⟨member, outside⟩

theorem step_edit (taken : step x op = some y) : op.Valid ∧ ones y = op.edit (ones x) := by
  rw [step] at taken
  split at taken
  case isTrue valid =>
    cases taken
    exact ⟨valid, call_edit valid x⟩
  case isFalse => cases taken

theorem run_edit (ran : run step x ops = some y) : ones y = ops.foldl Op.edit (ones x) := by
  induction ops generalizing x with
  | nil =>
    cases ran
    rfl
  | cons op ops ih =>
    obtain ⟨next, first, rest⟩ := run_cons_some ran
    rw [ih rest, (step_edit first).2, List.foldl_cons]

theorem run_other (outside : ∀ op ∈ ops, i ∉ op.bits) (ran : run step x ops = some y) :
    i ∈ ones y ↔ i ∈ ones x := by
  refine run_invariant_mem (fun y => i ∈ ones y ↔ i ∈ ones x) ?_ Iff.rfl ran
  intro x op y member same taken
  rw [(step_edit taken).2, Op.edit_other (outside op member), same]

structure Reads (x : UintMax) (s : Set Nat) : Prop where
  flag : ∀ bitOffset, Shifts bitOffset → (rbitFlagGet x bitOffset = true ↔ bitOffset ∈ s)
  get : ∀ flags, ones (rbitFlagsGet x flags) = s ∩ ones flags
  equal : ∀ flags, rbitFlagsEqual x flags = true ↔ s = ones flags
  all : ∀ flags, rbitFlagsAll x flags = true ↔ ones flags ⊆ s
  only : ∀ flags, rbitFlagsOnly x flags = true ↔ s ⊆ ones flags
  any : ∀ flags, rbitFlagsAny x flags = true ↔ (s ∩ ones flags).Nonempty
  field : ∀ bitOffset bitCount, Shifts bitOffset → Shifts bitCount →
    ones (rbitFieldGet x bitOffset bitCount) = { i | i < bitCount ∧ bitOffset + i ∈ s }

theorem reads_ones (x : UintMax) : Reads x (ones x) where
  flag bitOffset _ := by rw [Crc.rbitFlagGet_eq, mem_ones]
  get flags := ones_and
  equal flags := by rw [rbitFlagsEqual, beq_iff_eq, ones_eq_iff]
  all flags := by rw [rbitFlagsAll, beq_iff_eq, ones_subset_iff]
  only flags := by rw [rbitFlagsOnly, beq_iff_eq, ones_subset_iff, BitVec.and_comm]
  any flags := by rw [rbitFlagsAny, bne_iff_ne, ← ones_nonempty_iff, ones_and]
  field bitOffset bitCount _ valid := by
    ext i
    rw [rbitFieldGet, ones_and, ones_mask valid, Set.mem_inter_iff, mem_ones_ushiftRight]
    exact and_comm

theorem mem_fieldBits : i ∈ fieldBits o c ↔ o ≤ i ∧ i < o + c ∧ i < 64 := Iff.rfl

/-- A field holds what was written last, as far as it lies in the word. -/
theorem written_field (untouched : ∀ op ∈ later, ∀ i ∈ op.bits, i ∉ fieldBits o c)
    (taken : step x (.fieldWrite o c value) = some y) (ran : run step y later = some z) :
    (rbitFieldGet z o c).toNat = value.toNat % 2 ^ min c (64 - o) := by
  obtain ⟨⟨offset, count⟩, written⟩ := step_edit taken
  refine toNat_of_ones fun i => ?_
  rw [(reads_ones z).field o c offset count]
  by_cases inside : o + i ∈ fieldBits o c
  · have kept := run_other (fun op member touched => untouched op member _ touched inside) ran
    have place : o + i ∈ ones y ↔ i ∈ ones value := by
      simp [written, Op.edit, Op.bits, Op.sets, inside]
    rw [Set.mem_ofPred_eq, kept, place]
    have := mem_fieldBits.mp inside
    constructor
    · exact fun both => ⟨by omega, both.2⟩
    · exact fun both => ⟨by omega, both.2⟩
  · have outside := mem_fieldBits.not.mp inside
    constructor
    · rintro ⟨below, member⟩
      have := ones_lt member
      omega
    · rintro ⟨below, -⟩
      omega

/-- After any macros on a word, it is the set that the same flags set and unset make, the
macros that read it tell of that set, a field holds the value written last, and bits that no
macro named are as they were. -/
theorem rbit_refines (ran : run step x ops = some y) :
    Reads y (ops.foldl Op.edit (ones x)) ∧
      (∀ i, (∀ op ∈ ops, i ∉ op.bits) → (i ∈ ops.foldl Op.edit (ones x) ↔ i ∈ ones x)) ∧
      ∀ earlier bitOffset bitCount value later,
        ops = earlier ++ .fieldWrite bitOffset bitCount value :: later →
        (∀ op ∈ later, ∀ i ∈ op.bits, i ∉ fieldBits bitOffset bitCount) →
        (rbitFieldGet y bitOffset bitCount).toNat = value.toNat % 2 ^ min bitCount (64 - bitOffset) := by
  rw [← run_edit ran]
  refine ⟨reads_ones y, fun i outside => run_other outside ran, ?_⟩
  rintro earlier bitOffset bitCount value later rfl untouched
  obtain ⟨x₁, -, rest⟩ := run_append_some ran
  obtain ⟨x₂, written, rest⟩ := run_cons_some rest
  exact written_field untouched written rest

/-- Thirteen in three bits is five, whatever becomes of the bits beside them. -/
theorem rbit_refines_field :
    run step 0#64 [.flagSet 3, .fieldWrite 4 3 13#64, .fieldSet 8 2, .flagUnset 9] = some 344#64 ∧
      (rbitFieldGet 344#64 4 3).toNat = 5 := by
  have ran : run step 0#64 [.flagSet 3, .fieldWrite 4 3 13#64, .fieldSet 8 2, .flagUnset 9] = some 344#64 := by
    decide +kernel
  have untouched : ∀ op ∈ [Op.fieldSet 8 2, .flagUnset 9], ∀ i ∈ op.bits, i ∉ fieldBits 4 3 := by
    intro op member i touched inside
    have := mem_fieldBits.mp inside
    rcases List.mem_pair.mp member with rfl | rfl
    · have := mem_fieldBits.mp touched
      omega
    · have := Set.mem_singleton_iff.mp touched
      omega
  exact ⟨ran, (rbit_refines ran).2.2 [.flagSet 3] 4 3 13#64 _ rfl untouched⟩

end Ratlib.Bit
