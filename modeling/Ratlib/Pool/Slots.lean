import Ratlib.Pool.Model
import Ratlib.Arena.Stack
import Ratlib.Library.Paths
import Mathlib.Data.List.Perm.Basic

/-! The chunks of a pool as a list, the slots they are divided into, and the free list
that the loop of `grow` threads through them. -/
namespace Ratlib.Pool

/-- A chunk by its parent block, with the fields of its header. -/
structure Chunk where
  block : Nat
  cap : Nat
  blockSize : Nat

variable {P : Platform} {m m' : Mem} {c : Chunk} {cs : List Chunk} {elemSize base : Nat}

/-- The first `count` slots from `base` on. -/
def slotsFrom (base elemSize count : Nat) : List Nat :=
  (List.range count).map fun i => base + i * elemSize

def Chunk.slots (P : Platform) (elemSize : Nat) (c : Chunk) : List Nat :=
  slotsFrom (c.block + headerSize P) elemSize c.cap

def slots (P : Platform) (elemSize : Nat) (cs : List Chunk) : List Nat :=
  cs.flatMap (Chunk.slots P elemSize)

def capacity : List Chunk → Nat
  | [] => 0
  | c :: cs => c.cap + capacity cs

theorem mem_slotsFrom : q ∈ slotsFrom base elemSize n ↔ ∃ i < n, base + i * elemSize = q := by
  simp [slotsFrom]

theorem slotsFrom_succ (n : Nat) :
    slotsFrom base elemSize (n + 1) = slotsFrom base elemSize n ++ [base + n * elemSize] := by
  rw [slotsFrom, List.range_succ, List.map_append, List.map_singleton, ← slotsFrom]

theorem slots_cons : slots P elemSize (c :: cs) = c.slots P elemSize ++ slots P elemSize cs := rfl

theorem mem_slots : q ∈ slots P elemSize cs ↔ ∃ c ∈ cs, q ∈ c.slots P elemSize := List.mem_flatMap

theorem slots_length : (slots P elemSize cs).length = capacity cs := by
  induction cs with
  | nil => rfl
  | cons c cs ih =>
    rw [slots_cons, List.length_append, ih, capacity, Chunk.slots, slotsFrom, List.length_map,
      List.length_range]

theorem Chunk.slot_inside (member : q ∈ c.slots P elemSize) :
    c.block + headerSize P ≤ q ∧ q + elemSize ≤ c.block + headerSize P + c.cap * elemSize := by
  obtain ⟨i, below, rfl⟩ := mem_slotsFrom.mp member
  have within := Nat.mul_le_mul_right elemSize (Nat.succ_le_of_lt below)
  rw [Nat.succ_mul] at within
  omega

theorem slotsFrom_apart (base elemSize n : Nat) :
    (slotsFrom base elemSize n).Pairwise fun q r => q + elemSize ≤ r := by
  induction n with
  | zero => exact List.Pairwise.nil
  | succ n ih =>
    rw [slotsFrom_succ]
    refine List.pairwise_append.mpr ⟨ih, List.pairwise_singleton .., ?_⟩
    intro q member r last
    obtain ⟨i, below, rfl⟩ := mem_slotsFrom.mp member
    rw [List.mem_singleton.mp last]
    have within := Nat.mul_le_mul_right elemSize (Nat.succ_le_of_lt below)
    rw [Nat.succ_mul] at within
    omega

/-- The headers in memory, from the one at `ptr`, are those of the chunks. -/
def Stack (P : Platform) (m : Mem) : Nat → List Chunk → Prop
  | ptr, [] => ptr = 0
  | ptr, c :: cs => ptr = blockChunk P c.block ∧ chunkCap P m ptr = c.cap ∧
      chunkBlockSize P m ptr = c.blockSize ∧ Stack P m (chunkNext P m ptr) cs

theorem headerSize_ge : sizeofChunk P ≤ headerSize P := Arena.headerSize_ge

theorem headerSize_le : headerSize P ≤ 24 + 4096 := Arena.headerSize_le

theorem chunkBlock_blockChunk (block : Nat) : chunkBlock P (blockChunk P block) = block :=
  Arena.chunkBlock_blockChunk block

theorem data_blockChunk (block : Nat) : data P (blockChunk P block) = block + headerSize P :=
  Arena.data_blockChunk block

/-- The chunk as an arena would read its header. -/
def Chunk.header (c : Chunk) : Arena.Chunk := ⟨c.block, c.cap, c.blockSize⟩

theorem stack_header : Stack P m ptr cs ↔ Arena.Stack P m ptr (cs.map Chunk.header) := by
  induction cs generalizing ptr with
  | nil => exact Iff.rfl
  | cons c cs ih => exact and_congr_right' (and_congr_right' (and_congr_right' ih))

theorem stack_congr (stack : Stack P m ptr cs)
    (same : ∀ c ∈ cs, Set.EqOn m m' (Set.Ico c.block (c.block + headerSize P))) :
    Stack P m' ptr cs := by
  refine stack_header.mpr (Arena.stack_congr (stack_header.mp stack) fun c member => ?_)
  obtain ⟨d, found, rfl⟩ := List.mem_map.mp member
  exact same d found

def putHeader (P : Platform) (m : Mem) (block next cap blockSize : Nat) : Mem :=
  let chunk := blockChunk P block
  putChunkBlockSize P (putChunkCap P (putChunkNext P m chunk next) chunk cap) chunk blockSize

theorem putHeader_out (outside : x < block ∨ block + headerSize P ≤ x) :
    putHeader P m block next cap blockSize x = m x := Arena.putHeader_out outside

theorem stack_push (stack : Stack P m next cs)
    (apart : ∀ c ∈ cs, block + headerSize P ≤ c.block ∨ c.block + headerSize P ≤ block)
    (next_le : next ≤ P.sizeMax) (cap_le : cap ≤ P.sizeMax) (size_le : blockSize ≤ P.sizeMax) :
    Stack P (putHeader P m block next cap blockSize) (blockChunk P block)
      (⟨block, cap, blockSize⟩ :: cs) := by
  refine stack_header.mpr (Arena.stack_push (stack_header.mp stack) ?_ next_le cap_le size_le)
  intro c member
  obtain ⟨d, found, rfl⟩ := List.mem_map.mp member
  exact apart d found

/-- The loop of `grow` puts the slots before the free list, in order, and writes only
into them. -/
theorem pushSlots_spec (free : Path (slotNext P m) head rest 0) (wide : P.sizeT ≤ elemSize)
    (fits : base + n * elemSize ≤ P.sizeMax) (head_le : head ≤ P.sizeMax)
    (apart : ∀ q ∈ rest, base + n * elemSize ≤ q ∨ q + P.sizeT ≤ base) :
    ∃ first m', pushSlots P m base elemSize n head = (first, m') ∧
      Path (slotNext P m') first (slotsFrom base elemSize n ++ rest) 0 ∧
      ∀ x, x < base ∨ base + n * elemSize ≤ x → m' x = m x := by
  induction n generalizing m head rest with
  | zero => exact ⟨head, m, rfl, free, fun _ _ => rfl⟩
  | succ n ih =>
    rw [Nat.succ_mul] at fits apart ⊢
    have slot : P.mul n elemSize = n * elemSize := Platform.mul_of_le (by omega)
    rw [pushSlots, slot]
    have next : slotNext P (putSlotNext P m (base + n * elemSize) head) (base + n * elemSize) = head :=
      Platform.get_put head_le
    have free' : Path (slotNext P (putSlotNext P m (base + n * elemSize) head))
        (base + n * elemSize) ((base + n * elemSize) :: rest) 0 := by
      refine ⟨rfl, ?_⟩
      rw [next]
      refine free.congr fun q member => Platform.get_put_out ?_
      have := apart q member
      omega
    obtain ⟨first, m', pushed, path, kept⟩ := ih free' (by omega) (by omega) (by
      intro q member
      rcases List.mem_cons.mp member with rfl | member
      · omega
      · have := apart q member
        omega)
    refine ⟨first, m', pushed, ?_, ?_⟩
    · rwa [slotsFrom_succ, List.append_assoc, List.singleton_append]
    · intro x outside
      rw [kept x (by omega)]
      exact Platform.put_out (by omega)

end Ratlib.Pool
