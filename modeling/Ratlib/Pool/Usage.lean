import Ratlib.Alloc.Usage
import Ratlib.Pool.Operations

/-! The accounts of a pool: the headers of its chunks and what no slot fits into are
system, the free slots are holes. -/
namespace Ratlib.Pool

section Model
variable (P : Platform)

/-- The variables of the loop of `ralcPool_getUsage`, and whether its assertions held. -/
structure Sums where
  chunkCount : Nat
  cap : Nat
  systemSize : Nat
  asserts : Bool

def Sums.add (s : Sums) (elemSize cap blockSize : Nat) : Sums :=
  let chunkSystemSize := P.sub blockSize (P.mul cap elemSize)
  { chunkCount := P.add s.chunkCount 1
    cap := P.add s.cap cap
    systemSize := P.add s.systemSize chunkSystemSize
    asserts := s.asserts && decide (cap ≤ blockSize / elemSize ∧ cap ≤ P.sizeMax - s.cap ∧
      chunkSystemSize ≤ P.sizeMax - s.systemSize) }

/-- The loop of `ralcPool_getUsage`. It takes a round for each chunk, of which there are
no more than addresses (`usageLoop_spec`). -/
def usageLoop (elemSize : Nat) (m : Mem) : Nat → Nat → Sums → Option Sums
  | chunk, 0, s => if chunk = 0 then some s else none
  | chunk, rounds + 1, s =>
    if chunk = 0 then some s
    else usageLoop elemSize m (chunkNext P m chunk) rounds
      (s.add P elemSize (chunkCap P m chunk) (chunkBlockSize P m chunk))

def chunkSums (p : RalcPool) (m : Mem) : Option Sums :=
  usageLoop P p.elemSize m p.chunks P.sizeMax ⟨0, 0, 0, true⟩

def ralcPoolGetUsage (p : RalcPool) (m : Mem) (parent : Report) : Option Report :=
  (chunkSums P p m).map fun s =>
    let out := parent.usage
    let holeCount := P.sub s.cap p.count
    let holeSize := P.mul holeCount p.elemSize
    { usage :=
        { blockCount := P.add (P.sub out.blockCount s.chunkCount) p.count
          blockSize := P.sub out.blockSize (P.add s.systemSize holeSize)
          holeCount := P.add out.holeCount holeCount
          holeSize := P.add out.holeSize holeSize
          systemSize := P.add out.systemSize s.systemSize }
      sizes := parent.sizes && s.asserts && decide (s.cap ≥ p.count ∧
        holeCount ≤ P.sizeMax / p.elemSize ∧ s.systemSize ≤ P.sizeMax - holeSize ∧
        out.blockSize ≥ P.add s.systemSize holeSize)
      counts := parent.counts && decide (s.chunkCount ≤ out.blockCount) }

end Model

def overhead (elemSize : Nat) (cs : List Chunk) : Nat :=
  (cs.map fun c => c.blockSize - c.cap * elemSize).sum

variable {P : Platform} {m : Mem} {p : RalcPool} {cs : List Chunk} {s : Sums} {σ : Type u} {ι : Type v}
  {A : Ralc σ} {owner : ι} {ok : World σ → Blocks ι → Prop} {w : World σ} {K : Blocks ι}
  {free live : List Nat} {κ : Type x} {L : Blocks κ} {parent : Report}

/-- A chunk is its slots and the rest. -/
theorem blocks_sum (fits : ∀ c ∈ cs, c.cap * elemSize ≤ c.blockSize) :
    (cs.map Chunk.blockSize).sum = overhead elemSize cs + capacity cs * elemSize := by
  induction cs with
  | nil => simp [overhead, capacity]
  | cons c cs ih =>
    have := fits c List.mem_cons_self
    have rest := ih fun d member => fits d (List.mem_cons_of_mem _ member)
    simp only [overhead, List.map_cons, List.sum_cons, capacity, Nat.add_mul] at rest ⊢
    omega

theorem usageLoop_spec (stack : Stack P m ptr cs) (fits : ∀ c ∈ cs, c.cap * elemSize ≤ c.blockSize)
    (positive : ∀ c ∈ cs, 0 < c.block) (wide : 0 < elemSize) (enough : cs.length ≤ rounds)
    (few : s.chunkCount + cs.length ≤ P.sizeMax) (small : s.cap + capacity cs ≤ P.sizeMax)
    (system : s.systemSize + overhead elemSize cs ≤ P.sizeMax) :
    usageLoop P elemSize m ptr rounds s = some ⟨s.chunkCount + cs.length, s.cap + capacity cs,
      s.systemSize + overhead elemSize cs, s.asserts⟩ := by
  induction cs generalizing ptr rounds s with
  | nil =>
    obtain rfl : ptr = 0 := stack
    cases rounds <;> exact if_pos rfl
  | cons c cs ih =>
    obtain ⟨rfl, cap, size, rest⟩ := stack
    have within := fits c List.mem_cons_self
    have size_le := Platform.get_le (P := P) m (blockChunk P c.block + 2 * P.sizeT)
    rw [show P.get m (blockChunk P c.block + 2 * P.sizeT) = c.blockSize from size] at size_le
    have nonnull : blockChunk P c.block ≠ 0 := by
      have := positive c List.mem_cons_self
      have := headerSize_ge (P := P)
      rw [blockChunk]
      omega
    simp only [overhead, capacity, List.map_cons, List.sum_cons, List.length_cons] at small few enough system ⊢
    obtain ⟨rounds, rfl⟩ : ∃ r, rounds = r + 1 := ⟨rounds - 1, by omega⟩
    have outside : P.sub c.blockSize (P.mul c.cap elemSize) = c.blockSize - c.cap * elemSize := by
      rw [Platform.mul_of_le (by omega), Platform.sub_of_le within size_le]
    have slots : c.cap ≤ c.blockSize / elemSize := (Nat.le_div_iff_mul_le wide).mpr within
    have one : s.add P elemSize c.cap c.blockSize = ⟨s.chunkCount + 1, s.cap + c.cap,
        s.systemSize + (c.blockSize - c.cap * elemSize), s.asserts⟩ := by
      have asserts : c.cap ≤ c.blockSize / elemSize ∧ c.cap ≤ P.sizeMax - s.cap ∧
          c.blockSize - c.cap * elemSize ≤ P.sizeMax - s.systemSize := ⟨slots, by omega, by omega⟩
      rw [Sums.add, outside, Platform.add_of_le (by omega), Platform.add_of_le (by omega),
        Platform.add_of_le (by omega), decide_eq_true asserts, Bool.and_true]
    rw [usageLoop, if_neg nonnull, cap, size, one, ih rest
      (fun d member => fits d (List.mem_cons_of_mem _ member))
      (fun d member => positive d (List.mem_cons_of_mem _ member)) (by omega) (by dsimp only; omega)
      (by dsimp only; omega) (by dsimp only [overhead]; omega)]
    dsimp only [overhead]
    congr 2 <;> omega

/-- The loop finds what the chunks have; their slots are no more than the bytes they lie in. -/
theorem Holds.chunkSums_eq (serves : Serves P A owner ok limit)
    (holds : Holds P ok owner p w K cs free live) :
    chunkSums P p w.mem = some ⟨cs.length, capacity cs, overhead p.elemSize cs, true⟩ := by
  have held : ∀ c ∈ cs, ∃ o, K c.block = some ⟨o, c.blockSize⟩ :=
    fun c member => ⟨owner, holds.held c member⟩
  have bound : (cs.map Chunk.blockSize).sum ≤ P.sizeMax := Nat.cast_le.mp
    (((serves.separate holds.ok).sum_le_encard holds.distinct held).trans (serves.encard_le holds.ok))
  have fits : ∀ c ∈ cs, c.cap * p.elemSize ≤ c.blockSize := fun c member => by
    have := holds.slots_fit member
    omega
  have few := mem_chunks_length serves holds.ok holds.held holds.distinct
  have sum := blocks_sum fits
  have many := Nat.le_mul_of_pos_right (capacity cs) holds.positive
  have loop := usageLoop_spec (s := ⟨0, 0, 0, true⟩) holds.stack fits
    (fun c member => (holds.bounds serves member).1) holds.positive few (by dsimp only; omega)
    (by dsimp only; omega) (by dsimp only; omega)
  rw [chunkSums, loop]
  simp only [Nat.zero_add]

/-- Over a parent with correct accounts a pool's are correct. -/
theorem ralcPoolGetUsage_spec (serves : Serves P A owner ok limit)
    (holds : Holds P ok owner p w K cs free live) (accounts : parent.Accounts cap K)
    (bound : cap ≤ P.sizeMax) (covered : L.bytes.encard ≤ (live.length * p.elemSize : Nat)) :
    ∃ report, ralcPoolGetUsage P p w.mem parent = some report ∧ report.Accounts cap L ∧
      report.usage.blockCount = P.add (P.sub parent.usage.blockCount cs.length) p.count ∧
      report.counts = (parent.counts && decide (cs.length ≤ parent.usage.blockCount)) := by
  have total := accounts.total
  have fits : ∀ c ∈ cs, c.cap * p.elemSize ≤ c.blockSize := fun c member => by
    have := holds.slots_fit member
    omega
  have sum := blocks_sum fits
  have held : ∀ c ∈ cs, ∃ o, K c.block = some ⟨o, c.blockSize⟩ :=
    fun c member => ⟨owner, holds.held c member⟩
  have covers := accounts.covers (serves.separate holds.ok) holds.distinct held
  have sums := holds.chunkSums_eq serves
  have slots : capacity cs = free.length + live.length := by
    rw [← slots_length, ← holds.divided.length_eq, List.length_append]
  have many := Nat.le_mul_of_pos_right (capacity cs) holds.positive
  have holes : P.sub (capacity cs) p.count = free.length := by
    rw [holds.count, Platform.sub_of_le (by omega) (by omega), slots, Nat.add_sub_cancel]
  rw [slots, Nat.add_mul] at sum many
  have hole : P.mul free.length p.elemSize = free.length * p.elemSize := Platform.mul_of_le (by omega)
  have taken : P.add (overhead p.elemSize cs) (free.length * p.elemSize) =
      overhead p.elemSize cs + free.length * p.elemSize := Platform.add_of_le (by omega)
  have asserts : capacity cs ≥ p.count ∧ free.length ≤ P.sizeMax / p.elemSize ∧
      overhead p.elemSize cs ≤ P.sizeMax - free.length * p.elemSize ∧
      parent.usage.blockSize ≥ overhead p.elemSize cs + free.length * p.elemSize :=
    ⟨by rw [slots, holds.count]; omega, (Nat.le_div_iff_mul_le holds.positive).mpr (by omega), by omega,
      by omega⟩
  have room : overhead p.elemSize cs + free.length * p.elemSize ≤ parent.usage.blockSize := by omega
  rw [ralcPoolGetUsage, sums]
  simp only [Option.map_some, holes, hole, taken]
  refine ⟨_, rfl, accounts.moved bound room ?_ ?_ rfl rfl ?_, rfl, rfl⟩
  · simp only [accounts.sizes, asserts, and_self, decide_true, Bool.and_true]
  · rw [taken]
  · exact covered.trans (Nat.cast_le.mpr (by omega))

end Ratlib.Pool
