import Ratlib.Alloc.Usage
import Ratlib.Arena.Operations

/-! The accounts of an arena: the headers of its chunks are system, what is left at the end
of each is a hole. -/
namespace Ratlib.Arena

section Model
variable (P : Platform)

/-- The variables of the loop of `ralcArena_getUsage`, and whether its assertion held. -/
structure Sums where
  holeSize : Nat
  chunkCount : Nat
  chunkHoleCount : Nat
  asserts : Bool

def Sums.add (s : Sums) (cap size : Nat) : Sums :=
  let remaining := P.sub cap size
  { holeSize := P.add s.holeSize remaining
    chunkCount := P.add s.chunkCount 1
    chunkHoleCount := P.add s.chunkHoleCount (if remaining > 0 then 1 else 0)
    asserts := s.asserts && decide (size ≤ cap) }

/-- The loop of `ralcArena_getUsage`. A chunk holds a byte at least, so it takes no more
rounds than the arena has bytes (`usageLoop_spec`). -/
def usageLoop (m : Mem) : Nat → Nat → Sums → Option Sums
  | chunk, 0, s => if chunk = 0 then some s else none
  | chunk, rounds + 1, s =>
    if chunk = 0 then some s
    else usageLoop m (chunkNext P m chunk) rounds (s.add P (chunkCap P m chunk) (chunkSize P m chunk))

def ralcArenaGetUsage (p : RalcArena) (m : Mem) (parent : Report) : Option Report :=
  (usageLoop P m p.chunks p.size ⟨0, 0, 0, true⟩).map fun s =>
    let out := parent.usage
    let systemSize := P.mul s.chunkCount (headerSize P)
    { parent with
      usage :=
        { out with
          blockSize := P.sub out.blockSize (P.add systemSize s.holeSize)
          holeCount := P.add out.holeCount s.chunkHoleCount
          holeSize := P.add out.holeSize s.holeSize
          systemSize := P.add out.systemSize systemSize }
      sizes := parent.sizes && s.asserts && decide (s.chunkCount ≤ P.sizeMax / headerSize P ∧
        systemSize ≤ P.sizeMax - s.holeSize ∧ out.blockSize ≥ P.add systemSize s.holeSize) }

end Model

def unused (cs : List Chunk) : Nat := (cs.map fun c => c.cap - c.size).sum

variable {P : Platform} {m : Mem} {p : RalcArena} {cs : List Chunk} {s : Sums} {σ : Type u} {ι : Type v}
  {A : Ralc σ} {owner : ι} {ok : World σ → Blocks ι → Prop} {w : World σ} {K : Blocks ι}
  {κ : Type x} {L : Blocks κ} {parent : Report}

theorem usageLoop_spec (stack : Stack P m ptr cs) (filled : Filled cs)
    (positive : ∀ c ∈ cs, 0 < c.block) (enough : cs.length ≤ rounds)
    (small : s.holeSize + unused cs ≤ P.sizeMax) (few : s.chunkCount + cs.length ≤ P.sizeMax) :
    ∃ holes, usageLoop P m ptr rounds s =
      some ⟨s.holeSize + unused cs, s.chunkCount + cs.length, holes, s.asserts⟩ := by
  induction cs generalizing ptr rounds s with
  | nil =>
    obtain rfl : ptr = 0 := stack
    cases rounds <;> exact ⟨s.chunkHoleCount, by rw [usageLoop, if_pos rfl]; rfl⟩
  | cons c cs ih =>
    obtain ⟨rfl, cap, size, rest⟩ := stack
    obtain ⟨-, within⟩ := filled c List.mem_cons_self
    have cap_le := Platform.get_le (P := P) m (blockChunk P c.block + P.sizeT)
    rw [show P.get m (blockChunk P c.block + P.sizeT) = c.cap from cap] at cap_le
    have above := headerSize_ge (P := P)
    have nonnull : blockChunk P c.block ≠ 0 := by
      have := positive c List.mem_cons_self
      rw [blockChunk]
      omega
    simp only [unused, List.map_cons, List.sum_cons, List.length_cons] at small few enough ⊢
    obtain ⟨rounds, rfl⟩ : ∃ r, rounds = r + 1 := ⟨rounds - 1, by omega⟩
    have remaining : P.sub c.cap c.size = c.cap - c.size := Platform.sub_of_le within cap_le
    have one : s.add P c.cap c.size = ⟨s.holeSize + (c.cap - c.size), s.chunkCount + 1,
        P.add s.chunkHoleCount (if c.cap - c.size > 0 then 1 else 0), s.asserts⟩ := by
      rw [Sums.add, remaining, Platform.add_of_le (by omega), Platform.add_of_le (by omega),
        decide_eq_true within, Bool.and_true]
    rw [usageLoop, if_neg nonnull, cap, size, one]
    obtain ⟨holes, found⟩ := ih rest (fun d member => filled d (List.mem_cons_of_mem _ member))
      (fun d member => positive d (List.mem_cons_of_mem _ member)) (show cs.length ≤ rounds by omega)
      (s := ⟨s.holeSize + (c.cap - c.size), s.chunkCount + 1, _, s.asserts⟩)
      (by dsimp only [unused]; omega) (by dsimp only; omega)
    exact ⟨holes, found.trans (by dsimp only [unused]; congr 2 <;> omega)⟩

/-- A chunk is its header, its objects and what is left. -/
theorem blocks_sum (filled : Filled cs) : (cs.map fun c => headerSize P + c.cap).sum =
    cs.length * headerSize P + unused cs + total cs := by
  induction cs with
  | nil => simp [unused]
  | cons c cs ih =>
    have := (filled c List.mem_cons_self).2
    have rest := ih fun d member => filled d (List.mem_cons_of_mem _ member)
    simp only [unused, List.map_cons, List.sum_cons, List.length_cons, Nat.succ_mul, total_cons] at rest ⊢
    omega

theorem length_le_total (filled : Filled cs) : cs.length ≤ total cs := by
  induction cs with
  | nil => exact Nat.le_refl 0
  | cons c cs ih =>
    have := (filled c List.mem_cons_self).1
    have := ih fun d member => filled d (List.mem_cons_of_mem _ member)
    rw [List.length_cons, total_cons]
    omega

/-- Over a parent with correct accounts an arena's are correct. -/
theorem ralcArenaGetUsage_spec (serves : Serves P A owner ok limit)
    (holding : Holding P ok owner p w K cs) (accounts : parent.Accounts cap K) (bound : cap ≤ P.sizeMax)
    (covered : L.bytes.encard ≤ total cs) :
    ∃ report, ralcArenaGetUsage P p w.mem parent = some report ∧ report.Accounts cap L ∧
      report.usage.blockCount = parent.usage.blockCount ∧ report.counts = parent.counts := by
  have holds := holding.holds
  have sum := blocks_sum (P := P) holds.filled
  have few := length_le_total holds.filled
  have total := accounts.total
  have wide : 0 < headerSize P := by
    have := headerSize_ge (P := P)
    have := P.sizeT_ge
    rw [sizeofChunk] at *
    omega
  have many := Nat.le_mul_of_pos_right cs.length wide
  have held : ∀ c ∈ cs, ∃ o, K c.block = some ⟨o, headerSize P + c.cap⟩ :=
    fun c member => ⟨owner, holds.held c member⟩
  have covers := accounts.covers (serves.separate holds.ok) holds.distinct held
  rw [sum] at covers
  obtain ⟨holes, loop⟩ := usageLoop_spec (s := ⟨0, 0, 0, true⟩) holds.stack holds.filled
    (fun c member => holds.positive serves member) (few.trans holding.total.le)
    (by dsimp only; omega) (by dsimp only; omega)
  simp only [Nat.zero_add] at loop
  have system : P.mul cs.length (headerSize P) = cs.length * headerSize P :=
    Platform.mul_of_le (by omega)
  have taken : P.add (cs.length * headerSize P) (unused cs) = cs.length * headerSize P + unused cs :=
    Platform.add_of_le (by omega)
  have asserts : cs.length ≤ P.sizeMax / headerSize P ∧
      cs.length * headerSize P ≤ P.sizeMax - unused cs ∧
      parent.usage.blockSize ≥ cs.length * headerSize P + unused cs :=
    ⟨(Nat.le_div_iff_mul_le (by omega)).mpr (by omega), by omega, by omega⟩
  rw [ralcArenaGetUsage, loop]
  simp only [Option.map_some, system, taken]
  have room : cs.length * headerSize P + unused cs ≤ parent.usage.blockSize := by omega
  refine ⟨_, rfl, accounts.moved bound room ?_ ?_ rfl rfl ?_, rfl, rfl⟩
  · simp only [accounts.sizes, asserts, and_self, decide_true, Bool.and_true]
  · rw [taken]
  · exact covered.trans (Nat.cast_le.mpr (by omega))

end Ratlib.Arena
