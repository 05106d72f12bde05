import Ratlib.Alloc.Interface
import Ratlib.Library.Coverage

/-! The accounts of ralc.h. A layer starts from its parent's and moves what it does not hand
out itself from the blocks to the holes and to the system. -/
namespace Ratlib

structure RalcUsage where
  blockCount : Nat
  blockSize : Nat
  holeCount : Nat
  holeSize : Nat
  systemSize : Nat

/-- What a `getUsage` function wrote, and whether its assertions held: those about sizes
and those about the number of blocks. -/
structure Report where
  usage : RalcUsage
  sizes : Bool
  counts : Bool

/-- All of `cap` bytes are accounted for, those of the ranges held as bytes of blocks. -/
structure Report.Accounts (report : Report) (cap : Nat) (L : Blocks ι) : Prop where
  sizes : report.sizes = true
  total : report.usage.blockSize + report.usage.holeSize + report.usage.systemSize = cap
  metered : L.bytes.encard ≤ report.usage.blockSize

variable {P : Platform} {report report' : Report} {ι : Type u} {κ : Type w} {K : Blocks ι}
  {L : Blocks κ} {α : Type v} {cs : List α} {start size : α → Nat}

/-- The blocks handed out have no more bytes than there are addresses. -/
theorem Serves.encard_le {σ : Type z} {A : Ralc σ} {owner : ι} {ok : World σ → Blocks ι → Prop}
    {w : World σ} (serves : Serves P A owner ok limit) (before : ok w K) : K.bytes.encard ≤ P.sizeMax := by
  have inside : K.bytes ⊆ Set.Ico 0 P.sizeMax := by
    rintro x ⟨a, block, held, low, high⟩
    have := (serves.bounds before held).2
    exact ⟨Nat.zero_le x, by omega⟩
  have all : Set.encard (Set.Ico 0 P.sizeMax) = P.sizeMax := by
    rw [← Finset.coe_Ico, Set.encard_coe_eq_coe_finsetCard, Nat.card_Ico, Nat.sub_zero]
  exact all ▸ Set.encard_le_encard inside

/-- The blocks of a layer are in its parent's account. -/
theorem Report.Accounts.covers (accounts : report.Accounts cap K) (separate : K.Separate)
    (distinct : (cs.map start).Nodup) (held : ∀ c ∈ cs, ∃ owner, K (start c) = some ⟨owner, size c⟩) :
    (cs.map size).sum ≤ report.usage.blockSize :=
  Nat.cast_le.mp ((separate.sum_le_encard distinct held).trans accounts.metered)

/-- What a layer keeps for itself goes from the blocks to the system and the holes. -/
theorem Report.Accounts.moved (accounts : report.Accounts cap K) (bound : cap ≤ P.sizeMax)
    (taken : system + hole ≤ report.usage.blockSize) (sizes : report'.sizes = true)
    (blocks : report'.usage.blockSize = P.sub report.usage.blockSize (P.add system hole))
    (holes : report'.usage.holeSize = P.add report.usage.holeSize hole)
    (systems : report'.usage.systemSize = P.add report.usage.systemSize system)
    (metered : L.bytes.encard ≤ (report.usage.blockSize - (system + hole) : Nat)) :
    report'.Accounts cap L := by
  have total := accounts.total
  rw [Platform.add_of_le (a := system) (by omega), Platform.sub_of_le taken (by omega)] at blocks
  rw [Platform.add_of_le (by omega)] at holes systems
  exact ⟨sizes, by omega, by rwa [blocks]⟩

end Ratlib
