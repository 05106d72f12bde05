import Ratlib.Alloc.Usage
import Ratlib.Rlist.Operations

/-! The accounts of a list, whose headers are system. -/
namespace Ratlib.Rlist

def rlistGetUsage (P : Platform) (p : RList) (parent : Report) : Report :=
  let out := parent.usage
  let sysSize := P.mul p.count (headerSize P)
  { parent with
    usage :=
      { out with
        systemSize := P.add out.systemSize sysSize
        blockSize := P.sub out.blockSize sysSize }
    sizes := parent.sizes && decide (p.count ≤ P.sizeMax / headerSize P ∧
      out.systemSize ≤ P.sizeMax - sysSize ∧ out.blockSize ≥ sysSize) }

variable {P : Platform} {p : RList} {objs : List Nat} {σ : Type u} {ι : Type v} {A : Ralc σ} {owner : ι}
  {ok : World σ → Blocks ι → Prop} {w : World σ} {K : Blocks ι} {κ : Type x} {L : Blocks κ}
  {parent : Report}

/-- The elements with their headers fill the blocks. -/
theorem blocks_sum (size : Nat → Nat) (objs : List Nat) :
    (objs.map fun q => headerSize P + size q).sum = objs.length * headerSize P + (objs.map size).sum := by
  rw [List.sum_map_add, List.map_const', List.sum_replicate_nat]

/-- Over a parent with correct accounts a list's are correct. -/
theorem rlistGetUsage_spec (serves : Serves P A owner ok limit) (holds : Holds P ok owner p w K objs)
    (accounts : parent.Accounts cap K) (bound : cap ≤ P.sizeMax)
    (covered : L.bytes.encard ≤ (objs.map (rlistElemSize P w.mem)).sum) :
    (rlistGetUsage P p parent).Accounts cap L := by
  have total := accounts.total
  have wide : 0 < headerSize P := by
    have := sizeofElem_le (P := P)
    have := P.sizeT_ge
    rw [sizeofElem] at *
    omega
  have distinct : (objs.map (objBlock P)).Nodup := by
    refine holds.nodup.map_on fun q member r member' same => ?_
    have above := holds.above serves member
    have above' := holds.above serves member'
    simp only [objBlock] at same
    omega
  have held : ∀ q ∈ objs, ∃ o, K (objBlock P q) = some ⟨o, headerSize P + rlistElemSize P w.mem q⟩ :=
    fun q member => ⟨owner, holds.held q member⟩
  have covers := accounts.covers (serves.separate holds.ok) distinct held
  rw [blocks_sum] at covers
  have system : P.mul p.count (headerSize P) = objs.length * headerSize P := by
    rw [holds.count, Platform.mul_of_le (by omega)]
  have asserts : p.count ≤ P.sizeMax / headerSize P ∧
      parent.usage.systemSize ≤ P.sizeMax - objs.length * headerSize P ∧
      parent.usage.blockSize ≥ objs.length * headerSize P := by
    refine ⟨(Nat.le_div_iff_mul_le wide).mpr ?_, by omega, by omega⟩
    rw [holds.count]
    omega
  have room : objs.length * headerSize P + 0 ≤ parent.usage.blockSize := by omega
  refine accounts.moved bound room ?_ ?_ ?_ ?_ ?_
  · simp only [rlistGetUsage, system, accounts.sizes, asserts, and_self, decide_true, Bool.and_true]
  · simp only [rlistGetUsage, system]
    rw [Platform.add_of_le (by omega), Nat.add_zero]
  · have same : P.add parent.usage.holeSize 0 = parent.usage.holeSize := Platform.add_of_le (by omega)
    exact same.symm
  · simp only [rlistGetUsage, system]
  · exact covered.trans (Nat.cast_le.mpr (by omega))

end Ratlib.Rlist
