import Ratlib.Tower.Alignment
import Ratlib.Gen.Usage
import Ratlib.Arena.Usage
import Ratlib.Pool.Usage
import Ratlib.Rlist.Usage

/-! The accounts of a chain. Each layer corrects what its parent reports by what it keeps
of the parent's blocks; no byte of the buffer is lost or counted twice on the way. -/
namespace Ratlib.Tower

def ralcGetUsage (P : Platform) : (ls : List Layer) → World (State ls) → Option Report
  | [], w => Gen.ralcGenGetUsage P w.state w.mem
  | .arena _ :: ls, w =>
    (ralcGetUsage P ls (below w)).bind (Arena.ralcArenaGetUsage P w.state.1 w.mem)
  | .pool _ _ :: ls, w =>
    (ralcGetUsage P ls (below w)).bind (Pool.ralcPoolGetUsage P w.state.1 w.mem)
  | .list :: ls, w => (ralcGetUsage P ls (below w)).map (Rlist.rlistGetUsage P w.state.1)

variable {P : Platform} {σ : Type} {C : Checked σ} {ok : World σ → Blocks Unit → Prop} {L K : Blocks Unit}
  {g : Gen.Grain P} {buf cap : Nat} {ls : List Layer} {parent : Report}

theorem ArenaHolds.encard_le {w : World (Arena.RalcArena × σ)} (holds : ArenaHolds P ok w L K cs rs) :
    L.bytes.encard ≤ Arena.total cs := by
  have inside : ∀ x ∈ L.bytes, ∃ c ∈ cs, c.block + Arena.headerSize P ≤ x ∧
      x < c.block + Arena.headerSize P + c.size := by
    rintro x ⟨a, block, held, low, high⟩
    obtain ⟨c, found, start, stop, -⟩ := holds.inside held
    exact ⟨c, found, by omega, by omega⟩
  have sum : (cs.map Arena.Chunk.size).sum = Arena.total cs := by
    clear inside holds
    induction cs with
    | nil => rfl
    | cons c cs ih => rw [List.map_cons, List.sum_cons, ih, Arena.total_cons]
  rw [← sum]
  exact encard_le_sum inside

theorem PoolHolds.encard_le {w : World (Pool.RalcPool × σ)} (pool : PoolHolds P ok w L K cs free live) :
    L.bytes.encard ≤ (live.length * w.state.1.elemSize : Nat) := by
  have inside : ∀ x ∈ L.bytes, ∃ q ∈ live, q ≤ x ∧ x < q + w.state.1.elemSize := by
    rintro x ⟨a, block, held, within⟩
    obtain ⟨found, size⟩ := pool.objects a block held
    exact ⟨a, found, size ▸ within⟩
  have sum : (live.map fun _ => w.state.1.elemSize).sum = live.length * w.state.1.elemSize := by
    rw [List.map_const', List.sum_replicate_nat]
  rw [← sum]
  exact encard_le_sum inside

theorem ListHolds.encard_le {w : World (Rlist.RList × σ)} (list : ListHolds P ok w L K objs) :
    L.bytes.encard ≤ (objs.map (Rlist.rlistElemSize P w.mem)).sum :=
  encard_le_sum fun _ member => list.element member

/-- Every layer of a chain accounts for the whole buffer. -/
theorem chain_accounts (bound : cap ≤ P.sizeMax) {w : World (State ls)}
    (chained : ChainOk g buf cap ls w L) :
    ∃ report, ralcGetUsage P ls w = some report ∧ report.Accounts cap L := by
  induction ls generalizing L with
  | nil =>
    obtain ⟨⟨bs, holds⟩, -⟩ := chained
    obtain ⟨usage, found, -, size, total⟩ := Gen.ralcGenGetUsage_spec holds.layout
    exact ⟨_, found, rfl, total.trans holds.cap, size ▸ holds.encard_le⟩
  | cons l ls ih =>
    have serves : Serves P (chain P ls).guarded () (ChainOk g buf cap ls) P.sizeMax :=
      (chain_meets ls).serves
    cases l with
    | arena initChunkCap =>
      obtain ⟨K, cs, rs, arena⟩ := chained
      obtain ⟨parent, found, accounts⟩ := ih arena.inv.holding.holds.ok
      obtain ⟨report, result, accounts', -⟩ := Arena.ralcArenaGetUsage_spec serves arena.inv.holding
        accounts bound arena.encard_le
      exact ⟨report, Option.bind_eq_some_iff.mpr ⟨parent, found, result⟩, accounts'⟩
    | pool elemSize initChunkCap =>
      obtain ⟨K, cs, free, live, pool⟩ := chained
      obtain ⟨parent, found, accounts⟩ := ih pool.holds.ok
      obtain ⟨report, result, accounts', -⟩ := Pool.ralcPoolGetUsage_spec serves pool.holds
        accounts bound pool.encard_le
      exact ⟨report, Option.bind_eq_some_iff.mpr ⟨parent, found, result⟩, accounts'⟩
    | list =>
      obtain ⟨K, objs, list⟩ := chained
      obtain ⟨parent, found, accounts⟩ := ih list.holds.ok
      have accounts' := Rlist.rlistGetUsage_spec serves list.holds accounts bound list.encard_le
      exact ⟨_, Option.map_eq_some_iff.mpr ⟨parent, found, rfl⟩, accounts'⟩

/-- `ralc_getUsage` comes to its end, no assertion about sizes fails, and blocks, holes and
system add up to the buffer. The assertion of `ralcPool_getUsage` that its chunks are no more
than the blocks of its parent is not among these: over an arena it may abort the call. -/
def Accounted (P : Platform) (cap : Nat) (ls : List Layer) (w : World (State ls)) : Prop :=
  ∃ report, ralcGetUsage P ls w = some report ∧ report.sizes = true ∧
    report.usage.blockSize + report.usage.holeSize + report.usage.systemSize = cap

/-- After any run every layer of the chain accounts for the whole buffer. -/
theorem usage_accounts {s : Client ls} {ops : List (Op ls)} (region : 0 < buf ∧ buf + cap ≤ P.sizeMax)
    (asserts : ∀ l ∈ ls, l.InitAsserts P) (ran : run (step P ls) (start P buf cap m ls) ops = some s) :
    Everywhere (Accounted P cap) ls (world ls s) := by
  refine everywhere (Gen.Grain.two P) (fun ls w L chained => ?_) (run_inv _ region asserts ran).chain
  obtain ⟨report, found, accounts⟩ := chain_accounts (by omega) chained
  exact ⟨report, found, accounts.sizes, accounts.total⟩

theorem usage_accounts_lp64 : ∃ s, run (step .lp64 [.pool 24 2, .list, .arena 128])
      (start .lp64 4096 1000 (fun _ => 0) [.pool 24 2, .list, .arena 128]) [.alloc, .alloc, .alloc, .free 4240] =
        some s ∧
    Everywhere (Accounted .lp64 1000) [.pool 24 2, .list, .arena 128] (world _ s) := by
  have facts : (run (step .lp64 [.pool 24 2, .list, .arena 128])
      (start .lp64 4096 1000 (fun _ => 0) [.pool 24 2, .list, .arena 128])
      [.alloc, .alloc, .alloc, .free 4240]).isSome = true := by decide +kernel
  obtain ⟨s, ran⟩ := Option.isSome_iff_exists.mp facts
  exact ⟨s, ran, usage_accounts (by decide) (by decide) ran⟩

end Ratlib.Tower
