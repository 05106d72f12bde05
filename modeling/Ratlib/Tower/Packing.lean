import Ratlib.Tower.Counts
import Mathlib.Tactic.Ring

/-! Whether a pool over a chain reports its live slots as blocks. It subtracts its chunks
from the blocks its parent reports, and an arena further down reports chunks of its own:
two chunks of the pool that share one are one block there. -/
namespace Ratlib.Tower

variable {P : Platform} {g : Gen.Grain P} {buf cap : Nat} {ls : List Layer}

section Modulus

theorem cast_wrap (n : Nat) : ((P.wrap n : Nat) : ZMod (256 ^ P.sizeT)) = n := ZMod.natCast_mod n _

/-- Sums and differences of `size_t` are those of the residues. -/
theorem cast_add (a b : Nat) : ((P.add a b : Nat) : ZMod (256 ^ P.sizeT)) = a + b := by
  rw [Platform.add, cast_wrap, Nat.cast_add]

theorem cast_sub (a b : Nat) : ((P.sub a b : Nat) : ZMod (256 ^ P.sizeT)) = a - b := by
  have below : P.wrap b ≤ 256 ^ P.sizeT := by
    have := Platform.wrap_le (P := P) b
    have := P.sizeMax_succ
    omega
  rw [Platform.sub, cast_wrap, Nat.cast_add, Nat.cast_sub below, cast_wrap, ZMod.natCast_self, zero_sub,
    sub_eq_add_neg]

theorem cast_eq_zero (small : k ≤ P.sizeMax) (zero : (k : ZMod (256 ^ P.sizeT)) = 0) : k = 0 := by
  have := P.sizeMax_succ
  exact Nat.eq_zero_of_dvd_of_lt ((ZMod.natCast_eq_zero_iff k _).mp zero) (by omega)

end Modulus

/-- The blocks reported are the objects granted, less those that share chunks of arenas. -/
theorem tally_report {w : World (State ls)} {L : Blocks Unit} (bound : cap ≤ P.sizeMax)
    (chained : ChainOk g buf cap ls w L) (counted : Tally P ls w n k)
    (found : ralcGetUsage P ls w = some report) :
    (report.usage.blockCount + k : ZMod (256 ^ P.sizeT)) = n ∧
      (k = 0 → report.counts = true ∧ report.usage.blockCount = n) := by
  induction ls generalizing L n k report with
  | nil =>
    obtain ⟨⟨bs, holds⟩, -⟩ := chained
    obtain ⟨rfl, report', found', rfl⟩ := counted
    obtain ⟨usage, counts, -⟩ := Gen.ralcGenGetUsage_spec holds.layout
    cases found.symm.trans found'
    cases found.symm.trans counts
    exact ⟨by rw [Nat.cast_zero, add_zero], fun _ => ⟨rfl, rfl⟩⟩
  | cons l ls ih =>
    have serves : Serves P (chain P ls).guarded () (ChainOk g buf cap ls) P.sizeMax :=
      (chain_meets ls).serves
    cases l with
    | arena initChunkCap =>
      obtain ⟨K, cs, rs, arena⟩ := chained
      obtain ⟨i, m, j, rfl, rfl, counted⟩ := counted
      obtain ⟨parent, found', accounts⟩ := chain_accounts bound arena.inv.holding.holds.ok
      obtain ⟨report', result, -, blocks, counts⟩ := Arena.ralcArenaGetUsage_spec serves arena.inv.holding
        accounts bound arena.encard_le
      cases found.symm.trans (Option.bind_eq_some_iff.mpr ⟨parent, found', result⟩)
      obtain ⟨residue, exact'⟩ := ih arena.inv.holding.holds.ok counted found'
      rw [blocks, counts]
      refine ⟨by rw [Nat.cast_add, Nat.cast_add, ← residue, add_assoc], fun none => ?_⟩
      obtain ⟨rfl, rfl⟩ : j = 0 ∧ i = 0 := by omega
      exact exact' rfl
    | pool elemSize initChunkCap =>
      obtain ⟨K, cs, free, live, pool⟩ := chained
      obtain ⟨parent, found', accounts⟩ := chain_accounts bound pool.holds.ok
      obtain ⟨report', result, -, blocks, counts⟩ := Pool.ralcPoolGetUsage_spec serves pool.holds
        accounts bound pool.encard_le
      cases found.symm.trans (Option.bind_eq_some_iff.mpr ⟨parent, found', result⟩)
      obtain ⟨rfl, -, counted⟩ := (poolTally_iff serves pool.holds).mp counted
      obtain ⟨residue, exact'⟩ := ih pool.holds.ok counted found'
      rw [blocks, counts, cast_add, cast_sub, pool.holds.count]
      refine ⟨by rw [← residue]; ring, fun none => ?_⟩
      obtain ⟨parents, same⟩ := exact' none
      have few := Pool.mem_chunks_length serves pool.holds.ok pool.holds.held pool.holds.distinct
      have small := pool.holds.length_le serves
      rw [List.length_append] at small
      rw [same, Platform.sub_of_le (Nat.le_refl _) few, Nat.sub_self, Platform.add_of_le (by omega), parents]
      exact ⟨by simp, Nat.zero_add _⟩
    | list =>
      obtain ⟨K, objs, list⟩ := chained
      obtain ⟨parent, found', accounts⟩ := chain_accounts bound list.holds.ok
      cases found.symm.trans (Option.map_eq_some_iff.mpr ⟨parent, found', rfl⟩)
      have below : (parent.usage.blockCount + k : ZMod (256 ^ P.sizeT)) = n ∧
          (k = 0 → parent.counts = true ∧ parent.usage.blockCount = n) := ih list.holds.ok counted found'
      exact below

section Runs
variable (P)

/-- The call takes a chunk that an arena below puts beside others into one of its own. -/
def opPacks (s : Pool.State (State ls)) : Pool.Op → Bool
  | .alloc => slotPacks P (packs P ls) s.pool s.world
  | .free _ | .clear | .write .. => false

/-- One call of a pool other than `ralcPool_clear`, and how many so far took such chunks. -/
def countedStep (elemSize initChunkCap : Nat) (ls : List Layer) :
    Pool.State (State ls) × Nat → Pool.Op → Option (Pool.State (State ls) × Nat)
  | _, .clear => none
  | (s, k), op => (step P (.pool elemSize initChunkCap :: ls) s op).map fun s' =>
    (s', k + (opPacks P s op).toNat)

variable {P} {s s' : Pool.State (State ls)}

def Counted (P : Platform) (g : Gen.Grain P) (buf cap : Nat) (ls : List Layer)
    (s : Pool.State (State ls) × Nat) : Prop :=
  Pool.Inv P (ChainOk g buf cap ls) () s.1 ∧
    PoolTally P (Tally P ls) (above s.1.pool s.1.world) s.1.live.length s.2

theorem tally_init (region : 0 < buf ∧ buf + cap ≤ P.sizeMax) (asserts : ∀ l ∈ ls, l.InitAsserts P) (m : Mem) :
    Tally P ls ⟨init P buf cap ls, m⟩ 0 0 := by
  induction ls with
  | nil =>
    obtain ⟨usage, found, count, -⟩ := Gen.ralcGenGetUsage_spec (Gen.tracks_start (g := Gen.Grain.two P) region m).layout
    exact ⟨rfl, _, found, count⟩
  | cons l ls ih =>
    have below := ih fun l member => asserts l (List.mem_cons_of_mem _ member)
    cases l with
    | arena initChunkCap => exact ⟨0, 0, 0, rfl, rfl, below⟩
    | pool elemSize initChunkCap =>
      refine ⟨rfl, ⟨0, 0, 0, true⟩, ?_, Nat.zero_le _, below⟩
      rw [Pool.chunkSums]
      cases P.sizeMax <;> exact if_pos rfl
    | list => exact below

theorem counted_alloc (counted : Counted P g buf cap ls (s, k))
    (admits : slotAdmits P (chain P ls) s.pool s.world = true)
    (result : Pool.ralcPoolAlloc P (chain P ls).ralc s.pool s.world = (slot, p', w')) :
    PoolTally P (Tally P ls) (above p' w') (if slot = 0 then s.live else slot :: s.live).length
      (k + (slotPacks P (packs P ls) s.pool s.world).toNat) := by
  have meets : Meets P (chain P ls) (ChainOk g buf cap ls) := chain_meets ls
  have tallies : Tallies (chain P ls) (ChainOk g buf cap ls) (Tally P ls) (packs P ls) := chain_tallies ls
  obtain ⟨⟨K, cs, free, holds⟩, tally⟩ := counted
  by_cases null : slot = 0
  · subst null
    obtain ⟨rfl, rfl⟩ := ralcPoolAlloc_steady meets (chain_steady ls) holds admits result
    have apart : slotPacks P (packs P ls) s.pool s.world = false := by
      rw [Bool.eq_false_iff]
      intro packed
      exact ralcPoolAlloc_packed (w := above s.pool s.world) meets.serves tallies holds admits packed (congrArg Prod.fst result)
    rw [if_pos rfl, apart]
    exact tally
  · rw [if_neg null]
    exact ralcPoolAlloc_tally (w := above s.pool s.world) meets.serves tallies holds admits result null tally

theorem countedStep_cases (taken : countedStep P elemSize initChunkCap ls (s, k) op = some (s', k')) :
    op ≠ .clear ∧ k' = k + (opPacks P s op).toNat ∧
      step P (.pool elemSize initChunkCap :: ls) s op = some s' ∧
      admits P (.pool elemSize initChunkCap :: ls) s op = true ∧
      Pool.step P (chain P ls).ralc P.sizeMax s op = some s' := by
  obtain ⟨other, found⟩ : op ≠ .clear ∧ (step P (.pool elemSize initChunkCap :: ls) s op).map
      (fun s' => (s', k + (opPacks P s op).toNat)) = some (s', k') := by
    cases op with
    | clear => cases taken
    | alloc | free | write => exact ⟨nofun, taken⟩
  obtain ⟨after, stepped, same⟩ := Option.map_eq_some_iff.mp found
  cases same
  obtain ⟨admits, called⟩ := Option.ite_none_right_eq_some.mp stepped
  exact ⟨other, rfl, stepped, admits, called⟩

theorem countedStep_keeps (counted : Counted P g buf cap ls (s, k))
    (taken : countedStep P elemSize initChunkCap ls (s, k) op = some (s', k')) :
    Counted P g buf cap ls (s', k') := by
  have meets : Meets P (chain P ls) (ChainOk g buf cap ls) := chain_meets ls
  have tallies : Tallies (chain P ls) (ChainOk g buf cap ls) (Tally P ls) (packs P ls) := chain_tallies ls
  obtain ⟨other, rfl, stepped, admits, called⟩ := countedStep_cases taken
  have inv : Inv g buf cap (.pool elemSize initChunkCap :: ls) s' := step_inv counted.1 stepped
  refine ⟨inv, ?_⟩
  cases op with
  | clear => exact absurd rfl other
  | alloc =>
    simp only [Pool.step] at called
    split at called
    case isFalse => cases called
    case isTrue =>
      cases called
      exact counted_alloc counted admits rfl
  | free ptr =>
    obtain ⟨⟨K, cs, free, holds⟩, tally⟩ := counted
    simp only [Pool.step] at called
    split at called
    case isFalse => cases called
    case isTrue member =>
      cases called
      obtain ⟨kept, frame⟩ := Pool.ralcPoolFree_cases meets.serves holds member rfl
      refine tally.kept meets.serves tallies holds kept rfl (holds.off_slots member frame)
  | write ptr i byte =>
    obtain ⟨⟨K, cs, free, holds⟩, tally⟩ := counted
    simp only [Pool.step] at called
    split at called
    case isFalse => cases called
    case isTrue inside =>
      cases called
      obtain ⟨member, low⟩ := inside
      have frame : ∀ x, x < ptr ∨ ptr + s.pool.elemSize ≤ x →
          s.world.mem.write (ptr + i) [byte] x = s.world.mem x := fun x away =>
        Mem.write_out (by rw [List.length_singleton]; omega)
      have kept := holds.client meets.serves fun x away => frame x (away ptr member)
      exact tally.kept meets.serves tallies holds kept rfl (holds.off_slots member frame)

/-- A pool that is its parent's only client. In every state that allocations and frees
reach, `ralcPool_getUsage` counts the live slots, with no assertion failed, if and only if
no allocation so far took its chunk out of one that an arena below already had. -/
theorem blockCount_iff {ops : List Pool.Op} (region : 0 < buf ∧ buf + cap ≤ P.sizeMax)
    (asserts : ∀ l ∈ Layer.pool elemSize initChunkCap :: ls, l.InitAsserts P)
    (ran : run (countedStep P elemSize initChunkCap ls)
      (start P buf cap m (.pool elemSize initChunkCap :: ls), 0) ops = some (s, k)) :
    s.pool.count = s.live.length ∧
      ∃ report, ralcGetUsage P (.pool elemSize initChunkCap :: ls) (above s.pool s.world) = some report ∧
        ((report.counts = true ∧ report.usage.blockCount = s.pool.count) ↔ k = 0) := by
  have inv : Inv (Gen.Grain.two P) buf cap (.pool elemSize initChunkCap :: ls) (start P buf cap m _) :=
    inv_start region asserts m
  have tally : Tally P (.pool elemSize initChunkCap :: ls) ⟨init P buf cap _, m⟩ 0 0 :=
    tally_init region asserts m
  have initial : Counted P (Gen.Grain.two P) buf cap ls (start P buf cap m (.pool elemSize initChunkCap :: ls), 0) :=
    ⟨inv, tally⟩
  obtain ⟨inv, tally⟩ := run_invariant (Counted P (Gen.Grain.two P) buf cap ls)
    (fun _ _ _ => countedStep_keeps) initial ran
  have serves : Serves P (chain P ls).guarded () (ChainOk (Gen.Grain.two P) buf cap ls) P.sizeMax :=
    (chain_meets ls).serves
  have chained : ChainOk (Gen.Grain.two P) buf cap (.pool elemSize initChunkCap :: ls)
      (above s.pool s.world) (held P (.pool elemSize initChunkCap :: ls) s) := by
    have whole : Inv (Gen.Grain.two P) buf cap (.pool elemSize initChunkCap :: ls) s := inv
    exact whole.chain
  obtain ⟨K, cs, free, holds⟩ := inv
  obtain ⟨-, few, -⟩ := (poolTally_iff (w := above s.pool s.world) serves holds).mp tally
  have chunks := Pool.mem_chunks_length serves holds.ok holds.held holds.distinct
  obtain ⟨report, found, -⟩ := chain_accounts (by omega) chained
  obtain ⟨residue, exact'⟩ := tally_report (by omega) chained tally found
  refine ⟨holds.count, report, found, ?_, fun none => holds.count ▸ exact' none⟩
  rintro ⟨-, same⟩
  rw [same, holds.count] at residue
  exact cast_eq_zero (by omega) (left_eq_add.mp residue.symm)

theorem blockCount_iff_lp64 : ∃ s k, run (countedStep .lp64 16 1 [.arena 64])
      (start .lp64 4096 700 (fun _ => 0) [.pool 16 1, .arena 64], 0) [.alloc, .alloc, .free 4288, .alloc] =
        some (s, k) ∧ k = 0 ∧ s.pool.count = 2 ∧
    ∃ report, ralcGetUsage .lp64 [.pool 16 1, .arena 64] (above s.pool s.world) = some report ∧
      report.counts = true ∧ report.usage.blockCount = 2 := by
  have facts : (run (countedStep .lp64 16 1 [.arena 64]) (start .lp64 4096 700 (fun _ => 0) [.pool 16 1, .arena 64], 0)
      [.alloc, .alloc, .free 4288, .alloc]).map (fun s => (s.2, s.1.pool.count)) = some (0, 2) := by
    decide +kernel
  obtain ⟨⟨s, k⟩, ran, values⟩ := Option.map_eq_some_iff.mp facts
  obtain ⟨none, count⟩ := Prod.mk.inj values
  obtain ⟨-, report, found, same⟩ := blockCount_iff (by decide) (by decide) ran
  obtain ⟨counts, blocks⟩ := same.mpr none
  exact ⟨s, k, ran, none, count, report, found, counts, blocks.trans count⟩

/-- Both chunks of the pool lie in one chunk of the arena, and `ralcPool_getUsage` finds
fewer blocks than it has chunks. -/
theorem blockCount_shared : ∃ s, run (step .lp64 [.pool 16 1, .arena 256])
      (start .lp64 4096 700 (fun _ => 0) [.pool 16 1, .arena 256]) [.alloc, .alloc] = some s ∧
    s.pool.count = 2 ∧ s.live.length = 2 ∧
    ∃ report, ralcGetUsage .lp64 [.pool 16 1, .arena 256] (world _ s) = some report ∧
      report.counts = false ∧ report.usage.blockCount ≠ s.pool.count := by
  have facts : (run (step .lp64 [.pool 16 1, .arena 256])
      (start .lp64 4096 700 (fun _ => 0) [.pool 16 1, .arena 256]) [.alloc, .alloc]).map (fun s =>
        (s.pool.count, s.live.length, (ralcGetUsage .lp64 [.pool 16 1, .arena 256] (world _ s)).map
          fun report => (report.counts, report.usage.blockCount))) =
        some (2, 2, some (false, 1)) := by
    decide +kernel
  obtain ⟨s, ran, values⟩ := Option.map_eq_some_iff.mp facts
  obtain ⟨count, rest⟩ := Prod.mk.inj values
  obtain ⟨live, usage⟩ := Prod.mk.inj rest
  obtain ⟨report, found, values⟩ := Option.map_eq_some_iff.mp usage
  obtain ⟨counts, blocks⟩ := Prod.mk.inj values
  exact ⟨s, ran, count, live, report, found, counts, by rw [blocks, count]; decide⟩

end Runs

end Ratlib.Tower
