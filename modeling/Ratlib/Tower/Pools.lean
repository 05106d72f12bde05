import Ratlib.Tower.Contract
import Ratlib.Pool.Correctness

/-! A pool as a layer of a chain: it meets the contract if its parent does. -/
namespace Ratlib.Tower

variable {P : Platform} {σ : Type} {C : Checked σ} {ok : World σ → Blocks Unit → Prop}
  {w : World (Pool.RalcPool × σ)} {L L' K : Blocks Unit} {cs : List Pool.Chunk} {free live : List Nat}

section Guarded
variable {p : Pool.RalcPool} {w : World σ}

/-- The size of a chunk's block does not wrap under the assertion of `grow`. -/
theorem grow_request (asserts : Pool.AllocAsserts P limit p) (bound : limit ≤ P.sizeMax)
    (empty : p.freeSlots = 0) :
    P.add (Pool.headerSize P) (P.mul p.chunkCap p.elemSize) = poolRequest P p := by
  obtain ⟨-, small⟩ := asserts.resolve_left (not_not_intro empty)
  rw [Platform.mul_of_le (by omega), Platform.add_of_le (by omega), poolRequest]

theorem slotAdmits_asserts (admits : slotAdmits P C p w = true) :
    Pool.AllocAsserts P P.sizeMax p := of_decide_eq_true (Bool.and_eq_true_iff.mp admits).1

/-- What `ralcPool_alloc` does under the assertions about sizes. -/
theorem ralcPoolAlloc_guarded (admits : slotAdmits P C p w = true) :
    Pool.ralcPoolAlloc P C.guarded p w = Pool.ralcPoolAlloc P C.ralc p w := by
  obtain ⟨-, requests⟩ := Bool.and_eq_true_iff.mp admits
  rw [Bool.or_eq_true, decide_eq_true_iff] at requests
  by_cases empty : p.freeSlots = 0
  · have request := grow_request (slotAdmits_asserts admits) (Nat.le_refl _) empty
    have same : Pool.grow P C.guarded p w = Pool.grow P C.ralc p w := by
      simp only [Pool.grow, request, guarded_alloc (requests.resolve_left (not_not_intro empty))]
    simp only [Pool.ralcPoolAlloc, if_pos empty, same]
  · simp only [Pool.ralcPoolAlloc, if_neg empty]

end Guarded

/-- The held ranges are live slots of a pool over a parent that keeps `ok`. -/
structure PoolHolds (P : Platform) (ok : World σ → Blocks Unit → Prop)
    (w : World (Pool.RalcPool × σ)) (L K : Blocks Unit) (cs : List Pool.Chunk)
    (free live : List Nat) : Prop where
  holds : Pool.Holds P ok () w.state.1 (below w) K cs free live
  objects : ∀ a block, L a = some block → a ∈ live ∧ block.size = w.state.1.elemSize

def PoolOk (P : Platform) (ok : World σ → Blocks Unit → Prop) (w : World (Pool.RalcPool × σ))
    (L : Blocks Unit) : Prop :=
  ∃ K cs free live, PoolHolds P ok w L K cs free live

theorem PoolHolds.slot (pool : PoolHolds P ok w L K cs free live) (held : L a = some block) :
    a ∈ Pool.slots P w.state.1.elemSize cs :=
  pool.holds.mem_slots (List.mem_append_right _ (pool.objects a block held).1)

theorem PoolHolds.bytes (pool : PoolHolds P ok w L K cs free live) : L.bytes ⊆ K.bytes := by
  rintro x ⟨a, block, held, inside⟩
  rw [(pool.objects a block held).2] at inside
  exact pool.holds.mem_bytes (pool.slot held) inside

theorem PoolHolds.client (serves : Serves P A () ok limit) (pool : PoolHolds P ok w L K cs free live)
    (same : Set.EqOn w.mem m' L.bytesᶜ) : PoolHolds P ok { w with mem := m' } L K cs free live where
  holds := by
    refine pool.holds.client serves fun x away => (same fun member => ?_).symm
    obtain ⟨a, block, held, inside⟩ := member
    obtain ⟨found, size⟩ := pool.objects a block held
    have := away a found
    omega
  objects := pool.objects

theorem poolAlloc_null (null : (poolAlloc P C w size).1.ptr = 0) : (poolAlloc P C w size).1 = .null := by
  rw [poolAlloc] at null ⊢
  split at null
  case isTrue large => rw [if_pos large]
  case isFalse fits =>
    rw [if_neg fits]
    dsimp only at null ⊢
    rw [null]
    rfl

/-- `ralcPool_alloc` as an allocator's answer. -/
theorem PoolHolds.granted (serves : Serves P C.guarded () ok P.sizeMax)
    (pool : PoolHolds P ok w L K cs free live) (admits : poolAdmits P C w size = true) :
    Granted (PoolOk P ok) () w L size (poolAlloc P C w size) := by
  obtain ⟨small, admits⟩ := Bool.and_eq_true_iff.mp admits
  rw [Bool.or_eq_true, decide_eq_true_iff] at admits
  by_cases large : slotSize P size > w.state.1.elemSize
  · rw [poolAlloc, if_pos large]
    exact granted_null ⟨K, cs, free, live, pool⟩
  · have admits := admits.resolve_left large
    have fits : size ≤ w.state.1.elemSize := by
      have small := of_decide_eq_true small
      have := P.alignment_le
      have := P.sizeMax_ge
      have rounded : (if size ≠ 0 then size else 1) ≤ slotSize P size :=
        Platform.le_ratAlign (by split <;> omega)
      split at rounded <;> omega
    have result := ralcPoolAlloc_guarded admits
    rw [poolAlloc, if_neg large]
    generalize Pool.ralcPoolAlloc P C.ralc w.state.1 (below w) = answer at result ⊢
    obtain ⟨slot, p', w'⟩ := answer
    obtain ⟨same, size, -, effect⟩ :=
      Pool.ralcPoolAlloc_cases serves pool.holds (slotAdmits_asserts admits) result
    refine ⟨fun x member => same (pool.bytes member), ?_⟩
    dsimp only
    split at effect
    case isTrue null =>
      obtain ⟨rfl, kept⟩ := effect
      rw [if_pos null]
      exact ⟨K, cs, free, live, kept, pool.objects⟩
    case isFalse some =>
      obtain ⟨new, K', cs', free', kept⟩ := effect
      rw [if_neg some]
      refine ⟨p'.elemSize, if_pos some, by omega, ?_, K', cs', free', slot :: live, kept, ?_⟩
      · rw [Option.eq_none_iff_forall_ne_some]
        exact fun block held => new (pool.objects slot block held).1
      · intro a block held
        rcases Blocks.grant_some held with ⟨rfl, rfl⟩ | ⟨-, held⟩
        · exact ⟨List.mem_cons_self, rfl⟩
        · obtain ⟨member, same⟩ := pool.objects a block held
          exact ⟨List.mem_cons_of_mem _ member, same.trans size.symm⟩

/-- A pool over an allocator that meets the contract meets it. -/
theorem ralcPool_meets (meets : Meets P C ok) : Meets P (ralcPool P C) (PoolOk P ok) where
  bounds {w L a block} := by
    rintro ⟨K, cs, free, live, pool⟩ held
    obtain ⟨c, found, low, high⟩ := pool.holds.slot_inside (pool.slot held)
    have := pool.holds.bounds meets.serves found
    have := (pool.objects a block held).2
    omega
  separate {w L} := by
    rintro ⟨K, cs, free, live, pool⟩ a b x y heldA heldB different
    have := pool.holds.apart_of_ne meets.serves (pool.slot heldA) (pool.slot heldB) different
    have := (pool.objects a x heldA).2
    have := (pool.objects b y heldB).2
    omega
  client := by
    rintro w L m' ⟨K, cs, free, live, pool⟩ same
    exact ⟨K, cs, free, live, pool.client meets.serves same⟩
  alloc {w L size} := by
    rintro ⟨K, cs, free, live, pool⟩ admits
    exact pool.granted meets.serves admits
  realloc_null {w L size} := by
    rintro ⟨K, cs, free, live, pool⟩ admits
    have admits : poolAdmits P C w size = true := by simpa [ralcPool] using admits
    simpa [ralcRealloc, ralcPool] using pool.granted meets.serves admits
  realloc {w L ptr oldSize newSize} := by
    rintro ⟨K, cs, free, live, pool⟩ held -
    obtain ⟨c, found, low, -⟩ := pool.holds.slot_inside (pool.slot held)
    have := pool.holds.bounds meets.serves found
    rw [show ralcRealloc (ralcPool P C).ralc w ptr newSize = (.null, w) from if_pos (by omega)]
    exact regranted_null ⟨K, cs, free, live, pool⟩
  free {w L ptr size} := by
    rintro ⟨K, cs, free, live, pool⟩ held
    obtain ⟨kept, outside⟩ :=
      Pool.ralcPoolFree_cases meets.serves pool.holds (pool.objects ptr _ held).1 rfl
    refine ⟨fun x member => (outside x ?_).symm, K, cs, _, _, kept, ?_⟩
    · obtain ⟨a, block, held', low, high⟩ := member
      obtain ⟨different, held'⟩ := Blocks.release_some held'
      have := pool.holds.apart_of_ne meets.serves (pool.slot held') (pool.slot held) different
      have := (pool.objects a block held').2
      omega
    · intro a block held'
      obtain ⟨different, held'⟩ := Blocks.release_some held'
      obtain ⟨member, same⟩ := pool.objects a block held'
      exact ⟨(List.mem_erase_of_ne different).mpr member, same⟩
  refuses w ptr newSize null := by
    by_cases old : ptr ≠ 0
    · rw [show ralcRealloc (ralcPool P C).ralc w ptr newSize = (.null, w) from if_pos old]
    · rw [show ralcRealloc (ralcPool P C).ralc w ptr newSize = poolAlloc P C w newSize from
        if_neg old] at null ⊢
      exact poolAlloc_null null

end Ratlib.Tower
