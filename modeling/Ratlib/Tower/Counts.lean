import Ratlib.Tower.Usage
import Ratlib.Tower.Refusal
import Mathlib.Data.ZMod.Basic

/-! What each layer reports as its number of blocks. An arena passes on the number of its
parent, so objects that share one of its chunks are one block to it. -/
namespace Ratlib.Tower

section Model
variable (P : Platform) {σ : Type}

/-- `ralcArena_push` finds room in the top chunk, or an arena further down does for the
chunk it asks for. -/
def arenaPacks (packs : World σ → Nat → Bool) (w : World (Arena.RalcArena × σ)) (size : Nat) : Bool :=
  decide (Arena.Fits P w.state.1 w.mem (Arena.pushSize P size)) ||
    packs (below w) (Arena.pushRequest P w.state.1 (Arena.pushSize P size))

/-- No slot is free, and an arena further down has room for the chunk. -/
def slotPacks (packs : World σ → Nat → Bool) (p : Pool.RalcPool) (w : World σ) : Bool :=
  decide (p.freeSlots = 0) && packs w (poolRequest P p)

def poolPacks (packs : World σ → Nat → Bool) (w : World (Pool.RalcPool × σ)) (size : Nat) : Bool :=
  decide (slotSize P size ≤ w.state.1.elemSize) && slotPacks P packs w.state.1 (below w)

def listPacks (packs : World σ → Nat → Bool) (w : World (Rlist.RList × σ)) (size : Nat) : Bool :=
  packs (below w) (Rlist.headerSize P + size)

/-- An arena of the chain serves the request out of a chunk it already has. -/
def packs : (ls : List Layer) → World (State ls) → Nat → Bool
  | [] => fun _ _ => false
  | .arena _ :: ls => arenaPacks P (packs ls)
  | .pool _ _ :: ls => poolPacks P (packs ls)
  | .list :: ls => listPacks P (packs ls)

end Model

section Tally
variable {σ : Type}

/-- Beside what its parent has granted, an arena has `i` objects in chunks it had. -/
def ArenaTally (T : World σ → Nat → Nat → Prop) (w : World (Arena.RalcArena × σ)) (n k : Nat) : Prop :=
  ∃ i m j, n = m + i ∧ k = j + i ∧ T (below w) m j

/-- A pool with `n` live slots over a parent that has granted it its chunks. -/
def PoolTally (P : Platform) (T : World σ → Nat → Nat → Prop) (w : World (Pool.RalcPool × σ))
    (n k : Nat) : Prop :=
  w.state.1.count = n ∧ ∃ s, Pool.chunkSums P w.state.1 w.mem = some s ∧ k ≤ s.chunkCount ∧
    T (below w) s.chunkCount k

/-- The top layer has granted `n` objects and got none back, and `k` requests were served
out of chunks that arenas had. -/
def Tally (P : Platform) : (ls : List Layer) → World (State ls) → Nat → Nat → Prop
  | [] => fun w n k => k = 0 ∧ ∃ report, Gen.ralcGenGetUsage P w.state w.mem = some report ∧
      report.usage.blockCount = n
  | .arena _ :: ls => ArenaTally (Tally P ls)
  | .pool _ _ :: ls => PoolTally P (Tally P ls)
  | .list :: ls => fun w => Tally P ls (below w)

structure Tallies (C : Checked σ) (ok : World σ → Blocks Unit → Prop) (T : World σ → Nat → Nat → Prop)
    (packing : World σ → Nat → Bool) : Prop where
  client : ok w L → Set.EqOn w.mem m' L.bytesᶜ → T w n k → T { w with mem := m' } n k
  alloc : ok w L → C.admitsAlloc w size = true → (ralcAlloc C.ralc w size).1.ptr ≠ 0 → T w n k →
    T (ralcAlloc C.ralc w size).2 (n + 1) (k + (packing w size).toNat)
  packed : ok w L → C.admitsAlloc w size = true → packing w size = true →
    (ralcAlloc C.ralc w size).1.ptr ≠ 0

end Tally

variable {P : Platform} {σ : Type} {C : Checked σ} {ok : World σ → Blocks Unit → Prop} {L K : Blocks Unit}
  {g : Gen.Grain P} {buf cap : Nat} {ls : List Layer} {T : World σ → Nat → Nat → Prop}
  {packing : World σ → Nat → Bool}

/-- A layer that wrote into its blocks. -/
theorem Tallies.written (tallies : Tallies C ok T packing) (before : ok w K) (state : w'.state = w.state)
    (same : Set.EqOn w.mem w'.mem K.bytesᶜ) (counted : T w n k) : T w' n k := by
  have after := tallies.client before same counted
  rwa [← state] at after

/-- A layer that took one block more and wrote into its blocks. -/
theorem Tallies.extended (tallies : Tallies C ok T packing) (before : ok w K)
    (admits : C.admitsAlloc w request = true) (extended : Extended C.guarded ok w request w' K')
    (counted : T w n k) : T w' (n + 1) (k + (packing w request).toNat) := by
  obtain ⟨granted, kept, state, outside⟩ := extended
  rw [guarded_alloc admits] at granted kept state outside
  exact tallies.written kept state outside (tallies.alloc before admits granted counted)

theorem buffer_tallies : Tallies (ralcGeneral P) (BufferOk g buf cap) (Tally P []) (packs P []) where
  client := by
    rintro w L m' n k ⟨⟨bs, holds⟩, -⟩ same ⟨none, report, found, count⟩
    obtain ⟨usage, found', count', -⟩ := Gen.ralcGenGetUsage_spec holds.layout
    obtain ⟨usage', found'', count'', -⟩ := Gen.ralcGenGetUsage_spec (holds.client same).layout
    rw [found'] at found
    cases found
    exact ⟨none, _, found'', count''.trans (count'.symm.trans count)⟩
  alloc := by
    rintro w L size n k ⟨⟨bs, holds⟩, -⟩ admits some ⟨none, report, found, count⟩
    obtain ⟨usage, found', count', -⟩ := Gen.ralcGenGetUsage_spec holds.layout
    rw [found'] at found
    cases found
    rcases Gen.ralcGenAlloc_cases holds.layout (of_decide_eq_true admits) with
      null | ⟨q, m, bs', -, -, frame, object, fresh⟩
    · exact absurd (congrArg (fun answer : Reply × Gen.RalcGen × Mem => answer.1.ptr) null) some
    · obtain ⟨usage', found', count'', -⟩ := Gen.ralcGenGetUsage_spec frame.layout
      refine ⟨none, _, found', ?_⟩
      rw [count'', frame.blockCount object fresh, ← count', count]
  packed _ _ packed := Bool.noConfusion packed

/-- A push is one object more for the parent too, or shares a chunk. -/
theorem arenaPush_tally (serves : Serves P C.guarded () ok P.sizeMax) (tallies : Tallies C ok T packing)
    {w : World (Arena.RalcArena × σ)} (before : ArenaOk P ok w L)
    (admits : arenaAdmits P C w size = true) (some : (arenaPush P C w size).1.ptr ≠ 0)
    (counted : ArenaTally T w n k) :
    ArenaTally T (arenaPush P C w size).2 (n + 1) (k + (arenaPacks P packing w size).toNat) := by
  obtain ⟨K, cs, rs, holds⟩ := before
  obtain ⟨i, m, j, rfl, rfl, counted⟩ := counted
  obtain ⟨-, requests⟩ := Bool.and_eq_true_iff.mp admits
  rw [Bool.or_eq_true, decide_eq_true_iff] at requests
  have kept : ok (below w) K := holds.inv.holding.holds.ok
  have asserts := arenaAdmits_asserts admits
  rw [arenaPush, ← arenaPush_guarded admits] at some ⊢
  by_cases fits : Arena.Fits P w.state.1 w.mem (Arena.pushSize P size)
  · obtain ⟨state, same⟩ := Arena.push_writes serves holds.inv.holding fits
    rw [arenaPacks, decide_eq_true fits, Bool.true_or]
    exact ⟨i + 1, m, j, rfl, rfl, tallies.written kept state same counted⟩
  · obtain ⟨K', extended⟩ := Arena.push_extended serves kept asserts fits some
    have after := tallies.extended kept (requests.resolve_left fits) extended counted
    rw [arenaPacks, decide_eq_false fits, Bool.false_or]
    exact ⟨i, m + 1, _, by omega, Nat.add_right_comm .., after⟩

theorem ArenaHolds.bytes {w : World (Arena.RalcArena × σ)} (holds : ArenaHolds P ok w L K cs rs) :
    L.bytes ⊆ K.bytes := by
  rintro x ⟨a, block, held, low, high⟩
  obtain ⟨c, found, start, stop, within⟩ := holds.inside held
  exact Blocks.mem_bytes (holds.inv.holding.holds.held c found) (by dsimp only; omega)

theorem arena_tallies (serves : Serves P C.guarded () ok P.sizeMax) (tallies : Tallies C ok T packing) :
    Tallies (ralcArena P C) (ArenaOk P ok) (ArenaTally T) (arenaPacks P packing) where
  client := by
    rintro w L m' n k ⟨K, cs, rs, holds⟩ same ⟨i, m, j, total, packed, counted⟩
    have kept : ok (below w) K := holds.inv.holding.holds.ok
    have outside : Set.EqOn (below w).mem m' K.bytesᶜ := same.mono (Set.compl_subset_compl.mpr holds.bytes)
    exact ⟨i, m, j, total, packed, tallies.client kept outside counted⟩
  alloc before admits some counted := arenaPush_tally serves tallies before admits some counted
  packed := by
    rintro w L size ⟨K, cs, rs, holds⟩ admits packed null
    obtain ⟨-, requests⟩ := Bool.and_eq_true_iff.mp admits
    rw [Bool.or_eq_true, decide_eq_true_iff] at requests
    have kept : ok (below w) K := holds.inv.holding.holds.ok
    change (Arena.ralcArenaPush P C.ralc w.state.1 (below w) size).1.ptr = 0 at null
    rw [Arena.ralcArenaPush] at null
    dsimp only at null
    split at null
    case isTrue => exact absurd null (arenaData_ne_zero _ _)
    case isFalse full =>
      have full : ¬Arena.Fits P w.state.1 w.mem (Arena.pushSize P size) := full
      rw [arenaPacks, decide_eq_false full, Bool.false_or] at packed
      rw [if_neg (tallies.packed kept (requests.resolve_left full) packed)] at null
      exact absurd null (arenaData_ne_zero _ 0)

section Pool
variable {w : World (Pool.RalcPool × σ)} {p : Pool.RalcPool}

theorem poolTally_iff (serves : Serves P C.guarded () ok P.sizeMax)
    (holds : Pool.Holds P ok () w.state.1 (below w) K cs free live) :
    PoolTally P T w n k ↔ live.length = n ∧ k ≤ cs.length ∧ T (below w) cs.length k := by
  have sums := holds.chunkSums_eq serves
  rw [PoolTally, holds.count]
  refine and_congr_right' ⟨?_, fun counted => ⟨_, sums, counted⟩⟩
  rintro ⟨s, found, counted⟩
  cases sums.symm.trans found
  exact counted

/-- Slots that change hands, and bytes written into them, leave the chunks counted. -/
theorem PoolTally.kept (serves : Serves P C.guarded () ok P.sizeMax) (tallies : Tallies C ok T packing)
    {w' : World σ} (counted : PoolTally P T w n k)
    (before : Pool.Holds P ok () w.state.1 (below w) K cs free live)
    (after : Pool.Holds P ok () p w' K cs free' live') (state : w'.state = w.state.2)
    (same : Set.EqOn w.mem w'.mem K.bytesᶜ) : PoolTally P T (above p w') live'.length k := by
  obtain ⟨-, few, counted⟩ := (poolTally_iff serves before).mp counted
  have written : T w' cs.length k := tallies.written before.ok state same counted
  exact (poolTally_iff serves after).mpr ⟨rfl, few, written⟩

/-- A slot more, and a chunk more where none was free. -/
theorem ralcPoolAlloc_tally (serves : Serves P C.guarded () ok P.sizeMax) (tallies : Tallies C ok T packing)
    (holds : Pool.Holds P ok () w.state.1 (below w) K cs free live)
    (admits : slotAdmits P C w.state.1 (below w) = true)
    (result : Pool.ralcPoolAlloc P C.ralc w.state.1 (below w) = (q, p, w')) (some : q ≠ 0)
    (counted : PoolTally P T w n k) :
    PoolTally P T (above p w') (n + 1) (k + (slotPacks P packing w.state.1 (below w)).toNat) := by
  have asserts := slotAdmits_asserts admits
  obtain ⟨-, requests⟩ := Bool.and_eq_true_iff.mp admits
  rw [Bool.or_eq_true, decide_eq_true_iff] at requests
  obtain ⟨rfl, few, before⟩ := (poolTally_iff serves holds).mp counted
  rw [← ralcPoolAlloc_guarded admits] at result
  cases Pool.ralcPoolAlloc_allotment serves holds asserts result with
  | refused => exact absurd rfl some
  | grown empty nonnull new same size cap extended holds₁ =>
    rw [slotPacks, decide_eq_true empty, Bool.true_and]
    have request := requests.resolve_left (not_not_intro empty)
    have taken := tallies.extended holds.ok request extended before
    refine (poolTally_iff serves holds₁).mpr ⟨rfl, Nat.add_le_add few (Bool.toNat_le _), ?_⟩
    rw [List.length_cons]
    exact taken
  | taken given nonnull new size cap holds₁ =>
    rw [slotPacks, decide_eq_false given, Bool.false_and]
    exact (poolTally_iff serves holds₁).mpr ⟨rfl, few, before⟩

/-- A request that an arena below has room for gets its slot. -/
theorem ralcPoolAlloc_packed (serves : Serves P C.guarded () ok P.sizeMax) (tallies : Tallies C ok T packing)
    (holds : Pool.Holds P ok () w.state.1 (below w) K cs free live)
    (admits : slotAdmits P C w.state.1 (below w) = true)
    (packed : slotPacks P packing w.state.1 (below w) = true) :
    (Pool.ralcPoolAlloc P C.ralc w.state.1 (below w)).1 ≠ 0 := by
  have asserts := slotAdmits_asserts admits
  obtain ⟨-, requests⟩ := Bool.and_eq_true_iff.mp admits
  rw [Bool.or_eq_true, decide_eq_true_iff] at requests
  intro null
  generalize answered : Pool.ralcPoolAlloc P C.ralc w.state.1 (below w) = answer at null
  obtain ⟨q, p', w'⟩ := answer
  obtain rfl : q = 0 := null
  obtain ⟨empty, grew⟩ := Pool.ralcPoolAlloc_null serves holds asserts
    ((ralcPoolAlloc_guarded admits).trans answered)
  obtain ⟨-, refused, -⟩ := Pool.grow_failed grew
  have request := requests.resolve_left (not_not_intro empty)
  rw [grow_request asserts (Nat.le_refl _) empty, guarded_alloc request] at refused
  rw [slotPacks, decide_eq_true empty, Bool.true_and] at packed
  exact tallies.packed holds.ok request packed refused

theorem pool_tallies (serves : Serves P C.guarded () ok P.sizeMax) (tallies : Tallies C ok T packing) :
    Tallies (ralcPool P C) (PoolOk P ok) (PoolTally P T) (poolPacks P packing) where
  client := by
    rintro w L m' n k ⟨K, cs, free, live, pool⟩ same counted
    obtain ⟨rfl, -⟩ := (poolTally_iff serves pool.holds).mp counted
    have outside : Set.EqOn w.mem m' K.bytesᶜ := same.mono (Set.compl_subset_compl.mpr pool.bytes)
    exact counted.kept serves tallies pool.holds (pool.client serves same).holds rfl outside
  alloc := by
    rintro w L size n k ⟨K, cs, free, live, pool⟩ admits some counted
    change PoolTally P T (poolAlloc P C w size).2 _ _
    change (poolAlloc P C w size).1.ptr ≠ 0 at some
    obtain ⟨-, admits⟩ := Bool.and_eq_true_iff.mp admits
    rw [Bool.or_eq_true, decide_eq_true_iff] at admits
    rw [poolAlloc] at some ⊢
    split at some
    case isTrue => exact absurd rfl some
    case isFalse fits =>
      rw [if_neg fits, poolPacks, decide_eq_true (Nat.le_of_not_lt fits), Bool.true_and]
      exact ralcPoolAlloc_tally serves tallies pool.holds (admits.resolve_left fits) rfl some counted
  packed := by
    rintro w L size ⟨K, cs, free, live, pool⟩ admits packed null
    obtain ⟨-, admits⟩ := Bool.and_eq_true_iff.mp admits
    rw [Bool.or_eq_true, decide_eq_true_iff] at admits
    obtain ⟨fits, packed⟩ := Bool.and_eq_true_iff.mp packed
    have fits := Nat.not_lt.mpr (of_decide_eq_true fits)
    change (poolAlloc P C w size).1.ptr = 0 at null
    rw [poolAlloc, if_neg fits] at null
    exact ralcPoolAlloc_packed serves tallies pool.holds (admits.resolve_left fits) packed null

end Pool

section List
variable {w : World (Rlist.RList × σ)}

theorem ListHolds.bytes (serves : Serves P C.guarded () ok P.sizeMax) (list : ListHolds P ok w L K objs) :
    L.bytes ⊆ K.bytes := by
  intro x member
  obtain ⟨q, found, inside⟩ := list.element member
  exact list.holds.payload serves found inside

theorem listPush_tally (serves : Serves P C.guarded () ok P.sizeMax) (tallies : Tallies C ok T packing)
    (list : ListHolds P ok w L K objs) (admits : insertAdmits P C (below w) size = true)
    (some : (listPush P C w size).1.ptr ≠ 0) (counted : T (below w) n k) :
    T (below (listPush P C w size).2) (n + 1) (k + (listPacks P packing w size).toNat) := by
  have result : Rlist.rlistInsert P C.guarded w.state.1 (below w) 0 size =
      Rlist.rlistInsert P C.ralc w.state.1 (below w) 0 size := rlistInsert_guarded admits
  rw [listPush, ← result] at some ⊢
  generalize answered : Rlist.rlistInsert P C.guarded w.state.1 (below w) 0 size = answer at some ⊢
  obtain ⟨q, p', w'⟩ := answer
  have holds : Rlist.Holds P ok () w.state.1 (below w) K (objs ++ []) := by simpa using list.holds
  obtain ⟨-, effect⟩ := Rlist.rlistInsert_cases serves holds (insertAdmits_asserts admits) answered
  rw [if_neg (show ¬q = 0 from some)] at effect
  obtain ⟨-, -, K', -, extended⟩ := effect
  obtain ⟨-, request⟩ := Bool.and_eq_true_iff.mp admits
  exact tallies.extended list.holds.ok request extended counted

theorem list_tallies (serves : Serves P C.guarded () ok P.sizeMax) (tallies : Tallies C ok T packing) :
    Tallies (ralcList P C) (ListOk P ok) (fun w => T (below w)) (listPacks P packing) where
  client := by
    rintro w L m' n k ⟨K, objs, list⟩ same counted
    have outside : Set.EqOn (below w).mem m' K.bytesᶜ :=
      same.mono (Set.compl_subset_compl.mpr (list.bytes serves))
    exact tallies.client list.holds.ok outside counted
  alloc := by
    rintro w L size n k ⟨K, objs, list⟩ admits some counted
    exact listPush_tally serves tallies list admits some counted
  packed := by
    rintro w L size ⟨K, objs, list⟩ admits packed null
    obtain ⟨-, request⟩ := Bool.and_eq_true_iff.mp admits
    obtain ⟨p', w', answered⟩ := objReply_null _ null
    obtain ⟨refused, -⟩ := rlistInsert_null admits answered
    exact tallies.packed list.holds.ok request packed refused

end List

theorem chain_tallies (ls : List Layer) : Tallies (chain P ls) (ChainOk g buf cap ls) (Tally P ls) (packs P ls) := by
  induction ls with
  | nil => exact buffer_tallies
  | cons l ls ih =>
    have serves : Serves P (chain P ls).guarded () (ChainOk g buf cap ls) P.sizeMax :=
      (chain_meets ls).serves
    cases l with
    | arena initChunkCap => exact arena_tallies serves ih
    | pool elemSize initChunkCap => exact pool_tallies serves ih
    | list => exact list_tallies serves ih

end Ratlib.Tower
