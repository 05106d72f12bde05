import Ratlib.Pool.Operations
import Ratlib.Library.Runs
import Ratlib.Gen.Contract

/-! Runs of a pool: allocations, frees of live slots in any order, clears, and the bytes
a client writes into its slots, over any parent that meets the contract. -/
namespace Ratlib.Pool

/-- A pool, its parent's world and the live slots, the latest first. -/
structure State (σ : Type u) where
  pool : RalcPool
  world : World σ
  live : List Nat

inductive Op where
  | alloc
  | free (ptr : Nat)
  | clear
  | write (ptr i : Nat) (byte : UInt8)

variable (P : Platform) {σ : Type u} {ι : Type v}

def start (elemSize initChunkCap : Nat) (w : World σ) : State σ :=
  ⟨ralcPoolInit P elemSize initChunkCap, w, []⟩

def step (A : Ralc σ) (limit : Nat) (s : State σ) : Op → Option (State σ)
  | .alloc =>
    if AllocAsserts P limit s.pool then
      let (slot, p, w) := ralcPoolAlloc P A s.pool s.world
      some ⟨p, w, if slot = 0 then s.live else slot :: s.live⟩
    else none
  | .free ptr =>
    if ptr ∈ s.live then
      let (p, w) := ralcPoolFree P s.pool s.world ptr
      some ⟨p, w, s.live.erase ptr⟩
    else none
  | .clear => (ralcPoolClear P A s.pool s.world).map fun (p, w) => ⟨p, w, []⟩
  | .write ptr i byte =>
    if ptr ∈ s.live ∧ i < s.pool.elemSize then
      some { s with world := { s.world with mem := s.world.mem.write (ptr + i) [byte] } }
    else none

variable {P} {A : Ralc σ} {owner : ι} {ok : World σ → Blocks ι → Prop} {L : Blocks ι}
  {s s' : State σ} {cs : List Chunk} {free : List Nat}

def Inv (P : Platform) (ok : World σ → Blocks ι → Prop) (owner : ι) (s : State σ) : Prop :=
  ∃ L cs free, Holds P ok owner s.pool s.world L cs free s.live

theorem inv_start (asserts : InitAsserts P elemSize) (initial : ok w L) :
    Inv P ok owner (start P elemSize initChunkCap w) :=
  ⟨L, [], [], holds_init asserts initial⟩

theorem step_inv (serves : Serves P A owner ok limit) (inv : Inv P ok owner s)
    (taken : step P A limit s op = some s') :
    Inv P ok owner s' ∧ s'.pool.elemSize = s.pool.elemSize := by
  obtain ⟨L, cs, free, holds⟩ := inv
  cases op with
  | alloc =>
    simp only [step] at taken
    split at taken
    case isFalse => cases taken
    case isTrue asserts =>
      generalize result : ralcPoolAlloc P A s.pool s.world = answer at taken
      obtain ⟨slot, p', w'⟩ := answer
      obtain rfl := Option.some.inj taken
      obtain ⟨-, size, -, effect⟩ := ralcPoolAlloc_cases serves holds asserts result
      refine ⟨?_, size⟩
      rw [Inv]
      split at effect
      case isTrue null =>
        obtain ⟨rfl, kept⟩ := effect
        rw [if_pos null]
        exact ⟨L, cs, free, kept⟩
      case isFalse some =>
        obtain ⟨-, L', cs', free', kept⟩ := effect
        rw [if_neg some]
        exact ⟨L', cs', free', kept⟩
  | free ptr =>
    simp only [step] at taken
    split at taken
    case isFalse => cases taken
    case isTrue member =>
      obtain rfl := Option.some.inj taken
      exact ⟨⟨L, cs, _, (ralcPoolFree_cases serves holds member rfl).1⟩, rfl⟩
  | clear =>
    obtain ⟨cleared, kept⟩ := ralcPoolClear_spec serves holds
    rw [step, cleared] at taken
    obtain rfl := Option.some.inj taken
    exact ⟨⟨_, [], [], kept⟩, rfl⟩
  | write ptr i byte =>
    simp only [step] at taken
    split at taken
    case isFalse => cases taken
    case isTrue inside =>
      obtain ⟨member, low⟩ := inside
      obtain rfl := Option.some.inj taken
      refine ⟨⟨L, cs, free, holds.client serves fun x away => Mem.write_out ?_⟩, rfl⟩
      have := away ptr member
      rw [List.length_singleton]
      omega

/-- Free and live slots are, without overlap, the slots of all chunks, and every slot
lies in its chunk's block, off the headers and off the other slots. -/
structure Divided (P : Platform) (s : State σ) (cs : List Chunk) (free : List Nat) : Prop where
  stack : Stack P s.world.mem s.pool.chunks cs
  path : Path (slotNext P s.world.mem) s.pool.freeSlots free 0
  nodup : (free ++ s.live).Nodup
  whole : (free ++ s.live).Perm (slots P s.pool.elemSize cs)
  live : s.pool.count = s.live.length
  total : s.pool.count + free.length = capacity cs
  inside : ∀ c ∈ cs, ∀ q ∈ c.slots P s.pool.elemSize,
    c.block + headerSize P ≤ q ∧ q + s.pool.elemSize ≤ c.block + c.blockSize
  headers : ∀ q ∈ slots P s.pool.elemSize cs, ∀ c ∈ cs,
    q + s.pool.elemSize ≤ c.block ∨ c.block + headerSize P ≤ q
  apart : (slots P s.pool.elemSize cs).Pairwise fun q r =>
    q + s.pool.elemSize ≤ r ∨ r + s.pool.elemSize ≤ q

theorem Holds.divides (serves : Serves P A owner ok limit)
    (holds : Holds P ok owner s.pool s.world L cs free s.live) : Divided P s cs free where
  stack := holds.stack
  path := holds.path
  nodup := holds.nodup serves
  whole := holds.divided
  live := holds.count
  total := by
    have length := holds.divided.length_eq
    rw [List.length_append, slots_length] at length
    have := holds.count
    omega
  inside := by
    intro c member q slot
    have := Chunk.slot_inside slot
    have := holds.slots_fit member
    omega
  headers q slot c member := holds.off_header serves slot member
  apart := holds.apart serves

/-- What an allocation that returns `slot` keeps: no live slot is handed out again, or
loses a byte, and a failed one leaves the pool with its chunks and free slots. -/
structure Allots (P : Platform) (s : State σ) (cs : List Chunk) (free : List Nat) (slot : Nat)
    (p' : RalcPool) (w' : World σ) : Prop where
  fresh : slot ∉ s.live
  bytes : ∀ q ∈ s.live, Set.EqOn s.world.mem w'.mem (Set.Ico q (q + s.pool.elemSize))
  failed : slot = 0 → p' = s.pool ∧ Divided P ⟨p', w', s.live⟩ cs free

theorem Holds.allots (serves : Serves P A owner ok limit)
    (holds : Holds P ok owner s.pool s.world L cs free s.live) (asserts : AllocAsserts P limit s.pool)
    (result : ralcPoolAlloc P A s.pool s.world = (slot, p', w')) : Allots P s cs free slot p' w' := by
  obtain ⟨same, -, -, effect⟩ := ralcPoolAlloc_cases serves holds asserts result
  have live : ∀ q ∈ s.live, q ∈ slots P s.pool.elemSize cs := fun q member =>
    holds.mem_slots (List.mem_append_right _ member)
  refine ⟨?_, fun q member x inside => same (holds.mem_bytes (live q member) inside), ?_⟩
  · intro member
    split at effect
    case isTrue null =>
      obtain ⟨c, found, low, -⟩ := holds.slot_inside (live slot member)
      have := holds.bounds serves found
      omega
    case isFalse => exact effect.1 member
  · intro null
    rw [if_pos null] at effect
    obtain ⟨rfl, kept⟩ := effect
    exact ⟨rfl, Holds.divides (s := ⟨s.pool, w', s.live⟩) serves kept⟩

/-- After any run the slots of the chunks are divided into free and live ones, and an
allocation takes a slot that is not live, or changes nothing. -/
theorem pool_slots (serves : Serves P A owner ok limit) (initial : ok w L)
    (asserts : InitAsserts P elemSize)
    (ran : run (step P A limit) (start P elemSize initChunkCap w) ops = some s) :
    ∃ (L' : Blocks ι) (cs : List Chunk) (free : List Nat), ok s.world L' ∧
      (∀ c ∈ cs, L' c.block = some ⟨owner, c.blockSize⟩) ∧ Divided P s cs free ∧
      s.pool.elemSize = (ralcPoolInit P elemSize initChunkCap).elemSize ∧
      ∀ slot p' w', AllocAsserts P limit s.pool →
        ralcPoolAlloc P A s.pool s.world = (slot, p', w') → Allots P s cs free slot p' w' := by
  obtain ⟨⟨L', cs, free, holds⟩, size⟩ := run_invariant
    (fun s => Inv P ok owner s ∧ s.pool.elemSize = (ralcPoolInit P elemSize initChunkCap).elemSize)
    (fun s op s' inv taken => ⟨(step_inv serves inv.1 taken).1, (step_inv serves inv.1 taken).2.trans inv.2⟩)
    ⟨inv_start asserts initial, rfl⟩ ran
  exact ⟨L', cs, free, holds.ok, holds.held, holds.divides serves, size,
    fun slot p' w' asserts result => holds.allots serves asserts result⟩

theorem pool_slots_lp64 : ∃ (s : State Gen.RalcGen) (cs : List Chunk) (free : List Nat),
    run (step .lp64 (Gen.ralcGen .lp64) 4096) (start .lp64 20 3 Gen.kib)
      [.alloc, .alloc, .write 4176 0 7, .free 4144, .alloc, .alloc, .alloc] = some s ∧
    s.live = [4288, 4208, 4144, 4176] ∧ Divided .lp64 s cs free := by
  have facts : (run (step .lp64 (Gen.ralcGen .lp64) 4096) (start .lp64 20 3 Gen.kib)
      [.alloc, .alloc, .write 4176 0 7, .free 4144, .alloc, .alloc, .alloc]).map (fun s => s.live) =
        some [4288, 4208, 4144, 4176] := by decide +kernel
  obtain ⟨s, ran, live⟩ := Option.map_eq_some_iff.mp facts
  obtain ⟨-, cs, free, -, -, divided, -⟩ := pool_slots (Gen.kib_serves ()) Gen.kib_ok (by decide) ran
  exact ⟨s, cs, free, ran, live, divided⟩

end Ratlib.Pool
