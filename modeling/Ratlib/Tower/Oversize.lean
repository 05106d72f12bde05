import Ratlib.Tower.Pools
import Ratlib.Rlist.Sizes

/-! Requests to a pool through ralc.h, and through a list over it. The dispatcher rounds
a size before it compares it with the slots, and a size near `SIZE_MAX` rounds to 0. -/
namespace Ratlib.Tower

section Model
variable (P : Platform) {σ : Type}

/-- No slot is free, and the parent has no chunk to give. -/
def Exhausted (A : Ralc σ) (p : Pool.RalcPool) (w : World σ) : Prop :=
  p.freeSlots = 0 ∧ (ralcAlloc A w (poolRequest P p)).1.ptr = 0

/-- The size can be rounded, or the pool has nothing to give. -/
def Rounds (A : Ralc σ) (w : World (Pool.RalcPool × σ)) (size : Nat) : Prop :=
  size + (P.alignment - 1) ≤ P.sizeMax ∨ Exhausted P A w.state.1 (below w)

/-- The pool, its chunks and its slots are as they were. -/
def PoolKept {ι : Type} (L : Blocks ι) (w w' : World (Pool.RalcPool × σ)) : Prop :=
  w'.state.1 = w.state.1 ∧ Set.EqOn w.mem w'.mem L.bytes

/-- What is granted is a slot with room for the size, and a size no slot has room for is
refused without a change. -/
structure Suits {ι : Type} (L : Blocks ι) (w : World (Pool.RalcPool × σ)) (size : Nat)
    (result : Reply × World (Pool.RalcPool × σ)) : Prop where
  granted : result.1.ptr ≠ 0 → result.1.out = some w.state.1.elemSize ∧ size ≤ w.state.1.elemSize
  refused : w.state.1.elemSize < size → result.1.ptr = 0 ∧ PoolKept L w result.2

/-- The same of an insertion into a list over the pool, for the header and the element. -/
structure InsertSuits {ι : Type} (L : Blocks ι) (p : Rlist.RList) (w : World (Pool.RalcPool × σ))
    (size : Nat) (result : Nat × Rlist.RList × World (Pool.RalcPool × σ)) : Prop where
  granted : result.1 ≠ 0 → Rlist.headerSize P + size ≤ w.state.1.elemSize ∧
    size ≤ Rlist.rlistElemSize P result.2.2.mem result.1
  refused : w.state.1.elemSize < Rlist.headerSize P + size →
    result.1 = 0 ∧ result.2.1 = p ∧ PoolKept L w result.2.2

end Model

variable {P : Platform} {σ : Type} {C : Checked σ} {ι : Type} {owner : ι} {ok : World σ → Blocks ι → Prop}
  {w : World (Pool.RalcPool × σ)} {L : Blocks ι} {cs : List Pool.Chunk} {free live : List Nat}

theorem ralcPoolAlloc_null_iff {p : Pool.RalcPool} {w : World σ} (serves : Serves P C.ralc owner ok limit)
    (bound : limit ≤ P.sizeMax)
    (holds : Pool.Holds P ok owner p w L cs free live) (asserts : Pool.AllocAsserts P limit p) :
    (Pool.ralcPoolAlloc P C.ralc p w).1 = 0 ↔ Exhausted P C.ralc p w := by
  constructor
  · intro null
    generalize result : Pool.ralcPoolAlloc P C.ralc p w = answer at null
    obtain ⟨q, p', w'⟩ := answer
    obtain rfl : q = 0 := null
    obtain ⟨empty, grew⟩ := Pool.ralcPoolAlloc_null serves holds asserts result
    obtain ⟨-, refused, -⟩ := Pool.grow_failed grew
    exact ⟨empty, by rwa [grow_request asserts bound empty] at refused⟩
  · rintro ⟨empty, refused⟩
    have failed : (Pool.grow P C.ralc p w).1 = false := by
      rw [Pool.grow, grow_request asserts bound empty]
      simp only [refused, if_true]
    simp only [Pool.ralcPoolAlloc, if_pos empty, failed, Bool.false_eq_true, not_false_eq_true, if_true]

/-- What the dispatcher returns for a size that is compared as small enough. -/
theorem poolAlloc_slot (serves : Serves P C.ralc owner ok limit) (bound : limit ≤ P.sizeMax)
    (holds : Pool.Holds P ok owner w.state.1 (below w) L cs free live)
    (asserts : Pool.AllocAsserts P limit w.state.1) (low : slotSize P size ≤ w.state.1.elemSize) :
    ((poolAlloc P C w size).1.ptr = 0 ↔ Exhausted P C.ralc w.state.1 (below w)) ∧
      ((poolAlloc P C w size).1.ptr ≠ 0 → (poolAlloc P C w size).1.out = some w.state.1.elemSize) ∧
      ((poolAlloc P C w size).1.ptr = 0 → PoolKept L w (poolAlloc P C w size).2) := by
  have null := ralcPoolAlloc_null_iff serves bound holds asserts
  rw [poolAlloc, if_neg (by omega)]
  generalize result : Pool.ralcPoolAlloc P C.ralc w.state.1 (below w) = answer at null ⊢
  obtain ⟨q, p', w'⟩ := answer
  obtain ⟨same, size, -, effect⟩ := Pool.ralcPoolAlloc_cases serves holds asserts result
  refine ⟨null, fun some => ?_, fun failed => ?_⟩
  · dsimp only at some ⊢
    rw [if_pos some, size]
  · rw [if_pos failed] at effect
    exact ⟨effect.1, same⟩

theorem le_slotSize (small : size + (P.alignment - 1) ≤ P.sizeMax) : size ≤ slotSize P size := by
  rw [slotSize]
  split
  case isTrue => exact Platform.le_ratAlign small
  case isFalse null => omega

theorem slotSize_wraps (fits : size ≤ P.sizeMax) (wraps : ¬size + (P.alignment - 1) ≤ P.sizeMax) :
    slotSize P size = 0 := by
  have := P.alignment_le
  have := P.sizeMax_ge
  rw [slotSize, if_pos (by omega), Platform.ratAlign_wraps fits (by omega)]

/-- The dispatcher compares a size with the slots as it should, or finds no slot anyway,
exactly where the size can be rounded or there is no slot. -/
theorem poolAlloc_suits_iff (serves : Serves P C.ralc owner ok limit) (bound : limit ≤ P.sizeMax)
    (holds : Pool.Holds P ok owner w.state.1 (below w) L cs free live)
    (asserts : Pool.AllocAsserts P limit w.state.1) (small : w.state.1.elemSize ≤ P.sizeMax)
    (fits : size ≤ P.sizeMax) :
    Suits L w size (poolAlloc P C w size) ↔ Rounds P C.ralc w size := by
  have slot : slotSize P size ≤ w.state.1.elemSize → _ := poolAlloc_slot serves bound holds asserts
  constructor
  · intro suits
    by_cases rounds : size + (P.alignment - 1) ≤ P.sizeMax
    · exact Or.inl rounds
    · refine Or.inr ?_
      obtain ⟨null, -⟩ := slot (by rw [slotSize_wraps fits rounds]; omega)
      have room := Platform.aligned_room holds.aligned small
      exact null.mp (suits.refused (by omega)).1
  · intro rounds
    by_cases large : slotSize P size > w.state.1.elemSize
    · rw [poolAlloc, if_pos large]
      exact ⟨fun some => absurd rfl some, fun _ => ⟨rfl, rfl, fun _ _ => rfl⟩⟩
    · obtain ⟨null, some, failed⟩ := slot (by omega)
      rcases rounds with rounds | exhausted
      · have := le_slotSize rounds
        exact ⟨fun granted => ⟨some granted, by omega⟩, fun larger => absurd larger (by omega)⟩
      · have none := null.mpr exhausted
        exact ⟨fun granted => absurd none granted, fun _ => ⟨none, failed none⟩⟩

/-- An insertion passes the size on with the header added to it. -/
theorem insert_suits_iff (serves : Serves P C.ralc owner ok limit) (bound : limit ≤ P.sizeMax)
    (holds : Pool.Holds P ok owner w.state.1 (below w) L cs free live)
    (asserts : Pool.AllocAsserts P limit w.state.1) (small : w.state.1.elemSize ≤ P.sizeMax)
    (fits : Rlist.headerSize P + size ≤ P.sizeMax) (p : Rlist.RList) (obj : Nat) :
    InsertSuits P L p w size (Rlist.rlistInsert P (ralcPool P C).ralc p w obj size) ↔
      Rounds P C.ralc w (Rlist.headerSize P + size) := by
  rw [← poolAlloc_suits_iff serves bound holds asserts small fits]
  have slot : (poolAlloc P C w (Rlist.headerSize P + size)).1.ptr ≠ 0 →
      (poolAlloc P C w (Rlist.headerSize P + size)).1.out = some w.state.1.elemSize := by
    intro some
    by_cases large : slotSize P (Rlist.headerSize P + size) > w.state.1.elemSize
    · rw [poolAlloc, if_pos large] at some
      exact absurd rfl some
    · exact (poolAlloc_slot serves bound holds asserts (by omega)).2.1 some
  generalize request : poolAlloc P C w (Rlist.headerSize P + size) = attempt at slot ⊢
  generalize result : Rlist.rlistInsert P (ralcPool P C).ralc p w obj size = answer
  obtain ⟨⟨block, out⟩, w'⟩ := attempt
  obtain ⟨q, p', w''⟩ := answer
  have inserted := Rlist.rlistInsert_size (A := (ralcPool P C).ralc) fits request result
  dsimp only at slot inserted
  split at inserted
  case isTrue null =>
    obtain ⟨rfl, rfl, rfl⟩ := inserted
    constructor
    · exact fun suits => ⟨fun some => absurd null some, fun larger => ⟨null, (suits.refused larger).2.2⟩⟩
    · exact fun suits => ⟨fun some => absurd rfl some, fun larger => ⟨rfl, rfl, (suits.refused larger).2⟩⟩
  case isFalse null =>
    obtain ⟨some, stored⟩ := inserted
    constructor
    · exact fun suits => ⟨fun _ => ⟨slot null, (suits.granted some).1⟩, fun larger =>
        absurd (suits.refused larger).1 some⟩
    · intro suits
      have room := (suits.granted null).2
      refine ⟨fun _ => ⟨room, ?_⟩, fun larger => absurd room (by omega)⟩
      dsimp only
      rw [stored, Reply.actual, slot null, Option.getD_some, Platform.sub_of_le (by omega) small]
      omega

/-- A pool after any run: a request through the dispatcher, or an insertion into a list
over the pool, gets at least what it asks for, exactly where its size can be rounded or
the pool has nothing to give. -/
theorem oversized_iff (serves : Serves P C.ralc owner ok limit) (bound : limit ≤ P.sizeMax)
    {w : World σ} (initial : ok w K) (asserts : Pool.InitAsserts P elemSize) {s : Pool.State σ}
    (ran : run (Pool.step P C.ralc limit) (Pool.start P elemSize initChunkCap w) ops = some s)
    (grows : Pool.AllocAsserts P limit s.pool) :
    ∃ (L : Blocks ι) (cs : List Pool.Chunk) (free : List Nat), ok s.world L ∧
      (∀ c ∈ cs, L c.block = some ⟨owner, c.blockSize⟩) ∧ Pool.Divided P s cs free ∧
      (∀ size ≤ P.sizeMax,
        (Suits L (above s.pool s.world) size
            (ralcAlloc (ralcPool P C).ralc (above s.pool s.world) size) ↔
          Rounds P C.ralc (above s.pool s.world) size) ∧
        (Suits L (above s.pool s.world) size
            (ralcRealloc (ralcPool P C).ralc (above s.pool s.world) 0 size) ↔
          Rounds P C.ralc (above s.pool s.world) size)) ∧
      ∀ p obj size, Rlist.headerSize P + size ≤ P.sizeMax →
        (InsertSuits P L p (above s.pool s.world) size
            (Rlist.rlistInsert P (ralcPool P C).ralc p (above s.pool s.world) obj size) ↔
          Rounds P C.ralc (above s.pool s.world) (Rlist.headerSize P + size)) := by
  obtain ⟨⟨L, cs, free, holds⟩, size⟩ := run_invariant
    (fun s => Pool.Inv P ok owner s ∧
      s.pool.elemSize = (Pool.ralcPoolInit P elemSize initChunkCap).elemSize)
    (fun s op s' inv taken => ⟨(Pool.step_inv serves inv.1 taken).1,
      (Pool.step_inv serves inv.1 taken).2.trans inv.2⟩)
    ⟨Pool.inv_start asserts initial, rfl⟩ ran
  have small : s.pool.elemSize ≤ P.sizeMax := size ▸ Platform.ratAlign_le _
  refine ⟨L, cs, free, holds.ok, holds.held, holds.divides serves, fun size fits => ?_, ?_⟩
  · have alloc := poolAlloc_suits_iff (w := above s.pool s.world) serves bound holds grows small fits
    exact ⟨alloc, alloc⟩
  · exact fun p obj size fits => insert_suits_iff serves bound holds grows small fits p obj

theorem oversized_iff_lp64 : ∃ s, run (Pool.step .lp64 (ralcGeneral .lp64).ralc 4096)
      (Pool.start .lp64 20 3 Gen.kib) [.alloc, .alloc] = some s ∧
    ∃ L : Blocks Unit, Suits L (above s.pool s.world) (2 ^ 64 - 16)
      (ralcAlloc (ralcPool .lp64 (ralcGeneral .lp64)).ralc (above s.pool s.world) (2 ^ 64 - 16)) := by
  have facts : (run (Pool.step .lp64 (ralcGeneral .lp64).ralc 4096) (Pool.start .lp64 20 3 Gen.kib)
      [.alloc, .alloc]).map (fun s => decide (Pool.AllocAsserts .lp64 4096 s.pool)) = some true := by
    decide +kernel
  obtain ⟨s, ran, grows⟩ := Option.map_eq_some_iff.mp facts
  obtain ⟨L, -, -, -, -, -, requests, -⟩ := oversized_iff (C := ralcGeneral .lp64) (Gen.kib_serves ())
    (by decide) Gen.kib_ok (by decide) ran (of_decide_eq_true grows)
  exact ⟨s, ran, L, (requests _ (by decide)).1.mpr (Or.inl (by decide))⟩

/-- The largest size rounds to 0, and gets a slot of 32 bytes. -/
theorem slot_overflows : ∃ s, run (Pool.step .lp64 (ralcGeneral .lp64).ralc 4096)
      (Pool.start .lp64 20 3 Gen.kib) [.alloc, .alloc] = some s ∧
    Pool.AllocAsserts .lp64 4096 s.pool ∧ ∀ L : Blocks Unit,
      ¬Suits L (above s.pool s.world) (2 ^ 64 - 1)
        (ralcAlloc (ralcPool .lp64 (ralcGeneral .lp64)).ralc (above s.pool s.world) (2 ^ 64 - 1)) := by
  have facts : (run (Pool.step .lp64 (ralcGeneral .lp64).ralc 4096) (Pool.start .lp64 20 3 Gen.kib)
      [.alloc, .alloc]).map (fun s => (decide (Pool.AllocAsserts .lp64 4096 s.pool), s.pool.elemSize,
        (ralcAlloc (ralcPool .lp64 (ralcGeneral .lp64)).ralc (above s.pool s.world)
          (2 ^ 64 - 1)).1.ptr)) = some (true, 32, 4208) := by
    decide +kernel
  obtain ⟨s, ran, values⟩ := Option.map_eq_some_iff.mp facts
  obtain ⟨grows, rest⟩ := Prod.mk.inj values
  obtain ⟨size, ptr⟩ := Prod.mk.inj rest
  refine ⟨s, ran, of_decide_eq_true grows, fun L suits => ?_⟩
  have room := (suits.granted (by rw [ptr]; decide)).2
  dsimp only [above] at room
  omega

end Ratlib.Tower
