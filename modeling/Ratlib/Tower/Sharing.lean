import Ratlib.Alloc.Requests
import Ratlib.Tower.Arenas
import Ratlib.Tower.Oversize
import Mathlib.Data.Nat.ModEq

/-! The chunks an arena asks for, and whether a pool has slots for them that it shares with
other clients. An object that fills a default chunk gets a chunk of twice its size. -/
namespace Ratlib.Tower

section Requests
variable {P : Platform} {σ : Type u} {A : Ralc σ} {p : Arena.RalcArena}

/-- A push that needs a new chunk asks for a default one, and for nothing else. -/
def AsksDefault (P : Platform) (A : Ralc σ) (p : Arena.RalcArena) (w : World (σ × List Request))
    (size : Nat) : Prop :=
  ¬Arena.Fits P p w.mem (Arena.pushSize P size) →
    ∃ reply, (Arena.ralcArenaPush P (logged A) p w size).2.2.state.2 =
      w.state.2 ++ [⟨Arena.ralcArenaChunkAllocSize P p.chunkCap, reply⟩]

theorem push_asks {w : World (σ × List Request)} (full : ¬Arena.Fits P p w.mem (Arena.pushSize P size)) :
    (Arena.ralcArenaPush P (logged A) p w size).2.2.state.2 =
      w.state.2 ++ [⟨Arena.pushRequest P p (Arena.pushSize P size),
        (ralcAlloc A (untraced w) (Arena.pushRequest P p (Arena.pushSize P size))).1⟩] := by
  rw [Arena.ralcArenaPush, if_neg full]
  dsimp only
  split <;> rfl

/-- Twice a size is not the size, whatever wraps. -/
theorem doubled_ne (positive : 0 < size) (small : size ≤ P.sizeMax) :
    Arena.ralcArenaChunkAllocSize P (P.mul size 2) ≠ Arena.ralcArenaChunkAllocSize P size := by
  intro same
  have congruent : Arena.headerSize P + P.mul size 2 ≡ Arena.headerSize P + size [MOD 256 ^ P.sizeT] := same
  have doubled : P.mul size 2 ≡ size + size [MOD 256 ^ P.sizeT] := by
    rw [← Nat.mul_two]
    exact Nat.mod_modEq ..
  have none : size + size ≡ size + 0 [MOD 256 ^ P.sizeT] :=
    doubled.symm.trans (Nat.ModEq.add_left_cancel' _ congruent)
  have zero : size % 256 ^ P.sizeT = 0 := Nat.ModEq.add_left_cancel' _ none
  rw [← P.sizeMax_succ, Nat.mod_eq_of_lt (by omega)] at zero
  omega

theorem pushRequest_default (positive : 0 < size) (small : size ≤ P.sizeMax) (within : size ≤ p.chunkCap) :
    Arena.pushRequest P p size = Arena.ralcArenaChunkAllocSize P p.chunkCap ↔ size < p.chunkCap := by
  rw [Arena.pushRequest]
  split
  case isTrue larger => exact ⟨fun _ => larger, fun _ => rfl⟩
  case isFalse smaller =>
    have same : p.chunkCap = size := by omega
    rw [same]
    exact ⟨fun default => absurd default (doubled_ne positive small), fun less => absurd less (lt_irrefl _)⟩

/-- A push that needs a chunk asks for a default one unless its object would fill that. -/
theorem asksDefault_iff (rounds : size + (P.alignment - 1) ≤ P.sizeMax)
    (within : Arena.pushSize P size ≤ p.chunkCap) (w : World (σ × List Request)) :
    AsksDefault P A p w size ↔
      Arena.Fits P p w.mem (Arena.pushSize P size) ∨ Arena.pushSize P size < p.chunkCap := by
  have default := pushRequest_default (Arena.pushSize_spec rounds).1 (Platform.ratAlign_le _) within
  by_cases fits : Arena.Fits P p w.mem (Arena.pushSize P size)
  · exact ⟨fun _ => Or.inl fits, fun _ full => absurd fits full⟩
  · rw [or_iff_right fits, ← default, AsksDefault, push_asks fits]
    constructor
    · intro asks
      obtain ⟨reply, log⟩ := asks fits
      exact congrArg Request.size (List.head_eq_of_cons_eq (List.append_cancel_left log))
    · intro same _
      exact ⟨_, by rw [same]⟩

end Requests

section Parent
variable {P : Platform} {σ : Type u} {A : Ralc σ} {s s' : Arena.State σ} {J : σ → Prop}
  (alloc : ∀ w size, J w.state → J (ralcAlloc A w size).2.state)
  (free : ∀ w ptr, J w.state → J (ralcFree A w ptr).state)

include free in
theorem rewindLoop_keeps {p p' : Arena.RalcArena} {w w' : World σ} (before : J w.state)
    (ran : Arena.rewindLoop P A p w size rounds = some (p', w')) :
    p'.chunkCap = p.chunkCap ∧ J w'.state := by
  induction rounds generalizing p w size with
  | zero =>
    rw [Arena.rewindLoop] at ran
    split at ran
    case isTrue =>
      cases ran
      exact ⟨rfl, before⟩
    case isFalse => cases ran
  | succ rounds ih =>
    rw [Arena.rewindLoop] at ran
    split at ran
    case isTrue =>
      cases ran
      exact ⟨rfl, before⟩
    case isFalse =>
      split at ran
      case isTrue => cases ran
      case isFalse =>
        dsimp only at ran
        split at ran
        case isTrue =>
          cases ran
          exact ⟨rfl, before⟩
        case isFalse =>
          have kept := ih (free _ _ before) ran
          exact kept

include free in
theorem arenaClearLoop_keeps {w w' : World σ} (before : J w.state)
    (ran : Arena.clearLoop P A w chunk rounds = some w') : J w'.state := by
  induction rounds generalizing w chunk with
  | zero =>
    rw [Arena.clearLoop] at ran
    split at ran
    case isTrue =>
      cases ran
      exact before
    case isFalse => cases ran
  | succ rounds ih =>
    rw [Arena.clearLoop] at ran
    split at ran
    case isTrue =>
      cases ran
      exact before
    case isFalse => exact ih (free _ _ before) ran

include alloc in
theorem push_keeps {p : Arena.RalcArena} {w : World σ} (before : J w.state) :
    (Arena.ralcArenaPush P A p w size).2.1.chunkCap = p.chunkCap ∧
      J (Arena.ralcArenaPush P A p w size).2.2.state := by
  rw [Arena.ralcArenaPush]
  dsimp only
  split
  case isTrue => exact ⟨rfl, before⟩
  case isFalse =>
    split
    · exact ⟨rfl, alloc _ _ before⟩
    · exact ⟨rfl, alloc _ _ before⟩

include alloc free in
/-- The calls of an arena leave its default capacity alone, and what no call changes in its
parent. -/
theorem arenaStep_keeps (before : J s.world.state) (taken : Arena.step P A limit s op = some s') :
    s'.arena.chunkCap = s.arena.chunkCap ∧ J s'.world.state := by
  cases op with
  | push size =>
    simp only [Arena.step] at taken
    split at taken
    case isTrue =>
      cases taken
      exact push_keeps alloc before
    case isFalse => cases taken
  | mark => cases taken; exact ⟨rfl, before⟩
  | rewind mark =>
    simp only [Arena.step, Arena.ralcArenaRewind] at taken
    split at taken
    case isTrue =>
      obtain ⟨⟨p, w⟩, rewound, rfl⟩ := Option.map_eq_some_iff.mp taken
      obtain ⟨⟨p', w'⟩, ran, same⟩ := Option.map_eq_some_iff.mp rewound
      cases same
      have kept := rewindLoop_keeps free before ran
      exact kept
    case isFalse => cases taken
  | clear =>
    simp only [Arena.step, Arena.ralcArenaClear] at taken
    obtain ⟨⟨p, w⟩, cleared, rfl⟩ := Option.map_eq_some_iff.mp taken
    obtain ⟨w', ran, same⟩ := Option.map_eq_some_iff.mp cleared
    cases same
    exact ⟨rfl, arenaClearLoop_keeps free before ran⟩
  | write ptr i byte =>
    simp only [Arena.step] at taken
    split at taken
    case isTrue =>
      cases taken
      exact ⟨rfl, before⟩
    case isFalse => cases taken

end Parent

/-- An arena over a pool, and the slots that the pool's other clients hold. -/
structure Shared (σ : Type) where
  arena : Arena.State (Pool.RalcPool × σ)
  taken : List Nat

/-- The calls of the arena, and what the other clients do with the pool. -/
inductive SharedOp where
  | arena (op : Arena.Op)
  | alloc (size : Nat)
  | free (ptr : Nat)
  | write (ptr i : Nat) (byte : UInt8)

section Model
variable (P : Platform) {σ : Type} (C : Checked σ)

def sharedStart (elemSize initSlots initChunkCap : Nat) (w : World σ) : Shared σ where
  arena := Arena.start initChunkCap (above (Pool.ralcPoolInit P elemSize initSlots) w)
  taken := []

def sharedStep (s : Shared σ) : SharedOp → Option (Shared σ)
  | .arena op =>
    (Arena.step P (ralcPool P C).ralc P.sizeMax s.arena op).map fun arena => { s with arena := arena }
  | .alloc size =>
    let (reply, w) := ralcAlloc (ralcPool P C).ralc s.arena.world size
    some ⟨{ s.arena with world := w }, if reply.ptr = 0 then s.taken else reply.ptr :: s.taken⟩
  | .free ptr =>
    if ptr ∈ s.taken then
      some ⟨{ s.arena with world := ralcFree (ralcPool P C).ralc s.arena.world ptr }, s.taken.erase ptr⟩
    else none
  | .write ptr i byte =>
    if ptr ∈ s.taken ∧ i < s.arena.world.state.1.elemSize then
      let m := s.arena.world.mem.write (ptr + i) [byte]
      some { s with arena := { s.arena with world := { s.arena.world with mem := m } } }
    else none

end Model

section Slots
variable {P : Platform} {σ : Type} {C : Checked σ} {s s' : Shared σ}

theorem grow_elemSize {A : Ralc σ} (p : Pool.RalcPool) (w : World σ) :
    (Pool.grow P A p w).2.1.elemSize = p.elemSize := by
  rw [Pool.grow]
  dsimp only
  split
  · rfl
  · rfl

theorem poolAlloc_elemSize (w : World (Pool.RalcPool × σ)) (size : Nat) :
    (poolAlloc P C w size).2.state.1.elemSize = w.state.1.elemSize := by
  have grown := grow_elemSize (P := P) (A := C.ralc) w.state.1 (below w)
  rw [poolAlloc]
  split
  case isTrue => rfl
  case isFalse =>
    simp only [Pool.ralcPoolAlloc, above]
    split
    · split
      · exact grown
      · exact grown
    · rfl

/-- A pool with a free slot gives it for every size that a slot has room for. -/
theorem poolAlloc_iff {w : World (Pool.RalcPool × σ)} (free : w.state.1.freeSlots ≠ 0) :
    (poolAlloc P C w size).1.ptr ≠ 0 ↔ slotSize P size ≤ w.state.1.elemSize := by
  rw [poolAlloc]
  split
  case isTrue large => exact ⟨fun some => absurd rfl some, fun small => absurd large (by omega)⟩
  case isFalse small =>
    simp only [Pool.ralcPoolAlloc, if_neg free]
    exact ⟨fun _ => by omega, fun _ => free⟩

/-- The sizes that the two init functions set. -/
def SharedInv (P : Platform) (elemSize initSlots initChunkCap : Nat) (s : Shared σ) : Prop :=
  s.arena.arena.chunkCap = initChunkCap ∧
    s.arena.world.state.1.elemSize = (Pool.ralcPoolInit P elemSize initSlots).elemSize

theorem sharedStep_keeps (inv : SharedInv P elemSize initSlots initChunkCap s)
    (taken : sharedStep P C s op = some s') : SharedInv P elemSize initSlots initChunkCap s' := by
  obtain ⟨cap, slots⟩ := inv
  cases op with
  | arena op =>
    obtain ⟨arena, stepped, rfl⟩ := Option.map_eq_some_iff.mp taken
    obtain ⟨same, slots'⟩ := arenaStep_keeps (A := (ralcPool P C).ralc)
      (J := fun state => state.1.elemSize = (Pool.ralcPoolInit P elemSize initSlots).elemSize)
      (fun w size before => (poolAlloc_elemSize w size).trans before) (fun _ _ before => before) slots stepped
    exact ⟨same.trans cap, slots'⟩
  | alloc size =>
    cases taken
    exact ⟨cap, (poolAlloc_elemSize s.arena.world size).trans slots⟩
  | free ptr =>
    rw [sharedStep] at taken
    split at taken
    case isTrue =>
      cases taken
      exact ⟨cap, slots⟩
    case isFalse => cases taken
  | write ptr i byte =>
    rw [sharedStep] at taken
    split at taken
    case isTrue =>
      cases taken
      exact ⟨cap, slots⟩
    case isFalse => cases taken

/-- A size that a slot has room for is rounded to no more. -/
theorem slotSize_le (asserts : Pool.InitAsserts P elemSize)
    (room : size ≤ (Pool.ralcPoolInit P elemSize initSlots).elemSize) :
    slotSize P size ≤ (Pool.ralcPoolInit P elemSize initSlots).elemSize := by
  have positive : 0 < (Pool.ralcPoolInit P elemSize initSlots).elemSize := by
    have := Pool.init_wide asserts initSlots
    have := P.sizeT_ge
    omega
  have aligned : P.alignment ∣ (Pool.ralcPoolInit P elemSize initSlots).elemSize := Platform.ratAlign_dvd _
  have rounds := Platform.aligned_room aligned (Platform.ratAlign_le _)
  rw [slotSize]
  split
  · exact Platform.ratAlign_le_of_dvd aligned rounds room
  · exact Platform.ratAlign_le_of_dvd aligned rounds positive

/-- A push is granted where it needs no chunk or its parent gives one. -/
theorem push_granted {A : Ralc τ} {p : Arena.RalcArena} {w : World τ} :
    (Arena.ralcArenaPush P A p w size).1.ptr ≠ 0 ↔ Arena.Fits P p w.mem (Arena.pushSize P size) ∨
      (ralcAlloc A w (Arena.pushRequest P p (Arena.pushSize P size))).1.ptr ≠ 0 := by
  rw [Arena.ralcArenaPush]
  split
  case isTrue fits => exact ⟨fun _ => Or.inl fits, fun _ => arenaData_ne_zero _ _⟩
  case isFalse full =>
    rw [or_iff_right full]
    dsimp only
    split
    case isTrue null => exact ⟨fun some => absurd rfl some, fun some => absurd null some⟩
    case isFalse some => exact ⟨fun _ => some, fun _ => arenaData_ne_zero _ 0⟩

/-- Over a pool with a free slot, whose slots have room for a default chunk. -/
theorem shared_granted (asserts : Pool.InitAsserts P elemSize)
    (inv : SharedInv P elemSize initSlots initChunkCap s)
    (within : Arena.pushSize P size ≤ initChunkCap)
    (room : Arena.ralcArenaChunkAllocSize P initChunkCap ≤ s.arena.world.state.1.elemSize)
    (free : s.arena.world.state.1.freeSlots ≠ 0) :
    (Arena.ralcArenaPush P (ralcPool P C).ralc s.arena.arena s.arena.world size).1.ptr ≠ 0 ↔
      Arena.Fits P s.arena.arena s.arena.world.mem (Arena.pushSize P size) ∨
        Arena.pushSize P size < initChunkCap ∨
        slotSize P (Arena.ralcArenaChunkAllocSize P (P.mul initChunkCap 2)) ≤
          s.arena.world.state.1.elemSize := by
  obtain ⟨cap, slots⟩ := inv
  rw [push_granted]
  refine or_congr_right ?_
  change (poolAlloc P C s.arena.world _).1.ptr ≠ 0 ↔ _
  rw [poolAlloc_iff free, Arena.pushRequest, cap]
  rw [slots] at room ⊢
  split
  case isTrue larger => exact ⟨fun _ => Or.inl larger, fun _ => slotSize_le asserts room⟩
  case isFalse smaller =>
    have same : Arena.pushSize P size = initChunkCap := by omega
    rw [same]
    exact ⟨Or.inr, fun either => either.resolve_left (lt_irrefl _)⟩

end Slots

/-- A push of a size up to the default capacity asks for a default chunk, and gets one from
any pool with a free slot for it, exactly where the top chunk has room or the rounded size
is below that capacity; it gets a chunk also from slots with room for twice the capacity. -/
theorem defaultChunk_iff {P : Platform} (rounds : size + (P.alignment - 1) ≤ P.sizeMax) :
    (∀ (σ : Type u) (A : Ralc σ) (p : Arena.RalcArena) (w : World (σ × List Request)),
      Arena.pushSize P size ≤ p.chunkCap →
      (AsksDefault P A p w size ↔
        Arena.Fits P p w.mem (Arena.pushSize P size) ∨ Arena.pushSize P size < p.chunkCap)) ∧
    (∀ (σ : Type) (C : Checked σ) (w : World σ) (elemSize initSlots initChunkCap : Nat)
        (ops : List SharedOp) (s : Shared σ), Pool.InitAsserts P elemSize →
      run (sharedStep P C) (sharedStart P elemSize initSlots initChunkCap w) ops = some s →
      Arena.pushSize P size ≤ initChunkCap →
      Arena.ralcArenaChunkAllocSize P initChunkCap ≤ s.arena.world.state.1.elemSize →
      s.arena.world.state.1.freeSlots ≠ 0 →
      ((Arena.ralcArenaPush P (ralcPool P C).ralc s.arena.arena s.arena.world size).1.ptr ≠ 0 ↔
        Arena.Fits P s.arena.arena s.arena.world.mem (Arena.pushSize P size) ∨
          Arena.pushSize P size < initChunkCap ∨
          slotSize P (Arena.ralcArenaChunkAllocSize P (P.mul initChunkCap 2)) ≤
            s.arena.world.state.1.elemSize)) := by
  refine ⟨fun σ A p w within => asksDefault_iff rounds within w, ?_⟩
  intro σ C w elemSize initSlots initChunkCap ops s asserts ran within room free
  have inv := run_invariant (SharedInv P elemSize initSlots initChunkCap)
    (fun _ _ _ inv taken => sharedStep_keeps inv taken) ⟨rfl, rfl⟩ ran
  exact shared_granted asserts inv within room free

theorem defaultChunk_iff_lp64 : ∃ s, run (sharedStep .lp64 (ralcGeneral .lp64))
      (sharedStart .lp64 96 2 64 Gen.kib) [.arena (.push 8), .alloc 20, .arena .clear] = some s ∧
    (Arena.ralcArenaPush .lp64 (ralcPool .lp64 (ralcGeneral .lp64)).ralc s.arena.arena s.arena.world
      40).1.ptr ≠ 0 := by
  have facts : (run (sharedStep .lp64 (ralcGeneral .lp64)) (sharedStart .lp64 96 2 64 Gen.kib)
      [.arena (.push 8), .alloc 20, .arena .clear]).map (fun s =>
        (s.arena.world.state.1.elemSize, decide (s.arena.world.state.1.freeSlots = 0))) =
      some (96, false) := by decide +kernel
  obtain ⟨s, ran, values⟩ := Option.map_eq_some_iff.mp facts
  simp only [Prod.mk.injEq, decide_eq_false_iff_not] at values
  obtain ⟨slots, free⟩ := values
  have rounds : 40 + (Platform.lp64.alignment - 1) ≤ Platform.lp64.sizeMax := by decide
  have granted := (defaultChunk_iff.{0} rounds).2 _ _ _ _ _ _ _ s (by decide) ran (by decide)
    (by rw [slots]; decide) free
  exact ⟨s, ran, granted.mpr (Or.inr (Or.inl (by decide)))⟩

/-- A push of 64 bytes over slots of `ralcArena_chunkAllocSize(64)` bytes asks for 160, and
is refused with a slot free. -/
theorem defaultChunk_refused : ∃ s, run (sharedStep .lp64 (ralcGeneral .lp64))
      (sharedStart .lp64 (Arena.ralcArenaChunkAllocSize .lp64 64) 2 64 Gen.kib)
      [.arena (.push 8), .arena .clear] = some s ∧
    Arena.pushSize .lp64 64 ≤ 64 ∧
    Arena.ralcArenaChunkAllocSize .lp64 64 ≤ s.arena.world.state.1.elemSize ∧
    s.arena.world.state.1.freeSlots ≠ 0 ∧
    (Arena.ralcArenaPush .lp64 (ralcPool .lp64 (ralcGeneral .lp64)).ralc s.arena.arena s.arena.world
      64).1.ptr = 0 ∧
    ¬AsksDefault .lp64 (ralcPool .lp64 (ralcGeneral .lp64)).ralc s.arena.arena
      ⟨(s.arena.world.state, []), s.arena.world.mem⟩ 64 := by
  have facts : (run (sharedStep .lp64 (ralcGeneral .lp64))
      (sharedStart .lp64 (Arena.ralcArenaChunkAllocSize .lp64 64) 2 64 Gen.kib)
      [.arena (.push 8), .arena .clear]).map (fun s =>
        (s.arena.world.state.1.elemSize, decide (s.arena.world.state.1.freeSlots = 0),
          (Arena.ralcArenaPush .lp64 (ralcPool .lp64 (ralcGeneral .lp64)).ralc s.arena.arena s.arena.world
            64).1.ptr, s.arena.arena.chunkCap,
          decide (Arena.Fits .lp64 s.arena.arena s.arena.world.mem (Arena.pushSize .lp64 64)))) =
      some (96, false, 0, 64, false) := by decide +kernel
  obtain ⟨s, ran, values⟩ := Option.map_eq_some_iff.mp facts
  simp only [Prod.mk.injEq, decide_eq_false_iff_not] at values
  obtain ⟨slots, free, null, cap, full⟩ := values
  refine ⟨s, ran, by decide, by rw [slots]; decide, free, null, fun asks => ?_⟩
  have within : Arena.pushSize .lp64 64 ≤ s.arena.arena.chunkCap := by
    rw [cap]
    decide
  rcases (asksDefault_iff (by decide) within _).mp asks with fits | less
  · exact full fits
  · rw [cap] at less
    exact absurd less (by decide)

end Ratlib.Tower
