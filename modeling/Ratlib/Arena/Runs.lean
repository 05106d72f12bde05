import Ratlib.Arena.Regions
import Ratlib.Library.Runs

/-! Runs of an arena: pushes, marks, rewinds to valid marks and clears in any order, with
the objects the client holds and the bytes it writes into them. -/
namespace Ratlib.Arena

/-- An arena, its parent's world, the marks not invalidated and the live objects. -/
structure State (σ : Type u) where
  arena : RalcArena
  world : World σ
  marks : List Nat
  regions : List Region

inductive Op where
  | push (size : Nat)
  | mark
  | rewind (mark : Nat)
  | clear
  | write (ptr i : Nat) (byte : UInt8)

variable (P : Platform) {σ : Type u} {ι : Type v}

def start (initChunkCap : Nat) (w : World σ) : State σ := ⟨ralcArenaInit initChunkCap, w, [], []⟩

def received (start : Nat) (reply : Reply) (regions : List Region) : List Region :=
  if reply.ptr = 0 then regions else ⟨start, reply.ptr, reply.actual 0⟩ :: regions

/-- One call. A rewind names a mark that was taken and not invalidated, by a rewind
below it or by a clear; it discards the objects pushed after the mark. -/
def step (A : Ralc σ) (limit : Nat) (s : State σ) : Op → Option (State σ)
  | .push size =>
    if PushAsserts P limit s.arena s.world.mem size then
      let (reply, p, w) := ralcArenaPush P A s.arena s.world size
      some ⟨p, w, s.marks, received s.arena.size reply s.regions⟩
    else none
  | .mark => some { s with marks := ralcArenaMark s.arena :: s.marks }
  | .rewind mark =>
    if mark ∈ s.marks then
      (ralcArenaRewind P A s.arena s.world mark).map fun (p, w) =>
        ⟨p, w, s.marks.filter fun m => m ≤ mark, s.regions.filter fun r => r.start < mark⟩
    else none
  | .clear => (ralcArenaClear P A s.arena s.world).map fun (p, w) => ⟨p, w, [], []⟩
  | .write ptr i byte =>
    if ∃ r ∈ s.regions, r.ptr = ptr ∧ i < r.size then
      some { s with world := { s.world with mem := s.world.mem.write (ptr + i) [byte] } }
    else none

inductive Effect (A : Ralc σ) (w : World σ) : Op → List Chunk → World σ → List Chunk → Prop
  | grow {w' : World σ} {c : Chunk} {cs : List Chunk} : w'.state = w.state →
      Effect A w (.push size) (c :: cs) w' ({ c with size := c.size + n } :: cs)
  | failed {w' : World σ} (request : Nat) : (ralcAlloc A w request).1.ptr = 0 →
      w'.state = (ralcAlloc A w request).2.state → Effect A w (.push size) cs w' cs
  | fresh {w' : World σ} (request : Nat) (c : Chunk) : (ralcAlloc A w request).1.ptr = c.block →
      c.block ≠ 0 → w'.state = (ralcAlloc A w request).2.state →
      Effect A w (.push size) cs w' (c :: cs)
  | mark : Effect A w .mark cs w cs
  | rewind {w' : World σ} (position : Nat) : position ≤ total cs →
      w'.state = (freeAll A w (popped position cs)).state →
      Effect A w (.rewind position) cs w' (cut position cs)
  | clear {w' : World σ} : w'.state = (freeAll A w (cs.map Chunk.block)).state →
      Effect A w .clear cs w' []
  | write {w' : World σ} : w'.state = w.state → Effect A w (.write ptr i byte) cs w' cs

variable {P} {A : Ralc σ} {owner : ι} {ok : World σ → Blocks ι → Prop} {L : Blocks ι}
  {s s' : State σ} {cs : List Chunk}

/-- The stack holds the arena together, the live objects fill it, and the marks are
positions between objects. -/
structure Inv (P : Platform) (ok : World σ → Blocks ι → Prop) (owner : ι) (s : State σ)
    (L : Blocks ι) (cs : List Chunk) : Prop where
  holding : Holding P ok owner s.arena s.world L cs
  tiles : Tiles P cs s.regions
  marks : ∀ m ∈ s.marks, m ≤ s.arena.size ∧ Boundary s.arena.size s.regions m

theorem inv_start (initial : ok w L) : Inv P ok owner (start initChunkCap w) L [] where
  holding := ⟨⟨initial, rfl, by simp, List.nodup_nil, by simp [Filled]⟩, rfl⟩
  tiles := rfl
  marks := by simp [start]

theorem push_effect (serves : Serves P A owner ok limit) (inv : Inv P ok owner s L cs)
    (taken : step P A limit s (.push size) = some s') :
    ∃ L' cs', Inv P ok owner s' L' cs' ∧ Effect A s.world (.push size) cs s'.world cs' ∧
      s'.arena.chunkCap = s.arena.chunkCap ∧ s'.marks = s.marks := by
  simp only [step] at taken
  split at taken
  case isFalse => cases taken
  case isTrue asserts =>
    obtain rfl := Option.some.inj taken
    obtain ⟨positive, -, divides⟩ := pushSize_spec asserts.1
    have before := inv.holding.total
    rcases push_cases serves inv.holding asserts rfl with
      ⟨c, rest, rfl, room, reply, arena, state, holding⟩ | ⟨reply, arena, null, world, holding, -⟩ |
      ⟨block, actual, granted, some, reply, arena, state, holding⟩
    · have bound := inv.holding.holds.positive serves List.mem_cons_self
      rw [total_cons] at before
      refine ⟨L, _, ⟨holding, ?_, ?_⟩, .grow state, by rw [arena], rfl⟩
      · obtain ⟨top, rest', same, tile, below⟩ := inv.tiles
        have size : s.arena.size = total rest + c.size := by omega
        rw [reply, received, if_neg (by dsimp only; omega), same, size]
        exact ⟨_, rest', rfl, tile_push tile positive divides, below⟩
      · intro m member
        obtain ⟨low, boundary⟩ := inv.marks m member
        rw [arena, reply, received, if_neg (by dsimp only; omega)]
        exact ⟨by dsimp only; omega, boundary_cons boundary _⟩
    · refine ⟨L, cs, ⟨?_, ?_, ?_⟩, .failed _ null (by rw [world]), by rw [arena], rfl⟩
      · rwa [arena]
      · rw [reply]
        exact inv.tiles
      · rw [reply, arena]
        exact inv.marks
    · refine ⟨_, _, ⟨holding, ?_, ?_⟩, .fresh _ _ ?_ some state, by rw [arena], rfl⟩
      · rw [reply, received, if_neg (by dsimp only; omega)]
        refine ⟨[_], s.regions, rfl, ?_, inv.tiles⟩
        have bottom : Tile P.alignment (total cs) (block + headerSize P) 0 [] := rfl
        simpa [before, Reply.actual] using tile_push bottom positive divides
      · intro m member
        obtain ⟨low, boundary⟩ := inv.marks m member
        rw [arena, reply, received, if_neg (by dsimp only; omega)]
        exact ⟨by dsimp only; omega, boundary_cons boundary _⟩
      · rw [granted]

theorem mark_inv (inv : Inv P ok owner s L cs) :
    Inv P ok owner { s with marks := ralcArenaMark s.arena :: s.marks } L cs where
  holding := inv.holding
  tiles := inv.tiles
  marks := by
    intro m member
    rcases List.mem_cons.mp member with rfl | member
    · exact ⟨Nat.le_refl _, Or.inl rfl⟩
    · exact inv.marks m member

theorem rewind_effect (serves : Serves P A owner ok limit) (inv : Inv P ok owner s L cs)
    (valid : mark ∈ s.marks) :
    ∃ s' L', step P A limit s (.rewind mark) = some s' ∧ Inv P ok owner s' L' (cut mark cs) ∧
      s'.world.state = (freeAll A s.world (popped mark cs)).state ∧ mark ≤ total cs ∧
      s'.arena.size = mark ∧ s'.arena.chunkCap = s.arena.chunkCap ∧
      s'.marks = s.marks.filter fun m => m ≤ mark := by
  obtain ⟨within, boundary⟩ := inv.marks mark valid
  have sum := inv.holding.total
  obtain ⟨p', w', L', run, cap, size, holding, state⟩ := rewind_spec serves inv.holding within
  refine ⟨⟨p', w', _, s.regions.filter fun r => r.start < mark⟩, L', ?_, ⟨holding, ?_, ?_⟩, state,
    by omega, size, cap, rfl⟩
  · rw [step, if_pos valid, run]
    rfl
  · exact tiles_cut inv.tiles (by omega) (by rwa [sum])
  · intro m member
    obtain ⟨member, lower⟩ := List.mem_filter.mp member
    have lower : m ≤ mark := by simpa using lower
    dsimp only
    rw [size]
    exact ⟨lower, boundary_filter (inv.marks m member).2 lower within⟩

theorem clear_effect (serves : Serves P A owner ok limit) (inv : Inv P ok owner s L cs) :
    ∃ s' L', step P A limit s .clear = some s' ∧ Inv P ok owner s' L' [] ∧
      s'.world.state = (freeAll A s.world (cs.map Chunk.block)).state ∧
      s'.arena.chunkCap = s.arena.chunkCap ∧ s'.marks = [] := by
  obtain ⟨w', L', run, holding, state⟩ := clear_spec serves inv.holding
  refine ⟨⟨_, w', [], []⟩, L', ?_, ⟨holding, rfl, by simp⟩, state, rfl, rfl⟩
  rw [step, run]
  rfl

theorem write_effect (serves : Serves P A owner ok limit) (inv : Inv P ok owner s L cs)
    (taken : step P A limit s (.write ptr i byte) = some s') :
    Inv P ok owner s' L cs ∧ s'.world.state = s.world.state ∧ s'.arena = s.arena ∧
      s'.marks = s.marks := by
  simp only [step] at taken
  split at taken
  case isFalse => cases taken
  case isTrue live =>
    obtain ⟨r, member, rfl, inside⟩ := live
    obtain rfl := Option.some.inj taken
    obtain ⟨c, found, low, high, -⟩ := tiles_inside inv.tiles member
    have filled := inv.holding.holds.filled c found
    refine ⟨⟨inv.holding.client serves fun x away => Mem.write_out ?_, inv.tiles, inv.marks⟩,
      rfl, rfl, rfl⟩
    have := away c found
    rw [List.length_singleton]
    omega

/-- Every step keeps the invariant and does one of the things `Effect` lists. -/
theorem step_effect (serves : Serves P A owner ok limit) (inv : Inv P ok owner s L cs)
    (taken : step P A limit s op = some s') :
    ∃ L' cs', Inv P ok owner s' L' cs' ∧ Effect A s.world op cs s'.world cs' ∧
      s'.arena.chunkCap = s.arena.chunkCap := by
  cases op with
  | push size =>
    obtain ⟨L', cs', inv', effect, cap, -⟩ := push_effect serves inv taken
    exact ⟨L', cs', inv', effect, cap⟩
  | mark =>
    obtain rfl := Option.some.inj taken
    exact ⟨L, cs, mark_inv inv, .mark, rfl⟩
  | rewind mark =>
    by_cases valid : mark ∈ s.marks
    · obtain ⟨t, L', same, inv', state, within, -, cap, -⟩ := rewind_effect serves inv valid
      obtain rfl := Option.some.inj (same.symm.trans taken)
      exact ⟨L', _, inv', .rewind mark within state, cap⟩
    · rw [step, if_neg valid] at taken
      cases taken
  | clear =>
    obtain ⟨t, L', same, inv', state, cap, -⟩ := clear_effect serves inv
    obtain rfl := Option.some.inj (same.symm.trans taken)
    exact ⟨L', [], inv', .clear state, cap⟩
  | write ptr i byte =>
    obtain ⟨inv', state, arena, -⟩ := write_effect serves inv taken
    exact ⟨L, cs, inv', .write state, by rw [arena]⟩

end Ratlib.Arena
