import Ratlib.Tower.Runs

/-! Where a chain's pointers lie: the layers round their headers to `RAT_ALIGNMENT`, the
ralcGen at the bottom does not, so its bare header decides about all of them. -/
namespace Ratlib.Tower

variable {P : Platform} {σ : Type} {C : Checked σ} {ok : World σ → Blocks Unit → Prop}
  {buf cap : Nat} {ls : List Layer}

def Placed (P : Platform) (ok : World σ → Blocks Unit → Prop) : Prop :=
  ∀ w L a block, ok w L → L a = some block → P.alignment ∣ a

theorem buffer_placed (header : P.alignment ∣ Gen.sizeofBlock P) (start : P.alignment ∣ buf) :
    Placed P (BufferOk (Gen.Grain.aligned header) buf cap) := by
  rintro w L a block ⟨⟨bs, holds⟩, rfl⟩ held
  exact Gen.object_aligned header holds.layout.aligned start (holds.objects a block held)

theorem arena_placed (placed : Placed P ok) : Placed P (ArenaOk P ok) := by
  rintro w L a block ⟨K, cs, rs, holds⟩ held
  obtain ⟨r, member, rfl, -⟩ := holds.objects a block held
  obtain ⟨c, found, low, -, -, offset⟩ := Arena.tiles_inside holds.inv.tiles member
  have chunks := holds.inv.holding.holds
  have payload : P.alignment ∣ c.block + Arena.headerSize P :=
    Nat.dvd_add (placed _ _ _ _ chunks.ok (chunks.held c found)) (Platform.ratAlign_dvd _)
  rw [← Nat.add_sub_cancel' low]
  exact Nat.dvd_add payload offset

theorem pool_placed (placed : Placed P ok) : Placed P (PoolOk P ok) := by
  rintro w L a block ⟨K, cs, free, live, pool⟩ held
  obtain ⟨c, found, slot⟩ := Pool.mem_slots.mp (pool.slot held)
  obtain ⟨i, -, rfl⟩ := Pool.mem_slotsFrom.mp slot
  have payload : P.alignment ∣ c.block + Pool.headerSize P :=
    Nat.dvd_add (placed _ _ _ _ pool.holds.ok (pool.holds.held c found)) (Platform.ratAlign_dvd _)
  exact Nat.dvd_add payload (Nat.dvd_mul_left_of_dvd pool.holds.aligned i)

theorem list_placed (meets : Meets P C ok) (placed : Placed P ok) : Placed P (ListOk P ok) := by
  rintro w L a block ⟨K, objs, list⟩ held
  obtain ⟨found, -⟩ := list.objects a block held
  have above := list.holds.above meets.serves found
  have start := placed _ _ _ _ list.holds.ok (list.holds.held a found)
  rw [← Nat.sub_add_cancel (Nat.le_of_lt above)]
  exact Nat.dvd_add start (Platform.ratAlign_dvd _)

/-- With an aligned buffer and an aligned header everything is aligned. -/
theorem chain_placed (header : P.alignment ∣ Gen.sizeofBlock P) (start : P.alignment ∣ buf)
    (ls : List Layer) : Placed P (ChainOk (Gen.Grain.aligned header) buf cap ls) := by
  induction ls with
  | nil => exact buffer_placed header start
  | cons l ls ih =>
    cases l with
    | arena initChunkCap => exact arena_placed ih
    | pool elemSize initChunkCap => exact pool_placed ih
    | list => exact list_placed (chain_meets ls) ih

theorem granted_aligned (placed : Placed P ok) (granted : Granted ok () w L size result) :
    P.alignment ∣ result.1.ptr := by
  obtain ⟨-, outcome⟩ := granted
  split at outcome
  case isTrue null => exact null ▸ Nat.dvd_zero _
  case isFalse =>
    obtain ⟨actual, -, -, -, kept⟩ := outcome
    exact placed _ _ _ _ kept Blocks.grant_same

theorem regranted_aligned (placed : Placed P ok)
    (regranted : Regranted ok () w L ptr oldSize newSize result) : P.alignment ∣ result.1.ptr := by
  obtain ⟨-, outcome⟩ := regranted
  split at outcome
  case isTrue null => exact null ▸ Nat.dvd_zero _
  case isFalse =>
    obtain ⟨actual, -, -, -, kept, -⟩ := outcome
    exact placed _ _ _ _ kept Blocks.grant_same

def Everywhere (Φ : (ls : List Layer) → World (State ls) → Prop) :
    (ls : List Layer) → World (State ls) → Prop
  | [], w => Φ [] w
  | l :: ls, w => Φ (l :: ls) w ∧ Everywhere Φ ls (below w)

/-- What is known of each layer from the objects it has handed out. -/
theorem everywhere (g : Gen.Grain P) {Φ : (ls : List Layer) → World (State ls) → Prop}
    (holds : ∀ ls w L, ChainOk g buf cap ls w L → Φ ls w) {w : World (State ls)}
    (chained : ChainOk g buf cap ls w L) : Everywhere Φ ls w := by
  induction ls generalizing L with
  | nil => exact holds [] w L chained
  | cons l ls ih =>
    refine ⟨holds (l :: ls) w L chained, ?_⟩
    cases l with
    | arena initChunkCap =>
      obtain ⟨K, cs, rs, arena⟩ := chained
      exact ih arena.inv.holding.holds.ok
    | pool elemSize initChunkCap =>
      obtain ⟨K, cs, free, live, pool⟩ := chained
      exact ih pool.holds.ok
    | list =>
      obtain ⟨K, objs, list⟩ := chained
      exact ih list.holds.ok

/-- The objects the client holds are aligned, and so is whatever a call would return, at
the top or further down. -/
structure Aligned (P : Platform) (ls : List Layer) (s : Client ls) : Prop where
  objects : ∀ q, (held P ls s q).isSome → P.alignment ∣ q
  alloc : Everywhere (fun ls w => ∀ size, (chain P ls).admitsAlloc w size = true →
    P.alignment ∣ (ralcAlloc (chain P ls).ralc w size).1.ptr) ls (world ls s)
  realloc : ∀ ptr newSize, ptr = 0 ∨ (held P ls s ptr).isSome →
    (chain P ls).admitsRealloc (world ls s) ptr newSize = true →
    P.alignment ∣ (ralcRealloc (chain P ls).ralc (world ls s) ptr newSize).1.ptr

theorem run_aligned {s : Client ls} {ops : List (Op ls)} (header : P.alignment ∣ Gen.sizeofBlock P)
    (region : 0 < buf ∧ buf + cap ≤ P.sizeMax) (asserts : ∀ l ∈ ls, l.InitAsserts P)
    (start' : P.alignment ∣ buf) (ran : run (step P ls) (start P buf cap m ls) ops = some s) :
    Aligned P ls s := by
  have chained := (run_inv (Gen.Grain.aligned header) region asserts ran).chain
  have placed : ∀ ls, Placed P (ChainOk (Gen.Grain.aligned header) buf cap ls) :=
    chain_placed header start'
  refine ⟨fun q live => ?_, ?_, fun ptr newSize live admits => ?_⟩
  · obtain ⟨block, found⟩ := Option.isSome_iff_exists.mp live
    exact placed ls _ _ _ _ chained found
  · refine everywhere _ (fun ls w L chained size admits => ?_) chained
    exact granted_aligned (placed ls) ((chain_meets ls).alloc chained admits)
  · rcases live with rfl | live
    · exact granted_aligned (placed ls) ((chain_meets ls).realloc_null chained admits)
    · obtain ⟨⟨_, size⟩, found⟩ := Option.isSome_iff_exists.mp live
      exact regranted_aligned (placed ls) ((chain_meets ls).realloc chained found admits)

/-- The first object of a ralcGen lies behind one header. -/
theorem first_alloc (room : Gen.sizeofBlock P + P.alignment ≤ cap) (fits : cap ≤ P.sizeMax) :
    (Gen.ralcGenAlloc P (Gen.ralcGenInit buf cap) m 1).1.ptr = buf + Gen.sizeofBlock P := by
  have positive := P.alignment_pos
  have small := P.alignment_le
  have large := P.sizeMax_ge
  have rounded : P.ratAlign 1 < 1 + P.alignment := Platform.ratAlign_lt (by omega)
  have enough : ¬P.sub cap 0 < P.add (Gen.sizeofBlock P) (P.ratAlign 1) := by
    rw [Platform.sub_of_le (Nat.zero_le _) fits, Platform.add_of_le (by omega)]
    omega
  exact congrArg (fun answer : Reply × Gen.RalcGen × Mem => answer.1.ptr) (if_neg enough)

/-- Whatever a chain over an aligned buffer returns in whatever run is aligned, exactly
on the platforms where the bare header of ralcGen is a multiple of `RAT_ALIGNMENT`. A
platform here has a `size_t` of 4 or 8 bytes and a `RAT_ALIGNMENT` from 2 to 4096. -/
theorem aligned_iff (P : Platform) :
    (∀ (ls : List Layer) (buf cap : Nat) (m : Mem) (ops : List (Op ls)) (s : Client ls),
      0 < buf ∧ buf + cap ≤ P.sizeMax → (∀ l ∈ ls, l.InitAsserts P) → P.alignment ∣ buf →
      run (step P ls) (start P buf cap m ls) ops = some s → Aligned P ls s) ↔
    P.alignment ∣ 2 * P.sizeT := by
  constructor
  · intro always
    have positive := P.alignment_pos
    have small := P.alignment_le
    have large := P.sizeMax_ge
    have header : Gen.sizeofBlock P ≤ 16 := by
      have := P.sizeT_cases
      rw [Gen.sizeofBlock]
      omega
    have aligned := always [] P.alignment (Gen.sizeofBlock P + P.alignment) (fun _ => 0) [] _
      (by omega) (by simp) (Nat.dvd_refl _) rfl
    have rounded : P.ratAlign 1 < 1 + P.alignment := Platform.ratAlign_lt (by omega)
    have first := aligned.alloc 1 (decide_eq_true ⟨by omega, by omega⟩)
    have at_first : (ralcAlloc (chain P []).ralc (world [] (start P P.alignment
        (Gen.sizeofBlock P + P.alignment) (fun _ => 0) [])) 1).1.ptr = P.alignment + Gen.sizeofBlock P :=
      first_alloc (Nat.le_refl _) (by omega)
    rw [at_first] at first
    exact (Nat.dvd_add_right (Nat.dvd_refl _)).mp first
  · intro header ls buf cap m ops s region asserts aligned ran
    exact run_aligned header region asserts aligned ran

/-- A 32-bit target whose widest scalar has 16 bytes. -/
def ilp32 : Platform where
  sizeT := 4
  alignment := 16
  sizeT_cases := Or.inl rfl
  alignment_pow := Platform.sixteen_pow
  alignment_le := Platform.sixteen_le

/-- An aligned buffer, a misaligned object. -/
theorem misaligned_ilp32 : ilp32.alignment ∣ 4096 ∧ ∃ s q,
    run (step ilp32 []) (start ilp32 4096 256 (fun _ => 0) []) [.alloc 16] = some s ∧
      (held ilp32 [] s q).isSome ∧ ¬ilp32.alignment ∣ q := by
  have facts : (run (step ilp32 []) (start ilp32 4096 256 (fun _ => 0) []) [.alloc 16]).map
      (fun s => (held ilp32 [] s 4104).isSome) = some true := by decide +kernel
  obtain ⟨s, ran, live⟩ := Option.map_eq_some_iff.mp facts
  exact ⟨by decide, s, 4104, ran, live, by decide⟩

end Ratlib.Tower
