import Ratlib.Tower.Arenas
import Ratlib.Tower.Pools
import Ratlib.Tower.Lists

/-! Chains of any depth meet the contract, by induction on the layers. -/
namespace Ratlib.Tower

variable {P : Platform} {g : Gen.Grain P} {buf cap : Nat} {ls : List Layer}

/-- The ralcGen at the bottom: its buffer never moves. -/
def BufferOk (g : Gen.Grain P) (buf cap : Nat) (w : World Gen.RalcGen) (L : Blocks Unit) : Prop :=
  Gen.GenOk g cap w L ∧ w.state.buf = buf

/-- The objects `L` of the top layer are live in a chain over a ralcGen that keeps `ok`. -/
def ChainOver (P : Platform) (ok : World Gen.RalcGen → Blocks Unit → Prop) :
    (ls : List Layer) → World (State ls) → Blocks Unit → Prop
  | [] => ok
  | .arena _ :: ls => ArenaOk P (ChainOver P ok ls)
  | .pool _ _ :: ls => PoolOk P (ChainOver P ok ls)
  | .list :: ls => ListOk P (ChainOver P ok ls)

/-- The objects `L` of the top layer are live in a chain that is well formed throughout. -/
def ChainOk (g : Gen.Grain P) (buf cap : Nat) :
    (ls : List Layer) → World (State ls) → Blocks Unit → Prop
  | [] => BufferOk g buf cap
  | .arena _ :: ls => ArenaOk P (ChainOk g buf cap ls)
  | .pool _ _ :: ls => PoolOk P (ChainOk g buf cap ls)
  | .list :: ls => ListOk P (ChainOk g buf cap ls)

theorem buffer_meets : Meets P (ralcGeneral P) (BufferOk g buf cap) := by
  refine (ralcGeneral_meets g cap).and (I := fun w => w.state.buf = buf) ?_
  constructor
  case client => exact fun same _ _ => same
  case alloc => exact fun same _ _ => (Gen.ralcGenAlloc_region _).1.trans same
  case realloc_null => exact fun {_ _ size} same _ _ => (Gen.ralcGenRealloc_region 0 size).1.trans same
  case realloc => exact fun same _ _ _ => (Gen.ralcGenRealloc_region _ _).1.trans same
  case free => exact fun same _ _ => (Gen.blockMerge_region _).1.trans same

section Over
variable {ok : World Gen.RalcGen → Blocks Unit → Prop} {m : Mem}

theorem chainOver_meets (base : Meets P (ralcGeneral P) ok) (ls : List Layer) :
    Meets P (chain P ls) (ChainOver P ok ls) := by
  induction ls with
  | nil => exact base
  | cons l ls ih =>
    cases l with
    | arena initChunkCap => exact ralcArena_meets ih
    | pool elemSize initChunkCap => exact ralcPool_meets ih
    | list => exact ralcList_meets ih

theorem chainOver_init (base : ok ⟨Gen.ralcGenInit buf cap, m⟩ fun _ => none)
    (asserts : ∀ l ∈ ls, l.InitAsserts P) :
    ChainOver P ok ls ⟨init P buf cap ls, m⟩ fun _ => none := by
  induction ls with
  | nil => exact base
  | cons l ls ih =>
    have below := ih fun l member => asserts l (List.mem_cons_of_mem _ member)
    have top := asserts l List.mem_cons_self
    cases l with
    | arena initChunkCap => exact ⟨_, [], [], Arena.inv_start below, by simp⟩
    | pool elemSize initChunkCap => exact ⟨_, [], [], [], Pool.holds_init top below, by simp⟩
    | list => exact ⟨_, [], ⟨below, List.nodup_nil, by simp, ⟨rfl, rfl⟩, rfl⟩, by simp⟩

end Over

theorem chainOk_over (ls : List Layer) : ChainOk g buf cap ls = ChainOver P (BufferOk g buf cap) ls := by
  induction ls with
  | nil => rfl
  | cons l ls ih =>
    cases l with
    | arena initChunkCap => exact congrArg (ArenaOk P) ih
    | pool elemSize initChunkCap => exact congrArg (PoolOk P) ih
    | list => exact congrArg (ListOk P) ih

/-- Every chain of library allocators is an allocator as ralc.h describes it. -/
theorem chain_meets (ls : List Layer) : Meets P (chain P ls) (ChainOk g buf cap ls) := by
  rw [chainOk_over]
  exact chainOver_meets buffer_meets ls

/-- The chain after the init functions. -/
theorem chain_init (region : 0 < buf ∧ buf + cap ≤ P.sizeMax) (asserts : ∀ l ∈ ls, l.InitAsserts P)
    (m : Mem) : ChainOk g buf cap ls ⟨init P buf cap ls, m⟩ fun _ => none := by
  rw [chainOk_over]
  exact chainOver_init ⟨Gen.genOk_init g region m, rfl⟩ asserts

end Ratlib.Tower
