import Ratlib.Clients.Sharing
import Ratlib.Tower.Chains

/-! Nothing that is built from the components of the library over a chain of its allocators
writes outside the buffer at the bottom. -/
namespace Ratlib.Tower

variable {P : Platform} {g : Gen.Grain P} {buf cap : Nat} {ls : List Layer} {m : Mem}

section Confine
variable {σ : Type} {C : Checked σ} {ok : World σ → Blocks Unit → Prop} {inside : Set Nat}

/-- What an allocator writes itself lies inside, and so do the blocks it hands out. -/
structure Confines (C : Checked σ) (ok : World σ → Blocks Unit → Prop) (inside : Set Nat) : Prop where
  blocks : ok w L → L.bytes ⊆ inside
  alloc : ok w L → C.admitsAlloc w size = true →
    Set.EqOn w.mem (ralcAlloc C.ralc w size).2.mem insideᶜ
  realloc_null : ok w L → C.admitsRealloc w 0 size = true →
    Set.EqOn w.mem (ralcRealloc C.ralc w 0 size).2.mem insideᶜ
  realloc : ok w L → L ptr = some ⟨(), oldSize⟩ → C.admitsRealloc w ptr newSize = true →
    Set.EqOn w.mem (ralcRealloc C.ralc w ptr newSize).2.mem insideᶜ
  free : ok w L → L ptr = some ⟨(), size⟩ → Set.EqOn w.mem (ralcFree C.ralc w ptr).mem insideᶜ

/-- The memory outside may be fixed. -/
theorem Confines.preserves (confines : Confines C ok inside) (m : Mem) :
    Preserves C ok fun w => Set.EqOn m w.mem insideᶜ where
  client fixed before same :=
    fixed.trans (same.mono (Set.compl_subset_compl.mpr (confines.blocks before)))
  alloc fixed before admits := fixed.trans (confines.alloc before admits)
  realloc_null fixed before admits := fixed.trans (confines.realloc_null before admits)
  realloc fixed before held admits := fixed.trans (confines.realloc before held admits)
  free fixed before held := fixed.trans (confines.free before held)

end Confine

section General
open Gen

variable {p p' : RalcGen} {m' : Mem} {bs : List Blk}

end General

variable {ok : World Gen.RalcGen → Blocks Unit → Prop}

/-- All layers of a chain share the memory of the ralcGen at the bottom. -/
theorem ChainOver.bottom {w : World (State ls)} {L : Blocks Unit} (whole : ChainOver P ok ls w L) :
    ∃ state K, ok ⟨state, w.mem⟩ K := by
  induction ls generalizing L with
  | nil => exact ⟨w.state, L, whole⟩
  | cons l ls ih =>
    cases l with
    | arena initChunkCap =>
      obtain ⟨K, cs, rs, holds⟩ := whole
      exact ih holds.inv.holding.holds.ok
    | pool elemSize initChunkCap =>
      obtain ⟨K, cs, free, live, pool⟩ := whole
      exact ih pool.holds.ok
    | list =>
      obtain ⟨K, objs, list⟩ := whole
      exact ih list.holds.ok

def listed : List Layer := [.list, .arena 256]

end Ratlib.Tower
