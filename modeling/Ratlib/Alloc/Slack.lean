import Ratlib.Alloc.Interface

/-! Allocators round sizes up. How much larger than its request a block may be bounds what
the blocks of a client with small requests can grow to. -/
namespace Ratlib

/-- `A` reports no more than `extra` bytes beyond the size asked for. -/
structure Tight (A : Ralc σ) (owner : ι) (ok : World σ → Blocks ι → Prop) (limit extra : Nat) : Prop where
  alloc : ok w L → size ≤ limit → (ralcAlloc A w size).1.out = some actual → actual ≤ size + extra
  realloc : ok w L → (ptr = 0 ∨ ∃ oldSize, L ptr = some ⟨owner, oldSize⟩) → newSize ≤ limit →
    (ralcRealloc A w ptr newSize).1.out = some actual → actual ≤ newSize + extra

/-- Blocks of `owner` have at most `bound` bytes. -/
def Sized {ι : Type v} (owner : ι) (bound : Nat) (L : Blocks ι) : Prop :=
  ∀ a size, L a = some ⟨owner, size⟩ → size ≤ bound

variable {P : Platform} {σ : Type u} {ι : Type v} {A : Ralc σ} {owner : ι}
  {ok : World σ → Blocks ι → Prop} {w : World σ} {L : Blocks ι}

theorem Sized.release (sized : Sized owner bound L) (ptr : Nat) : Sized owner bound (L.release ptr) :=
  fun a size held => sized a size (Blocks.release_some held).2

theorem Sized.grant (sized : Sized owner bound L) (small : size ≤ bound) (ptr : Nat) :
    Sized owner bound (L.grant ptr owner size) := by
  intro a size' held
  rcases Blocks.grant_some held with ⟨-, same⟩ | ⟨-, held⟩
  · cases same
    exact small
  · exact sized a size' held

/-- An allocator with little slack hands out small blocks for small requests. -/
theorem Serves.sized (serves : Serves P A owner ok limit) (tight : Tight A owner ok limit extra) :
    Serves P A owner (fun w L => ok w L ∧ Sized owner (limit + extra) L) limit where
  bounds before := serves.bounds before.1
  separate before := serves.separate before.1
  client before same := ⟨serves.client before.1 same, before.2⟩
  alloc before fits := by
    refine (serves.alloc before.1 fits).and before.2 fun actual out => before.2.grant ?_ _
    exact Nat.le_trans (tight.alloc before.1 fits out) (Nat.add_le_add_right fits extra)
  realloc_null before fits := by
    refine (serves.realloc_null before.1 fits).and before.2 fun actual out => before.2.grant ?_ _
    exact Nat.le_trans (tight.realloc before.1 (.inl rfl) fits out) (Nat.add_le_add_right fits extra)
  realloc before held fits := by
    refine (serves.realloc before.1 held fits).and before.2 fun actual out => (before.2.release _).grant ?_ _
    exact Nat.le_trans (tight.realloc before.1 (.inr ⟨_, held⟩) fits out) (Nat.add_le_add_right fits extra)
  free before held := by
    obtain ⟨same, freed⟩ := serves.free before.1 held
    exact ⟨same, freed, before.2.release _⟩

theorem Tight.relabel {κ : Type x} {g : κ → ι} {owner : κ} (tight : Tight A (g owner) ok limit extra) :
    Tight A owner (fun w L => ok w (L.relabel g)) limit extra where
  alloc before := tight.alloc before
  realloc before held := tight.realloc before (held.imp_right fun ⟨_, there⟩ => ⟨_, Blocks.relabel_some there⟩)

theorem Tight.lower (tight : Tight A owner ok limit extra) (smaller : limit' ≤ limit) :
    Tight A owner ok limit' extra where
  alloc before fits := tight.alloc before (fits.trans smaller)
  realloc before held fits := tight.realloc before held (fits.trans smaller)

theorem Serves.lower (serves : Serves P A owner ok limit) (smaller : limit' ≤ limit) :
    Serves P A owner ok limit' where
  bounds := serves.bounds
  separate := serves.separate
  client := serves.client
  alloc before fits := serves.alloc before (fits.trans smaller)
  realloc_null before fits := serves.realloc_null before (fits.trans smaller)
  realloc before held fits := serves.realloc before held (fits.trans smaller)
  free := serves.free

end Ratlib
