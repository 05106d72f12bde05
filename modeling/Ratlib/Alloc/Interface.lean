import Ratlib.Platform
import Ratlib.Library.Blocks

/-! The type-erased allocator of ralc.h, as its clients see it, and the contract
that header states. An allocator runs in a world of its own state and the shared
memory. The contract is about any such allocator: it may fail any call, round
sizes up, move a block on realloc, or refuse every realloc. -/
namespace Ratlib

/-- The pointer a call returns, zero for NULL, and what it wrote through
`out_actualSize`, if it wrote anything. -/
structure Reply where
  ptr : Nat
  out : Option Nat

namespace Reply

def null : Reply := ⟨0, none⟩

/-- The variable behind `out_actualSize` after the call. -/
def actual (reply : Reply) (before : Nat) : Nat := reply.out.getD before

end Reply

structure World (σ : Type u) where
  state : σ
  mem : Mem

/-- `ralc_iface`: what `ralc_alloc`, `ralc_realloc` and `ralc_free` dispatch to. -/
structure Ralc (σ : Type u) where
  alloc : World σ → Nat → Reply × World σ
  realloc : World σ → Nat → Nat → Reply × World σ
  free : World σ → Nat → World σ

def ralcAlloc (A : Ralc σ) (w : World σ) (size : Nat) : Reply × World σ := A.alloc w size
def ralcRealloc (A : Ralc σ) (w : World σ) (ptr newSize : Nat) : Reply × World σ :=
  A.realloc w ptr newSize
def ralcFree (A : Ralc σ) (w : World σ) (ptr : Nat) : World σ := A.free w ptr

variable {σ : Type u} {ι : Type v}

/-- The outcomes of a request for `size` new bytes. -/
def Granted (ok : World σ → Blocks ι → Prop) (owner : ι) (w : World σ) (L : Blocks ι) (size : Nat)
    (result : Reply × World σ) : Prop :=
  Set.EqOn w.mem result.2.mem L.bytes ∧
    if result.1.ptr = 0 then ok result.2 L
    else ∃ actual, result.1.out = some actual ∧ size ≤ actual ∧ L result.1.ptr = none ∧
      ok result.2 (L.grant result.1.ptr owner actual)

/-- The outcomes of a request to resize the block at `ptr`, of `oldSize` bytes.
On failure the old block stays, whatever was written through `out_actualNewSize`. -/
def Regranted (ok : World σ → Blocks ι → Prop) (owner : ι) (w : World σ) (L : Blocks ι)
    (ptr oldSize newSize : Nat) (result : Reply × World σ) : Prop :=
  Set.EqOn w.mem result.2.mem (L.release ptr).bytes ∧
    if result.1.ptr = 0 then Set.EqOn w.mem result.2.mem L.bytes ∧ ok result.2 L
    else ∃ actual, result.1.out = some actual ∧ newSize ≤ actual ∧
      L.release ptr result.1.ptr = none ∧
      ok result.2 ((L.release ptr).grant result.1.ptr owner actual) ∧
      ∀ i < min oldSize newSize, result.2.mem (result.1.ptr + i) = w.mem (ptr + i)

section And
variable {ok : World σ → Blocks ι → Prop} {I : World σ → Blocks ι → Prop} {owner : ι} {w : World σ} {L : Blocks ι}
  {result : Reply × World σ}

theorem Granted.and (granted : Granted ok owner w L size result) (refused : I result.2 L)
    (given : ∀ actual, result.1.out = some actual → I result.2 (L.grant result.1.ptr owner actual)) :
    Granted (fun w L => ok w L ∧ I w L) owner w L size result := by
  obtain ⟨same, outcome⟩ := granted
  refine ⟨same, ?_⟩
  split at outcome
  case isTrue null =>
    rw [if_pos null]
    exact ⟨outcome, refused⟩
  case isFalse some =>
    obtain ⟨actual, out, large, fresh, kept⟩ := outcome
    rw [if_neg some]
    exact ⟨actual, out, large, fresh, kept, given actual out⟩

theorem Regranted.and (regranted : Regranted ok owner w L ptr oldSize newSize result) (refused : I result.2 L)
    (given : ∀ actual, result.1.out = some actual → I result.2 ((L.release ptr).grant result.1.ptr owner actual)) :
    Regranted (fun w L => ok w L ∧ I w L) owner w L ptr oldSize newSize result := by
  obtain ⟨same, outcome⟩ := regranted
  refine ⟨same, ?_⟩
  split at outcome
  case isTrue null =>
    rw [if_pos null]
    exact ⟨outcome.1, outcome.2, refused⟩
  case isFalse some =>
    obtain ⟨actual, out, large, fresh, kept, bytes⟩ := outcome
    rw [if_neg some]
    exact ⟨actual, out, large, fresh, ⟨kept, given actual out⟩, bytes⟩

end And

/-- `A` meets the contract of ralc.h for the blocks of `owner`, for requests of up
to `limit` bytes. `ok w L` says that `L` are the blocks handed out and not freed in
the world `w`; blocks of other owners are left alone. -/
structure Serves (P : Platform) (A : Ralc σ) (owner : ι) (ok : World σ → Blocks ι → Prop)
    (limit : Nat) : Prop where
  bounds : ok w L → L a = some block → 0 < a ∧ a + block.size ≤ P.sizeMax
  separate : ok w L → L.Separate
  client : ok w L → Set.EqOn w.mem m' L.bytesᶜ → ok { w with mem := m' } L
  alloc : ok w L → size ≤ limit → Granted ok owner w L size (ralcAlloc A w size)
  realloc_null : ok w L → size ≤ limit → Granted ok owner w L size (ralcRealloc A w 0 size)
  realloc : ok w L → L ptr = some ⟨owner, oldSize⟩ → newSize ≤ limit →
    Regranted ok owner w L ptr oldSize newSize (ralcRealloc A w ptr newSize)
  free : ok w L → L ptr = some ⟨owner, size⟩ →
    Set.EqOn w.mem (ralcFree A w ptr).mem (L.release ptr).bytes ∧
      ok (ralcFree A w ptr) (L.release ptr)

/-- Writes inside one held block are a client's own business. -/
theorem Serves.inside {P : Platform} {A : Ralc σ} {owner : ι} {ok : World σ → Blocks ι → Prop}
    {w : World σ} {L : Blocks ι} (serves : Serves P A owner ok limit) (before : ok w L)
    (held : L a = some block) (outside : ∀ x, x < a ∨ a + block.size ≤ x → m x = w.mem x) :
    ok { w with mem := m } L := by
  apply serves.client before
  intro x away
  refine (outside x ?_).symm
  by_contra inside
  exact away (Blocks.mem_bytes held (by omega))

/-- What is written into a new block leaves the others alone. -/
theorem Serves.fill {P : Platform} {A : Ralc σ} {owner : ι} {ok : World σ → Blocks ι → Prop}
    {w w' : World σ} {L : Blocks ι} (serves : Serves P A owner ok limit)
    (same : Set.EqOn w.mem w'.mem L.bytes) (fresh : L a = none)
    (granted : ok w' (L.grant a owner actual))
    (outside : ∀ x, x < a ∨ a + actual ≤ x → m x = w'.mem x) :
    Set.EqOn w.mem m L.bytes ∧ ok { w' with mem := m } (L.grant a owner actual) := by
  refine ⟨fun x member => ?_, serves.inside granted Blocks.grant_same outside⟩
  rw [same member, outside x ((serves.separate granted).away fresh member)]

/-- A client may tell its blocks apart by finer labels than the allocator's owner. -/
theorem Serves.relabel {P : Platform} {A : Ralc σ} {κ : Type w} {g : κ → ι} {owner : κ}
    {ok : World σ → Blocks ι → Prop} (serves : Serves P A (g owner) ok limit) :
    Serves P A owner (fun w L => ok w (L.relabel g)) limit where
  bounds before held := serves.bounds before (Blocks.relabel_some held)
  separate before := (serves.separate before).relabel
  client before same := serves.client before (by rwa [Blocks.bytes_relabel])
  alloc before fits := by simpa [Granted] using serves.alloc before fits
  realloc_null before fits := by simpa [Granted] using serves.realloc_null before fits
  realloc before held fits := by
    simpa [Regranted] using serves.realloc before (Blocks.relabel_some held) fits
  free before held := by simpa using serves.free before (Blocks.relabel_some held)

end Ratlib
