import Ratlib.Clients.Allocators

/-! Any number of components over one allocator, of any kinds and with their calls in any
order: each does what it does alone, and sees nothing of the others. -/
namespace Ratlib

open Hash

/-- The components, with the arguments of their init functions. -/
inductive Kind (P : Platform) where
  | objects
  | rdyn (elemSize : Nat) (positive : 0 < elemSize)
  | rlist
  | rmap (key0 key1 : UInt32) (hash : Option (List UInt8 → RHash → UInt32))
      (equals : Option (List UInt8 → List UInt8 → Bool))
      (agree : Rmap.Compatible (Rmap.getHashVal (Rmap.rmapInit P key0 key1 hash equals))
        (Rmap.rmapInit P key0 key1 hash equals).equals)
  | ralcArena (initChunkCap : Nat)
  | ralcPool (elemSize initChunkCap : Nat) (asserts : Pool.InitAsserts P elemSize)

namespace Kind

variable {P : Platform} {σ : Type u} {ι : Type v} {I : Type w}

def client (A : Ralc σ) (limit : Nat) (ι : Type v) : Kind P → Client P A limit ι
  | objects => Objects.client P A limit ι
  | rdyn elemSize _ => Dyn.client P A limit elemSize ι
  | rlist => Rlist.client P A limit ι
  | rmap _ _ _ _ agree => Rmap.client P A limit ι _ _ agree
  | ralcArena _ => Arena.client P A limit ι
  | ralcPool _ _ _ => Pool.client P A limit ι

def start (A : Ralc σ) (limit : Nat) (ι : Type v) (w : World σ) : (k : Kind P) → (k.client A limit ι).State
  | objects => (⟨w, fun _ => none⟩ : Objects.State σ)
  | rdyn elemSize _ => Dyn.start elemSize w
  | rlist => Rlist.start w
  | rmap key0 key1 hash equals _ => Rmap.start P key0 key1 hash equals w
  | ralcArena initChunkCap => Arena.start initChunkCap w
  | ralcPool elemSize initChunkCap _ => Pool.start P elemSize initChunkCap w

variable {A : Ralc σ} {limit : Nat} {ok : World σ → Blocks ι → Prop} {w : World σ}

variable {owner : ι} {L : Blocks ι}

/-- Labels for the blocks of the components, beside those of all others. -/
def ownerOf (owner : ι) : ι ⊕ I → ι := Sum.elim id fun _ => owner

section Run
variable [DecidableEq I] {kinds : I → Kind P} {s : Shared fun i => (kinds i).client A limit (ι ⊕ I)}
  {ops : List ((i : I) × ((kinds i).client A limit (ι ⊕ I)).Op)}

end Run

end Kind
end Ratlib
