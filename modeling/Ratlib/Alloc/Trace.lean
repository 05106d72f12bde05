import Ratlib.Alloc.Interface

/-! An allocator that also writes down which blocks it hands out and takes back. Its
answers are those of the allocator it watches, so what a client does over it is what
the client does over that one. -/
namespace Ratlib

inductive Event where
  | granted (ptr : Nat)
  | freed (ptr : Nat)

namespace Event

def grant? : Event → Option Nat
  | granted ptr => some ptr
  | freed _ => none

def free? : Event → Option Nat
  | granted _ => none
  | freed ptr => some ptr

end Event

/-- The blocks handed out, and the blocks taken back, in order. -/
def grants (events : List Event) : List Nat := events.filterMap Event.grant?
def frees (events : List Event) : List Nat := events.filterMap Event.free?

/-- The blocks handed out and not taken back, the latest first, as long as every block
taken back is the latest of them. -/
def outstanding : List Event → List Nat → Option (List Nat)
  | [], out => some out
  | .granted ptr :: events, out => outstanding events (ptr :: out)
  | .freed ptr :: events, latest :: out => if ptr = latest then outstanding events out else none
  | .freed _ :: _, [] => none

theorem outstanding_append (es fs : List Event) (out : List Nat) :
    outstanding (es ++ fs) out = (outstanding es out).bind (outstanding fs) := by
  induction es generalizing out with
  | nil => rfl
  | cons e es ih =>
    cases e with
    | granted ptr => exact ih (ptr :: out)
    | freed ptr =>
      cases out with
      | nil => rfl
      | cons latest out =>
        simp only [List.cons_append, outstanding]
        split
        · exact ih out
        · rfl

theorem outstanding_freed (blocks out : List Nat) :
    outstanding (blocks.map .freed) (blocks ++ out) = some out := by
  induction blocks with
  | nil => rfl
  | cons block blocks ih => simpa [outstanding] using ih

/-- Every block handed out or outstanding before is taken back or outstanding after. -/
theorem outstanding_perm {es : List Event} (kept : outstanding es out = some out') :
    (frees es ++ out').Perm (grants es ++ out) := by
  induction es generalizing out with
  | nil =>
    cases kept
    exact List.Perm.refl _
  | cons e es ih =>
    cases e with
    | granted ptr =>
      have rest := ih kept
      exact rest.trans List.perm_middle
    | freed ptr =>
      cases out with
      | nil => cases kept
      | cons latest out =>
        simp only [outstanding] at kept
        split at kept
        case isTrue same =>
          subst same
          exact ((ih kept).cons ptr).trans List.perm_middle.symm
        case isFalse => cases kept

variable {σ : Type u} {ι : Type v}

def untraced (w : World (σ × τ)) : World σ := ⟨w.state.1, w.mem⟩

/-- `B` answers and writes as `A` does, beside a record that it keeps. -/
structure Beside (A : Ralc σ) (B : Ralc (σ × τ)) : Prop where
  alloc (w : World (σ × τ)) (size : Nat) :
    ((ralcAlloc B w size).1, untraced (ralcAlloc B w size).2) = ralcAlloc A (untraced w) size
  realloc (w : World (σ × τ)) (ptr newSize : Nat) :
    ((ralcRealloc B w ptr newSize).1, untraced (ralcRealloc B w ptr newSize).2) =
      ralcRealloc A (untraced w) ptr newSize
  free (w : World (σ × τ)) (ptr : Nat) : untraced (ralcFree B w ptr) = ralcFree A (untraced w) ptr

theorem Beside.serves {P : Platform} {A : Ralc σ} {B : Ralc (σ × τ)} {owner : ι}
    {ok : World σ → Blocks ι → Prop} (beside : Beside A B) (serves : Serves P A owner ok limit) :
    Serves P B owner (fun w L => ok (untraced w) L) limit where
  bounds := serves.bounds
  separate := serves.separate
  client := serves.client
  alloc before fits := by
    have granted := serves.alloc before fits
    rwa [← beside.alloc] at granted
  realloc_null before fits := by
    have granted := serves.realloc_null before fits
    rwa [← beside.realloc] at granted
  realloc before held fits := by
    have regranted := serves.realloc before held fits
    rwa [← beside.realloc] at regranted
  free before held := by
    have freed := serves.free before held
    rwa [← beside.free] at freed

/-- What a successful reply adds to the trace. -/
def answer (freed : List Event) (reply : Reply) : List Event :=
  if reply.ptr = 0 then [] else freed ++ [.granted reply.ptr]

def traced (A : Ralc σ) : Ralc (σ × List Event) where
  alloc w size :=
    let (reply, w') := ralcAlloc A (untraced w) size
    (reply, ⟨(w'.state, w.state.2 ++ answer [] reply), w'.mem⟩)
  realloc w ptr newSize :=
    let (reply, w') := ralcRealloc A (untraced w) ptr newSize
    (reply, ⟨(w'.state, w.state.2 ++ answer (if ptr = 0 then [] else [.freed ptr]) reply), w'.mem⟩)
  free w ptr :=
    let w' := ralcFree A (untraced w) ptr
    ⟨(w'.state, w.state.2 ++ [.freed ptr]), w'.mem⟩

theorem traced_beside (A : Ralc σ) : Beside A (traced A) := ⟨fun _ _ => rfl, fun _ _ _ => rfl, fun _ _ => rfl⟩

end Ratlib
