import Ratlib.Alloc.Interface

/-! The contract does not say what a new block holds: an allocator with the same replies
whose new blocks hold other bytes meets it as well. -/
namespace Ratlib

variable {P : Platform} {σ : Type u} {ι : Type v} {A : Ralc σ} {owner : ι}
  {ok : World σ → Blocks ι → Prop} {w w' : World σ} {L : Blocks ι} {reply : Reply}

def fill (bytes : Mem) (reply : Reply) (m : Mem) : Mem :=
  if reply.ptr = 0 then m
  else fun x => if reply.ptr ≤ x ∧ x < reply.ptr + reply.actual 0 then bytes x else m x

/-- The allocator that answers as `A` does and whose new blocks hold `bytes`. -/
def scribbled (A : Ralc σ) (bytes : Mem) : Ralc σ where
  alloc w size :=
    let (reply, w') := ralcAlloc A w size
    (reply, { w' with mem := fill bytes reply w'.mem })
  realloc w ptr newSize :=
    let (reply, w') := ralcRealloc A w ptr newSize
    (reply, if ptr = 0 then { w' with mem := fill bytes reply w'.mem } else w')
  free := A.free

theorem scribbled_alloc (alloc : ralcAlloc A w size = (reply, w')) (bytes : Mem) :
    ralcAlloc (scribbled A bytes) w size = (reply, { w' with mem := fill bytes reply w'.mem }) := by
  rw [ralcAlloc] at alloc
  simp only [ralcAlloc, scribbled, alloc]

theorem scribbled_realloc (nonnull : ptr ≠ 0) (bytes : Mem) :
    ralcRealloc (scribbled A bytes) w ptr newSize = ralcRealloc A w ptr newSize := by
  simp only [ralcRealloc, scribbled, if_neg nonnull]

theorem fill_inside {m : Mem} (nonnull : reply.ptr ≠ 0)
    (inside : reply.ptr ≤ x ∧ x < reply.ptr + reply.actual 0) (bytes : Mem) :
    fill bytes reply m x = bytes x := by
  rw [fill, if_neg nonnull, if_pos inside]

/-- A successful call writes the size, whatever was there before. -/
theorem Granted.actual_eq (granted : Granted ok owner w L size (reply, w')) (nonnull : reply.ptr ≠ 0)
    (before : Nat) : reply.actual before = reply.actual 0 := by
  obtain ⟨-, outcome⟩ := granted
  rw [if_neg nonnull] at outcome
  obtain ⟨actual, out, -⟩ := outcome
  dsimp only at out
  simp only [Reply.actual, out, Option.getD_some]

theorem Granted.filled (serves : Serves P A owner ok limit)
    (granted : Granted ok owner w L size (reply, w')) (bytes : Mem) :
    Granted ok owner w L size (reply, { w' with mem := fill bytes reply w'.mem }) := by
  obtain ⟨same, outcome⟩ := granted
  dsimp only at same outcome
  by_cases null : reply.ptr = 0
  · rw [if_pos null] at outcome
    simp only [Granted, fill, if_pos null]
    exact ⟨same, outcome⟩
  · rw [if_neg null] at outcome
    obtain ⟨actual, out, large, fresh, kept⟩ := outcome
    have size : reply.actual 0 = actual := by rw [Reply.actual, out, Option.getD_some]
    have outside : ∀ x, x < reply.ptr ∨ reply.ptr + actual ≤ x → fill bytes reply w'.mem x = w'.mem x := by
      intro x away
      rw [fill, if_neg null, size, if_neg (by omega)]
    obtain ⟨others, filled⟩ := serves.fill same fresh kept outside
    simp only [Granted, if_neg null]
    exact ⟨others, actual, out, large, fresh, filled⟩

theorem scribbled_serves (serves : Serves P A owner ok limit) (bytes : Mem) :
    Serves P (scribbled A bytes) owner ok limit where
  bounds := serves.bounds
  separate := serves.separate
  client := serves.client
  alloc before small := (serves.alloc before small).filled serves bytes
  realloc_null before small := (serves.realloc_null before small).filled serves bytes
  realloc before held small := by
    have positive := (serves.bounds before held).1
    have regranted := serves.realloc before held small
    simp only [scribbled, ralcRealloc, if_neg (Nat.ne_of_gt positive)]
    exact regranted
  free := serves.free

end Ratlib
