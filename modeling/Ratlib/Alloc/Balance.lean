import Ratlib.Alloc.Ledger
import Mathlib.Algebra.Ring.Int.Defs
import Mathlib.Data.List.Perm.Subperm

/-! How many blocks a client has, by the ledger of its calls. A client that points to as many
blocks as it has, all of them live, has no other block: it leaks nothing. -/
namespace Ratlib

variable {σ : Type u} {ι : Type v} {κ : Type w} {P : Platform} {A : Ralc σ} {L : Blocks (ι ⊕ κ)}
  {calls : List (κ × Call)} {c : κ} {call : Call} {live blocks : List Nat}

/-- What a call adds to the number of live blocks. -/
def Call.drift : Call → Int
  | .alloc ptr => if ptr = 0 then 0 else 1
  | .realloc .. => 0
  | .free _ => -1

theorem length_after (after : call.after live = some live') :
    (live'.length : Int) = live.length + call.drift := by
  cases call with
  | alloc ptr =>
    simp only [Call.after, Call.drift] at after ⊢
    split at after
    case isTrue null =>
      cases after
      rw [if_pos null, Int.add_zero]
    case isFalse given =>
      split at after
      · cases after
      · cases after
        rw [if_neg given, List.length_cons]
        omega
  | realloc ptr newPtr =>
    simp only [Call.after, Call.drift, Int.add_zero] at after ⊢
    split at after
    case isTrue => cases after
    case isFalse member =>
      have positive := List.length_pos_of_mem (not_not.mp member)
      have erased := List.length_erase_of_mem (not_not.mp member)
      split at after
      · cases after
        rfl
      · split at after
        · cases after
        · cases after
          rw [List.length_cons]
          omega
  | free ptr =>
    simp only [Call.after, Call.drift] at after ⊢
    split at after
    case isTrue member =>
      have positive := List.length_pos_of_mem member
      have erased := List.length_erase_of_mem member
      cases after
      omega
    case isFalse => cases after

variable [DecidableEq κ]

/-- The blocks a client was given, less those it gave back. -/
def balance (c : κ) (calls : List (κ × Call)) : Int :=
  ((calls.filter fun call => call.1 = c).map fun call => call.2.drift).sum

theorem balance_concat (calls : List (κ × Call)) (call : Call) :
    balance c (calls ++ [(c, call)]) = balance c calls + call.drift := by
  simp [balance]

theorem liveOf_balance (found : liveOf c calls = some live) : (live.length : Int) = balance c calls := by
  induction calls using List.reverseRecOn generalizing live with
  | nil =>
    cases found
    rfl
  | append_singleton calls entry ih =>
    obtain ⟨d, call⟩ := entry
    rw [liveOf_append] at found
    split at found
    case isTrue same =>
      subst same
      obtain ⟨before, there, after⟩ := Option.bind_eq_some_iff.mp found
      rw [length_after after, ih there, balance_concat]
    case isFalse other =>
      rw [ih found]
      simp [balance, other]

section Watched
variable {w w' : World (σ × List (κ × Call))}

theorem balance_alloc (result : ralcAlloc (watched A c) w size = (reply, w')) :
    balance c w'.state.2 = balance c w.state.2 + if reply.ptr = 0 then 0 else 1 := by
  cases result
  exact balance_concat ..

theorem balance_asked : balance c (ralcAlloc (watched A c) w size).2.state.2 =
    balance c w.state.2 + if (ralcAlloc (watched A c) w size).1.ptr = 0 then 0 else 1 := balance_alloc rfl

theorem balance_realloc (result : ralcRealloc (watched A c) w ptr newSize = (reply, w')) :
    balance c w'.state.2 = balance c w.state.2 + if ptr = 0 ∧ reply.ptr ≠ 0 then 1 else 0 := by
  cases result
  refine (balance_concat ..).trans (congrArg _ ?_)
  by_cases null : ptr = 0
  · simp only [Call.drift, null, true_and, if_true]
    split <;> simp_all
  · simp [null, Call.drift]

theorem balance_free (w : World (σ × List (κ × Call))) (ptr : Nat) :
    balance c (ralcFree (watched A c) w ptr).state.2 = balance c w.state.2 - 1 :=
  balance_concat ..

end Watched

/-- By the ledger, every call of the client was on a live block of its own, and these are
its live blocks. -/
def OwnsJust (c : κ) (calls : List (κ × Call)) (blocks : List Nat) : Prop :=
  ∃ live, liveOf c calls = some live ∧ live.Perm blocks

/-- As many blocks as the client has, all of them its own, are all it has. -/
theorem Recorded.ownsJust (recorded : Recorded calls L) (nodup : blocks.Nodup)
    (held : ∀ a ∈ blocks, ∃ size, L a = some ⟨.inr c, size⟩) (count : balance c calls = blocks.length) :
    OwnsJust c calls blocks := by
  obtain ⟨live, found, lists⟩ := recorded c
  have within : blocks.Subperm live :=
    List.subperm_of_subset nodup fun a member => (lists.2 a).mpr (held a member)
  have length := liveOf_balance found
  exact ⟨live, found, (within.perm_of_length_le (by omega)).symm⟩

theorem Recorded.none (recorded : Recorded calls L) (settled : balance c calls = 0) :
    liveOf c calls = some [] := by
  obtain ⟨live, found, -⟩ := recorded c
  have length := liveOf_balance found
  rw [found, List.length_eq_zero_iff.mp (show live.length = 0 by omega)]

/-- The blocks of the client apart from all others, with the ledger of its calls. -/
def Audited (ok : World σ → Blocks ι → Prop) (owner : ι) (w : World (σ × List (Unit × Call)))
    (L : Blocks (ι ⊕ Unit)) : Prop :=
  ok (untraced w) (L.relabel (Sum.elim id fun _ => owner)) ∧ Recorded w.state.2 L

end Ratlib
