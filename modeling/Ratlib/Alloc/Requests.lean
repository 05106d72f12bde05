import Ratlib.Alloc.Trace

/-! What an allocator is asked for and what it answers: the last request it granted, and
the list of all requests. -/
namespace Ratlib

structure Request where
  size : Nat
  reply : Reply

variable {σ : Type u} {ι : Type v}

/-- The request in hand after another one was answered. -/
def Request.next (last : Request) (size : Nat) (reply : Reply) : Request :=
  if reply.ptr = 0 then last else ⟨size, reply⟩

/-- An allocator that also remembers its last successful request. -/
def recorded (A : Ralc σ) : Ralc (σ × Request) where
  alloc w size :=
    let (reply, w') := ralcAlloc A (untraced w) size
    (reply, ⟨(w'.state, w.state.2.next size reply), w'.mem⟩)
  realloc w ptr newSize :=
    let (reply, w') := ralcRealloc A (untraced w) ptr newSize
    (reply, ⟨(w'.state, w.state.2.next newSize reply), w'.mem⟩)
  free w ptr :=
    let w' := ralcFree A (untraced w) ptr
    ⟨(w'.state, w.state.2), w'.mem⟩

/-- A successful call reports at least the requested size. -/
structure Reports (A : Ralc σ) : Prop where
  alloc : ∀ w size, (ralcAlloc A w size).1.ptr ≠ 0 →
    ∃ actual, (ralcAlloc A w size).1.out = some actual ∧ size ≤ actual
  realloc : ∀ w ptr newSize, (ralcRealloc A w ptr newSize).1.ptr ≠ 0 →
    ∃ actual, (ralcRealloc A w ptr newSize).1.out = some actual ∧ newSize ≤ actual

/-- The allocator that grants every request, and reports just its size. -/
def granting : Ralc Unit where
  alloc w size := (⟨1, some size⟩, w)
  realloc w _ newSize := (⟨1, some newSize⟩, w)
  free w _ := w

theorem granting_reports : Reports granting where
  alloc _ size _ := ⟨size, rfl, Nat.le_refl _⟩
  realloc _ _ newSize _ := ⟨newSize, rfl, Nat.le_refl _⟩

section Recorded
variable {A : Ralc σ} {w w' : World (σ × Request)}

theorem hand_alloc (result : ralcAlloc (recorded A) w size = (reply, w')) (some : reply.ptr ≠ 0) :
    w'.state.2 = ⟨size, reply⟩ := by
  cases result
  exact if_neg some

theorem hand_realloc (result : ralcRealloc (recorded A) w ptr newSize = (reply, w'))
    (some : reply.ptr ≠ 0) : w'.state.2 = ⟨newSize, reply⟩ := by
  cases result
  exact if_neg some

theorem recorded_alloc (reports : Reports A) (result : ralcAlloc (recorded A) w size = (reply, w'))
    (some : reply.ptr ≠ 0) : ∃ actual, reply.out = Option.some actual ∧ size ≤ actual ∧
      w'.state.2 = ⟨size, reply⟩ := by
  have hand := hand_alloc result some
  cases result
  obtain ⟨actual, out, large⟩ := reports.alloc (untraced w) size some
  exact ⟨actual, out, large, hand⟩

theorem recorded_realloc (reports : Reports A)
    (result : ralcRealloc (recorded A) w ptr newSize = (reply, w')) (some : reply.ptr ≠ 0) :
    ∃ actual, reply.out = Option.some actual ∧ newSize ≤ actual ∧ w'.state.2 = ⟨newSize, reply⟩ := by
  have hand := hand_realloc result some
  cases result
  obtain ⟨actual, out, large⟩ := reports.realloc (untraced w) ptr newSize some
  exact ⟨actual, out, large, hand⟩

end Recorded

def InHand (P : Platform) (ok : World σ → Blocks ι → Prop) (w : World (σ × Request)) (L : Blocks ι) :
    Prop := ok (untraced w) L ∧ w.state.2.reply.ptr ≤ P.sizeMax

section Serves
variable {P : Platform} {A : Ralc σ} {owner : ι} {ok : World σ → Blocks ι → Prop}
  {w : World σ} {L : Blocks ι} {result : Reply × World σ}

theorem recorded_beside (A : Ralc σ) : Beside A (recorded A) :=
  ⟨fun _ _ => rfl, fun _ _ _ => rfl, fun _ _ => rfl⟩

theorem Granted.ptr_le (serves : Serves P A owner ok limit) (granted : Granted ok owner w L size result) :
    result.1.ptr ≤ P.sizeMax := by
  obtain ⟨-, outcome⟩ := granted
  split at outcome
  case isTrue null => exact null ▸ Nat.zero_le _
  case isFalse =>
    obtain ⟨actual, -, -, -, after⟩ := outcome
    exact Nat.le_of_add_right_le (serves.bounds after Blocks.grant_same).2

theorem Regranted.ptr_le (serves : Serves P A owner ok limit)
    (regranted : Regranted ok owner w L ptr oldSize newSize result) : result.1.ptr ≤ P.sizeMax := by
  obtain ⟨-, outcome⟩ := regranted
  split at outcome
  case isTrue null => exact null ▸ Nat.zero_le _
  case isFalse =>
    obtain ⟨actual, -, -, -, after, -⟩ := outcome
    exact Nat.le_of_add_right_le (serves.bounds after Blocks.grant_same).2

theorem Request.next_le {last : Request} {reply : Reply} (before : last.reply.ptr ≤ bound)
    (small : reply.ptr ≤ bound) (size : Nat) : (last.next size reply).reply.ptr ≤ bound := by
  rw [Request.next]
  split
  · exact before
  · exact small

/-- Remembering a request does not change what an allocator promises. -/
theorem recorded_serves (serves : Serves P A owner ok limit) :
    Serves P (recorded A) owner (InHand P ok) limit where
  bounds before := serves.bounds before.1
  separate before := serves.separate before.1
  client before same := ⟨serves.client before.1 same, before.2⟩
  alloc {w L size} before fits := by
    have near := Request.next_le before.2 ((serves.alloc before.1 fits).ptr_le serves) size
    exact (((recorded_beside A).serves serves).alloc before.1 fits).and near fun _ _ => near
  realloc_null {w L size} before fits := by
    have near := Request.next_le before.2 ((serves.realloc_null before.1 fits).ptr_le serves) size
    exact (((recorded_beside A).serves serves).realloc_null before.1 fits).and near fun _ _ => near
  realloc {w L ptr oldSize newSize} before held fits := by
    have near := Request.next_le before.2 ((serves.realloc before.1 held fits).ptr_le serves) newSize
    exact (((recorded_beside A).serves serves).realloc before.1 held fits).and near fun _ _ => near
  free before held := ⟨(serves.free before.1 held).1, (serves.free before.1 held).2, before.2⟩

end Serves

def logged (A : Ralc σ) : Ralc (σ × List Request) where
  alloc w size :=
    let (reply, w') := ralcAlloc A (untraced w) size
    (reply, ⟨(w'.state, w.state.2 ++ [⟨size, reply⟩]), w'.mem⟩)
  realloc w ptr newSize :=
    let (reply, w') := ralcRealloc A (untraced w) ptr newSize
    (reply, ⟨(w'.state, w.state.2 ++ [⟨newSize, reply⟩]), w'.mem⟩)
  free w ptr :=
    let w' := ralcFree A (untraced w) ptr
    ⟨(w'.state, w.state.2), w'.mem⟩

theorem logged_beside (A : Ralc σ) : Beside A (logged A) := ⟨fun _ _ => rfl, fun _ _ _ => rfl, fun _ _ => rfl⟩

/-- There were requests between two worlds, and all of them were refused. -/
def Refused (w w' : World (σ × List Request)) : Prop :=
  ∃ asked, asked ≠ [] ∧ w'.state.2 = w.state.2 ++ asked ∧ ∀ request ∈ asked, request.reply.ptr = 0

section Logged
variable {A : Ralc σ} {w w₁ w' : World (σ × List Request)}

theorem Refused.trans (first : Refused w w₁) (second : Refused w₁ w') : Refused w w' := by
  obtain ⟨asked, some, log, null⟩ := first
  obtain ⟨asked', -, log', null'⟩ := second
  refine ⟨asked ++ asked', by simp [some], by rw [log', log, List.append_assoc], ?_⟩
  intro request member
  rcases List.mem_append.mp member with member | member
  · exact null request member
  · exact null' request member

theorem logged_alloc (result : ralcAlloc (logged A) w size = (reply, w')) :
    w'.state.2 = w.state.2 ++ [⟨size, reply⟩] := by
  cases result
  rfl

theorem logged_realloc (result : ralcRealloc (logged A) w ptr newSize = (reply, w')) :
    w'.state.2 = w.state.2 ++ [⟨newSize, reply⟩] := by
  cases result
  rfl

theorem Refused.single (log : w'.state.2 = w.state.2 ++ [request]) (null : request.reply.ptr = 0) :
    Refused w w' :=
  ⟨[request], List.cons_ne_nil request [], log, fun _ member => List.mem_singleton.mp member ▸ null⟩

end Logged
end Ratlib
