import Ratlib.Alloc.Trace

/-! Clients of allocators, and a ledger of the calls each of them makes. By the ledger
alone it is told which blocks of a client are live, and that no call was given another. -/
namespace Ratlib

/-- A call, with the pointer it was given and the one it returned. -/
inductive Call where
  | alloc (ptr : Nat)
  | realloc (ptr newPtr : Nat)
  | free (ptr : Nat)

/-- The live blocks after a call on a live block that returned a new one, or NULL. -/
def Call.after (live : List Nat) : Call → Option (List Nat)
  | .alloc ptr =>
    if ptr = 0 then some live
    else if ptr ∈ live then none else some (ptr :: live)
  | .realloc ptr newPtr =>
    if ptr ∉ live then none
    else if newPtr = 0 then some live
    else if newPtr ∈ live.erase ptr then none else some (newPtr :: live.erase ptr)
  | .free ptr => if ptr ∈ live then some (live.erase ptr) else none

variable {σ : Type u} {ι : Type v} {κ : Type w} {P : Platform} {A : Ralc σ}
  {ok : World σ → Blocks (ι ⊕ κ) → Prop} {L L' : Blocks (ι ⊕ κ)} {calls : List (κ × Call)} {c d : κ}
  {call : Call} {live : List Nat}

def watched (A : Ralc σ) (c : κ) : Ralc (σ × List (κ × Call)) where
  alloc w size :=
    let (reply, w') := ralcAlloc A (untraced w) size
    (reply, ⟨(w'.state, w.state.2 ++ [(c, .alloc reply.ptr)]), w'.mem⟩)
  realloc w ptr newSize :=
    let (reply, w') := ralcRealloc A (untraced w) ptr newSize
    let call := if ptr = 0 then .alloc reply.ptr else .realloc ptr reply.ptr
    (reply, ⟨(w'.state, w.state.2 ++ [(c, call)]), w'.mem⟩)
  free w ptr :=
    let w' := ralcFree A (untraced w) ptr
    ⟨(w'.state, w.state.2 ++ [(c, .free ptr)]), w'.mem⟩

/-- `live` names the blocks with the label of the client, each once. -/
def Lists (live : List Nat) (c : κ) (L : Blocks (ι ⊕ κ)) : Prop :=
  live.Nodup ∧ ∀ a, a ∈ live ↔ ∃ size, L a = some ⟨.inr c, size⟩

theorem Lists.grant (lists : Lists live c L) (fresh : L a = none) :
    a ∉ live ∧ Lists (a :: live) c (L.grant a (.inr c) size) := by
  have outside : a ∉ live := by
    intro member
    obtain ⟨_, held⟩ := (lists.2 a).mp member
    exact Blocks.ne_of_fresh held fresh rfl
  refine ⟨outside, List.nodup_cons.mpr ⟨outside, lists.1⟩, fun b => ?_⟩
  by_cases same : b = a
  · subst same
    simp
  · rw [Blocks.grant_other same, List.mem_cons, or_iff_right same]
    exact lists.2 b

theorem Lists.release (lists : Lists live c L) (held : L a = some ⟨.inr c, size⟩) :
    a ∈ live ∧ Lists (live.erase a) c (L.release a) := by
  refine ⟨(lists.2 a).mpr ⟨size, held⟩, lists.1.erase a, fun b => ?_⟩
  rw [lists.1.mem_erase_iff]
  by_cases same : b = a
  · subst same
    simp
  · rw [Blocks.release_other same, and_iff_right same]
    exact lists.2 b

/-- Blocks of other clients stay when one of this client goes or comes. -/
theorem others_grant (other : d ≠ c) (fresh : L a = none) (b) :
    L.grant a (.inr c) size b = some ⟨.inr d, n⟩ ↔ L b = some ⟨.inr d, n⟩ := by
  by_cases same : b = a
  · subst same
    simp [fresh, Ne.symm other]
  · rw [Blocks.grant_other same]

theorem others_release (other : d ≠ c) (held : L a = some ⟨.inr c, size⟩) (b) :
    L.release a b = some ⟨.inr d, n⟩ ↔ L b = some ⟨.inr d, n⟩ := by
  by_cases same : b = a
  · subst same
    simp [held, Ne.symm other]
  · rw [Blocks.release_other same]

variable [DecidableEq κ]

/-- The live blocks of a client after its calls, all of them on its own live blocks. -/
def liveOf (c : κ) (calls : List (κ × Call)) : Option (List Nat) :=
  (calls.filter fun call => call.1 = c).foldlM (fun live call => call.2.after live) []

def Recorded (calls : List (κ × Call)) (L : Blocks (ι ⊕ κ)) : Prop :=
  ∀ c, ∃ live, liveOf c calls = some live ∧ Lists live c L

theorem liveOf_append (calls : List (κ × Call)) (call : Call) :
    liveOf d (calls ++ [(c, call)]) =
      if c = d then (liveOf d calls).bind call.after else liveOf d calls := by
  rw [liveOf, List.filter_append, List.foldlM_append]
  by_cases same : c = d
  · rw [if_pos same, List.filter_singleton]
    simp only [same, decide_true, cond_true]
    exact congrArg _ (funext fun live => bind_pure (call.after live))
  · rw [if_neg same, List.filter_singleton]
    simp only [same, decide_false, cond_false]
    exact bind_pure (liveOf d calls)

theorem Recorded.called (recorded : Recorded calls L)
    (own : ∀ live, Lists live c L → ∃ live', call.after live = some live' ∧ Lists live' c L')
    (others : ∀ d, d ≠ c → ∀ a size, L' a = some ⟨.inr d, size⟩ ↔ L a = some ⟨.inr d, size⟩) :
    Recorded (calls ++ [(c, call)]) L' := by
  intro d
  obtain ⟨live, there, lists⟩ := recorded d
  rw [liveOf_append]
  by_cases same : c = d
  · subst same
    obtain ⟨live', after, lists'⟩ := own live lists
    exact ⟨live', by rw [if_pos rfl, there]; exact after, lists'⟩
  · refine ⟨live, by rw [if_neg same, there], lists.1, fun a => ?_⟩
    rw [lists.2 a]
    exact exists_congr fun size => (others d (Ne.symm same) a size).symm

theorem Recorded.alloc (recorded : Recorded calls L) (granted : Granted ok (.inr c) w L size (reply, w')) :
    Granted (fun W L => ok (untraced W) L ∧ Recorded W.state.2 L) (.inr c)
      ⟨(w.state, calls), w.mem⟩ L size
      (reply, ⟨(w'.state, calls ++ [(c, .alloc reply.ptr)]), w'.mem⟩) := by
  obtain ⟨same, outcome⟩ := granted
  refine ⟨same, ?_⟩
  split at outcome
  case isTrue null =>
    rw [if_pos null]
    refine ⟨outcome, recorded.called (fun live lists => ⟨live, ?_, lists⟩) fun _ _ _ _ => Iff.rfl⟩
    rw [Call.after, if_pos null]
  case isFalse given =>
    rw [if_neg given]
    obtain ⟨actual, out, large, fresh, after⟩ := outcome
    refine ⟨actual, out, large, fresh, after, recorded.called (fun live lists => ?_)
      fun d other b n => others_grant other fresh b⟩
    obtain ⟨outside, lists'⟩ : _ ∧ Lists _ c (L.grant reply.ptr (.inr c) actual) := lists.grant fresh
    exact ⟨_, by rw [Call.after, if_neg given, if_neg outside], lists'⟩

/-- Watching an allocator keeps its contract, and the ledger true. -/
theorem watched_serves (serves : Serves P A (.inr c) ok limit) :
    Serves P (watched A c) (.inr c) (fun w L => ok (untraced w) L ∧ Recorded w.state.2 L) limit where
  bounds before := serves.bounds before.1
  separate before := serves.separate before.1
  client before same := ⟨serves.client before.1 same, before.2⟩
  alloc before fits := before.2.alloc (serves.alloc before.1 fits)
  realloc_null before fits := before.2.alloc (serves.realloc_null before.1 fits)
  realloc := by
    intro w L ptr oldSize newSize before held fits
    have nonnull : ptr ≠ 0 := (serves.bounds before.1 held).1.ne'
    have regranted := serves.realloc before.1 held fits
    simp only [ralcRealloc, watched, if_neg nonnull] at regranted ⊢
    generalize A.realloc (untraced w) ptr newSize = attempt at regranted ⊢
    obtain ⟨reply, w'⟩ := attempt
    obtain ⟨same, outcome⟩ := regranted
    refine ⟨same, ?_⟩
    dsimp only at outcome ⊢
    split at outcome
    case isTrue null =>
      rw [if_pos null]
      refine ⟨outcome.1, outcome.2, before.2.called (fun live lists => ?_) fun _ _ _ _ => Iff.rfl⟩
      exact ⟨live, by rw [Call.after, if_neg (not_not.mpr (lists.release held).1), if_pos null], lists⟩
    case isFalse given =>
      rw [if_neg given]
      obtain ⟨actual, out, large, fresh, after, bytes⟩ := outcome
      refine ⟨actual, out, large, fresh, ⟨after, before.2.called (fun live lists => ?_)
        fun d other b n => (others_grant other fresh b).trans (others_release other held b)⟩, bytes⟩
      obtain ⟨member, lists'⟩ := lists.release held
      obtain ⟨outside, lists''⟩ : _ ∧ Lists _ c ((L.release ptr).grant reply.ptr (.inr c) actual) :=
        lists'.grant fresh
      exact ⟨_, by rw [Call.after, if_neg (not_not.mpr member), if_neg given, if_neg outside], lists''⟩
  free := by
    intro w L ptr size before held
    obtain ⟨same, after⟩ := serves.free before.1 held
    refine ⟨same, after, before.2.called (fun live lists => ?_) fun d other b n =>
      others_release other held b⟩
    obtain ⟨member, lists'⟩ := lists.release held
    exact ⟨_, by rw [Call.after, if_pos member], lists'⟩

theorem recorded_nil {L : Blocks ι} : Recorded ([] : List (κ × Call)) (L.relabel Sum.inl) := by
  refine fun c => ⟨[], rfl, List.nodup_nil, fun a => ?_⟩
  constructor
  · exact fun member => absurd member List.not_mem_nil
  · rintro ⟨size, held⟩
    obtain ⟨block, -, same⟩ := Option.map_eq_some_iff.mp held
    cases same

end Ratlib
