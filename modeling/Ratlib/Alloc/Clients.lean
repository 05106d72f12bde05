import Ratlib.Alloc.Frame
import Ratlib.Library.Runs
import Mathlib.Logic.Function.Basic

/-! Any number of clients over one allocator. A client rests on its own blocks only; then
it does beside others what it does alone, in whatever order their calls come. -/
namespace Ratlib

/-- A component over an allocator: its calls, what is read of it, and what holds of it. -/
structure Client (P : Platform) {σ : Type u} (A : Ralc σ) (limit : Nat) (ι : Type v) where
  State : Type u
  Op : Type
  View : Type
  step : State → Op → Option State
  view : State → View
  /-- The world that the client runs in, and the client in another one. -/
  world : State → World σ
  enter : State → World σ → State
  /-- Its blocks, by a label of the client's, hold it together. -/
  Holds : (World σ → Blocks ι → Prop) → ι → Blocks ι → State → Prop
  /-- What is true of it in every state, and of every call. -/
  Sound : State → Prop
  Effect : State → Op → State → Prop
  world_enter (s : State) (w : World σ) : world (enter s w) = w
  enter_world (s : State) : enter s (world s) = s
  enter_enter (s : State) (w w' : World σ) : enter (enter s w) w' = enter s w'
  rests : Holds ok owner L s → ok (world s) L
  kept : Serves P A owner ok limit → Serves P A owner ok' limit → Holds ok owner L s → ok' w' L →
    Set.EqOn (world s).mem w'.mem L.bytes → Holds ok' owner L (enter s w') ∧ view (enter s w') = view s
  sound : Serves P A owner ok limit → Holds ok owner L s → Sound s
  effect : Serves P A owner ok limit → Holds ok owner L s → step s op = some s' →
    (∃ L', Holds ok owner L' s') ∧ Effect s op s'

variable {P : Platform} {σ : Type u} {A : Ralc σ} {limit : Nat} {ι : Type v} {I : Type w}

structure Shared (c : I → Client P A limit ι) where
  part (i : I) : (c i).State
  world : World σ

namespace Shared

variable {c : I → Client P A limit ι} {s s' : Shared c} {ok : World σ → Blocks ι → Prop}
  {label : I → ι} {L F : Blocks ι}

def now (s : Shared c) (i : I) : (c i).State := (c i).enter (s.part i) s.world

variable [DecidableEq I]

def step (s : Shared c) (op : (i : I) × (c i).Op) : Option (Shared c) :=
  ((c op.1).step (s.now op.1) op.2).map fun t => ⟨Function.update s.part op.1 t, (c op.1).world t⟩

theorem step_some {op : (c i).Op} (taken : step s ⟨i, op⟩ = some s') :
    (c i).step (s.now i) op = some (s'.now i) ∧
      ∀ j ≠ i, s'.now j = (c j).enter (s.now j) s'.world := by
  obtain ⟨t, called, rfl⟩ := Option.map_eq_some_iff.mp taken
  constructor
  · simp only [now, Function.update_self, (c i).enter_world]
    exact called
  · intro j different
    simp only [now, Function.update_of_ne different, (c j).enter_enter]

variable [DecidableEq ι]

/-- Every client rests on the blocks of its label; `F` are those of nobody here. -/
structure Inv (ok : World σ → Blocks ι → Prop) (label : I → ι) (F : Blocks ι) (m : Mem) (s : Shared c)
    (L : Blocks ι) : Prop where
  holds : ∀ i, (c i).Holds (Framed ok (label i) (L.others (label i)) s.world.mem) (label i)
    (L.share (label i)) (s.now i)
  foreign : ∀ a block, F a = some block → L a = some block ∧ block.owner ∉ Set.range label
  same : Set.EqOn m s.world.mem F.bytes
  ok : ok s.world L

theorem framed_share (before : ok w L) (i : ι) : Framed ok i (L.others i) w.mem w (L.share i) where
  ok := by rwa [Blocks.share_union_others]
  owned := Blocks.owned_share
  apart := Blocks.share_apart
  same _ _ := rfl

/-- A client that holds together on its share beside whatever others there were. -/
theorem beside {C : Client P A limit ι} {t : C.State} (serves : Serves P A i ok limit)
    (holds : C.Holds (Framed ok i F m) i (L.share i) t) (after : ok w L)
    (same : Set.EqOn (C.world t).mem w.mem (L.share i).bytes) :
    C.Holds (Framed ok i (L.others i) w.mem) i (L.share i) (C.enter t w) ∧
      C.view (C.enter t w) = C.view t :=
  C.kept (serves.frame F m) (serves.frame (L.others i) w.mem) holds (framed_share after i) same

/-- What a call of one client does, and that the others see nothing of it. -/
structure Alone (s : Shared c) (i : I) (op : (c i).Op) (s' : Shared c) : Prop where
  effect : (c i).Effect (s.now i) op (s'.now i)
  others : ∀ j ≠ i, (c j).view (s'.now j) = (c j).view (s.now j)

theorem step_alone (serves : ∀ i, Serves P A (label i) ok limit) (distinct : label.Injective)
    (inv : Inv ok label F m s L) {op : (c i).Op} (taken : step s ⟨i, op⟩ = some s') :
    (∃ L', Inv ok label F m s' L') ∧ Alone s i op s' := by
  obtain ⟨called, elsewhere⟩ := step_some taken
  have world : ∀ j, (c j).world (s'.now j) = s'.world := fun j => (c j).world_enter _ _
  obtain ⟨⟨K, holds⟩, effect⟩ := (c i).effect ((serves i).frame _ _) (inv.holds i) called
  obtain ⟨after, owned, apart, same⟩ := (c i).rests holds
  rw [world] at after same
  have own : (K.union (L.others (label i))).share (label i) = K := Blocks.share_union_self owned
  have kept : ∀ j ≠ i, _ := fun j different => by
    have away := distinct.ne different
    have stays := Blocks.share_union_other owned apart away
    have sub : (L.share (label j)).bytes ⊆ (L.others (label i)).bytes :=
      Blocks.bytes_mono fun a block held => Blocks.share_subset_others away held
    have holds := inv.holds j
    rw [← stays] at holds sub
    have there : (c j).world (s.now j) = s.world := (c j).world_enter _ _
    refine beside (serves j) holds after ?_
    rw [there]
    exact same.mono sub
  refine ⟨⟨K.union (L.others (label i)), fun j => ?_, ?_, ?_, after⟩, effect, fun j different => ?_⟩
  · by_cases mine : j = i
    · subst mine
      rw [← own] at holds
      have now := beside (serves j) holds after fun _ _ => by rw [world]
      rw [← world j, (c j).enter_world, world j] at now
      exact now.1
    · rw [elsewhere j mine]
      exact (kept j mine).1
  · intro a block there
    obtain ⟨held, nobody⟩ := inv.foreign a block there
    have other : block.owner ≠ label i := fun mine => nobody ⟨i, mine.symm⟩
    exact ⟨apart.union_right (Blocks.others_some.mpr ⟨held, other⟩), nobody⟩
  · refine inv.same.trans (same.mono (Blocks.bytes_mono fun a block there => ?_))
    obtain ⟨held, nobody⟩ := inv.foreign a block there
    exact Blocks.others_some.mpr ⟨held, fun mine => nobody ⟨i, mine.symm⟩⟩
  · rw [elsewhere j different]
    exact (kept j different).2

theorem run_inv (serves : ∀ i, Serves P A (label i) ok limit) (distinct : label.Injective)
    (initial : Inv ok label F m s L) (ran : run step s ops = some s') :
    ∃ L', Inv ok label F m s' L' :=
  run_invariant (fun s => ∃ L, Inv ok label F m s L)
    (fun _ _ _ inv taken => (step_alone serves distinct inv.choose_spec taken).1) ⟨L, initial⟩ ran

end Shared
end Ratlib
