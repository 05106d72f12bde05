import Ratlib.Dyn.Operations
import Ratlib.Library.Runs
import Ratlib.Gen.Contract

/-! Runs of a dynamic array against runs of a list, over any parent allocator that
meets the contract and whichever of its calls fail. -/
namespace Ratlib.Dyn

open Arr

structure State (σ : Type u) where
  dyn : RDyn
  world : World σ

/-- The calls of rdyn, and what a client does by itself: it sets `allowShrink` and
writes elements. -/
inductive Op where
  | insert (index count : Nat)
  | remove (index count : Nat)
  | resize (index oldCount newCount : Nat)
  | clear
  | allowShrink (allow : Bool)
  | write (index : Nat) (bytes : List UInt8)

variable (P : Platform) {σ : Type u} {ι : Type v}

/-- The arguments are in bounds and the capacities they lead to do not wrap. -/
def Op.Asserts (limit : Nat) (p : RDyn) : Op → Prop
  | .insert index count => index ≤ p.count ∧ GrowAsserts P limit p count
  | .remove index count =>
    index ≤ p.count ∧ count ≤ p.count - index ∧ ShrinkAsserts limit p count
  | .resize index oldCount newCount =>
    index ≤ p.count ∧ oldCount ≤ p.count - index ∧ newCount ≤ P.sizeMax ∧
      if newCount > oldCount then GrowAsserts P limit p (newCount - oldCount)
      else ShrinkAsserts limit p (oldCount - newCount)
  | .clear => True
  | .allowShrink _ => True
  | .write index bytes => index < p.count ∧ bytes.length = p.elemSize

instance (limit : Nat) (p : RDyn) : (op : Op) → Decidable (op.Asserts P limit p)
  | .insert .. | .write .. => inferInstanceAs (Decidable (_ ∧ _))
  | .remove .. => inferInstanceAs (Decidable (_ ∧ _ ∧ _))
  | .resize .. => inferInstanceAs (Decidable (_ ∧ _ ∧ _ ∧ ite _ _ _))
  | .clear | .allowShrink _ => .isTrue trivial

/-- What a call returns, zero where it returns nothing, and the state after it. -/
def call (A : Ralc σ) (s : State σ) : Op → Nat × State σ
  | .insert index count =>
    let (result, p, w) := rdynInsert P A s.dyn s.world index count
    (result, ⟨p, w⟩)
  | .remove index count =>
    let (result, p, w) := rdynRemove P A s.dyn s.world index count
    (result, ⟨p, w⟩)
  | .resize index oldCount newCount =>
    let (result, p, w) := rdynResize P A s.dyn s.world index oldCount newCount
    (result, ⟨p, w⟩)
  | .clear =>
    let (p, w) := rdynClear A s.dyn s.world
    (0, ⟨p, w⟩)
  | .allowShrink allow => (0, { s with dyn := { s.dyn with allowShrink := allow } })
  | .write index bytes =>
    let element := s.dyn.buf + index * s.dyn.elemSize
    (0, { s with world := { s.world with mem := s.world.mem.write element bytes } })

def step (A : Ralc σ) (limit : Nat) (s : State σ) (op : Op) : Option (State σ) :=
  if op.Asserts P limit s.dyn then some (call P A s op).2 else none

def start (elemSize : Nat) (w : World σ) : State σ := ⟨rdynInit elemSize, w⟩

def State.list (s : State σ) : List (List UInt8) := contents s.dyn s.world.mem

def answers (A : Ralc σ) (s : State σ) : List Op → List (Op × Nat)
  | [] => []
  | op :: ops => (op, (call P A s op).1) :: answers A (call P A s op).2 ops

/-- What an operation may make of a list when it returns `result`. The elements of a
gap are not specified; `remove` and a `resize` to no more elements never fail. -/
def Op.Splices (result : Nat) (before after : List (List UInt8)) : Op → Prop
  | .insert index count =>
    if result = 0 then after = before
    else ∃ gap, gap.length = count ∧ after = before.take index ++ gap ++ before.drop index
  | .remove index count => after = before.take index ++ before.drop (index + count)
  | .resize index oldCount newCount =>
    if newCount > oldCount ∧ result = 0 then after = before
    else Replaced index oldCount newCount before after
  | .clear => after = []
  | .allowShrink _ => after = before
  | .write index bytes => after = before.set index bytes

/-- A run of the list that gives the same answers. -/
def Spliced : List (Op × Nat) → List (List UInt8) → List (List UInt8) → Prop
  | [], before, after => after = before
  | (op, result) :: rest, before, after =>
    ∃ next, op.Splices result before next ∧ Spliced rest next after

variable {P} {A : Ralc σ} {owner : ι} {ok : World σ → Blocks ι → Prop} {L : Blocks ι}
  {s s' : State σ}

def Inv (ok : World σ → Blocks ι → Prop) (owner : ι) (elemSize : Nat) (s : State σ) : Prop :=
  s.dyn.elemSize = elemSize ∧ ∃ L, Holds ok owner s.dyn s.world L

theorem Becomes.inv (becomes : Becomes ok owner s.dyn p' w') (size : s.dyn.elemSize = width) :
    Inv ok owner width ⟨p', w'⟩ :=
  ⟨becomes.elemSize.trans size, becomes.holds⟩

theorem Holds.written (serves : Serves P A owner ok limit) (holds : Holds ok owner p w L)
    (inside : index < p.count) (length : bytes.length = p.elemSize) :
    Holds ok owner p { w with mem := w.mem.write (p.buf + index * p.elemSize) bytes } L := by
  apply holds.shift serves
  intro x away
  have := Nat.mul_le_mul_right p.elemSize (Nat.succ_le_of_lt inside)
  rw [Nat.succ_mul] at this
  exact Mem.write_out (by omega)

theorem call_effect (serves : Serves P A owner ok limit) (inv : Inv ok owner elemSize s)
    (asserts : op.Asserts P limit s.dyn) :
    Inv ok owner elemSize (call P A s op).2 ∧
      op.Splices (call P A s op).1 s.list (call P A s op).2.list := by
  obtain ⟨size, L, holds⟩ := inv
  cases op with
  | insert index count =>
    obtain ⟨inside, grows⟩ := asserts
    obtain ⟨becomes, effect⟩ := rdynInsert_cases serves holds grows inside rfl
    refine ⟨becomes.inv size, ?_⟩
    simp only [Op.Splices]
    split
    case isTrue null => exact (if_pos null).mp effect
    case isFalse nonnull => exact ((if_neg nonnull).mp effect).2.2
  | remove index count =>
    obtain ⟨inside, run, shrinks⟩ := asserts
    have within : index + count ≤ s.dyn.count := by omega
    obtain ⟨becomes, -, -, list⟩ := rdynRemove_cases serves holds shrinks within rfl
    exact ⟨becomes.inv size, list⟩
  | resize index oldCount newCount =>
    obtain ⟨inside, run, representable, room⟩ := asserts
    have within : index + oldCount ≤ s.dyn.count := by omega
    obtain ⟨becomes, effect⟩ := rdynResize_cases serves holds room within representable rfl
    exact ⟨becomes.inv size, effect⟩
  | clear =>
    obtain ⟨becomes, none⟩ := rdynClear_cases serves holds
    exact ⟨becomes.inv size, by simp only [Op.Splices, call, State.list, contents, none]; rfl⟩
  | allowShrink allow =>
    exact ⟨⟨size, L, holds.ok, holds.positive, holds.count, holds.empty, holds.block⟩, rfl⟩
  | write index bytes =>
    obtain ⟨inside, length⟩ := asserts
    exact ⟨⟨size, L, holds.written serves inside length⟩, elems_write length index⟩

theorem step_call (taken : step P A limit s op = some s') :
    op.Asserts P limit s.dyn ∧ (call P A s op).2 = s' := by
  rw [step] at taken
  split at taken
  case isTrue asserts => exact ⟨asserts, Option.some.inj taken⟩
  case isFalse => cases taken

theorem run_spliced (serves : Serves P A owner ok limit) (inv : Inv ok owner elemSize s)
    (ran : run (step P A limit) s ops = some s') :
    Inv ok owner elemSize s' ∧ Spliced (answers P A s ops) s.list s'.list := by
  induction ops generalizing s with
  | nil =>
    cases ran
    exact ⟨inv, rfl⟩
  | cons op ops ih =>
    obtain ⟨next, taken, rest⟩ := run_cons_some ran
    obtain ⟨asserts, rfl⟩ := step_call taken
    obtain ⟨inv', effect⟩ := call_effect serves inv asserts
    obtain ⟨last, spliced⟩ := ih inv' rest
    exact ⟨last, _, effect, spliced⟩

theorem inv_start (initial : ok w L) (positive : 0 < elemSize) :
    Inv ok owner elemSize (start elemSize w) :=
  ⟨rfl, L, initial, positive, Nat.le_refl 0, fun _ => rfl, fun null => absurd rfl null⟩

/-- Every run of a dynamic array is a run of a list with the same answers, and its
capacity lies in the block its allocator reported. -/
theorem rdyn_refines (serves : Serves P A owner ok limit) (initial : ok w L)
    (positive : 0 < elemSize)
    (ran : run (step P A limit) (start elemSize w) ops = some s) :
    Spliced (answers P A (start elemSize w) ops) [] s.list ∧ s.list.length = s.dyn.count ∧
      s.dyn.count ≤ s.dyn.cap ∧ (s.dyn.buf = 0 → s.dyn.cap = 0) ∧ ∃ L', ok s.world L' ∧
        (s.dyn.buf ≠ 0 → ∃ size, L' s.dyn.buf = some ⟨owner, size⟩ ∧ s.dyn.cap * elemSize ≤ size) := by
  obtain ⟨⟨rfl, L', holds⟩, spliced⟩ := run_spliced serves (inv_start initial positive) ran
  exact ⟨spliced, elems_length, holds.count, holds.empty, L', holds.ok, holds.block⟩

theorem rdyn_refines_lp64 : ∃ s, run (step .lp64 (Gen.ralcGen .lp64) 4096) (start 1 Gen.kib)
      [.insert 0 3, .write 1 [7], .allowShrink true, .insert 1 30, .remove 0 30, .resize 1 2 9] =
        some s ∧ s.dyn.count = 10 ∧ s.list.length = 10 ∧ s.dyn.count ≤ s.dyn.cap := by
  have facts : (run (step .lp64 (Gen.ralcGen .lp64) 4096) (start 1 Gen.kib)
      [.insert 0 3, .write 1 [7], .allowShrink true, .insert 1 30, .remove 0 30, .resize 1 2 9]).map
        (fun s => s.dyn.count) = some 10 := by decide +kernel
  obtain ⟨s, ran, count⟩ := Option.map_eq_some_iff.mp facts
  obtain ⟨-, length, within, -⟩ :=
    rdyn_refines (Gen.kib_serves ()) Gen.kib_ok (show 0 < 1 by decide) ran
  exact ⟨s, ran, count, length.trans count, within⟩

end Ratlib.Dyn
