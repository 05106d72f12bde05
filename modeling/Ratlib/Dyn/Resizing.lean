import Ratlib.Arr.Resizing
import Ratlib.Dyn.Correctness

/-! The effect of `rarr_resize` against that of `rdyn_resize`, in every state that calls of
rdyn lead to. -/
namespace Ratlib.Dyn

open Arr

inductive Call where
  | of (op : Op)
  | setCap (newCap : Nat)

variable (P : Platform) {σ : Type u} {ι : Type v}

/-- `reallocBuf` asserts that the bytes of the capacity do not wrap. -/
def Call.Asserts (limit : Nat) (p : RDyn) : Call → Prop
  | .of op => op.Asserts P limit p
  | .setCap newCap => newCap ≤ P.sizeMax / p.elemSize ∧ newCap * p.elemSize ≤ limit

instance (limit : Nat) (p : RDyn) : (c : Call) → Decidable (c.Asserts P limit p)
  | .of op => inferInstanceAs (Decidable (op.Asserts P limit p))
  | .setCap _ => inferInstanceAs (Decidable (_ ∧ _))

def afterCall (A : Ralc σ) (s : State σ) : Call → State σ
  | .of op => (call P A s op).2
  | .setCap newCap =>
    let (_, p, w) := rdynSetCap P A s.dyn s.world newCap
    ⟨p, w⟩

def stepCall (A : Ralc σ) (limit : Nat) (s : State σ) (c : Call) : Option (State σ) :=
  if c.Asserts P limit s.dyn then some (afterCall P A s c) else none

variable {P} {A : Ralc σ} {owner : ι} {ok : World σ → Blocks ι → Prop} {w w' : World σ}
  {L : Blocks ι} {s s' : State σ} {p p' : RDyn}

/-- `rdyn_setCap` keeps the array together, however many elements it drops. -/
theorem rdynSetCap_becomes (serves : Serves P A owner ok limit) (holds : Holds ok owner p w L)
    (fits : newCap * p.elemSize ≤ P.sizeMax) (small : newCap * p.elemSize ≤ limit) :
    Becomes ok owner p (rdynSetCap P A p w newCap).2.1 (rdynSetCap P A p w newCap).2.2 := by
  rw [rdynSetCap]
  split
  case isTrue => exact (rdynClear_cases serves holds).1
  case isFalse =>
    have few : (if p.count < newCap then p.count else newCap) ≤ p.count := by split <;> omega
    have fewer : (if p.count < newCap then p.count else newCap) ≤ newCap := by split <;> omega
    have cases := reallocBuf_cases serves holds few fewer fits small
    dsimp only
    generalize reallocBuf P A p w newCap _ = attempt at cases ⊢
    obtain ⟨none | ⟨newArr, newCap'⟩, w'⟩ := attempt
    case none => exact ⟨⟨L, cases.1, holds.positive, holds.count, holds.empty, holds.block⟩, rfl, rfl⟩
    case some => exact Moved.becomes cases holds.positive (by split <;> omega)

theorem stepCall_inv (serves : Serves P A owner ok limit) (inv : Inv ok owner elemSize s)
    (taken : stepCall P A limit s c = some s') : Inv ok owner elemSize s' := by
  rw [stepCall] at taken
  split at taken
  case isFalse => cases taken
  case isTrue asserts =>
    cases taken
    cases c with
    | of op => exact (call_effect serves inv asserts).1
    | setCap newCap =>
      obtain ⟨size, L, holds⟩ := inv
      have fits := (Nat.le_div_iff_mul_le holds.positive).mp asserts.1
      exact (rdynSetCap_becomes serves holds fits asserts.2).inv size

/-- In every state that calls lead to, the array holds together. -/
theorem run_holds (serves : Serves P A owner ok limit) (initial : ok w L) (positive : 0 < elemSize)
    (ran : run (stepCall P A limit) (start elemSize w) calls = some s) :
    s.dyn.elemSize = elemSize ∧ ∃ L', Holds ok owner s.dyn s.world L' :=
  run_invariant (Inv ok owner elemSize) (fun _ _ _ inv taken => stepCall_inv serves inv taken)
    (inv_start initial positive) ran

section Agreement
variable {m : Mem} {arr elemSize arrLen index oldCount newCount : Nat}

/-- An array with room for them takes the new elements where it is. -/
theorem rdynInsert_room (index : Nat) (fits : p.count + count ≤ P.sizeMax)
    (room : p.count + count ≤ p.cap) :
    rdynInsert P A p w index count =
      let shifted := rarrInsert P w.mem p.buf p.elemSize (p.count + count) index count
      (shifted.1, { p with count := p.count + count }, { w with mem := shifted.2 }) := by
  simp only [rdynInsert, grow, Platform.add_of_le fits, if_pos room]

/-- The array at `arr` and the dynamic array have the same elements, save for those of a
gap that held none before. -/
def Agree (m : Mem) (arr elemSize arrLen index oldCount newCount : Nat) (p : RDyn) (w : World σ) : Prop :=
  p.count = lengthAfter arrLen oldCount newCount ∧
    ∀ i < p.count, i < lengthBefore arrLen oldCount newCount ∨ index + newCount ≤ i →
      elem w.mem p.buf elemSize i = elem m arr elemSize i

theorem contents_eq (same : contents p w.mem = elems m arr p.elemSize n) :
    p.count = n ∧ ∀ i < n, elem w.mem p.buf p.elemSize i = elem m arr p.elemSize i := by
  have length := congrArg List.length same
  rw [contents, elems_length, elems_length] at length
  subst length
  exact ⟨rfl, fun i low => elem_eq same low⟩

section Resize
variable (serves : Serves P A owner ok limit) (holds : Holds ok owner s.dyn s.world L)
  (fits : arrLen * s.dyn.elemSize ≤ P.sizeMax)
  (sides : ResizeAsserts s.dyn.elemSize arrLen index oldCount newCount)
  (asserts : (Op.resize index oldCount newCount).Asserts P limit s.dyn)
  (same : s.list = elems m arr s.dyn.elemSize (lengthBefore arrLen oldCount newCount))
include serves holds fits sides asserts same

theorem resize_agrees_more (enough : lengthAfter arrLen oldCount newCount ≤ s.dyn.cap)
    (more : newCount > oldCount) :
    let result := rdynResize P A s.dyn s.world index oldCount newCount
    Agree (rarrResize P m arr s.dyn.elemSize arrLen index oldCount newCount).2 arr s.dyn.elemSize
      arrLen index oldCount newCount result.2.1 result.2.2 := by
  intro result
  obtain ⟨count, elements⟩ := contents_eq same
  have capacity := holds.bound serves
  have bounded := holds.cap_le serves
  obtain ⟨inside, run, representable, -⟩ := asserts
  rw [rarrResize_grow fits sides more]
  obtain ⟨positive, -, room⟩ := sides
  rw [if_pos more] at room
  rw [lengthAfter, if_pos more] at enough
  rw [lengthBefore, if_pos more] at count elements
  have total : s.dyn.count + (newCount - oldCount) = arrLen := by omega
  have within : index + oldCount + (newCount - oldCount) ≤ arrLen := by omega
  have inserted := rdynInsert_room (P := P) (A := A) (w := s.world) (index + oldCount)
    (show s.dyn.count + (newCount - oldCount) ≤ P.sizeMax by omega) (by omega)
  rw [total] at inserted
  have resized : result = _ := rdynResize_more more (by omega) representable inserted
  rw [resized, Agree, lengthAfter, lengthBefore, if_pos more, if_pos more]
  refine ⟨rfl, fun i low known => ?_⟩
  change i < arrLen at low
  dsimp only
  rw [rarrInsert_elem (P := P) fits positive within low]
  rw [rarrInsert_elem (by omega) positive within low]
  split
  · exact elements _ (by omega)
  · exact elements _ (by omega)

theorem resize_agrees_fewer (fewer : ¬newCount > oldCount) :
    let result := rdynResize P A s.dyn s.world index oldCount newCount
    Agree (rarrResize P m arr s.dyn.elemSize arrLen index oldCount newCount).2 arr s.dyn.elemSize
      arrLen index oldCount newCount result.2.1 result.2.2 := by
  intro result
  obtain ⟨count, -⟩ := contents_eq same
  obtain ⟨inside, run, representable, room⟩ := asserts
  have within : index + oldCount ≤ s.dyn.count := by omega
  have resized : rdynResize P A s.dyn s.world index oldCount newCount =
      (result.1, result.2.1, result.2.2) := rfl
  obtain ⟨becomes, list⟩ := rdynResize_cases serves holds room within representable resized
  rw [if_neg fun both => fewer both.1] at list
  obtain ⟨gap, length, list⟩ := list
  have none : gap = [] := List.eq_nil_of_length_eq_zero (by omega)
  rw [rarrResize_shrink fits sides fewer]
  rw [lengthBefore, if_neg fewer] at count
  have kept := rarrRemove_elems (m := m) fits sides.1
    (show index + newCount + (oldCount - newCount) ≤ arrLen by omega) arr
  rw [lengthBefore, if_neg fewer] at same
  rw [← same, show index + newCount + (oldCount - newCount) = index + oldCount by omega] at kept
  rw [none, List.append_nil, Nat.min_eq_right (by omega)] at list
  have agree := list.trans kept.symm
  rw [← becomes.elemSize] at agree
  obtain ⟨total, elements⟩ := contents_eq agree
  rw [Agree, lengthAfter, if_neg fewer]
  refine ⟨total, fun i low _ => ?_⟩
  have := elements i (by omega)
  rwa [becomes.elemSize] at this

end Resize

/-- `rarr_resize` keeps the elements up to the shorter run and moves those behind the old
run to behind the new one, a growth can be taken back, and a dynamic array with the same
elements and room for them has the same elements after `rdyn_resize`. -/
theorem rarrResize_moves (m : Mem) (arr : Nat) (fits : arrLen * elemSize ≤ P.sizeMax)
    (sides : ResizeAsserts elemSize arrLen index oldCount newCount) :
    let resize := fun m oldCount newCount => rarrResize P m arr elemSize arrLen index oldCount newCount
    let result := resize m oldCount newCount
    let before := lengthBefore arrLen oldCount newCount
    let list := elems m arr elemSize before
    result.1 = arr + (index + min oldCount newCount) * elemSize ∧
      Resized m result.2 arr elemSize arrLen index oldCount newCount ∧
      (oldCount < newCount →
        elems (resize result.2 newCount oldCount).2 arr elemSize before = list) ∧
      ∀ (σ : Type u) (ι : Type v) (A : Ralc σ) (owner : ι) (ok : World σ → Blocks ι → Prop)
        (limit : Nat) (w : World σ) (L : Blocks ι) (calls : List Call) (s : State σ),
        Serves P A owner ok limit → ok w L →
        run (stepCall P A limit) (start elemSize w) calls = some s →
        (Op.resize index oldCount newCount).Asserts P limit s.dyn →
        s.list = list → lengthAfter arrLen oldCount newCount ≤ s.dyn.cap →
        let (_, p, w) := rdynResize P A s.dyn s.world index oldCount newCount
        Agree result.2 arr elemSize arrLen index oldCount newCount p w := by
  intro resize result before list
  obtain ⟨pointer, resized⟩ := rarrResize_spec m arr fits sides
  refine ⟨pointer, resized, rarrResize_restores fits sides, ?_⟩
  intro σ ι A owner ok limit w L calls s serves initial ran asserts same enough
  obtain ⟨rfl, L', holds⟩ := run_holds serves initial sides.1 ran
  by_cases more : newCount > oldCount
  · exact resize_agrees_more serves holds fits sides asserts same enough more
  · exact resize_agrees_fewer serves holds fits sides asserts same more

theorem rarrResize_moves_lp64 :
    let m : Mem := Mem.write (fun _ => 0) 66 [7, 8, 9, 10]
    ∃ s, run (stepCall .lp64 (Gen.ralcGen .lp64) 4096) (start 2 Gen.kib)
      [.of (.insert 0 3), .of (.write 1 [7, 8]), .of (.write 2 [9, 10]), .setCap 8] = some s ∧
    let (_, p, w) := rdynResize .lp64 (Gen.ralcGen .lp64) s.dyn s.world 1 1 3
    Agree (rarrResize .lp64 m 64 2 5 1 1 3).2 64 2 5 1 1 3 p w := by
  intro m
  have facts : (run (stepCall .lp64 (Gen.ralcGen .lp64) 4096) (start 2 Gen.kib)
      [.of (.insert 0 3), .of (.write 1 [7, 8]), .of (.write 2 [9, 10]), .setCap 8]).map (fun s =>
        (decide ((Op.resize 1 1 3).Asserts .lp64 4096 s.dyn), decide (s.list = elems m 64 2 3),
          decide (5 ≤ s.dyn.cap))) = some (true, true, true) := by decide +kernel
  obtain ⟨s, ran, values⟩ := Option.map_eq_some_iff.mp facts
  simp only [Prod.mk.injEq, decide_eq_true_eq] at values
  obtain ⟨asserts, same, enough⟩ := values
  obtain ⟨-, -, -, agree⟩ := rarrResize_moves m 64 (show 5 * 2 ≤ Platform.lp64.sizeMax by decide)
    (show ResizeAsserts 2 5 1 1 3 by unfold ResizeAsserts; decide)
  exact ⟨s, ran, agree _ _ _ () _ _ _ _ _ s (Gen.kib_serves ()) Gen.kib_ok ran asserts same enough⟩

end Agreement

end Ratlib.Dyn
