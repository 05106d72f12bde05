import Ratlib.Arr.Search
import Ratlib.Cmp.Numbers
import Ratlib.Dyn.Correctness
import Mathlib.Data.Multiset.Filter

/-! A dynamic array that its client keeps in order: it searches for the place of an element,
and inserts or removes it there. By what such calls answer, the array is a bag. -/
namespace Ratlib.Dyn

open Arr Cmp

def rdynBinSearch (P : Platform) (p : RDyn) (m : Mem) (cmpFn : Rcmp) (target : Nat) : Option (Bool × Nat) :=
  rarrBinSearch P m p.buf p.elemSize p.count cmpFn target

namespace Sorted

inductive Action where
  | find
  | add
  | remove

/-- What the client does with the value of its variable at `target`. -/
structure Op where
  action : Action
  target : Nat
  value : List UInt8

section Model
variable (P : Platform) {σ : Type u} (A : Ralc σ)

/-- The variable has the size of an element and lies outside the array. -/
def Op.Asserts (limit : Nat) (p : RDyn) (op : Op) : Prop :=
  op.value.length = p.elemSize ∧
    (op.target + p.elemSize ≤ p.buf ∨ p.buf + p.count * p.elemSize ≤ op.target) ∧
    match op.action with
    | .find => True
    | .add => GrowAsserts P limit p 1
    | .remove => 0 < p.count → ShrinkAsserts limit p 1

instance decidableAsserts (limit : Nat) (p : RDyn) : (op : Op) → Decidable (op.Asserts P limit p)
  | ⟨.find, _, _⟩ => inferInstanceAs (Decidable (_ ∧ _ ∧ True))
  | ⟨.add, _, _⟩ => inferInstanceAs (Decidable (_ ∧ _ ∧ GrowAsserts P limit p 1))
  | ⟨.remove, _, _⟩ => inferInstanceAs (Decidable (_ ∧ _ ∧ (_ → ShrinkAsserts limit p 1)))

/-- Whether the element was found, or added, with the index that the search gave. The
variable holds the value during the search. -/
def call (c : Comparator n) (s : State σ) (op : Op) : Option ((Bool × Nat) × State σ) :=
  (rdynBinSearch P s.dyn (s.world.mem.write op.target op.value) c.fn op.target).bind fun (found, index) =>
  match op.action with
  | .find => some ((found, index), s)
  | .add =>
    let (element, p, w) := rdynInsert P A s.dyn s.world index 1
    if element = 0 then some ((false, index), ⟨p, w⟩)
    else some ((true, index), ⟨p, { w with mem := w.mem.write element op.value }⟩)
  | .remove =>
    if found then
      let (_, p, w) := rdynRemove P A s.dyn s.world index 1
      some ((true, index), ⟨p, w⟩)
    else some ((false, index), s)

def step (c : Comparator n) (limit : Nat) (s : State σ) (op : Op) : Option (State σ) :=
  if op.Asserts P limit s.dyn then (call P A c s op).map Prod.snd else none

end Model

def Le (lt : List UInt8 → List UInt8 → Prop) (x y : List UInt8) : Prop := lt x y ∨ x = y

open Classical in
/-- What a call may answer, and make of a bag: the index counts the elements that are less. -/
def Op.Acts (lt : List UInt8 → List UInt8 → Prop) (op : Op) (answer : Bool × Nat)
    (before after : Multiset (List UInt8)) : Prop :=
  answer.2 = before.countP (lt · op.value) ∧
    match op.action with
    | .find => (answer.1 = true ↔ op.value ∈ before) ∧ after = before
    | .add => after = if answer.1 then op.value ::ₘ before else before
    | .remove => (answer.1 = true ↔ op.value ∈ before) ∧ after = before.erase op.value

variable {P : Platform} {σ : Type u} {ι : Type v} {A : Ralc σ} {owner : ι}
  {ok : World σ → Blocks ι → Prop} {w : World σ} {L : Blocks ι} {p : RDyn} {s s' : State σ}
  {c : Comparator n} {lt : List UInt8 → List UInt8 → Prop} {xs : List (List UInt8)} {x y value : List UInt8}

structure Place (lt : List UInt8 → List UInt8 → Prop) (xs : List (List UInt8)) (value : List UInt8)
    (found : Bool) (index : Nat) : Prop where
  le : index ≤ xs.length
  front : ∀ x ∈ xs.take index, lt x value
  back : ∀ y ∈ xs.drop index, Le lt value y ∧ ¬lt y value
  found_iff : found = true ↔ value ∈ xs
  here : found = true → xs[index]? = some value

theorem search_place (serves : Serves P A owner ok limit) (holds : Holds ok owner s.dyn s.world L)
    (size : s.dyn.elemSize = n) (sorted : s.list.Pairwise (Le c.lt)) (length : value.length = s.dyn.elemSize)
    (apart : target + s.dyn.elemSize ≤ s.dyn.buf ∨ s.dyn.buf + s.dyn.count * s.dyn.elemSize ≤ target) :
    ∃ found index, rdynBinSearch P s.dyn (s.world.mem.write target value) c.fn target = some (found, index) ∧
      Place c.lt s.list value found index := by
  subst size
  have fits := holds.used_fits serves
  choose sign signs tells using fun i =>
    c.sorts (s.world.mem.write target value) (s.dyn.buf + i * s.dyn.elemSize) target
  have same : elems (s.world.mem.write target value) s.dyn.buf s.dyn.elemSize s.dyn.count = s.list :=
    elems_congr fun x inside => Mem.write_out (by omega)
  have goal : (s.world.mem.write target value).read target s.dyn.elemSize = value := by
    rw [← length, Mem.read_write]
  rw [goal] at tells
  have element : ∀ i (low : i < s.list.length), elem (s.world.mem.write target value) s.dyn.buf s.dyn.elemSize i =
      s.list[i] := by
    intro i low
    simp only [← same, elems_getElem]
  have count : s.list.length = s.dyn.count := elems_length
  have ordered : ∀ i (low : i < s.list.length), Ratlib.Tells c.lt s.list[i] value (sign i) := by
    intro i low
    rw [← element i low]
    exact tells i
  have below : ∀ i j (le : i ≤ j) (low : j < s.list.length), Le c.lt (s.list[i]) s.list[j] := by
    intro i j le low
    rcases Nat.eq_or_lt_of_le le with rfl | less
    · exact .inr rfl
    · exact List.pairwise_iff_getElem.mp sorted i j _ low less
  have ascending : Ascending sign s.dyn.count := by
    intro i j le low
    rw [← count] at low
    have first := ordered i (by omega)
    have second := ordered j low
    rw [first.less, second.less, first.not_greater, second.not_greater]
    rcases below i j le low with less | equal
    · exact ⟨c.trans.trans _ _ _ less, fun after => .inl (after.elim (c.trans.trans _ _ _ less) (· ▸ less))⟩
    · rw [equal]
      exact ⟨id, id⟩
  obtain ⟨found, index, ended, result, place⟩ :=
    rarrBinSearch_spec fits holds.positive (fun i _ => signs i) ascending
  have member : value ∈ s.list ↔ ∃ i < s.dyn.count, sign i = 0 := by
    rw [List.mem_iff_getElem, ← count]
    exact ⟨fun ⟨i, low, same⟩ => ⟨i, low, (ordered i low).same.mpr same⟩,
      fun ⟨i, low, zero⟩ => ⟨i, low, (ordered i low).same.mp zero⟩⟩
  refine ⟨found, index, ended, count ▸ place.le, ?_, ?_, result.found_iff.trans member.symm, ?_⟩
  · intro x listed
    obtain ⟨i, low, rfl⟩ := List.mem_take_iff_getElem.mp listed
    have inside : i < s.list.length := Nat.lt_of_lt_of_le low (Nat.min_le_right ..)
    have before : i < index := Nat.lt_of_lt_of_le low (Nat.min_le_left ..)
    have different : sign i ≠ 0 := by
      intro zero
      exact (result.leftmost (result.found_iff.mpr ⟨i, count ▸ inside, zero⟩)).2.2 i before zero
    exact (ordered i inside).less.mp (lt_of_le_of_ne (place.before i before) different)
  · intro y listed
    obtain ⟨i, low, rfl⟩ := List.mem_drop_iff_getElem.mp listed
    have after := place.behind (index + i) (Nat.le_add_right ..) (by omega)
    have told := ordered (index + i) (by omega)
    refine ⟨?_, fun less => by have := told.less.mpr less; omega⟩
    rcases Int.lt_or_eq_of_le after with greater | zero
    · exact .inl (told.greater.mp greater)
    · exact .inr (told.same.mp zero.symm).symm
  · intro yes
    obtain ⟨low, zero, -⟩ := result.leftmost yes
    rw [← count] at low
    rw [List.getElem?_eq_getElem low, (ordered index low).same.mp zero]

open Classical in
theorem Place.rank (place : Place lt xs value found index) : index = (xs : Multiset (List UInt8)).countP (lt · value) := by
  rw [Multiset.coe_countP, ← List.take_append_drop index xs, List.countP_append,
    List.countP_eq_length.mpr (by simpa using place.front), List.countP_eq_zero.mpr, List.length_take]
  · have := place.le
    omega
  · intro y listed
    simpa using (place.back y listed).2

/-- The element found is one of those that equal the value. -/
theorem Place.taken (place : Place lt xs value true index) :
    ((xs.take index ++ xs.drop (index + 1) : List (List UInt8)) : Multiset (List UInt8)) =
      (xs : Multiset (List UInt8)).erase value := by
  obtain ⟨low, here⟩ := List.getElem?_eq_some_iff.mp (place.here rfl)
  have cut : xs.drop index = value :: xs.drop (index + 1) := by rw [List.drop_eq_getElem_cons low, here]
  have whole : (xs : Multiset (List UInt8)) =
      value ::ₘ (xs.take index ++ xs.drop (index + 1) : List (List UInt8)) := by
    rw [Multiset.cons_coe, Multiset.coe_eq_coe]
    calc xs
        = xs.take index ++ value :: xs.drop (index + 1) := by rw [← cut, List.take_append_drop]
      List.Perm _ _ := List.perm_middle
  rw [whole, Multiset.erase_cons_head]

theorem set_gap (within : index ≤ xs.length) (one : gap.length = 1) :
    (xs.take index ++ gap ++ xs.drop index).set index value = xs.take index ++ value :: xs.drop index := by
  obtain ⟨old, rfl⟩ := List.length_eq_one_iff.mp one
  have front : (xs.take index).length = index := by rw [List.length_take, Nat.min_eq_left within]
  rw [List.append_assoc, List.set_append_right _ _ front.le, front, Nat.sub_self]
  rfl

theorem add_acts (serves : Serves P A owner ok limit) (inv : Inv ok owner n s)
    (sorted : s.list.Pairwise (Le c.lt)) (place : Place c.lt s.list value found index)
    (length : value.length = s.dyn.elemSize) (grows : GrowAsserts P limit s.dyn 1)
    (inserted : rdynInsert P A s.dyn s.world index 1 = (element, p, w)) :
    if element = 0 then Inv ok owner n ⟨p, w⟩ ∧ State.list ⟨p, w⟩ = s.list
    else
      let s' : State σ := ⟨p, { w with mem := w.mem.write element value }⟩
      Inv ok owner n s' ∧ s'.list.Pairwise (Le c.lt) ∧
        (s'.list : Multiset (List UInt8)) = value ::ₘ (s.list : Multiset (List UInt8)) := by
  obtain ⟨size, L, holds⟩ := inv
  have count : s.list.length = s.dyn.count := elems_length
  have within := place.le
  obtain ⟨becomes, effect⟩ := rdynInsert_cases serves holds grows (count ▸ within) inserted
  by_cases null : element = 0
  · rw [if_pos null] at effect ⊢
    exact ⟨becomes.inv size, effect⟩
  · rw [if_neg null] at effect ⊢
    obtain ⟨points, total, gap, one, list⟩ := effect
    obtain ⟨L', holds'⟩ := becomes.holds
    rw [← becomes.elemSize] at points
    intro s'
    have list' : s'.list = s.list.take index ++ value :: s.list.drop index := by
      dsimp only [s']
      rw [State.list, contents, points, elems_write (length.trans becomes.elemSize.symm), ← contents, list]
      exact set_gap within one
    refine ⟨⟨becomes.elemSize.trans size, L', ?_⟩, ?_, ?_⟩
    · dsimp only [s']
      rw [points]
      exact holds'.written serves (by omega) (length.trans becomes.elemSize.symm)
    · rw [list']
      exact Arr.sorted_insert sorted (fun x listed => .inl (place.front x listed)) fun y listed => (place.back y listed).1
    · rw [list', Multiset.cons_coe, Multiset.coe_eq_coe]
      refine List.perm_middle.trans (List.Perm.cons _ ?_)
      rw [List.take_append_drop]

theorem remove_acts (serves : Serves P A owner ok limit) (inv : Inv ok owner n s)
    (sorted : s.list.Pairwise (Le c.lt)) (place : Place c.lt s.list value true index)
    (shrinks : 0 < s.dyn.count → ShrinkAsserts limit s.dyn 1)
    (removed : rdynRemove P A s.dyn s.world index 1 = (after, p, w)) :
    Inv ok owner n ⟨p, w⟩ ∧ (State.list ⟨p, w⟩).Pairwise (Le c.lt) ∧
      (State.list ⟨p, w⟩ : Multiset (List UInt8)) = (s.list : Multiset (List UInt8)).erase value := by
  obtain ⟨size, L, holds⟩ := inv
  have count : s.list.length = s.dyn.count := elems_length
  obtain ⟨low, -⟩ := List.getElem?_eq_some_iff.mp (place.here rfl)
  obtain ⟨becomes, -, -, list⟩ := rdynRemove_cases serves holds (shrinks (by omega)) (by omega) removed
  refine ⟨becomes.inv size, ?_, ?_⟩
  · rw [State.list, list]
    have cut := List.Sublist.append_left (List.drop_sublist_drop_left s.list (Nat.le_succ index)) (s.list.take index)
    rw [List.take_append_drop] at cut
    exact sorted.sublist cut
  · rw [State.list, list]
    exact place.taken

/-- A call does what it does to a bag, and leaves the array in order. -/
theorem call_acts (serves : Serves P A owner ok limit) (inv : Inv ok owner n s)
    (sorted : s.list.Pairwise (Le c.lt)) (asserts : op.Asserts P limit s.dyn) :
    ∃ answer s', call P A c s op = some (answer, s') ∧ Inv ok owner n s' ∧ s'.list.Pairwise (Le c.lt) ∧
      op.Acts c.lt answer s.list s'.list := by
  have ⟨size, L, holds⟩ := inv
  obtain ⟨action, target, value⟩ := op
  obtain ⟨length, apart, asserts⟩ := asserts
  dsimp only at length apart asserts
  obtain ⟨found, index, ended, place⟩ := search_place serves holds size sorted length apart
  rw [call, ended, Option.bind_some]
  cases action with
  | find => exact ⟨_, s, rfl, inv, sorted, place.rank, by simpa using place.found_iff, rfl⟩
  | add =>
    generalize inserted : rdynInsert P A s.dyn s.world index 1 = outcome
    obtain ⟨element, p, w⟩ := outcome
    have acts := add_acts serves inv sorted place length asserts inserted
    simp only [inserted]
    by_cases null : element = 0
    · rw [if_pos null] at acts ⊢
      obtain ⟨inv', same⟩ := acts
      exact ⟨_, _, rfl, inv', same ▸ sorted, place.rank, congrArg _ same⟩
    · rw [if_neg null] at acts ⊢
      obtain ⟨inv', sorted', more⟩ := acts
      exact ⟨_, _, rfl, inv', sorted', place.rank, more⟩
  | remove =>
    dsimp only
    cases found with
    | false =>
      have absent : value ∉ (s.list : Multiset (List UInt8)) := by
        rw [Multiset.mem_coe, ← place.found_iff]
        exact Bool.false_ne_true
      rw [if_neg Bool.false_ne_true]
      exact ⟨_, s, rfl, inv, sorted, place.rank, by simpa using place.found_iff, (Multiset.erase_of_notMem absent).symm⟩
    | true =>
      rw [if_pos rfl]
      generalize removed : rdynRemove P A s.dyn s.world index 1 = outcome
      obtain ⟨after, p, w⟩ := outcome
      obtain ⟨inv', sorted', fewer⟩ := remove_acts serves inv sorted place asserts removed
      exact ⟨_, _, rfl, inv', sorted', place.rank, by simpa using place.found_iff, fewer⟩

/-- An array that its client keeps in order holds a bag: over any parent, whichever of its
calls fail, every search ends and every call answers as that of the bag. -/
theorem sorted_refines (serves : Serves P A owner ok limit) (before : ok w L) (positive : 0 < n)
    (ran : run (step P A c limit) (start n w) ops = some s) :
    s.list.Pairwise (Le c.lt) ∧ ∀ op, op.Asserts P limit s.dyn → ∃ answer s',
      call P A c s op = some (answer, s') ∧ s'.list.Pairwise (Le c.lt) ∧ op.Acts c.lt answer s.list s'.list := by
  have ⟨inv, sorted⟩ : Inv ok owner n s ∧ s.list.Pairwise (Le c.lt) := by
    refine run_invariant (fun s => Inv ok owner n s ∧ s.list.Pairwise (Le c.lt)) ?_ ⟨inv_start before positive, .nil⟩ ran
    rintro s op s' ⟨inv, sorted⟩ stepped
    rw [step] at stepped
    split at stepped
    case isTrue asserts =>
      obtain ⟨answer, s₁, done, inv', sorted', -⟩ := call_acts serves inv sorted asserts
      rw [done] at stepped
      cases stepped
      exact ⟨inv', sorted'⟩
    case isFalse => cases stepped
  refine ⟨sorted, fun op asserts => ?_⟩
  obtain ⟨answer, s', done, -, sorted', acts⟩ := call_acts serves inv sorted asserts
  exact ⟨answer, s', done, sorted', acts⟩

/-- Signed integers in a ralcGen: 5, -3, 7 and 5 again, the 7 removed. -/
theorem sorted_refines_lp64 : ∃ s, run (step .lp64 (Gen.ralcGen .lp64) (.int 4 .littleEndian) 4096)
      (start 4 Gen.kib) [⟨.add, 100, [5, 0, 0, 0]⟩, ⟨.add, 100, [253, 255, 255, 255]⟩, ⟨.add, 100, [7, 0, 0, 0]⟩,
        ⟨.add, 100, [5, 0, 0, 0]⟩, ⟨.remove, 100, [7, 0, 0, 0]⟩] = some s ∧
    s.list = [[253, 255, 255, 255], [5, 0, 0, 0], [5, 0, 0, 0]] ∧
    ∃ answer s', call .lp64 (Gen.ralcGen .lp64) (.int 4 .littleEndian) s ⟨.find, 100, [5, 0, 0, 0]⟩ =
      some (answer, s') ∧ answer.1 = true := by
  have facts : (run (step .lp64 (Gen.ralcGen .lp64) (.int 4 .littleEndian) 4096) (start 4 Gen.kib)
      [⟨.add, 100, [5, 0, 0, 0]⟩, ⟨.add, 100, [253, 255, 255, 255]⟩, ⟨.add, 100, [7, 0, 0, 0]⟩,
        ⟨.add, 100, [5, 0, 0, 0]⟩, ⟨.remove, 100, [7, 0, 0, 0]⟩]).map (fun s =>
          (s.list, decide ((⟨.find, 100, [5, 0, 0, 0]⟩ : Op).Asserts .lp64 4096 s.dyn))) =
      some ([[253, 255, 255, 255], [5, 0, 0, 0], [5, 0, 0, 0]], true) := by decide +kernel
  obtain ⟨s, ran, ends⟩ := Option.map_eq_some_iff.mp facts
  obtain ⟨list, asserts⟩ := Prod.mk.inj ends
  obtain ⟨-, calls⟩ := sorted_refines (Gen.kib_serves ()) Gen.kib_ok (show 0 < 4 by decide) ran
  obtain ⟨answer, s', done, -, -, found, -⟩ := calls _ (of_decide_eq_true asserts)
  exact ⟨s, ran, list, answer, s', done, found.mpr (by rw [list]; decide)⟩

end Sorted
end Ratlib.Dyn
