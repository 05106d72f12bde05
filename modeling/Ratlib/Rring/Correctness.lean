import Ratlib.Library.Circle
import Ratlib.Library.Runs
import Ratlib.Rring.Model

/-! A ring buffer refines a double-ended queue of at most `cap` values. -/
namespace Ratlib.Rring

open Ratlib.Circle

/-- A client writes a value into each element that it is given, or into one that is there. -/
inductive Op where
  | push (value : List UInt8)
  | pushFront (value : List UInt8)
  | pop (n : Nat)
  | popFront (n : Nat)
  | clear
  | write (i : Nat) (value : List UInt8)

/-- A ring, the memory of its storage, and the values of the queue. -/
structure State where
  ring : RRing
  mem : Mem
  queue : List (List UInt8)

def Op.edit (cap : Nat) (queue : List (List UInt8)) : Op → List (List UInt8)
  | .push value => if queue.length = cap then queue else queue ++ [value]
  | .pushFront value => if queue.length = cap then queue else value :: queue
  | .pop n => queue.take (queue.length - n)
  | .popFront n => queue.drop n
  | .clear => []
  | .write i value => queue.set i value

/-- What the source asserts; values have the size of an element. -/
def Op.Asserts (p : RRing) : Op → Prop
  | .push value | .pushFront value => value.length = p.elemSize
  | .pop n | .popFront n => n ≤ p.count
  | .clear => True
  | .write i value => i < p.count ∧ value.length = p.elemSize

instance (p : RRing) : (op : Op) → Decidable (op.Asserts p)
  | .push _ | .pushFront _ => inferInstanceAs (Decidable (_ = _))
  | .pop _ | .popFront _ => inferInstanceAs (Decidable (_ ≤ _))
  | .clear => .isTrue trivial
  | .write .. => inferInstanceAs (Decidable (_ ∧ _))

variable (P : Platform)

def call (s : State) : Op → RRing × Mem
  | .push value =>
    let (ptr, p) := rringPush P s.ring
    (p, if ptr = 0 then s.mem else s.mem.write ptr value)
  | .pushFront value =>
    let (ptr, p) := rringPushFront P s.ring
    (p, if ptr = 0 then s.mem else s.mem.write ptr value)
  | .pop n => (rringPop P s.ring n, s.mem)
  | .popFront n => (rringPopFront P s.ring n, s.mem)
  | .clear => (rringClear s.ring, s.mem)
  | .write i value => (s.ring, s.mem.write (rringAt P s.ring i) value)

def step (s : State) (op : Op) : Option State :=
  if op.Asserts s.ring then
    let (p, m) := call P s op
    some ⟨p, m, op.edit s.ring.cap s.queue⟩
  else none

def start (buf elemSize cap : Nat) (m : Mem) : State := ⟨rringInit buf elemSize cap, m, []⟩

/-- The storage of a ring exists: an array of `cap` elements. -/
structure Storage (buf elemSize cap : Nat) : Prop where
  positive : 0 < elemSize
  nonnull : cap ≠ 0 → buf ≠ 0
  room : buf + cap * elemSize ≤ P.sizeMax
  half : cap ≤ P.sizeMax / 2

variable {P} {buf elemSize cap : Nat} {s s' : State} {m : Mem} {p : RRing} {op : Op} {ops : List Op}
  {i j n : Nat} {value : List UInt8} {queue : List (List UInt8)}

def valueAt (m : Mem) (buf elemSize j : Nat) : List UInt8 := m.read (buf + j * elemSize) elemSize

/-- A ring in its storage, with these values. -/
structure Holds (P : Platform) (buf elemSize cap : Nat) (p : RRing) (m : Mem)
    (queue : List (List UInt8)) : Prop where
  storage : Storage P buf elemSize cap
  same : p.buf = buf ∧ p.elemSize = elemSize ∧ p.cap = cap
  first : p.first < cap ∨ cap = 0 ∧ p.first = 0
  count : p.count ≤ cap
  values : queue = contents cap p.first p.count (valueAt m buf elemSize)

theorem slots_apart (buf elemSize : Nat) (different : i ≠ j) :
    buf + i * elemSize + elemSize ≤ buf + j * elemSize ∨
      buf + j * elemSize + elemSize ≤ buf + i * elemSize := by
  rcases Nat.lt_or_gt_of_ne different with less | greater
  · have := Nat.mul_le_mul_right elemSize (Nat.succ_le_of_lt less)
    rw [Nat.succ_mul] at this
    omega
  · have := Nat.mul_le_mul_right elemSize (Nat.succ_le_of_lt greater)
    rw [Nat.succ_mul] at this
    omega

theorem valueAt_write (size : value.length = elemSize) :
    valueAt (m.write (buf + j * elemSize) value) buf elemSize =
      Function.update (valueAt m buf elemSize) j value := by
  funext i
  by_cases same : i = j
  · subst same size
    rw [Function.update_self, valueAt, Mem.read_write]
  · rw [Function.update_of_ne same, valueAt, valueAt]
    refine Mem.read_congr fun x inside => Mem.write_out ?_
    have apart := slots_apart buf elemSize same
    have low := inside.1
    have high := inside.2
    omega

theorem elem_eq (holds : Holds P buf elemSize cap p m queue) (low : i < cap) :
    elem P p i = buf + i * elemSize ∧ elem P p i ≠ 0 := by
  obtain ⟨rfl, rfl, rfl⟩ := holds.same
  have room := holds.storage.room
  have within := Nat.mul_le_mul_right p.elemSize (Nat.le_of_lt low)
  have nonnull := holds.storage.nonnull (Nat.ne_zero_of_lt low)
  rw [elem, Platform.mul_of_le (by omega)]
  exact ⟨rfl, by omega⟩

/-- All five index computations: one conditional subtraction is the circle. -/
theorem wrapIndex_slot (holds : Holds P buf elemSize cap p m queue) (low : p.first < cap)
    (within : i ≤ cap) : wrapIndex P p (P.add p.first i) = slot cap p.first i := by
  obtain ⟨-, -, rfl⟩ := holds.same
  have half := holds.storage.half
  have whole := P.sizeMax_ge
  rw [wrapIndex, Platform.add_of_le (by omega), slot_eq low within]
  split
  case isTrue wraps => exact Platform.sub_of_le wraps (by omega)
  case isFalse => rfl

/-- A place that is given out: an element of the storage that no live value takes. -/
def Free (P : Platform) (p : RRing) (ptr : Nat) : Prop :=
  ∃ j < p.cap, ptr = p.buf + j * p.elemSize ∧ ∀ i < p.count,
    ptr + p.elemSize ≤ rringAt P p i ∨ rringAt P p i + p.elemSize ≤ ptr

theorem Holds.low (holds : Holds P buf elemSize cap p m queue) (some : cap ≠ 0) : p.first < cap :=
  holds.first.resolve_right fun none => some none.1

theorem rringAt_eq (holds : Holds P buf elemSize cap p m queue) (inside : i < p.count) :
    rringAt P p i = buf + slot cap p.first i * elemSize := by
  have within := Nat.lt_of_lt_of_le inside holds.count
  have low := holds.low (Nat.ne_zero_of_lt within)
  have whole := wrapIndex_slot holds low (Nat.le_of_lt within)
  rw [rringAt, Platform.add, Nat.add_comm i, ← Platform.add, whole]
  exact (elem_eq holds (slot_lt (Nat.zero_lt_of_lt within))).1

/-- `rring_last` counts from the other end. -/
theorem rringLast_eq (holds : Holds P buf elemSize cap p m queue) (inside : i < p.count) :
    rringLast P p i = rringAt P p (p.count - 1 - i) := by
  have within := Nat.lt_of_lt_of_le inside holds.count
  have low := holds.low (Nat.ne_zero_of_lt within)
  have half := holds.storage.half
  have count := holds.count
  have index : P.sub (P.sub (P.add p.first p.count) 1) i = P.add (p.count - 1 - i) p.first := by
    have last : P.sub (p.first + p.count) 1 = p.first + p.count - 1 :=
      Platform.sub_of_le (by omega) (by omega)
    have back : P.sub (p.first + p.count - 1) i = p.first + p.count - 1 - i :=
      Platform.sub_of_le (by omega) (by omega)
    rw [Platform.add_of_le (by omega), last, back, Platform.add_of_le (by omega)]
    omega
  rw [rringLast, index, rringAt]

theorem free_slot (holds : Holds P buf elemSize cap p m queue) (low : j < cap)
    (other : ∀ i < p.count, slot cap p.first i ≠ j) : Free P p (buf + j * elemSize) := by
  have same := holds.same
  refine ⟨j, same.2.2 ▸ low, by rw [same.1, same.2.1], fun i inside => ?_⟩
  rw [rringAt_eq holds inside, same.2.1]
  exact slots_apart buf elemSize (other i inside).symm

theorem Holds.not_full (holds : Holds P buf elemSize cap p m queue) (room : p.count ≠ p.cap) :
    p.count < cap ∧ p.first < cap := by
  have below : p.count < cap := Nat.lt_of_le_of_ne holds.count (holds.same.2.2 ▸ room)
  exact ⟨below, holds.low (Nat.ne_zero_of_lt below)⟩

/-- `rring_push` gives out the slot behind the last value. -/
theorem rringPush_cases (holds : Holds P buf elemSize cap p m queue) :
    if p.count = p.cap then rringPush P p = (0, p)
    else ∃ ptr p', rringPush P p = (ptr, p') ∧ ptr ≠ 0 ∧ Free P p ptr ∧ ∀ value : List UInt8,
      value.length = elemSize →
        Holds P buf elemSize cap p' (m.write ptr value) (queue ++ [value]) := by
  have same := holds.same
  split
  case isTrue full => exact if_pos full
  case isFalse room =>
    have count := holds.count
    have half := holds.storage.half
    obtain ⟨room', low⟩ := holds.not_full room
    have inside : slot cap p.first p.count < cap := slot_lt (Nat.zero_lt_of_lt room')
    obtain ⟨address, nonnull⟩ := elem_eq holds inside
    rw [rringPush, if_neg room, wrapIndex_slot holds low count, Platform.add_of_le (by omega)]
    refine ⟨_, _, rfl, nonnull, ?_, fun value size => ⟨holds.storage, same, Or.inl low, room', ?_⟩⟩
    · change Free P p (elem P p _)
      rw [address]
      exact free_slot holds inside fun i live equal =>
        Nat.ne_of_lt live (slot_inj (Nat.lt_trans live room') room' equal)
    · change _ = contents _ _ (p.count + 1) (valueAt (m.write (elem P p _) value) buf elemSize)
      rw [address, valueAt_write size, contents_push room', holds.values]

/-- `rring_pushFront` gives out the slot before the first value. -/
theorem rringPushFront_cases (holds : Holds P buf elemSize cap p m queue) :
    if p.count = p.cap then rringPushFront P p = (0, p)
    else ∃ ptr p', rringPushFront P p = (ptr, p') ∧ ptr ≠ 0 ∧ Free P p ptr ∧ ∀ value : List UInt8,
      value.length = elemSize →
        Holds P buf elemSize cap p' (m.write ptr value) (value :: queue) := by
  have same := holds.same
  split
  case isTrue full => exact if_pos full
  case isFalse room =>
    have count := holds.count
    have half := holds.storage.half
    obtain ⟨room', low⟩ := holds.not_full room
    have before : (if p.first ≠ 0 then P.sub p.first 1 else P.sub p.cap 1) =
        slot cap p.first (cap - 1) := by
      rw [slot_eq low (Nat.sub_le cap 1), same.2.2]
      split
      case isTrue positive =>
        have down : P.sub p.first 1 = p.first - 1 := Platform.sub_of_le (by omega) (by omega)
        rw [if_pos (by omega), down]
        omega
      case isFalse zero =>
        have down : P.sub cap 1 = cap - 1 := Platform.sub_of_le (by omega) (by omega)
        rw [if_neg (by omega), down]
        omega
    have inside : slot cap p.first (cap - 1) < cap := slot_lt (Nat.zero_lt_of_lt room')
    obtain ⟨address, nonnull⟩ := elem_eq holds inside
    have one : P.add p.count 1 = p.count + 1 := Platform.add_of_le (by omega)
    simp only [rringPushFront, if_neg room, before, one]
    refine ⟨_, _, rfl, nonnull, ?_, fun value size => ⟨holds.storage, same, Or.inl inside, room', ?_⟩⟩
    · change Free P p (elem P p _)
      rw [address]
      exact free_slot holds inside fun i live equal =>
        Nat.ne_of_lt (by omega) (slot_inj (Nat.lt_trans live room') (Nat.sub_one_lt_of_lt room') equal)
    · change _ = contents _ _ (p.count + 1) (valueAt (m.write (elem P p _) value) buf elemSize)
      rw [address, valueAt_write size, contents_pushFront room', holds.values]

theorem rringPop_holds (holds : Holds P buf elemSize cap p m queue) (enough : n ≤ p.count) :
    Holds P buf elemSize cap (rringPop P p n) m (queue.take (queue.length - n)) := by
  have half := holds.storage.half
  have count := holds.count
  have length : queue.length = p.count := by rw [holds.values, contents_length]
  have left : P.sub p.count n = p.count - n := Platform.sub_of_le enough (by omega)
  refine ⟨holds.storage, holds.same, holds.first, ?_, ?_⟩
  · rw [rringPop, left]
    exact Nat.le_trans (Nat.sub_le ..) count
  · rw [rringPop, left, length, contents_pop, ← holds.values]

theorem rringPopFront_holds (holds : Holds P buf elemSize cap p m queue) (enough : n ≤ p.count) :
    Holds P buf elemSize cap (rringPopFront P p n) m (queue.drop n) := by
  have half := holds.storage.half
  have count := holds.count
  have left : P.sub p.count n = p.count - n := Platform.sub_of_le enough (by omega)
  rcases holds.first with low | ⟨none, zero⟩
  · have moved := wrapIndex_slot holds low (Nat.le_trans enough count)
    refine ⟨holds.storage, holds.same, Or.inl ?_, ?_, ?_⟩
    · rw [rringPopFront, moved]
      exact slot_lt (Nat.zero_lt_of_lt low)
    · rw [rringPopFront, left]
      exact Nat.le_trans (Nat.sub_le ..) count
    · rw [rringPopFront, moved, left, contents_popFront, ← holds.values]
  · -- Without slots nothing is there, and nothing moves.
    have nothing : n = 0 := by omega
    have stays : rringPopFront P p n = p := by
      obtain ⟨-, -, same⟩ := holds.same
      have first : wrapIndex P p (P.add p.first n) = p.first := by
        rw [zero, nothing, Platform.add_of_le (by omega), wrapIndex, same, none]
        exact Platform.sub_of_le (Nat.le_refl 0) (by omega)
      rw [rringPopFront, first, left, nothing, Nat.sub_zero]
    rw [stays, nothing, List.drop_zero]
    exact holds

theorem rringClear_holds (holds : Holds P buf elemSize cap p m queue) :
    Holds P buf elemSize cap (rringClear p) m [] where
  storage := holds.storage
  same := holds.same
  first := (Nat.eq_zero_or_pos cap).elim (fun none => Or.inr ⟨none, rfl⟩) Or.inl
  count := Nat.zero_le cap
  values := rfl

theorem write_holds (holds : Holds P buf elemSize cap p m queue) (inside : i < p.count)
    (size : value.length = elemSize) :
    Holds P buf elemSize cap p (m.write (rringAt P p i) value) (queue.set i value) where
  storage := holds.storage
  same := holds.same
  first := holds.first
  count := holds.count
  values := by
    rw [rringAt_eq holds inside, valueAt_write size, contents_set holds.count inside, holds.values]

theorem start_holds (storage : Storage P buf elemSize cap) (m : Mem) :
    Holds P buf elemSize cap (rringInit buf elemSize cap) m [] where
  storage := storage
  same := ⟨rfl, rfl, rfl⟩
  first := (Nat.eq_zero_or_pos cap).elim (fun none => Or.inr ⟨none, rfl⟩) Or.inl
  count := Nat.zero_le cap
  values := rfl

theorem step_holds (holds : Holds P buf elemSize cap s.ring s.mem s.queue)
    (stepped : step P s op = some s') : Holds P buf elemSize cap s'.ring s'.mem s'.queue := by
  rw [step] at stepped
  split at stepped
  case isFalse => cases stepped
  case isTrue asserts =>
    cases stepped
    have length : s.queue.length = s.ring.count := by rw [holds.values, contents_length]
    have size := holds.same.2.1
    cases op with
    | push value =>
      have cases := rringPush_cases holds
      simp only [Op.edit, length]
      split at cases
      case isTrue full =>
        rw [cases, if_pos full, if_pos rfl]
        exact holds
      case isFalse room =>
        obtain ⟨ptr, p', result, nonnull, -, pushed⟩ := cases
        rw [result, if_neg room, if_neg nonnull]
        exact pushed value (asserts.trans size)
    | pushFront value =>
      have cases := rringPushFront_cases holds
      simp only [Op.edit, length]
      split at cases
      case isTrue full =>
        rw [cases, if_pos full, if_pos rfl]
        exact holds
      case isFalse room =>
        obtain ⟨ptr, p', result, nonnull, -, pushed⟩ := cases
        rw [result, if_neg room, if_neg nonnull]
        exact pushed value (asserts.trans size)
    | pop n => exact rringPop_holds holds asserts
    | popFront n => exact rringPopFront_holds holds asserts
    | clear => exact rringClear_holds holds
    | write i value => exact write_holds holds asserts.1 (asserts.2.trans size)

structure Refines (P : Platform) (s : State) : Prop where
  first : s.ring.first < s.ring.cap ∨ s.ring.cap = 0 ∧ s.ring.first = 0
  count : s.ring.count ≤ s.ring.cap
  length : s.ring.count = s.queue.length
  front : ∀ i (low : i < s.queue.length),
    s.mem.read (rringAt P s.ring i) s.ring.elemSize = s.queue[i]
  back : ∀ i (low : i < s.queue.reverse.length),
    s.mem.read (rringLast P s.ring i) s.ring.elemSize = s.queue.reverse[i]
  push : (rringPush P s.ring).1 = 0 ↔ s.ring.count = s.ring.cap
  pushFront : (rringPushFront P s.ring).1 = 0 ↔ s.ring.count = s.ring.cap
  pushFree : s.ring.count ≠ s.ring.cap → Free P s.ring (rringPush P s.ring).1
  pushFrontFree : s.ring.count ≠ s.ring.cap → Free P s.ring (rringPushFront P s.ring).1

theorem Holds.refines (holds : Holds P buf elemSize cap s.ring s.mem s.queue) : Refines P s := by
  obtain ⟨rfl, rfl, rfl⟩ := holds.same
  have length : s.ring.count = s.queue.length := by rw [holds.values, contents_length]
  have front : ∀ i (low : i < s.queue.length),
      s.mem.read (rringAt P s.ring i) s.ring.elemSize = s.queue[i] := by
    intro i low
    simp only [holds.values, contents_getElem]
    rw [rringAt_eq holds (length ▸ low), valueAt]
  have pushed := rringPush_cases holds
  have pushed' := rringPushFront_cases holds
  refine ⟨holds.first, holds.count, length, front, fun i low => ?_, ?_, ?_, ?_, ?_⟩
  · rw [List.length_reverse] at low
    rw [rringLast_eq holds (length ▸ low), List.getElem_reverse, length]
    exact front _ _
  · split at pushed
    case isTrue full => simp [pushed, full]
    case isFalse room =>
      obtain ⟨ptr, p', result, nonnull, -⟩ := pushed
      simp [result, nonnull, room]
  · split at pushed'
    case isTrue full => simp [pushed', full]
    case isFalse room =>
      obtain ⟨ptr, p', result, nonnull, -⟩ := pushed'
      simp [result, nonnull, room]
  · intro room
    rw [if_neg room] at pushed
    obtain ⟨ptr, p', result, -, free, -⟩ := pushed
    rwa [result]
  · intro room
    rw [if_neg room] at pushed'
    obtain ⟨ptr, p', result, -, free, -⟩ := pushed'
    rwa [result]

/-- After any run the ring is the queue. -/
theorem rring_refines (storage : Storage P buf elemSize cap)
    (ran : run (step P) (start buf elemSize cap m) ops = some s) : Refines P s :=
  (run_invariant (fun s => Holds P buf elemSize cap s.ring s.mem s.queue)
    (fun _ _ _ => step_holds) (start_holds storage m) ran).refines

theorem rring_refines_lp64 : ∃ s, run (step .lp64) (start 4096 2 3 fun _ => 0)
      [.push [1, 2], .pushFront [3, 4], .push [5, 6], .push [7, 8], .popFront 2, .pushFront [9, 9]] =
        some s ∧ s.queue = [[9, 9], [5, 6]] ∧ Refines .lp64 s := by
  have facts : (run (step .lp64) (start 4096 2 3 fun _ => 0) [.push [1, 2], .pushFront [3, 4],
      .push [5, 6], .push [7, 8], .popFront 2, .pushFront [9, 9]]).map State.queue =
        some [[9, 9], [5, 6]] := by decide +kernel
  obtain ⟨s, ran, queue⟩ := Option.map_eq_some_iff.mp facts
  have storage : Storage .lp64 4096 2 3 := ⟨by decide, by decide, by decide +kernel, by decide +kernel⟩
  exact ⟨s, ran, queue, rring_refines storage ran⟩

end Ratlib.Rring
