import Ratlib.Alloc.Interface
import Ratlib.Arr.Model

/-! The dynamic array of rat_rdyn.c over any allocator. Functions that may move the
buffer return a pointer, zero for NULL, the array and the world after the call. -/
namespace Ratlib.Dyn

/-- `rdyn`, without its allocator, which the functions take. -/
structure RDyn where
  buf : Nat
  elemSize : Nat
  cap : Nat
  count : Nat
  allowShrink : Bool

variable (P : Platform) (A : Ralc σ)

def rdynInit (elemSize : Nat) : RDyn where
  buf := 0
  elemSize := elemSize
  cap := 0
  count := 0
  allowShrink := false

/-- `reallocBuf`: the new buffer and its capacity, or nothing. `actualSize` is not
initialised before the calls that write it. -/
def reallocBuf (p : RDyn) (w : World σ) (cap copyCount : Nat) : Option (Nat × Nat) × World σ :=
  let size := P.mul cap p.elemSize
  let (newArr, w) := ralcRealloc A w p.buf size
  let actualSize := newArr.actual 0
  if newArr.ptr ≠ 0 then (some (newArr.ptr, actualSize / p.elemSize), w)
  else
    -- An allocator may refuse to resize through the generic interface.
    let (newArr, w) := ralcAlloc A w size
    let actualSize := newArr.actual actualSize
    if newArr.ptr = 0 then (none, w)
    else
      let w := { w with mem := w.mem.copy newArr.ptr p.buf (P.mul copyCount p.elemSize) }
      let w := if p.buf ≠ 0 then ralcFree A w p.buf else w
      (some (newArr.ptr, actualSize / p.elemSize), w)

def grow (p : RDyn) (w : World σ) (growCount : Nat) : Bool × RDyn × World σ :=
  let newCount := P.add p.count growCount
  if newCount ≤ p.cap then (true, { p with count := newCount }, w)
  else
    match reallocBuf P A p w (P.add newCount (newCount / 2)) p.count with
    | (some (newArr, newCap), w) => (true, { p with buf := newArr, count := newCount, cap := newCap }, w)
    | (none, w) =>
      match reallocBuf P A p w newCount p.count with
      | (some (newArr, newCap), w) =>
        (true, { p with buf := newArr, count := newCount, cap := newCap }, w)
      | (none, w) => (false, p, w)

def rdynClear (p : RDyn) (w : World σ) : RDyn × World σ :=
  ({ p with buf := 0, count := 0, cap := 0 }, if p.buf ≠ 0 then ralcFree A w p.buf else w)

def shrink (p : RDyn) (w : World σ) (shrinkCount : Nat) : RDyn × World σ :=
  if ¬p.allowShrink then ({ p with count := P.sub p.count shrinkCount }, w)
  else if p.count ≤ shrinkCount then rdynClear A p w
  else
    let newCount := P.sub p.count shrinkCount
    if newCount ≤ p.cap / 2 then
      match reallocBuf P A p w (P.add newCount (newCount / 3)) newCount with
      | (some (newArr, newCap), w) => ({ p with buf := newArr, cap := newCap, count := newCount }, w)
      | (none, w) => ({ p with count := newCount }, w)
    else ({ p with count := newCount }, w)

def rdynInsert (p : RDyn) (w : World σ) (index count : Nat) : Nat × RDyn × World σ :=
  match grow P A p w count with
  | (false, p, w) => (0, p, w)
  | (true, p, w) =>
    let (b, m) := Arr.rarrInsert P w.mem p.buf p.elemSize p.count index count
    (b, p, { w with mem := m })

def rdynRemove (p : RDyn) (w : World σ) (index count : Nat) : Nat × RDyn × World σ :=
  let (_, m) := Arr.rarrRemove P w.mem p.buf p.elemSize p.count index count
  let (p, w) := shrink P A p { w with mem := m } count
  (if p.buf ≠ 0 then p.buf + P.mul index p.elemSize else 0, p, w)

def rdynResize (p : RDyn) (w : World σ) (index oldCount newCount : Nat) : Nat × RDyn × World σ :=
  let (result, p, w) :=
    if newCount > oldCount then rdynInsert P A p w (P.add index oldCount) (P.sub newCount oldCount)
    else rdynRemove P A p w (P.add index newCount) (P.sub oldCount newCount)
  (if result ≠ 0 then p.buf + P.mul index p.elemSize else 0, p, w)

def rdynSetCap (p : RDyn) (w : World σ) (newCap : Nat) : Bool × RDyn × World σ :=
  if newCap = 0 then
    let (p, w) := rdynClear A p w
    (true, p, w)
  else
    let copyCount := if p.count < newCap then p.count else newCap
    match reallocBuf P A p w newCap copyCount with
    | (none, w) => (false, p, w)
    | (some (newArr, newCap), w) =>
      let p := { p with buf := newArr, cap := newCap }
      (true, { p with count := if p.count > p.cap then p.cap else p.count }, w)

/-- The assertions of `grow`, and of `reallocBuf` for the larger of the two capacities
it is called with; the allocator takes requests of up to `limit` bytes. -/
def GrowAsserts (limit : Nat) (p : RDyn) (growCount : Nat) : Prop :=
  growCount ≤ P.sizeMax - p.count ∧ (p.count + growCount ≤ p.cap ∨
    let newCap := p.count + growCount + (p.count + growCount) / 2
    newCap ≤ P.sizeMax / p.elemSize ∧ newCap * p.elemSize ≤ limit)

/-- The assertions of `shrink`, and what the allocator takes where it calls `reallocBuf`. -/
def ShrinkAsserts (limit : Nat) (p : RDyn) (shrinkCount : Nat) : Prop :=
  shrinkCount ≤ p.count ∧ (p.allowShrink ∧ p.count - shrinkCount ≤ p.cap / 2 →
    (p.count - shrinkCount + (p.count - shrinkCount) / 3) * p.elemSize ≤ limit)

instance (limit : Nat) (p : RDyn) (growCount : Nat) : Decidable (GrowAsserts P limit p growCount) :=
  inferInstanceAs (Decidable (_ ∧ (_ ∨ _ ∧ _)))

instance (limit : Nat) (p : RDyn) (shrinkCount : Nat) : Decidable (ShrinkAsserts limit p shrinkCount) :=
  inferInstanceAs (Decidable (_ ∧ (_ → _)))

end Ratlib.Dyn
