import Ratlib.Alloc.Interface

/-! The doubly linked list of rat_rlist.c over any allocator. Elements are known by the
pointers to their payload, zero for NULL; functions that call the allocator return a
pointer, the list and the world after the call. -/
namespace Ratlib.Rlist

/-- `rlist`, without its allocator, which the functions take. -/
structure RList where
  first : Nat
  last : Nat
  count : Nat

inductive Field where
  | prev
  | next
  | size
deriving DecidableEq

def Field.index : Field → Nat
  | .prev => 0
  | .next => 1
  | .size => 2

variable (P : Platform)

def sizeofElem : Nat := 3 * P.sizeT

def headerSize : Nat := P.ratAlign (sizeofElem P)

def objElem (obj : Nat) : Nat := obj - sizeofElem P
def objBlock (obj : Nat) : Nat := obj - headerSize P
def blockObj (block : Nat) : Nat := block + headerSize P

def data (e : Nat) : Nat := e + sizeofElem P

/-- `elem ? elem->data : NULL` -/
def objOf (e : Nat) : Nat := if e ≠ 0 then data P e else 0
/-- `obj ? OBJ_ELEM(obj) : NULL` -/
def elemOf (obj : Nat) : Nat := if obj ≠ 0 then objElem P obj else 0

def field (m : Mem) (e : Nat) (f : Field) : Nat := P.get m (e + f.index * P.sizeT)

def setField (m : Mem) (e : Nat) (f : Field) (value : Nat) : Mem :=
  P.put m (e + f.index * P.sizeT) value

def rlistInit : RList := ⟨0, 0, 0⟩

def rlistElemAllocSize (objSize : Nat) : Nat := P.add (headerSize P) objSize
def rlistElemSize (m : Mem) (obj : Nat) : Nat := field P m (objElem P obj) .size
def rlistPrev (m : Mem) (obj : Nat) : Nat := objOf P (field P m (objElem P obj) .prev)
def rlistNext (m : Mem) (obj : Nat) : Nat := objOf P (field P m (objElem P obj) .next)

/-- `prev_p->next = elem_p`, or `p->first` without a `prev_p`. -/
def setNext (p : RList) (m : Mem) (prev e : Nat) : RList × Mem :=
  if prev ≠ 0 then (p, setField P m prev .next e) else ({ p with first := objOf P e }, m)

/-- `next_p->prev = elem_p`, or `p->last` without a `next_p`. -/
def setPrev (p : RList) (m : Mem) (next e : Nat) : RList × Mem :=
  if next ≠ 0 then (p, setField P m next .prev e) else ({ p with last := objOf P e }, m)

variable {σ : Type u} (A : Ralc σ)

def rlistInsert (p : RList) (w : World σ) (obj size : Nat) : Nat × RList × World σ :=
  let (block, w) := ralcAlloc A w (rlistElemAllocSize P size)
  if block.ptr = 0 then (0, p, w)
  else
    let size := block.actual size
    let e := objElem P (blockObj P block.ptr)
    let next := elemOf P obj
    let prev := if obj ≠ 0 then field P w.mem next .prev else elemOf P p.last
    let (p, m) := setPrev P p w.mem next e
    let (p, m) := setNext P p m prev e
    let m := setField P m e .prev prev
    let m := setField P m e .next next
    let m := setField P m e .size (P.sub size (headerSize P))
    (data P e, { p with count := P.add p.count 1 }, { w with mem := m })

/-- The end of `rlist_resize`, where the element is in its new block. -/
def relink (p : RList) (w : World σ) (newBlock newSize : Nat) : Nat × RList × World σ :=
  let e := objElem P (blockObj P newBlock)
  let (p, m) := setNext P p w.mem (field P w.mem e .prev) e
  let (p, m) := setPrev P p m (field P m e .next) e
  let m := setField P m e .size (P.sub newSize (headerSize P))
  (data P e, p, { w with mem := m })

/-- `rlist_resize`; the refused realloc may have written to `newSize`. -/
def rlistResize (p : RList) (w : World σ) (obj newSize : Nat) : Nat × RList × World σ :=
  let block := objBlock P obj
  let blockSize := P.add (headerSize P) (field P w.mem (objElem P obj) .size)
  let (newBlock, w) := ralcRealloc A w block (rlistElemAllocSize P newSize)
  let newSize := newBlock.actual newSize
  if newBlock.ptr ≠ 0 then relink P p w newBlock.ptr newSize
  else
    let (newBlock, w) := ralcAlloc A w (rlistElemAllocSize P newSize)
    let newSize := newBlock.actual newSize
    if newBlock.ptr = 0 then (0, p, w)
    else
      let size := if blockSize < newSize then blockSize else newSize
      let w := { w with mem := w.mem.copy newBlock.ptr block size }
      relink P p (ralcFree A w block) newBlock.ptr newSize

/-- The loop of `rlist_remove`: `count` elements from `e` are freed. -/
def freeRun (w : World σ) (e : Nat) : Nat → Nat × World σ
  | 0 => (e, w)
  | count + 1 =>
    let next := field P w.mem e .next
    freeRun (ralcFree A w (objBlock P (data P e))) next count

def rlistRemove (p : RList) (w : World σ) (obj count : Nat) : Nat × RList × World σ :=
  if count = 0 then (0, p, w)
  else
    let before := field P w.mem (objElem P obj) .prev
    let (e, w) := freeRun P A w (objElem P obj) count
    let (p, m) := setNext P p w.mem before e
    let (p, m) := setPrev P p m e before
    (objOf P e, { p with count := P.sub p.count count }, { w with mem := m })

def rlistClear (p : RList) (w : World σ) : Nat × RList × World σ :=
  rlistRemove P A p w p.first p.count

/-- The loop of `rlist_index`, which has no result where it is not through after `rounds`
elements, or follows NULL. -/
def indexLoop (m : Mem) (target : Nat) : (rounds e index : Nat) → Option Nat
  | 0, _, _ => none
  | rounds + 1, e, index =>
    if e = target then some index
    else if e = 0 then none
    else indexLoop m target rounds (field P m e .next) (P.add index 1)

def rlistIndex (p : RList) (m : Mem) (obj : Nat) : Option Nat :=
  indexLoop P m (objElem P obj) p.count (objElem P p.first) 0

/-- The loops of `rlist_at`: `index` pointers from the element `e` on. -/
def walk (m : Mem) (f : Field) : (index e : Nat) → Nat
  | 0, e => e
  | index + 1, e => walk m f index (field P m e f)

def rlistAt (p : RList) (m : Mem) (index : Nat) : Nat :=
  if index < p.count >>> 1 then data P (walk P m .next index (objElem P p.first))
  else data P (walk P m .prev (P.sub (P.sub p.count index) 1) (objElem P p.last))

/-- The assertion of `rlist_elemAllocSize`; the allocator takes requests of up to
`limit` bytes. -/
def AllocAsserts (limit objSize : Nat) : Prop :=
  headerSize P + objSize ≤ P.sizeMax ∧ headerSize P + objSize ≤ limit

/-- The assertions of `rlist_resize`, whose fallback may ask for the size that the
refused realloc wrote. -/
def ResizeAsserts (limit : Nat) (w : World σ) (obj newSize : Nat) : Prop :=
  AllocAsserts P limit newSize ∧
    let newBlock := (ralcRealloc A w (objBlock P obj) (headerSize P + newSize)).1
    (newBlock.ptr = 0 → AllocAsserts P limit (newBlock.actual newSize))

instance (limit objSize : Nat) : Decidable (AllocAsserts P limit objSize) :=
  inferInstanceAs (Decidable (_ ∧ _))

instance (limit : Nat) (w : World σ) (obj newSize : Nat) :
    Decidable (ResizeAsserts P A limit w obj newSize) :=
  inferInstanceAs (Decidable (_ ∧ (_ → _)))

end Ratlib.Rlist
