import Ratlib.Gen.Model
import Ratlib.Arena.Model
import Ratlib.Pool.Model
import Ratlib.Rlist.Model

/-! The dispatch of rat_ralc.c, for chains of library allocators: a ralcGen at the
bottom, and arenas, pools and lists over it, each with the one before as its parent. A
custom allocator brings its own functions and is not one of them. -/
namespace Ratlib.Tower

variable {σ τ : Type}

def below (w : World (τ × σ)) : World σ := ⟨w.state.2, w.mem⟩

def above (p : τ) (w : World σ) : World (τ × σ) := ⟨(p, w.state), w.mem⟩

/-- An allocator, and the requests for which no assertion about sizes fails and no sum
wraps in its code and in that of the allocators below. -/
structure Checked (σ : Type) where
  ralc : Ralc σ
  admitsAlloc : World σ → Nat → Bool
  admitsRealloc : World σ → Nat → Nat → Bool

/-- The allocator that refuses the other requests. -/
def Checked.guarded (C : Checked σ) : Ralc σ where
  alloc w size := if C.admitsAlloc w size then ralcAlloc C.ralc w size else (.null, w)
  realloc w ptr newSize :=
    if C.admitsRealloc w ptr newSize then ralcRealloc C.ralc w ptr newSize else (.null, w)
  free := C.ralc.free

variable (P : Platform)

/-- The case `RALC_GENERAL`. -/
def ralcGeneral : Checked Gen.RalcGen where
  ralc := Gen.ralcGen P
  admitsAlloc _ size := decide (Gen.AdmitsSize P size)
  admitsRealloc w ptr newSize := decide (Gen.AdmitsResize P w.state w.mem ptr newSize)

variable (C : Checked σ)

/-- `ralcArena_push` does not wrap, nor the request it may pass on. -/
def arenaAdmits (w : World (Arena.RalcArena × σ)) (size : Nat) : Bool :=
  decide (Arena.PushAsserts P P.sizeMax w.state.1 w.mem size) &&
    (decide (Arena.Fits P w.state.1 w.mem (Arena.pushSize P size)) ||
      C.admitsAlloc (below w) (Arena.pushRequest P w.state.1 (Arena.pushSize P size)))

def arenaPush (w : World (Arena.RalcArena × σ)) (size : Nat) :
    Reply × World (Arena.RalcArena × σ) :=
  let (reply, p, w) := Arena.ralcArenaPush P C.ralc w.state.1 (below w) size
  (reply, above p w)

/-- The case `RALC_ARENA`. -/
def ralcArena : Checked (Arena.RalcArena × σ) where
  ralc :=
    { alloc := arenaPush P C
      realloc := fun w ptr newSize => if ptr ≠ 0 then (.null, w) else arenaPush P C w newSize
      free := fun w _ => w }
  admitsAlloc := arenaAdmits P C
  admitsRealloc w ptr newSize := ptr ≠ 0 || arenaAdmits P C w newSize

/-- The request that `ralcPool_alloc` passes on when no slot is free. -/
def poolRequest (p : Pool.RalcPool) : Nat := Pool.headerSize P + p.chunkCap * p.elemSize

/-- `ralcPool_alloc` does not wrap, nor the request it may pass on. -/
def slotAdmits (p : Pool.RalcPool) (w : World σ) : Bool :=
  decide (Pool.AllocAsserts P P.sizeMax p) &&
    (p.freeSlots ≠ 0 || C.admitsAlloc w (poolRequest P p))

def slotSize (size : Nat) : Nat := P.ratAlign (if size ≠ 0 then size else 1)

def poolAdmits (w : World (Pool.RalcPool × σ)) (size : Nat) : Bool :=
  decide (size + (P.alignment - 1) ≤ P.sizeMax) &&
    (decide (slotSize P size > w.state.1.elemSize) || slotAdmits P C w.state.1 (below w))

def poolAlloc (w : World (Pool.RalcPool × σ)) (size : Nat) : Reply × World (Pool.RalcPool × σ) :=
  if slotSize P size > w.state.1.elemSize then (.null, w)
  else
    let (obj, p, w) := Pool.ralcPoolAlloc P C.ralc w.state.1 (below w)
    (⟨obj, if obj ≠ 0 then some p.elemSize else none⟩, above p w)

/-- The case `RALC_POOL`. -/
def ralcPool : Checked (Pool.RalcPool × σ) where
  ralc :=
    { alloc := poolAlloc P C
      realloc := fun w ptr newSize => if ptr ≠ 0 then (.null, w) else poolAlloc P C w newSize
      free := fun w ptr =>
        let (p, w) := Pool.ralcPoolFree P w.state.1 (below w) ptr
        above p w }
  admitsAlloc := poolAdmits P C
  admitsRealloc w ptr newSize := ptr ≠ 0 || poolAdmits P C w newSize

/-- `rlist_insert` does not wrap, nor the request it passes on. -/
def insertAdmits (w : World σ) (size : Nat) : Bool :=
  decide (Rlist.AllocAsserts P P.sizeMax size) && C.admitsAlloc w (Rlist.headerSize P + size)

/-- `rlist_resize` does not wrap, nor its requests, of which the second follows a
refused first one. -/
def resizeAdmits (w : World σ) (obj newSize : Nat) : Bool :=
  decide (Rlist.ResizeAsserts P C.ralc P.sizeMax w obj newSize) &&
    C.admitsRealloc w (Rlist.objBlock P obj) (Rlist.headerSize P + newSize) &&
    let (newBlock, w) := ralcRealloc C.ralc w (Rlist.objBlock P obj) (Rlist.headerSize P + newSize)
    newBlock.ptr ≠ 0 || C.admitsAlloc w (Rlist.headerSize P + newBlock.actual newSize)

def objReply : Nat × Rlist.RList × World σ → Reply × World (Rlist.RList × σ)
  | (obj, p, w) => (⟨obj, if obj ≠ 0 then some (Rlist.rlistElemSize P w.mem obj) else none⟩, above p w)

def listPush (w : World (Rlist.RList × σ)) (size : Nat) : Reply × World (Rlist.RList × σ) :=
  objReply P (Rlist.rlistInsert P C.ralc w.state.1 (below w) 0 size)

/-- The case `RALC_LIST`. -/
def ralcList : Checked (Rlist.RList × σ) where
  ralc :=
    { alloc := listPush P C
      realloc := fun w ptr newSize =>
        if ptr = 0 then listPush P C w newSize
        else objReply P (Rlist.rlistResize P C.ralc w.state.1 (below w) ptr newSize)
      free := fun w ptr =>
        let (_, p, w) := Rlist.rlistRemove P C.ralc w.state.1 (below w) ptr 1
        above p w }
  admitsAlloc w size := insertAdmits P C (below w) size
  admitsRealloc w ptr newSize :=
    if ptr = 0 then insertAdmits P C (below w) newSize else resizeAdmits P C (below w) ptr newSize

/-- A layer over a parent, with the arguments of its init function. -/
inductive Layer where
  | arena (initChunkCap : Nat)
  | pool (elemSize initChunkCap : Nat)
  | list

/-- What a layer keeps outside the memory. -/
def Layer.Head : Layer → Type
  | .arena _ => Arena.RalcArena
  | .pool _ _ => Pool.RalcPool
  | .list => Rlist.RList

def Layer.init : (l : Layer) → l.Head
  | .arena initChunkCap => Arena.ralcArenaInit initChunkCap
  | .pool elemSize initChunkCap => Pool.ralcPoolInit P elemSize initChunkCap
  | .list => Rlist.rlistInit

def Layer.InitAsserts : Layer → Prop
  | .pool elemSize _ => Pool.InitAsserts P elemSize
  | .arena _ | .list => True

instance : (l : Layer) → Decidable (l.InitAsserts P)
  | .pool elemSize _ => inferInstanceAs (Decidable (Pool.InitAsserts P elemSize))
  | .arena _ | .list => .isTrue trivial

def Layer.over : (l : Layer) → Checked σ → Checked (l.Head × σ)
  | .arena _ => ralcArena P
  | .pool _ _ => ralcPool P
  | .list => ralcList P

def State : List Layer → Type
  | [] => Gen.RalcGen
  | l :: ls => l.Head × State ls

def chain : (ls : List Layer) → Checked (State ls)
  | [] => ralcGeneral P
  | l :: ls => l.over P (chain ls)

def init (buf bufSize : Nat) : (ls : List Layer) → State ls
  | [] => Gen.ralcGenInit buf bufSize
  | l :: ls => (l.init P, init buf bufSize ls)

end Ratlib.Tower
