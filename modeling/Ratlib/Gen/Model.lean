import Ratlib.Alloc.Interface

/-! The general-purpose allocator of rat_ralcGen.c over one memory that holds the
headers and the payloads. `size_t` arithmetic wraps; block pointers are addresses.
The functions assert `p->buf`, `p->size <= p->cap`, a non-NULL argument and
`size <= SIZE_MAX - (RAT_ALIGNMENT - 1)`; these are `AdmitsSize` and what the
layout of a reachable state provides. -/
namespace Ratlib.Gen

structure RalcGen where
  buf : Nat
  cap : Nat
  size : Nat

section Header
variable (P : Platform)

/-- `sizeof(block)`: the two words before the flexible `data` member. -/
def sizeofBlock : Nat := 2 * P.sizeT

def prevSizeUnused (m : Mem) (block : Nat) : Nat := P.get m block
def putPrevSizeUnused (m : Mem) (block value : Nat) : Mem := P.put m block value

def blockSize (m : Mem) (block : Nat) : Nat := P.get m (block + P.sizeT)
def putBlockSize (m : Mem) (block value : Nat) : Mem := P.put m (block + P.sizeT) value

def data (block : Nat) : Nat := block + sizeofBlock P

def maskUnused : Nat := 0x01
def maskPrevsize : Nat := P.sizeMax ^^^ maskUnused

def blockPrev (m : Mem) (block : Nat) : Nat :=
  block - sizeofBlock P - (prevSizeUnused P m block &&& maskPrevsize P)
def blockNext (m : Mem) (block : Nat) : Nat := data P block + blockSize P m block
def blockHasPrev (p : RalcGen) (block : Nat) : Bool := decide (block > p.buf)
def blockIsEnd (p : RalcGen) (block : Nat) : Bool := decide (block ≥ p.buf + p.size)
def blockIsUnused (m : Mem) (block : Nat) : Nat := prevSizeUnused P m block &&& maskUnused

end Header

variable (P : Platform)

def blockSetSize (p : RalcGen) (m : Mem) (block size : Nat) : Mem :=
  let m := putBlockSize P m block size
  let next := blockNext P m block
  if blockIsEnd p next then m
  else putPrevSizeUnused P m next (size ||| blockIsUnused P m next)

def blockSplit (p : RalcGen) (m : Mem) (block availableSize usedSize : Nat) : Mem × Nat :=
  let remainingSize := P.sub availableSize usedSize
  let (m, usedSize) :=
    if remainingSize ≥ sizeofBlock P then
      let next := data P block + usedSize
      let m := blockSetSize P p m next (P.sub remainingSize (sizeofBlock P))
      (putPrevSizeUnused P m next maskUnused, usedSize)
    else
      -- The tail cannot hold another header: the caller gets the whole block.
      (m, availableSize)
  let m := blockSetSize P p m block usedSize
  (putPrevSizeUnused P m block (prevSizeUnused P m block &&& maskPrevsize P), usedSize)

def blockMerge (p : RalcGen) (m : Mem) (block : Nat) : RalcGen × Mem :=
  let totalSize := blockSize P m block
  let addedSize :=
    if blockHasPrev p block then
      let prev := blockPrev P m block
      if blockIsUnused P m prev ≠ 0 then P.add (blockSize P m prev) (sizeofBlock P) else 0
    else 0
  let totalSize := P.add totalSize addedSize
  let block := block - addedSize
  let next := data P block + totalSize
  if blockIsEnd p next then
    ({ p with size := P.sub p.size (P.add (sizeofBlock P) totalSize) }, m)
  else
    let totalSize := P.add totalSize
      (if blockIsUnused P m next ≠ 0 then P.add (sizeofBlock P) (blockSize P m next) else 0)
    let m := blockSetSize P p m block totalSize
    (p, putPrevSizeUnused P m block (prevSizeUnused P m block ||| maskUnused))

def ralcGenInit (buf bufSize : Nat) : RalcGen where
  buf := buf
  cap := bufSize
  size := 0

inductive Walk where
  | hole (block : Nat)
  | tail (block prevSize : Nat)

/-- The loop of `ralcGen_alloc`. Every round passes a header, so `p->size` rounds
are more than it can take (`allocWalk_spec`). -/
def allocWalk (p : RalcGen) (m : Mem) (size : Nat) : Nat → Nat → Nat → Walk
  | 0, block, prevSize => .tail block prevSize
  | rounds + 1, block, prevSize =>
    if blockIsEnd p block then .tail block prevSize
    else if blockIsUnused P m block ≠ 0 ∧ blockSize P m block ≥ size then .hole block
    else allocWalk p m size rounds (blockNext P m block) (blockSize P m block)

def ralcGenAlloc (p : RalcGen) (m : Mem) (size : Nat) : Reply × RalcGen × Mem :=
  let size := P.ratAlign size
  match allocWalk P p m size p.size p.buf 0 with
  | .hole block =>
    let (m, size) := blockSplit P p m block (blockSize P m block) size
    (⟨data P block, some size⟩, p, m)
  | .tail block prevSize =>
    if P.sub p.cap p.size < P.add (sizeofBlock P) size then (.null, p, m)
    else
      let p := { p with size := P.add p.size (P.add (sizeofBlock P) size) }
      let m := putPrevSizeUnused P m block prevSize
      let m := putBlockSize P m block size
      (⟨data P block, some size⟩, p, m)

def ralcGenRealloc (p : RalcGen) (m : Mem) (ptr newSize : Nat) : Reply × RalcGen × Mem :=
  if ptr = 0 then ralcGenAlloc P p m newSize
  else
    let newSize := P.ratAlign newSize
    let block := ptr - sizeofBlock P
    let next := blockNext P m block
    let newBufSize := P.add (P.sub p.size (blockSize P m block)) newSize
    if blockIsEnd p next ∧ newBufSize ≤ p.cap then
      (⟨data P block, some newSize⟩, { p with size := newBufSize }, putBlockSize P m block newSize)
    else
      let availableSize :=
        if blockIsEnd p next then blockSize P m block
        else P.add (blockSize P m block)
          (if blockIsUnused P m next ≠ 0 then P.add (sizeofBlock P) (blockSize P m next) else 0)
      if availableSize ≥ newSize then
        let (m, newSize) := blockSplit P p m block availableSize newSize
        (⟨data P block, some newSize⟩, p, m)
      else
        let (reply, p, m) := ralcGenAlloc P p m newSize
        if reply.ptr = 0 then (reply, p, m)
        else
          let m := m.copy reply.ptr ptr (blockSize P m block)
          let (p, m) := blockMerge P p m block
          (reply, p, m)

def ralcGenFree (p : RalcGen) (m : Mem) (ptr : Nat) : RalcGen × Mem :=
  blockMerge P p m (ptr - sizeofBlock P)

def ralcGenClear (p : RalcGen) : RalcGen := { p with size := 0 }

/-- `size <= SIZE_MAX - (RAT_ALIGNMENT - 1)`, and the sum of the room test does not wrap. -/
def AdmitsSize (size : Nat) : Prop :=
  size + (P.alignment - 1) ≤ P.sizeMax ∧ sizeofBlock P + P.ratAlign size ≤ P.sizeMax

instance (size : Nat) : Decidable (AdmitsSize P size) := inferInstanceAs (Decidable (_ ∧ _))

/-- No sum of `ralcGen_realloc` wraps: those of `ralcGen_alloc`, also for the aligned
size it passes on, and the new buffer size, which it computes for the last block. -/
def AdmitsResize (p : RalcGen) (m : Mem) (ptr newSize : Nat) : Prop :=
  AdmitsSize P newSize ∧ (ptr ≠ 0 → AdmitsSize P (P.ratAlign newSize) ∧
    (blockIsEnd p (blockNext P m (ptr - sizeofBlock P)) →
      p.size - blockSize P m (ptr - sizeofBlock P) + P.ratAlign newSize ≤ P.sizeMax))

instance (p : RalcGen) (m : Mem) (ptr newSize : Nat) : Decidable (AdmitsResize P p m ptr newSize) :=
  inferInstanceAs (Decidable (_ ∧ _))

/-- The allocator behind `RALC_GENERAL`. -/
def ralcGen : Ralc RalcGen where
  alloc w size :=
    let (reply, p, m) := ralcGenAlloc P w.state w.mem size
    (reply, ⟨p, m⟩)
  realloc w ptr newSize :=
    let (reply, p, m) := ralcGenRealloc P w.state w.mem ptr newSize
    (reply, ⟨p, m⟩)
  free w ptr :=
    let (p, m) := ralcGenFree P w.state w.mem ptr
    ⟨p, m⟩

end Ratlib.Gen
