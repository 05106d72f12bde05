import Ratlib.Alloc.Interface

/-! The fixed-size pool of rat_ralcPool.c over any parent allocator. Chunks lie in the
parent's blocks; free slots are linked through their own first word. -/
namespace Ratlib.Pool

/-- `ralcPool`, without its parent, which the functions take. -/
structure RalcPool where
  chunks : Nat
  freeSlots : Nat
  elemSize : Nat
  chunkCap : Nat
  count : Nat

section Chunk
variable (P : Platform)

/-- `sizeof(chunk)`: three words before the flexible `data` member. -/
def sizeofChunk : Nat := 3 * P.sizeT

def chunkNext (m : Mem) (chunk : Nat) : Nat := P.get m chunk
def putChunkNext (m : Mem) (chunk value : Nat) : Mem := P.put m chunk value

def chunkCap (m : Mem) (chunk : Nat) : Nat := P.get m (chunk + P.sizeT)
def putChunkCap (m : Mem) (chunk value : Nat) : Mem := P.put m (chunk + P.sizeT) value

def chunkBlockSize (m : Mem) (chunk : Nat) : Nat := P.get m (chunk + 2 * P.sizeT)
def putChunkBlockSize (m : Mem) (chunk value : Nat) : Mem := P.put m (chunk + 2 * P.sizeT) value

def data (chunk : Nat) : Nat := chunk + sizeofChunk P

def sizeofFreeSlot : Nat := P.sizeT

def slotNext (m : Mem) (slot : Nat) : Nat := P.get m slot
def putSlotNext (m : Mem) (slot value : Nat) : Mem := P.put m slot value

def headerSize : Nat := P.ratAlign (sizeofChunk P)

def chunkBlock (chunk : Nat) : Nat := data P chunk - headerSize P
def blockChunk (block : Nat) : Nat := block + headerSize P - sizeofChunk P

end Chunk

variable (P : Platform) (A : Ralc σ)

/-- The loop of `grow`, which pushes the slots before number `i`, the last one first. -/
def pushSlots (m : Mem) (data elemSize : Nat) : Nat → Nat → Nat × Mem
  | 0, freeSlots => (freeSlots, m)
  | i + 1, freeSlots =>
    let slot := data + P.mul i elemSize
    pushSlots (putSlotNext P m slot freeSlots) data elemSize i slot

def grow (p : RalcPool) (w : World σ) : Bool × RalcPool × World σ :=
  let blockSize := P.add (headerSize P) (P.mul p.chunkCap p.elemSize)
  let (block, w) := ralcAlloc A w blockSize
  let blockSize := block.actual blockSize
  if block.ptr = 0 then (false, p, w)
  else
    let chunk := blockChunk P block.ptr
    let m := putChunkNext P w.mem chunk p.chunks
    let m := putChunkCap P m chunk (P.sub blockSize (headerSize P) / p.elemSize)
    let m := putChunkBlockSize P m chunk blockSize
    let (freeSlots, m) := pushSlots P m (data P chunk) p.elemSize (chunkCap P m chunk) p.freeSlots
    (true, { p with chunks := chunk, freeSlots := freeSlots }, { w with mem := m })

def ralcPoolInit (elemSize initChunkCap : Nat) : RalcPool where
  chunks := 0
  freeSlots := 0
  elemSize := P.ratAlign (if elemSize > sizeofFreeSlot P then elemSize else sizeofFreeSlot P)
  chunkCap := if initChunkCap ≠ 0 then initChunkCap else 1
  count := 0

def ralcPoolAlloc (p : RalcPool) (w : World σ) : Nat × RalcPool × World σ :=
  let (grown, p, w) := if p.freeSlots = 0 then grow P A p w else (true, p, w)
  if ¬grown then (0, p, w)
  else
    let slot := p.freeSlots
    (slot, { p with freeSlots := slotNext P w.mem slot, count := P.add p.count 1 }, w)

def ralcPoolFree (p : RalcPool) (w : World σ) (ptr : Nat) : RalcPool × World σ :=
  ({ p with freeSlots := ptr, count := P.sub p.count 1 },
    { w with mem := putSlotNext P w.mem ptr p.freeSlots })

/-- The loop of `ralcPool_clear`. It takes a round for each chunk, of which there are
no more than addresses (`clearLoop_spec`). -/
def clearLoop (w : World σ) : Nat → Nat → Option (World σ)
  | chunk, 0 => if chunk = 0 then some w else none
  | chunk, rounds + 1 =>
    if chunk = 0 then some w
    else
      let next := chunkNext P w.mem chunk
      clearLoop (ralcFree A w (chunkBlock P chunk)) next rounds

def ralcPoolClear (p : RalcPool) (w : World σ) : Option (RalcPool × World σ) :=
  (clearLoop P A w p.chunks P.sizeMax).map fun w =>
    ({ p with chunks := 0, freeSlots := 0, count := 0 }, w)

/-- The assertion of `ralcPool_init` that its size can be rounded. -/
def InitAsserts (elemSize : Nat) : Prop :=
  (if elemSize > sizeofFreeSlot P then elemSize else sizeofFreeSlot P) + (P.alignment - 1) ≤ P.sizeMax

/-- The assertion of `grow` about sizes, where `ralcPool_alloc` calls it; the parent
takes requests of up to `limit` bytes. -/
def AllocAsserts (limit : Nat) (p : RalcPool) : Prop :=
  p.freeSlots ≠ 0 ∨ (p.chunkCap ≤ (P.sizeMax - headerSize P) / p.elemSize ∧
    headerSize P + p.chunkCap * p.elemSize ≤ limit)

instance (elemSize : Nat) : Decidable (InitAsserts P elemSize) := inferInstanceAs (Decidable (_ ≤ _))

instance (limit : Nat) (p : RalcPool) : Decidable (AllocAsserts P limit p) :=
  inferInstanceAs (Decidable (_ ∨ _ ∧ _))

end Ratlib.Pool
