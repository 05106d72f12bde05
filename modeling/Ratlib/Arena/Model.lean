import Ratlib.Alloc.Interface

/-! The chunked bump allocator of rat_ralcArena.c over any parent allocator. The
chunks lie in the parent's blocks, linked through their headers in memory. A loop
that follows a NULL `p->chunks`, or is not through after as many rounds as it could
take, has no result. -/
namespace Ratlib.Arena

/-- `ralcArena`, without its parent, which the functions take. -/
structure RalcArena where
  chunks : Nat
  chunkCap : Nat
  size : Nat

section Chunk
variable (P : Platform)

/-- `sizeof(chunk)`: three words before the flexible `data` member. -/
def sizeofChunk : Nat := 3 * P.sizeT

def chunkNext (m : Mem) (chunk : Nat) : Nat := P.get m chunk
def putChunkNext (m : Mem) (chunk value : Nat) : Mem := P.put m chunk value

def chunkCap (m : Mem) (chunk : Nat) : Nat := P.get m (chunk + P.sizeT)
def putChunkCap (m : Mem) (chunk value : Nat) : Mem := P.put m (chunk + P.sizeT) value

def chunkSize (m : Mem) (chunk : Nat) : Nat := P.get m (chunk + 2 * P.sizeT)
def putChunkSize (m : Mem) (chunk value : Nat) : Mem := P.put m (chunk + 2 * P.sizeT) value

def data (chunk : Nat) : Nat := chunk + sizeofChunk P

def headerSize : Nat := P.ratAlign (sizeofChunk P)

def chunkBlock (chunk : Nat) : Nat := data P chunk - headerSize P
def blockChunk (block : Nat) : Nat := block + headerSize P - sizeofChunk P

end Chunk

variable (P : Platform) (A : Ralc σ)

def ralcArenaInit (initChunkCap : Nat) : RalcArena where
  chunks := 0
  chunkCap := initChunkCap
  size := 0

def ralcArenaChunkAllocSize (chunkCap : Nat) : Nat := P.add (headerSize P) chunkCap

def pushSize (size : Nat) : Nat := P.ratAlign (if size = 0 then 1 else size)

def Fits (p : RalcArena) (m : Mem) (size : Nat) : Prop :=
  p.chunks ≠ 0 ∧ P.sub (chunkCap P m p.chunks) (chunkSize P m p.chunks) ≥ size

instance (p : RalcArena) (m : Mem) (size : Nat) : Decidable (Fits P p m size) :=
  inferInstanceAs (Decidable (_ ∧ _))

/-- The size of the block `ralcArena_push` asks its parent for. -/
def pushRequest (p : RalcArena) (size : Nat) : Nat :=
  if p.chunkCap > size then ralcArenaChunkAllocSize P p.chunkCap
  else ralcArenaChunkAllocSize P (P.mul size 2)

def ralcArenaPush (p : RalcArena) (w : World σ) (size : Nat) : Reply × RalcArena × World σ :=
  let size := pushSize P size
  if Fits P p w.mem size then
    let chunk := p.chunks
    let obj := data P chunk + chunkSize P w.mem chunk
    let m := putChunkSize P w.mem chunk (P.add (chunkSize P w.mem chunk) size)
    (⟨obj, some size⟩, { p with size := P.add p.size size }, { w with mem := m })
  else
    let cap := pushRequest P p size
    let (block, w) := ralcAlloc A w cap
    let cap := block.actual cap
    if block.ptr = 0 then (.null, p, w)
    else
      let chunk := blockChunk P block.ptr
      let m := putChunkNext P w.mem chunk p.chunks
      let m := putChunkCap P m chunk (P.sub cap (headerSize P))
      let m := putChunkSize P m chunk size
      (⟨data P chunk, some size⟩, { p with chunks := chunk, size := P.add p.size size },
        { w with mem := m })

def ralcArenaMark (p : RalcArena) : Nat := p.size

/-- The loop of `ralcArena_rewind`. Every round drops a chunk, and chunks are not
empty, so `size` rounds are enough (`rewindLoop_spec`). -/
def rewindLoop (p : RalcArena) (w : World σ) (size : Nat) : Nat → Option (RalcArena × World σ)
  | 0 => if size = 0 then some (p, w) else none
  | rounds + 1 =>
    if size = 0 then some (p, w)
    else if p.chunks = 0 then none
    else
      let chunk := p.chunks
      if chunkSize P w.mem chunk > size then
        some (p, { w with mem := putChunkSize P w.mem chunk (P.sub (chunkSize P w.mem chunk) size) })
      else
        let size := P.sub size (chunkSize P w.mem chunk)
        let p := { p with chunks := chunkNext P w.mem chunk }
        rewindLoop p (ralcFree A w (chunkBlock P chunk)) size rounds

def ralcArenaRewind (p : RalcArena) (w : World σ) (mark : Nat) : Option (RalcArena × World σ) :=
  let size := P.sub p.size mark
  (rewindLoop P A p w size size).map fun (p, w) => ({ p with size := mark }, w)

/-- The loop of `ralcArena_clear`. A chunk holds a byte at least, so it takes no more
rounds than the arena has bytes (`clearLoop_spec`). -/
def clearLoop (w : World σ) : Nat → Nat → Option (World σ)
  | chunk, 0 => if chunk = 0 then some w else none
  | chunk, rounds + 1 =>
    if chunk = 0 then some w
    else
      let next := chunkNext P w.mem chunk
      clearLoop (ralcFree A w (chunkBlock P chunk)) next rounds

def ralcArenaClear (p : RalcArena) (w : World σ) : Option (RalcArena × World σ) :=
  (clearLoop P A w p.chunks p.size).map fun w => ({ p with chunks := 0, size := 0 }, w)

/-- The assertions of `ralcArena_push` and of the `ralcArena_chunkAllocSize` it
calls; the parent takes requests of up to `limit` bytes. -/
def PushAsserts (limit : Nat) (p : RalcArena) (m : Mem) (size : Nat) : Prop :=
  size + (P.alignment - 1) ≤ P.sizeMax ∧ (Fits P p m (pushSize P size) ∨
    (if p.chunkCap > pushSize P size then p.chunkCap ≤ P.sizeMax - headerSize P
      else pushSize P size ≤ (P.sizeMax - headerSize P) / 2) ∧
    pushRequest P p (pushSize P size) ≤ limit)

instance (limit : Nat) (p : RalcArena) (m : Mem) (size : Nat) :
    Decidable (PushAsserts P limit p m size) := inferInstanceAs (Decidable (_ ∧ (_ ∨ _ ∧ _)))

end Ratlib.Arena
