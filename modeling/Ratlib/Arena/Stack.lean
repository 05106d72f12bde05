import Ratlib.Arena.Model

/-! The arena as a stack of chunks, the top one first. A mark is a position: the stack
cut at it is what `ralcArena_rewind` has to restore. -/
namespace Ratlib.Arena

/-- A chunk by its parent block, with the fields of its header. -/
structure Chunk where
  block : Nat
  cap : Nat
  size : Nat

def total : List Chunk → Nat
  | [] => 0
  | c :: cs => c.size + total cs

def Filled (cs : List Chunk) : Prop := ∀ c ∈ cs, 0 < c.size ∧ c.size ≤ c.cap

/-- The lowest `m` bytes of the stack. -/
def cut (m : Nat) : List Chunk → List Chunk
  | [] => []
  | c :: cs => if total cs < m then { c with size := m - total cs } :: cs else cut m cs

/-- The blocks above position `m`, the top one first. -/
def popped (m : Nat) : List Chunk → List Nat
  | [] => []
  | c :: cs => if total cs < m then [] else c.block :: popped m cs

variable {P : Platform} {m m' : Nat} {c : Chunk} {cs : List Chunk}

@[simp] theorem total_nil : total [] = 0 := rfl
@[simp] theorem total_cons : total (c :: cs) = c.size + total cs := rfl

theorem total_cut (within : m ≤ total cs) : total (cut m cs) = m := by
  induction cs with
  | nil => exact (Nat.le_zero.mp within).symm
  | cons c cs ih =>
    rw [cut]
    split
    · rw [total_cons]
      dsimp only
      omega
    · exact ih (by omega)

theorem cut_total (filled : Filled cs) : cut (total cs) cs = cs := by
  cases cs with
  | nil => rfl
  | cons c cs =>
    have positive := (filled c List.mem_cons_self).1
    rw [cut, total_cons, if_pos (by omega), Nat.add_sub_cancel]

theorem popped_total (filled : Filled cs) : popped (total cs) cs = [] := by
  cases cs with
  | nil => rfl
  | cons c cs =>
    have positive := (filled c List.mem_cons_self).1
    rw [popped, total_cons, if_pos (by omega)]

theorem cut_cons (within : m ≤ total cs) : cut m (c :: cs) = cut m cs := by
  rw [cut, if_neg (by omega)]

theorem popped_cons (within : m ≤ total cs) : popped m (c :: cs) = c.block :: popped m cs := by
  rw [popped, if_neg (by omega)]

theorem cut_cut (lower : m ≤ m') (within : m' ≤ total cs) : cut m (cut m' cs) = cut m cs := by
  induction cs with
  | nil => rfl
  | cons c cs ih =>
    by_cases above : total cs < m'
    · rw [cut.eq_2 m', if_pos above]
      rfl
    · rw [cut.eq_2 m', if_neg above, ih (by omega), cut_cons (by omega)]

theorem popped_cut (lower : m ≤ m') (within : m' ≤ total cs) :
    popped m cs = popped m' cs ++ popped m (cut m' cs) := by
  induction cs with
  | nil => rfl
  | cons c cs ih =>
    by_cases above : total cs < m'
    · rw [popped.eq_2 m', if_pos above, cut, if_pos above]
      rfl
    · rw [popped.eq_2 m', if_neg above, cut_cons (by omega), popped_cons (by omega), ih (by omega)]
      rfl

/-- The headers in memory, from the one at `ptr`, are those of the chunks. -/
def Stack (P : Platform) (m : Mem) : Nat → List Chunk → Prop
  | ptr, [] => ptr = 0
  | ptr, c :: cs => ptr = blockChunk P c.block ∧ chunkCap P m ptr = c.cap ∧
      chunkSize P m ptr = c.size ∧ Stack P m (chunkNext P m ptr) cs

theorem headerSize_ge : sizeofChunk P ≤ headerSize P := by
  apply Platform.le_ratAlign
  have := P.sizeT_cases
  have := P.alignment_le
  have := P.sizeMax_ge
  rw [sizeofChunk]
  omega

theorem headerSize_le : headerSize P ≤ 24 + 4096 := by
  have := P.sizeT_cases
  have := P.alignment_le
  have := P.sizeMax_ge
  have := Platform.ratAlign_lt (P := P) (show sizeofChunk P + (P.alignment - 1) ≤ P.sizeMax by
    rw [sizeofChunk]; omega)
  rw [headerSize]
  rw [sizeofChunk] at this ⊢
  omega

theorem chunkBlock_blockChunk (block : Nat) : chunkBlock P (blockChunk P block) = block := by
  have := headerSize_ge (P := P)
  rw [chunkBlock, data, blockChunk]
  omega

theorem data_blockChunk (block : Nat) : data P (blockChunk P block) = block + headerSize P := by
  have := headerSize_ge (P := P)
  rw [data, blockChunk]
  omega

theorem stack_congr {m m' : Mem} (stack : Stack P m ptr cs)
    (same : ∀ c ∈ cs, Set.EqOn m m' (Set.Ico c.block (c.block + headerSize P))) :
    Stack P m' ptr cs := by
  induction cs generalizing ptr with
  | nil => exact stack
  | cons c cs ih =>
    obtain ⟨rfl, cap, size, rest⟩ := stack
    have above := headerSize_ge (P := P)
    have header : ∀ i, i + P.sizeT ≤ sizeofChunk P → Set.EqOn m m'
        (Set.Ico (blockChunk P c.block + i) (blockChunk P c.block + i + P.sizeT)) := by
      intro i inside x hx
      have low := hx.1
      have high := hx.2
      simp only [blockChunk] at low high
      exact same c List.mem_cons_self ⟨by omega, by omega⟩
    have next : chunkNext P m' (blockChunk P c.block) = chunkNext P m (blockChunk P c.block) :=
      (Platform.get_congr (header 0 (by rw [sizeofChunk]; omega))).symm
    refine ⟨rfl, ?_, ?_, ?_⟩
    · rw [← cap]
      exact (Platform.get_congr (header P.sizeT (by rw [sizeofChunk]; omega))).symm
    · rw [← size]
      exact (Platform.get_congr (header (2 * P.sizeT) (by rw [sizeofChunk]; omega))).symm
    · rw [next]
      exact ih rest fun d member => same d (List.mem_cons_of_mem _ member)

def putHeader (P : Platform) (m : Mem) (block next cap size : Nat) : Mem :=
  let chunk := blockChunk P block
  putChunkSize P (putChunkCap P (putChunkNext P m chunk next) chunk cap) chunk size

section Header
variable {m : Mem} {block next cap size x : Nat}

theorem putHeader_out (outside : x < block ∨ block + headerSize P ≤ x) :
    putHeader P m block next cap size x = m x := by
  have start := data_blockChunk (P := P) block
  have above := headerSize_ge (P := P)
  simp only [data, sizeofChunk, blockChunk] at start above
  refine (Platform.put_out ?_).trans ((Platform.put_out ?_).trans (Platform.put_out ?_))
  all_goals
    simp only [blockChunk, sizeofChunk]
    omega

theorem stack_push (stack : Stack P m next cs)
    (apart : ∀ c ∈ cs, block + headerSize P ≤ c.block ∨ c.block + headerSize P ≤ block)
    (next_le : next ≤ P.sizeMax) (cap_le : cap ≤ P.sizeMax) (size_le : size ≤ P.sizeMax) :
    Stack P (putHeader P m block next cap size) (blockChunk P block) (⟨block, cap, size⟩ :: cs) := by
  refine ⟨rfl, ?_, Platform.get_put size_le, ?_⟩
  · exact (Platform.get_put_out (by omega)).trans (Platform.get_put cap_le)
  · have back : chunkNext P (putHeader P m block next cap size) (blockChunk P block) = next :=
      (Platform.get_put_out (by omega)).trans ((Platform.get_put_out (by omega)).trans
        (Platform.get_put next_le))
    rw [back]
    refine stack_congr stack fun c member x inside => (putHeader_out ?_).symm
    have := apart c member
    have := inside.1
    have := inside.2
    omega

end Header

end Ratlib.Arena
