import Ratlib.Alloc.Relocation
import Ratlib.Arena.Stack

/-! What the arena's functions do to its stack, over any parent that meets the
allocator contract. -/
namespace Ratlib.Arena

variable {P : Platform} {σ : Type u} {ι : Type v} {A : Ralc σ} {owner : ι}
  {ok : World σ → Blocks ι → Prop} {w w' : World σ} {L L' : Blocks ι} {c : Chunk} {cs : List Chunk}

/-- The stack at `ptr` lies in blocks the parent handed out and has not taken back. -/
structure Holds (P : Platform) (ok : World σ → Blocks ι → Prop) (owner : ι) (w : World σ)
    (L : Blocks ι) (ptr : Nat) (cs : List Chunk) : Prop where
  ok : ok w L
  stack : Stack P w.mem ptr cs
  held : ∀ c ∈ cs, L c.block = some ⟨owner, headerSize P + c.cap⟩
  distinct : (cs.map Chunk.block).Nodup
  filled : Filled cs

theorem Holds.positive (serves : Serves P A owner ok limit) (holds : Holds P ok owner w L ptr cs)
    (member : c ∈ cs) : 0 < c.block := (serves.bounds holds.ok (holds.held c member)).1

theorem Holds.bound (serves : Serves P A owner ok limit) (holds : Holds P ok owner w L ptr cs)
    (member : c ∈ cs) : c.block + headerSize P + c.cap ≤ P.sizeMax := by
  have := (serves.bounds holds.ok (holds.held c member)).2
  dsimp only at this
  omega

theorem Holds.apart (serves : Serves P A owner ok limit) (holds : Holds P ok owner w L ptr (c :: cs))
    (member : d ∈ cs) : c.block + headerSize P + c.cap ≤ d.block ∨
      d.block + headerSize P + d.cap ≤ c.block := by
  have different : c.block ≠ d.block := by
    rintro same
    have distinct := holds.distinct
    rw [List.map_cons, List.nodup_cons, same] at distinct
    exact distinct.1 (List.mem_map_of_mem member)
  have := serves.separate holds.ok _ _ _ _ (holds.held c List.mem_cons_self)
    (holds.held d (List.mem_cons_of_mem _ member)) different
  dsimp only at this
  omega

theorem Holds.tail_filled (holds : Holds P ok owner w L ptr (c :: cs)) : Filled cs :=
  fun d member => holds.filled d (List.mem_cons_of_mem _ member)

/-- The chunks take no more bytes than there are addresses. -/
theorem Holds.total_le (serves : Serves P A owner ok limit) (holds : Holds P ok owner w L ptr cs) :
    total cs ≤ P.sizeMax := by
  let size := fun a => ((L a).map Block.size).getD 0
  have cover : total cs ≤ (cs.map fun c => size c.block).sum := by
    have held := holds.held
    have filled := holds.filled
    clear holds
    induction cs with
    | nil => exact Nat.le_refl 0
    | cons c cs ih =>
      have rest := ih (fun d member => held d (List.mem_cons_of_mem _ member))
        fun d member => filled d (List.mem_cons_of_mem _ member)
      have top : size c.block = headerSize P + c.cap := by
        simp [size, held c List.mem_cons_self]
      have := (filled c List.mem_cons_self).2
      simp only [total_cons, List.map_cons, List.sum_cons]
      omega
  have sum := List.sum_toFinset size holds.distinct
  rw [List.map_map] at sum
  refine Nat.le_trans cover (sum.symm.le.trans ?_)
  apply (serves.separate holds.ok).total_le
  all_goals
    intro a member
    obtain ⟨c, found, rfl⟩ := List.mem_map.mp (List.mem_toFinset.mp member)
  · exact ⟨_, holds.held c found, by simp [holds.held c found]⟩
  · have := holds.bound serves found
    simp only [holds.held c found, Option.map_some, Option.getD_some]
    omega

theorem Holds.resize (serves : Serves P A owner ok limit) (holds : Holds P ok owner w L ptr (c :: cs))
    (sizes : 0 < n ∧ n ≤ c.cap) :
    Holds P ok owner { w with mem := putChunkSize P w.mem ptr n } L ptr ({ c with size := n } :: cs) := by
  obtain ⟨rfl, cap, size, rest⟩ := holds.stack
  have bound := holds.bound serves List.mem_cons_self
  have above := headerSize_ge (P := P)
  have start : data P (blockChunk P c.block) = c.block + headerSize P := data_blockChunk c.block
  rw [data] at start
  have words : sizeofChunk P = 3 * P.sizeT := rfl
  have kept : ∀ x, x < c.block ∨ c.block + headerSize P ≤ x →
      putChunkSize P w.mem (blockChunk P c.block) n x = w.mem x :=
    fun x outside => Platform.put_out (by omega)
  refine ⟨serves.inside holds.ok (holds.held c List.mem_cons_self) ?_, ⟨rfl, ?_, ?_, ?_⟩, ?_,
    holds.distinct, ?_⟩
  · exact fun x outside => kept x (by dsimp only at outside; omega)
  · exact (Platform.get_put_out (by omega)).trans cap
  · exact Platform.get_put (by omega)
  · have next : chunkNext P (putChunkSize P w.mem (blockChunk P c.block) n) (blockChunk P c.block) =
        chunkNext P w.mem (blockChunk P c.block) := Platform.get_put_out (by omega)
    rw [next]
    refine stack_congr rest fun d member x hx => (kept x ?_).symm
    have := holds.apart serves member
    have := hx.1
    have := hx.2
    omega
  · intro d member
    rcases List.mem_cons.mp member with rfl | member
    · exact holds.held c List.mem_cons_self
    · exact holds.held d (List.mem_cons_of_mem _ member)
  · intro d member
    rcases List.mem_cons.mp member with rfl | member
    · exact sizes
    · exact holds.filled d (List.mem_cons_of_mem _ member)

theorem Holds.pop (serves : Serves P A owner ok limit) (holds : Holds P ok owner w L ptr (c :: cs)) :
    chunkBlock P ptr = c.block ∧
      Holds P ok owner (ralcFree A w c.block) (L.release c.block) (chunkNext P w.mem ptr) cs := by
  obtain ⟨rfl, cap, size, rest⟩ := holds.stack
  obtain ⟨same, freed⟩ := serves.free holds.ok (holds.held c List.mem_cons_self)
  have distinct := List.nodup_cons.mp holds.distinct
  have held : ∀ d ∈ cs, L.release c.block d.block = some ⟨owner, headerSize P + d.cap⟩ := by
    intro d member
    rw [Blocks.release_other]
    · exact holds.held d (List.mem_cons_of_mem _ member)
    · intro equal
      exact distinct.1 (equal ▸ List.mem_map_of_mem member)
  refine ⟨chunkBlock_blockChunk c.block, freed, ?_, held, distinct.2, holds.tail_filled⟩
  refine stack_congr rest fun d member x hx => same ?_
  exact Blocks.mem_bytes (held d member) ⟨hx.1, by have := hx.2; dsimp only; omega⟩

theorem Holds.push (serves : Serves P A owner ok limit) (holds : Holds P ok owner w L ptr cs)
    (same : Set.EqOn w.mem w'.mem L.bytes) (fresh : L block = none)
    (granted : ok w' (L.grant block owner actual)) (large : headerSize P + n ≤ actual)
    (positive : 0 < n) :
    let chunk := blockChunk P block
    let m := putChunkSize P (putChunkCap P (putChunkNext P w'.mem chunk ptr) chunk
      (P.sub actual (headerSize P))) chunk n
    Holds P ok owner { w' with mem := m } (L.grant block owner actual) chunk
      (⟨block, actual - headerSize P, n⟩ :: cs) := by
  intro chunk m
  obtain ⟨-, bound⟩ := serves.bounds granted Blocks.grant_same
  dsimp only at bound
  have different : ∀ d ∈ cs, d.block ≠ block := fun d member =>
    Blocks.ne_of_fresh (holds.held d member) fresh
  have held : ∀ d ∈ cs, L.grant block owner actual d.block = some ⟨owner, headerSize P + d.cap⟩ :=
    fun d member => Blocks.grant_kept fresh (holds.held d member)
  have nextFits : ptr ≤ P.sizeMax := by
    cases cs with
    | nil =>
      rw [show ptr = 0 from holds.stack]
      exact Nat.zero_le _
    | cons d cs =>
      have := holds.bound serves List.mem_cons_self
      rw [holds.stack.1, blockChunk]
      omega
  have room : P.sub actual (headerSize P) = actual - headerSize P :=
    Platform.sub_of_le (by omega) (by omega)
  have written : m = putHeader P w'.mem block ptr (actual - headerSize P) n := by
    rw [← room]
    rfl
  rw [written]
  refine ⟨serves.inside granted Blocks.grant_same ?_, ?_, ?_, ?_, ?_⟩
  · exact fun x outside => putHeader_out (by dsimp only at outside; omega)
  · refine stack_push (stack_congr holds.stack fun d member x inside => same ?_) ?_ nextFits
      (by omega) (by omega)
    · exact Blocks.mem_bytes (holds.held d member)
        ⟨inside.1, by have := inside.2; dsimp only; omega⟩
    · intro d member
      have := serves.separate granted _ _ _ _ (held d member) Blocks.grant_same (different d member)
      dsimp only at this
      omega
  · intro d member
    rcases List.mem_cons.mp member with rfl | member
    · rw [Blocks.grant_same]
      dsimp only
      rw [Nat.add_sub_cancel' (by omega)]
    · exact held d member
  · refine List.nodup_cons.mpr ⟨?_, holds.distinct⟩
    intro member
    obtain ⟨d, found, equal⟩ := List.mem_map.mp member
    exact different d found equal
  · intro d member
    rcases List.mem_cons.mp member with rfl | member
    · exact ⟨positive, by dsimp only; omega⟩
    · exact holds.filled d member

/-- `Holds` for a whole arena: its fields agree with its stack. -/
structure Holding (P : Platform) (ok : World σ → Blocks ι → Prop) (owner : ι) (p : RalcArena)
    (w : World σ) (L : Blocks ι) (cs : List Chunk) : Prop where
  holds : Holds P ok owner w L p.chunks cs
  total : total cs = p.size

theorem Holding.fits (serves : Serves P A owner ok limit) (holding : Holding P ok owner p w L cs) :
    Fits P p w.mem size ↔ ∃ c rest, cs = c :: rest ∧ c.size + size ≤ c.cap := by
  have stack := holding.holds.stack
  cases cs with
  | nil =>
    have empty : p.chunks = 0 := stack
    simp [Fits, empty]
  | cons c rest =>
    obtain ⟨top, cap, used, -⟩ := stack
    have positive := holding.holds.positive serves List.mem_cons_self
    have bound := holding.holds.bound serves List.mem_cons_self
    have filled := holding.holds.filled c List.mem_cons_self
    have above := headerSize_ge (P := P)
    have some : p.chunks ≠ 0 := by
      rw [top, blockChunk]
      omega
    rw [Fits, cap, used, Platform.sub_of_le filled.2 (by omega)]
    constructor
    · rintro ⟨-, room⟩
      exact ⟨c, rest, rfl, by omega⟩
    · rintro ⟨d, _, same, room⟩
      obtain ⟨rfl, rfl⟩ := List.cons.inj same
      exact ⟨some, by omega⟩

theorem pushSize_spec (small : size + (P.alignment - 1) ≤ P.sizeMax) :
    0 < pushSize P size ∧ size ≤ pushSize P size ∧ P.alignment ∣ pushSize P size := by
  have := P.alignment_le
  have := P.alignment_pos
  have := P.sizeMax_ge
  have rounded : (if size = 0 then 1 else size) ≤ pushSize P size :=
    Platform.le_ratAlign (by split <;> omega)
  refine ⟨?_, ?_, Platform.ratAlign_dvd _⟩
  all_goals
    split at rounded <;> omega

/-- The sums and products in a request that `ralcArena_push` makes do not wrap. -/
theorem pushRequest_eq {p : RalcArena} (asserts : PushAsserts P limit p m size)
    (full : ¬Fits P p m (pushSize P size)) :
    pushRequest P p (pushSize P size) =
      headerSize P + if p.chunkCap > pushSize P size then p.chunkCap else pushSize P size * 2 := by
  obtain ⟨bound, -⟩ := asserts.2.resolve_left full
  have := headerSize_le (P := P)
  have := P.sizeMax_ge
  rw [pushRequest]
  split
  case isTrue larger =>
    rw [if_pos larger] at bound
    rw [ralcArenaChunkAllocSize, Platform.add_of_le (by omega)]
  case isFalse smaller =>
    rw [if_neg smaller] at bound
    rw [ralcArenaChunkAllocSize, Platform.mul_of_le (by omega), Platform.add_of_le (by omega)]

theorem pushRequest_ge (asserts : PushAsserts P limit p m size) (full : ¬Fits P p m (pushSize P size)) :
    headerSize P + pushSize P size ≤ pushRequest P p (pushSize P size) ∧
      pushRequest P p (pushSize P size) ≤ limit := by
  refine ⟨?_, (asserts.2.resolve_left full).2⟩
  rw [pushRequest_eq asserts full]
  split <;> omega

/-- The object `ralcArena_push` found room for in the top chunk. -/
theorem push_top (serves : Serves P A owner ok limit)
    (holding : Holding P ok owner p w L (c :: cs)) (room : c.size + pushSize P size ≤ c.cap) :
    ralcArenaPush P A p w size =
      (⟨c.block + headerSize P + c.size, some (pushSize P size)⟩,
        { p with size := p.size + pushSize P size },
        { w with mem := putChunkSize P w.mem p.chunks (c.size + pushSize P size) }) ∧
      Holding P ok owner { p with size := p.size + pushSize P size }
        { w with mem := putChunkSize P w.mem p.chunks (c.size + pushSize P size) } L
        ({ c with size := c.size + pushSize P size } :: cs) := by
  have fits := (holding.fits serves).mpr ⟨c, cs, rfl, room⟩
  have filled := holding.holds.filled c List.mem_cons_self
  have bound := holding.holds.bound serves List.mem_cons_self
  have grown := holding.holds.resize serves (n := c.size + pushSize P size) ⟨by omega, room⟩
  have sum := grown.total_le serves
  have before := holding.total
  obtain ⟨top, -, used, -⟩ := holding.holds.stack
  simp only [total_cons] at sum before
  constructor
  · simp only [ralcArenaPush, if_pos fits, used]
    rw [Platform.add_of_le (by omega), Platform.add_of_le (by omega), top, data_blockChunk]
  · exact ⟨grown, by simp only [total_cons]; omega⟩

/-- The outcomes of `ralcArena_push`: more of the top chunk, a failed request that
leaves the arena and its chunks alone, or a new chunk. -/
theorem push_cases (serves : Serves P A owner ok limit) (holding : Holding P ok owner p w L cs)
    (asserts : PushAsserts P limit p w.mem size) {result : Reply × RalcArena × World σ}
    (pushed : ralcArenaPush P A p w size = result) :
    (∃ c rest, cs = c :: rest ∧ c.size + pushSize P size ≤ c.cap ∧
      result.1 = ⟨c.block + headerSize P + c.size, some (pushSize P size)⟩ ∧
      result.2.1 = { p with size := p.size + pushSize P size } ∧ result.2.2.state = w.state ∧
      Holding P ok owner result.2.1 result.2.2 L
        ({ c with size := c.size + pushSize P size } :: rest)) ∨
    (result.1 = .null ∧ result.2.1 = p ∧ (ralcAlloc A w (pushRequest P p (pushSize P size))).1.ptr = 0 ∧
      result.2.2 = (ralcAlloc A w (pushRequest P p (pushSize P size))).2 ∧
      Holding P ok owner p result.2.2 L cs ∧ Set.EqOn w.mem result.2.2.mem L.bytes) ∨
    ∃ block actual, (ralcAlloc A w (pushRequest P p (pushSize P size))).1 = ⟨block, some actual⟩ ∧
      block ≠ 0 ∧ result.1 = ⟨block + headerSize P, some (pushSize P size)⟩ ∧
      result.2.1 = ⟨blockChunk P block, p.chunkCap, p.size + pushSize P size⟩ ∧
      result.2.2.state = (ralcAlloc A w (pushRequest P p (pushSize P size))).2.state ∧
      Holding P ok owner result.2.1 result.2.2 (L.grant block owner actual)
        (⟨block, actual - headerSize P, pushSize P size⟩ :: cs) := by
  subst pushed
  obtain ⟨positive, -, -⟩ := pushSize_spec asserts.1
  by_cases fits : Fits P p w.mem (pushSize P size)
  · obtain ⟨c, rest, rfl, room⟩ := (holding.fits serves).mp fits
    obtain ⟨run, holding'⟩ := push_top serves holding room
    rw [run]
    exact Or.inl ⟨c, rest, rfl, room, rfl, rfl, rfl, holding'⟩
  · obtain ⟨large, small⟩ := pushRequest_ge asserts fits
    obtain ⟨same, outcome⟩ := serves.alloc holding.holds.ok small
    simp only [ralcArenaPush, if_neg fits]
    generalize ralcAlloc A w (pushRequest P p (pushSize P size)) = granted at same outcome ⊢
    obtain ⟨⟨block, out⟩, w'⟩ := granted
    dsimp only at same outcome ⊢
    split at outcome
    case isTrue null =>
      rw [if_pos null]
      have stack := stack_congr holding.holds.stack fun c member x hx =>
        same (Blocks.mem_bytes (holding.holds.held c member)
          ⟨hx.1, by have := hx.2; dsimp only; omega⟩)
      exact Or.inr (Or.inl ⟨rfl, rfl, null, rfl, ⟨⟨outcome, stack, holding.holds.held,
        holding.holds.distinct, holding.holds.filled⟩, holding.total⟩, same⟩)
    case isFalse some =>
      obtain ⟨actual, rfl, grown, fresh, granted⟩ := outcome
      have pushed := holding.holds.push serves same fresh granted (Nat.le_trans large grown) positive
      have sum : pushSize P size + total cs ≤ P.sizeMax := pushed.total_le serves
      rw [holding.total] at sum
      have room : P.add p.size (pushSize P size) = p.size + pushSize P size :=
        Platform.add_of_le (by omega)
      rw [if_neg some]
      refine Or.inr (Or.inr ⟨block, actual, rfl, some, ?_, ?_, rfl, pushed, ?_⟩)
      · rw [data_blockChunk]
      · rw [room]
      · rw [total_cons, holding.total]
        dsimp only
        rw [room, Nat.add_comm]

theorem Holds.off_header (serves : Serves P A owner ok limit) (holds : Holds P ok owner w L ptr cs)
    (member : c ∈ cs) (found : d ∈ cs) (inside : c.block + headerSize P ≤ x ∧
      x < c.block + headerSize P + c.cap) : x < d.block ∨ d.block + headerSize P ≤ x := by
  by_cases same : c.block = d.block
  · exact Or.inr (same ▸ inside.1)
  · have := serves.separate holds.ok _ _ _ _ (holds.held c member) (holds.held d found) same
    dsimp only at this
    omega

theorem Holding.client (serves : Serves P A owner ok limit) (holding : Holding P ok owner p w L cs)
    {m : Mem} (outside : ∀ x, (∀ c ∈ cs, x < c.block + headerSize P ∨
      c.block + headerSize P + c.cap ≤ x) → m x = w.mem x) :
    Holding P ok owner p { w with mem := m } L cs := by
  have holds := holding.holds
  refine ⟨⟨serves.client holds.ok fun x away => ?_, ?_, holds.held, holds.distinct, holds.filled⟩,
    holding.total⟩
  · refine (outside x fun c member => ?_).symm
    by_contra inside
    exact away (Blocks.mem_bytes (holds.held c member) (by dsimp only; omega))
  · refine stack_congr holds.stack fun d found x header => (outside x fun c member => ?_).symm
    have low := header.1
    have high := header.2
    by_contra inside
    have := holds.off_header serves member found (x := x) ⟨by omega, by omega⟩
    omega

theorem push_keeps (serves : Serves P A owner ok limit) (holding : Holding P ok owner p w L cs)
    (asserts : PushAsserts P limit p w.mem size) (member : c ∈ cs) :
    Set.EqOn w.mem (ralcArenaPush P A p w size).2.2.mem
      (Set.Ico (c.block + headerSize P) (c.block + headerSize P + c.cap)) := by
  intro x inside
  have holds := holding.holds
  by_cases fits : Fits P p w.mem (pushSize P size)
  · obtain ⟨d, rest, rfl, room⟩ := (holding.fits serves).mp fits
    obtain ⟨run, -⟩ := push_top serves holding room
    have above := headerSize_ge (P := P)
    have words : sizeofChunk P = 3 * P.sizeT := rfl
    have away := holds.off_header serves member List.mem_cons_self inside
    rw [run, holds.stack.1]
    exact (Platform.put_out (by rw [blockChunk]; omega)).symm
  · obtain ⟨large, small⟩ := pushRequest_ge asserts fits
    obtain ⟨same, outcome⟩ := serves.alloc holds.ok small
    have held := holds.held c member
    have byte : x ∈ L.bytes := Blocks.mem_bytes held
      ⟨by have := inside.1; omega, by have := inside.2; dsimp only; omega⟩
    simp only [ralcArenaPush, if_neg fits]
    generalize ralcAlloc A w (pushRequest P p (pushSize P size)) = granted at same outcome ⊢
    obtain ⟨⟨block, out⟩, w'⟩ := granted
    dsimp only at same outcome ⊢
    split at outcome
    case isTrue null =>
      rw [if_pos null]
      exact same byte
    case isFalse some =>
      obtain ⟨actual, rfl, grown, fresh, granted⟩ := outcome
      have away := (serves.separate granted).away fresh byte
      rw [if_neg some]
      exact (same byte).trans (putHeader_out (by omega)).symm

/-- A push for which the top chunk has room writes into its header. -/
theorem push_writes (serves : Serves P A owner ok limit) (holding : Holding P ok owner p w L cs)
    (fits : Fits P p w.mem (pushSize P size)) :
    (ralcArenaPush P A p w size).2.2.state = w.state ∧
      Set.EqOn w.mem (ralcArenaPush P A p w size).2.2.mem L.bytesᶜ := by
  obtain ⟨c, rest, rfl, room⟩ := (holding.fits serves).mp fits
  obtain ⟨run, -⟩ := push_top serves holding room
  have held := holding.holds.held c List.mem_cons_self
  have above := headerSize_ge (P := P)
  have words : sizeofChunk P = 3 * P.sizeT := rfl
  rw [run]
  refine ⟨rfl, fun x away => (Platform.put_out ?_).symm⟩
  rw [holding.holds.stack.1, blockChunk]
  by_contra inside
  exact away (Blocks.mem_bytes held (by dsimp only; omega))

/-- A push for which the top chunk has no room writes the header of a new chunk. -/
theorem push_extended (serves : Serves P A owner ok limit) (before : ok w L)
    (asserts : PushAsserts P limit p w.mem size) (full : ¬Fits P p w.mem (pushSize P size))
    (granted : (ralcArenaPush P A p w size).1.ptr ≠ 0) : ∃ L',
      Extended A ok w (pushRequest P p (pushSize P size)) (ralcArenaPush P A p w size).2.2 L' := by
  obtain ⟨large, small⟩ := pushRequest_ge asserts full
  obtain ⟨same, outcome⟩ := serves.alloc before small
  simp only [ralcArenaPush, if_neg full] at granted ⊢
  generalize attempt : ralcAlloc A w (pushRequest P p (pushSize P size)) = answer at outcome granted ⊢
  obtain ⟨⟨block, out⟩, w₁⟩ := answer
  dsimp only at outcome granted ⊢
  split at outcome
  case isTrue null =>
    rw [if_pos null] at granted
    exact absurd rfl granted
  case isFalse some =>
    obtain ⟨actual, rfl, grown, fresh, kept⟩ := outcome
    rw [if_neg some]
    refine ⟨L.grant block owner actual, ⟨by rwa [attempt], by rwa [attempt], by rw [attempt], ?_⟩⟩
    rw [attempt]
    intro x away
    refine (putHeader_out ?_).symm
    by_contra inside
    exact away (Blocks.mem_bytes Blocks.grant_same (by dsimp only; omega))

/-- The loop of `ralcArena_rewind` drops the top `size` bytes of the stack. -/
theorem rewindLoop_spec (serves : Serves P A owner ok limit)
    (holds : Holds P ok owner w L p.chunks cs) (within : size ≤ total cs) (enough : size ≤ rounds) :
    ∃ p' w' L', rewindLoop P A p w size rounds = some (p', w') ∧
      p'.chunkCap = p.chunkCap ∧ Holds P ok owner w' L' p'.chunks (cut (total cs - size) cs) ∧
      w'.state = (freeAll A w (popped (total cs - size) cs)).state := by
  induction rounds generalizing p w L cs size with
  | zero =>
    obtain rfl : size = 0 := by omega
    refine ⟨p, w, L, by rw [rewindLoop, if_pos rfl], rfl, ?_, ?_⟩
    · rwa [Nat.sub_zero, cut_total holds.filled]
    · rw [Nat.sub_zero, popped_total holds.filled, freeAll_nil]
  | succ rounds ih =>
    by_cases done : size = 0
    · subst done
      refine ⟨p, w, L, by rw [rewindLoop, if_pos rfl], rfl, ?_, ?_⟩
      · rwa [Nat.sub_zero, cut_total holds.filled]
      · rw [Nat.sub_zero, popped_total holds.filled, freeAll_nil]
    · cases cs with
      | nil => exact absurd (Nat.le_zero.mp within) done
      | cons c cs =>
        obtain ⟨top, -, used, -⟩ := holds.stack
        have filled := holds.filled c List.mem_cons_self
        have positive := holds.positive serves List.mem_cons_self
        have bound := holds.bound serves List.mem_cons_self
        have above := headerSize_ge (P := P)
        have sum := holds.total_le serves
        have some : p.chunks ≠ 0 := by
          rw [top, blockChunk]
          omega
        rw [total_cons] at within sum
        rw [rewindLoop, if_neg done, if_neg some]
        dsimp only
        rw [used]
        split
        case isTrue inner =>
          have rest : c.size + total cs - size - total cs = c.size - size := by omega
          rw [total_cons, cut, if_pos (by omega), popped, if_pos (by omega), rest,
            Platform.sub_of_le (by omega) (by omega)]
          exact ⟨p, _, L, rfl, rfl, holds.resize serves ⟨by omega, by omega⟩, rfl⟩
        case isFalse outer =>
          have rest : c.size + total cs - size = total cs - (size - c.size) := by omega
          obtain ⟨block, freed⟩ := holds.pop serves
          rw [total_cons, rest, cut_cons (Nat.sub_le ..), popped_cons (Nat.sub_le ..), block,
            Platform.sub_of_le (by omega) (by omega), freeAll_cons]
          exact ih freed (by omega) (by omega)

/-- `ralcArena_rewind` cuts the stack, freeing what is above the mark. -/
theorem rewind_spec (serves : Serves P A owner ok limit) (holding : Holding P ok owner p w L cs)
    (within : mark ≤ p.size) :
    ∃ p' w' L', ralcArenaRewind P A p w mark = some (p', w') ∧ p'.chunkCap = p.chunkCap ∧
      p'.size = mark ∧ Holding P ok owner p' w' L' (cut mark cs) ∧
      w'.state = (freeAll A w (popped mark cs)).state := by
  have sum := holding.holds.total_le serves
  have size := holding.total
  have distance : total cs - (p.size - mark) = mark := by omega
  obtain ⟨p', w', L', loop, cap, holds, state⟩ :=
    rewindLoop_spec serves holding.holds (show p.size - mark ≤ total cs by omega) (Nat.le_refl _)
  rw [distance] at holds state
  refine ⟨{ p' with size := mark }, w', L', ?_, cap, rfl, ⟨holds, total_cut (by omega)⟩, state⟩
  rw [ralcArenaRewind, Platform.sub_of_le within (by omega)]
  dsimp only
  rw [loop]
  rfl

theorem clearLoop_spec (serves : Serves P A owner ok limit) (holds : Holds P ok owner w L ptr cs)
    (enough : total cs ≤ rounds) :
    ∃ w' L', clearLoop P A w ptr rounds = some w' ∧ Holds P ok owner w' L' 0 [] ∧
      w'.state = (freeAll A w (cs.map Chunk.block)).state := by
  induction cs generalizing ptr w L rounds with
  | nil =>
    obtain rfl : ptr = 0 := holds.stack
    exact ⟨w, L, by cases rounds <;> rw [clearLoop, if_pos rfl], holds, rfl⟩
  | cons c cs ih =>
    have top := holds.stack.1
    have filled := holds.filled c List.mem_cons_self
    have positive := holds.positive serves List.mem_cons_self
    have above := headerSize_ge (P := P)
    have some : ptr ≠ 0 := by
      rw [top, blockChunk]
      omega
    rw [total_cons] at enough
    obtain ⟨rounds, rfl⟩ : ∃ r, rounds = r + 1 := ⟨rounds - 1, by omega⟩
    obtain ⟨block, freed⟩ := holds.pop serves
    rw [clearLoop, if_neg some, block]
    exact ih freed (by omega)

theorem clear_spec (serves : Serves P A owner ok limit) (holding : Holding P ok owner p w L cs) :
    ∃ w' L', ralcArenaClear P A p w = some (⟨0, p.chunkCap, 0⟩, w') ∧
      Holding P ok owner ⟨0, p.chunkCap, 0⟩ w' L' [] ∧
      w'.state = (freeAll A w (cs.map Chunk.block)).state := by
  obtain ⟨w', L', loop, holds, state⟩ := clearLoop_spec serves holding.holds holding.total.le
  refine ⟨w', L', ?_, ⟨holds, rfl⟩, state⟩
  rw [ralcArenaClear, loop]
  rfl

end Ratlib.Arena
