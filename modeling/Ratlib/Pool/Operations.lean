import Ratlib.Pool.Slots
import Ratlib.Alloc.Relocation

/-! What the functions of ralcPool do to the slots, over any parent that meets the
contract and whichever of its calls fail. -/
namespace Ratlib.Pool

variable {P : Platform} {σ : Type u} {ι : Type v} {A : Ralc σ} {owner : ι}
  {ok : World σ → Blocks ι → Prop} {w w' : World σ} {L : Blocks ι} {p p' : RalcPool} {c : Chunk}
  {cs : List Chunk} {free live : List Nat} {q r x : Nat}

/-- The chunks lie in blocks of the parent, and each of their slots is either on the
free list or live. -/
structure Holds (P : Platform) (ok : World σ → Blocks ι → Prop) (owner : ι) (p : RalcPool)
    (w : World σ) (L : Blocks ι) (cs : List Chunk) (free live : List Nat) : Prop where
  ok : ok w L
  wide : P.sizeT ≤ p.elemSize
  aligned : P.alignment ∣ p.elemSize
  request : 0 < p.chunkCap
  stack : Stack P w.mem p.chunks cs
  held : ∀ c ∈ cs, L c.block = some ⟨owner, c.blockSize⟩
  room : ∀ c ∈ cs, headerSize P ≤ c.blockSize ∧ c.cap = (c.blockSize - headerSize P) / p.elemSize
  distinct : (cs.map Chunk.block).Nodup
  path : Path (slotNext P w.mem) p.freeSlots free 0
  divided : (free ++ live).Perm (slots P p.elemSize cs)
  count : p.count = live.length

theorem Holds.positive (holds : Holds P ok owner p w L cs free live) : 0 < p.elemSize := by
  have := P.sizeT_ge
  have := holds.wide
  omega

theorem Holds.bounds (serves : Serves P A owner ok limit) (holds : Holds P ok owner p w L cs free live)
    (member : c ∈ cs) : 0 < c.block ∧ c.block + c.blockSize ≤ P.sizeMax :=
  serves.bounds holds.ok (holds.held c member)

/-- The slots of a chunk end before its block does. -/
theorem Holds.slots_fit (holds : Holds P ok owner p w L cs free live) (member : c ∈ cs) :
    headerSize P + c.cap * p.elemSize ≤ c.blockSize := by
  obtain ⟨header, cap⟩ := holds.room c member
  have := Nat.div_mul_le_self (c.blockSize - headerSize P) p.elemSize
  rw [cap]
  omega

theorem Holds.slot_inside (holds : Holds P ok owner p w L cs free live)
    (slot : q ∈ slots P p.elemSize cs) :
    ∃ c ∈ cs, c.block + headerSize P ≤ q ∧ q + p.elemSize ≤ c.block + c.blockSize := by
  obtain ⟨c, member, inside⟩ := mem_slots.mp slot
  have := Chunk.slot_inside inside
  have := holds.slots_fit member
  exact ⟨c, member, by omega, by omega⟩

theorem Holds.mem_slots (holds : Holds P ok owner p w L cs free live) (member : q ∈ free ++ live) :
    q ∈ slots P p.elemSize cs := holds.divided.subset member

theorem Holds.separate (serves : Serves P A owner ok limit)
    (holds : Holds P ok owner p w L cs free live) (c_mem : c ∈ cs) (d_mem : d ∈ cs)
    (different : c.block ≠ d.block) :
    c.block + c.blockSize ≤ d.block ∨ d.block + d.blockSize ≤ c.block :=
  serves.separate holds.ok _ _ _ _ (holds.held c c_mem) (holds.held d d_mem) different

theorem Holds.apart (serves : Serves P A owner ok limit)
    (holds : Holds P ok owner p w L cs free live) :
    (slots P p.elemSize cs).Pairwise fun q r => q + p.elemSize ≤ r ∨ r + p.elemSize ≤ q := by
  rw [slots, List.pairwise_flatMap]
  refine ⟨fun c _ => (slotsFrom_apart ..).imp Or.inl, ?_⟩
  refine (List.pairwise_map.mp holds.distinct).imp_of_mem ?_
  intro c d c_mem d_mem different q q_mem r r_mem
  have := holds.separate serves c_mem d_mem different
  have := Chunk.slot_inside q_mem
  have := Chunk.slot_inside r_mem
  have := holds.slots_fit c_mem
  have := holds.slots_fit d_mem
  omega

theorem Holds.slots_nodup (serves : Serves P A owner ok limit)
    (holds : Holds P ok owner p w L cs free live) : (slots P p.elemSize cs).Nodup := by
  refine (holds.apart serves).imp fun {q r} apart same => ?_
  have := holds.positive
  omega

theorem Holds.nodup (serves : Serves P A owner ok limit)
    (holds : Holds P ok owner p w L cs free live) : (free ++ live).Nodup :=
  holds.divided.nodup_iff.mpr (holds.slots_nodup serves)

theorem Holds.apart_of_ne (serves : Serves P A owner ok limit)
    (holds : Holds P ok owner p w L cs free live) (q_mem : q ∈ slots P p.elemSize cs)
    (r_mem : r ∈ slots P p.elemSize cs) (different : q ≠ r) :
    q + p.elemSize ≤ r ∨ r + p.elemSize ≤ q := by
  have : Std.Symm fun q r : Nat => q + p.elemSize ≤ r ∨ r + p.elemSize ≤ q :=
    ⟨fun _ _ apart => apart.symm⟩
  exact (holds.apart serves).forall q_mem r_mem different

theorem Holds.off_header (serves : Serves P A owner ok limit)
    (holds : Holds P ok owner p w L cs free live) (slot : q ∈ slots P p.elemSize cs)
    (member : c ∈ cs) : q + p.elemSize ≤ c.block ∨ c.block + headerSize P ≤ q := by
  obtain ⟨d, found, low, high⟩ := holds.slot_inside slot
  by_cases same : c.block = d.block
  · omega
  · have := holds.separate serves member found same
    have := (holds.room c member).1
    omega

theorem Holds.mem_bytes (holds : Holds P ok owner p w L cs free live)
    (slot : q ∈ slots P p.elemSize cs) (inside : q ≤ x ∧ x < q + p.elemSize) : x ∈ L.bytes := by
  obtain ⟨c, member, low, high⟩ := holds.slot_inside slot
  exact Blocks.mem_bytes (holds.held c member) (by dsimp only; omega)

/-- Writes into a live slot stay in the parent's blocks. -/
theorem Holds.off_slots (holds : Holds P ok owner p w L cs free live) (member : q ∈ live)
    (frame : ∀ x, x < q ∨ q + p.elemSize ≤ x → m x = w.mem x) : Set.EqOn w.mem m L.bytesᶜ := by
  refine fun x outside => (frame x ?_).symm
  by_contra inside
  exact outside (holds.mem_bytes (holds.mem_slots (List.mem_append_right _ member)) (by omega))

theorem Holds.header_bytes (holds : Holds P ok owner p w L cs free live) (member : c ∈ cs) :
    Set.Ico c.block (c.block + headerSize P) ⊆ L.bytes := by
  intro x inside
  have := (holds.room c member).1
  have := inside.1
  have := inside.2
  exact Blocks.mem_bytes (holds.held c member) (by dsimp only; omega)

/-- Whoever leaves the parent's blocks alone leaves the free list alone. -/
theorem Holds.path_kept (holds : Holds P ok owner p w L cs free live)
    (same : Set.EqOn w.mem m L.bytes) : Path (slotNext P m) p.freeSlots free 0 := by
  refine holds.path.congr fun q member => (Platform.get_congr fun x inside => same ?_).symm
  have := holds.wide
  have := inside.1
  have := inside.2
  exact holds.mem_bytes (holds.mem_slots (List.mem_append_left _ member)) (by omega)

/-- A block that the parent grants shares no byte with the chunks. -/
theorem Holds.off_chunks (serves : Serves P A owner ok limit)
    (holds : Holds P ok owner p w L cs free live) (fresh : L block = none)
    (granted : ok w' (L.grant block owner actual)) (member : c ∈ cs) :
    block + actual ≤ c.block ∨ c.block + c.blockSize ≤ block := by
  have held := holds.held c member
  have := serves.separate granted _ _ _ _ (Blocks.grant_kept fresh held) Blocks.grant_same
    (Blocks.ne_of_fresh held fresh)
  dsimp only at this
  omega

/-- Whoever leaves the parent's blocks alone leaves the pool alone. -/
theorem Holds.kept (holds : Holds P ok owner p w L cs free live) (after : ok w' L)
    (same : Set.EqOn w.mem w'.mem L.bytes) : Holds P ok owner p w' L cs free live where
  ok := after
  wide := holds.wide
  aligned := holds.aligned
  request := holds.request
  stack := stack_congr holds.stack fun _ member _ inside => same (holds.header_bytes member inside)
  held := holds.held
  room := holds.room
  distinct := holds.distinct
  path := holds.path_kept same
  divided := holds.divided
  count := holds.count

/-- What a client writes into live slots is its own business. -/
theorem Holds.client (serves : Serves P A owner ok limit)
    (holds : Holds P ok owner p w L cs free live) {m : Mem}
    (outside : ∀ x, (∀ q ∈ live, x < q ∨ q + p.elemSize ≤ x) → m x = w.mem x) :
    Holds P ok owner p { w with mem := m } L cs free live := by
  have nodup := holds.nodup serves
  refine ⟨serves.client holds.ok ?_, holds.wide, holds.aligned, holds.request, ?_, holds.held,
    holds.room, holds.distinct, ?_, holds.divided, holds.count⟩
  · intro x away
    refine (outside x fun q member => ?_).symm
    by_contra inside
    exact away (holds.mem_bytes (holds.mem_slots (List.mem_append_right _ member)) (by omega))
  · refine stack_congr holds.stack fun c found x inside => (outside x fun q member => ?_).symm
    have := holds.off_header serves (holds.mem_slots (List.mem_append_right _ member)) found
    have := inside.1
    have := inside.2
    omega
  · refine holds.path.congr fun q member => Platform.get_congr fun x inside => outside x fun r member' => ?_
    have different : q ≠ r := fun same =>
      List.disjoint_of_nodup_append nodup member (same ▸ member')
    have := holds.apart_of_ne serves (holds.mem_slots (List.mem_append_left _ member))
      (holds.mem_slots (List.mem_append_right _ member')) different
    have := holds.wide
    have := inside.1
    have := inside.2
    omega

/-- Slots are addresses, and there are no more of them. -/
theorem Holds.length_le (serves : Serves P A owner ok limit)
    (holds : Holds P ok owner p w L cs free live) : (free ++ live).length ≤ P.sizeMax := by
  have inside : (free ++ live).toFinset ⊆ Finset.Ioc 0 P.sizeMax := by
    intro q member
    obtain ⟨c, found, low, high⟩ := holds.slot_inside (holds.mem_slots (List.mem_toFinset.mp member))
    have := holds.bounds serves found
    exact Finset.mem_Ioc.mpr (by omega)
  have bound := Finset.card_le_card inside
  rwa [List.toFinset_card_of_nodup (holds.nodup serves), Nat.card_Ioc, Nat.sub_zero] at bound

theorem Holds.pop (serves : Serves P A owner ok limit)
    (holds : Holds P ok owner p w L cs (q :: free) live) :
    p.freeSlots = q ∧ q ≠ 0 ∧ q ∉ live ∧
      Holds P ok owner { p with freeSlots := slotNext P w.mem q, count := P.add p.count 1 } w L cs
        free (q :: live) := by
  obtain ⟨first, rest⟩ := holds.path
  obtain ⟨c, found, low, -⟩ := holds.slot_inside (holds.mem_slots List.mem_cons_self)
  have positive := (holds.bounds serves found).1
  have nodup := holds.nodup serves
  have length := holds.length_le serves
  rw [List.cons_append, List.nodup_cons, List.mem_append, not_or] at nodup
  rw [List.length_append, List.length_cons] at length
  refine ⟨first, by omega, nodup.1.2, holds.ok, holds.wide, holds.aligned, holds.request,
    holds.stack, holds.held, holds.room, holds.distinct, first ▸ rest, ?_, ?_⟩
  · exact List.perm_middle.trans holds.divided
  · have count := holds.count
    dsimp only
    rw [Platform.add_of_le (by omega), count, List.length_cons]

theorem Holds.head_le (serves : Serves P A owner ok limit)
    (holds : Holds P ok owner p w L cs free live) : p.freeSlots ≤ P.sizeMax := by
  have path := holds.path
  cases free with
  | nil =>
    rw [show p.freeSlots = 0 from path]
    exact Nat.zero_le _
  | cons q free =>
    obtain ⟨c, found, low, high⟩ := holds.slot_inside (holds.mem_slots List.mem_cons_self)
    have := holds.bounds serves found
    rw [path.1]
    omega

theorem Holds.chunks_le (serves : Serves P A owner ok limit)
    (holds : Holds P ok owner p w L cs free live) : p.chunks ≤ P.sizeMax := by
  have stack := holds.stack
  cases cs with
  | nil =>
    rw [show p.chunks = 0 from stack]
    exact Nat.zero_le _
  | cons c cs =>
    have := holds.bounds serves List.mem_cons_self
    have := (holds.room c List.mem_cons_self).1
    rw [stack.1, blockChunk]
    omega

/-- A new chunk in a block the parent has just granted: its header written, then its
slots pushed. -/
theorem Holds.push (serves : Serves P A owner ok limit)
    (holds : Holds P ok owner p w L cs free live) {block actual cap : Nat} {w₁ : World σ}
    (same : Set.EqOn w.mem w₁.mem L.bytes) (fresh : L block = none)
    (granted : ok w₁ (L.grant block owner actual)) (large : headerSize P ≤ actual)
    (division : cap = (actual - headerSize P) / p.elemSize) :
    let m := putHeader P w₁.mem block p.chunks cap actual
    let c : Chunk := ⟨block, cap, actual⟩
    ∃ first m', pushSlots P m (block + headerSize P) p.elemSize cap p.freeSlots = (first, m') ∧
      chunkCap P m (blockChunk P block) = cap ∧ Set.EqOn w.mem m' L.bytes ∧
      (∀ x, x < block ∨ block + actual ≤ x → m' x = w₁.mem x) ∧
      Holds P ok owner { p with chunks := blockChunk P block, freeSlots := first } { w₁ with mem := m' }
        (L.grant block owner actual) (c :: cs) (c.slots P p.elemSize ++ free) live := by
  intro m c
  obtain ⟨positive, bound⟩ := serves.bounds granted Blocks.grant_same
  dsimp only at bound
  have away : ∀ x ∈ L.bytes, x < block ∨ block + actual ≤ x := fun x =>
    (serves.separate granted).away fresh
  have slots_le : cap * p.elemSize ≤ actual - headerSize P := division ▸ Nat.div_mul_le_self ..
  have cap_le : cap ≤ P.sizeMax := Nat.le_trans (Nat.le_mul_of_pos_right cap holds.positive) (by omega)
  have header : Set.EqOn w.mem m L.bytes := fun x member =>
    (same member).trans (putHeader_out (by have := away x member; omega)).symm
  have other : ∀ d ∈ cs, block + actual ≤ d.block ∨ d.block + d.blockSize ≤ block :=
    fun d => holds.off_chunks serves fresh granted
  obtain ⟨first, m', pushed, path', kept⟩ := pushSlots_spec (holds.path_kept header) holds.wide
    (show block + headerSize P + cap * p.elemSize ≤ P.sizeMax by omega) (holds.head_le serves) (by
      intro q member
      obtain ⟨d, found, low, high⟩ := holds.slot_inside (holds.mem_slots (List.mem_append_left _ member))
      have := other d found
      have := holds.wide
      omega)
  have stack : Stack P m (blockChunk P block) (c :: cs) := by
    refine stack_push (stack_congr holds.stack ?_) ?_ (holds.chunks_le serves) cap_le (by omega)
    · exact fun d member x inside => same (holds.header_bytes member inside)
    · intro d member
      have := other d member
      have := (holds.room d member).1
      omega
  have outside : ∀ x, x < block ∨ block + actual ≤ x → m' x = w₁.mem x := by
    intro x outside
    rw [kept x (by omega)]
    exact putHeader_out (by omega)
  refine ⟨first, m', pushed, stack.2.1, ?_, outside, serves.inside granted Blocks.grant_same outside,
    holds.wide, holds.aligned, holds.request, ?_, ?_, ?_, ?_, path', ?_, holds.count⟩
  · intro x member
    rw [outside x (away x member), same member]
  · refine stack_congr stack fun d member x inside => (kept x ?_).symm
    have := inside.1
    have := inside.2
    rcases List.mem_cons.mp member with rfl | member
    · exact Or.inl (by omega)
    · have := other d member
      have := (holds.room d member).1
      omega
  · intro d member
    rcases List.mem_cons.mp member with rfl | member
    · exact Blocks.grant_same
    · exact Blocks.grant_kept fresh (holds.held d member)
  · intro d member
    rcases List.mem_cons.mp member with rfl | member
    · exact ⟨large, division⟩
    · exact holds.room d member
  · refine List.nodup_cons.mpr ⟨?_, holds.distinct⟩
    intro member
    obtain ⟨d, found, equal⟩ := List.mem_map.mp member
    exact Blocks.ne_of_fresh (holds.held d found) fresh equal
  · rw [slots_cons, List.append_assoc]
    exact holds.divided.append_left _

/-- `grow` under its assertion: nothing changed, or a chunk more, with its slots before
the free ones. -/
theorem grow_cases (serves : Serves P A owner ok limit)
    (holds : Holds P ok owner p w L cs free live)
    (fits : p.chunkCap ≤ (P.sizeMax - headerSize P) / p.elemSize)
    (small : headerSize P + p.chunkCap * p.elemSize ≤ limit)
    (result : grow P A p w = (grown, p', w')) :
    Set.EqOn w.mem w'.mem L.bytes ∧
      if grown then ∃ L' c, 0 < c.cap ∧ Holds P ok owner p' w' L' (c :: cs) (c.slots P p.elemSize ++ free) live ∧
        p'.elemSize = p.elemSize ∧ p'.chunkCap = p.chunkCap ∧
        Extended A ok w (headerSize P + p.chunkCap * p.elemSize) w' L'
      else p' = p ∧ Holds P ok owner p w' L cs free live := by
  have positive := holds.positive
  have header := headerSize_le (P := P)
  have size_ge := P.sizeMax_ge
  have product := (Nat.le_div_iff_mul_le positive).mp fits
  have granted := serves.alloc holds.ok small
  simp only [grow, Platform.mul_of_le (show p.chunkCap * p.elemSize ≤ P.sizeMax by omega),
    Platform.add_of_le (show headerSize P + p.chunkCap * p.elemSize ≤ P.sizeMax by omega)] at result
  generalize attempt : ralcAlloc A w (headerSize P + p.chunkCap * p.elemSize) = reply at granted result
  obtain ⟨block, w₁⟩ := reply
  obtain ⟨same, outcome⟩ := granted
  dsimp only at same outcome result
  by_cases null : block.ptr = 0
  · rw [if_pos null] at outcome result
    cases result
    exact ⟨same, rfl, holds.kept outcome same⟩
  · rw [if_neg null] at outcome result
    obtain ⟨actual, out, large, fresh, kept⟩ := outcome
    obtain ⟨-, bound⟩ := serves.bounds kept Blocks.grant_same
    dsimp only at bound
    have written : block.actual (headerSize P + p.chunkCap * p.elemSize) = actual := by
      rw [Reply.actual, out, Option.getD_some]
    have room : P.sub actual (headerSize P) = actual - headerSize P :=
      Platform.sub_of_le (by omega) (by omega)
    obtain ⟨first, m', pushed, cap, same', outside, holds'⟩ :=
      holds.push serves same fresh kept (by omega) rfl
    simp only [putHeader] at pushed cap
    rw [written, room, data_blockChunk, cap, pushed] at result
    cases result
    have some := (Nat.le_div_iff_mul_le positive).mpr (show p.chunkCap * p.elemSize ≤ actual - headerSize P by omega)
    refine ⟨same', ?_⟩
    rw [if_pos rfl]
    have inner : Set.EqOn w₁.mem m' (L.grant block.ptr owner actual).bytesᶜ := by
      intro x away
      refine (outside x ?_).symm
      by_contra inside
      exact away (Blocks.mem_bytes Blocks.grant_same (by dsimp only; omega))
    refine ⟨_, _, Nat.lt_of_lt_of_le holds.request some, holds', rfl, rfl, ?_⟩
    exact ⟨by rwa [attempt], by rwa [attempt], by rw [attempt], by rwa [attempt]⟩

theorem grow_slot (serves : Serves P A owner ok limit)
    (holds : Holds P ok owner p w L cs free live) (empty : p.freeSlots = 0)
    (asserts : AllocAsserts P limit p) (result : grow P A p w = (true, p', w')) :
    Set.EqOn w.mem w'.mem L.bytes ∧ p'.elemSize = p.elemSize ∧ p'.chunkCap = p.chunkCap ∧
      ∃ L' c q rest, Holds P ok owner p' w' L' (c :: cs) (q :: rest) live ∧
        Extended A ok w (headerSize P + p.chunkCap * p.elemSize) w' L' := by
  obtain ⟨fits, small⟩ := asserts.resolve_left (not_not_intro empty)
  obtain ⟨same, effect⟩ := grow_cases serves holds fits small result
  rw [if_pos rfl] at effect
  obtain ⟨L', c, some, holds', size, cap, extended⟩ := effect
  obtain ⟨n, succ⟩ := Nat.exists_eq_succ_of_ne_zero (Nat.ne_of_gt some)
  have first : c.slots P p.elemSize = (c.block + headerSize P) :: (c.slots P p.elemSize).tail := by
    simp [Chunk.slots, slotsFrom, succ, List.range_succ_eq_map]
  rw [first, List.cons_append] at holds'
  exact ⟨same, size, cap, L', c, _, _, holds', extended⟩

/-- A pool that could not grow is as its parent's refusal left it. -/
theorem grow_failed (result : grow P A p w = (false, p', w')) :
    let request := P.add (headerSize P) (P.mul p.chunkCap p.elemSize)
    p' = p ∧ (ralcAlloc A w request).1.ptr = 0 ∧ w' = (ralcAlloc A w request).2 := by
  intro request
  rw [grow] at result
  dsimp only at result
  split at result
  case isTrue null =>
    cases result
    exact ⟨rfl, null, rfl⟩
  case isFalse => cases result

theorem Holds.free_nil (serves : Serves P A owner ok limit) (holds : Holds P ok owner p w L cs free live)
    (empty : p.freeSlots = 0) : free = [] := by
  cases free with
  | nil => rfl
  | cons r rest =>
    obtain ⟨head, nonnull, -⟩ := holds.pop serves
    exact absurd (head.symm.trans empty) nonnull

/-- What `ralcPool_alloc` can do: its parent refuses it a chunk, or it takes the first free
slot, of a new chunk where there was none. -/
inductive Allotment (P : Platform) (A : Ralc σ) (ok : World σ → Blocks ι → Prop) (owner : ι) (p : RalcPool)
    (w : World σ) (L : Blocks ι) (cs : List Chunk) (free live : List Nat) : Nat × RalcPool × World σ → Prop
  | refused {w' : World σ} (empty : p.freeSlots = 0) (grew : grow P A p w = (false, p, w'))
      (same : Set.EqOn w.mem w'.mem L.bytes) (holds : Holds P ok owner p w' L cs free live) :
      Allotment P A ok owner p w L cs free live (0, p, w')
  | grown {w' : World σ} {L' : Blocks ι} {p' : RalcPool} {c : Chunk} {free' : List Nat} {q : Nat}
      (empty : p.freeSlots = 0) (nonnull : q ≠ 0) (new : q ∉ live) (same : Set.EqOn w.mem w'.mem L.bytes)
      (size : p'.elemSize = p.elemSize) (cap : p'.chunkCap = p.chunkCap)
      (extended : Extended A ok w (headerSize P + p.chunkCap * p.elemSize) w' L')
      (holds : Holds P ok owner p' w' L' (c :: cs) free' (q :: live)) :
      Allotment P A ok owner p w L cs free live (q, p', w')
  | taken {p' : RalcPool} {free' : List Nat} {q : Nat} (given : p.freeSlots ≠ 0) (nonnull : q ≠ 0)
      (new : q ∉ live) (size : p'.elemSize = p.elemSize) (cap : p'.chunkCap = p.chunkCap)
      (holds : Holds P ok owner p' w L cs free' (q :: live)) :
      Allotment P A ok owner p w L cs free live (q, p', w)

theorem ralcPoolAlloc_allotment (serves : Serves P A owner ok limit)
    (holds : Holds P ok owner p w L cs free live) (asserts : AllocAsserts P limit p)
    (result : ralcPoolAlloc P A p w = (q, p', w')) : Allotment P A ok owner p w L cs free live (q, p', w') := by
  rw [ralcPoolAlloc] at result
  by_cases empty : p.freeSlots = 0
  · rw [if_pos empty] at result
    generalize grew : grow P A p w = grown at result
    obtain ⟨_ | _, p₁, w₁⟩ := grown
    · obtain ⟨fits, small⟩ := asserts.resolve_left (not_not_intro empty)
      obtain ⟨same, effect⟩ := grow_cases serves holds fits small grew
      rw [if_neg Bool.false_ne_true] at effect
      obtain ⟨rfl, holds₁⟩ := effect
      cases result
      exact .refused empty grew same holds₁
    · obtain ⟨same, size, cap, _, _, r, _, holds₁, extended⟩ := grow_slot serves holds empty asserts grew
      obtain ⟨head, nonnull, new, holds₂⟩ := holds₁.pop serves
      simp only [not_true_eq_false, if_false, head] at result
      cases result
      exact .grown empty nonnull new same size cap extended holds₂
  · rw [if_neg empty] at result
    cases free with
    | nil => exact absurd holds.path empty
    | cons r free =>
      obtain ⟨head, nonnull, new, holds₁⟩ := holds.pop serves
      simp only [not_true_eq_false, if_false, head] at result
      cases result
      exact .taken empty nonnull new rfl rfl holds₁

theorem ralcPoolAlloc_cases (serves : Serves P A owner ok limit)
    (holds : Holds P ok owner p w L cs free live) (asserts : AllocAsserts P limit p)
    (result : ralcPoolAlloc P A p w = (q, p', w')) :
    Set.EqOn w.mem w'.mem L.bytes ∧ p'.elemSize = p.elemSize ∧ p'.chunkCap = p.chunkCap ∧
      if q = 0 then p' = p ∧ Holds P ok owner p w' L cs free live
      else q ∉ live ∧ ∃ L' cs' free', Holds P ok owner p' w' L' cs' free' (q :: live) := by
  cases ralcPoolAlloc_allotment serves holds asserts result with
  | refused empty grew same holds₁ => exact ⟨same, rfl, rfl, rfl, holds₁⟩
  | grown empty nonnull new same size cap extended holds₁ =>
    rw [if_neg nonnull]
    exact ⟨same, size, cap, new, _, _, _, holds₁⟩
  | taken given nonnull new size cap holds₁ =>
    rw [if_neg nonnull]
    exact ⟨fun _ _ => rfl, size, cap, new, _, _, _, holds₁⟩

/-- `ralcPool_alloc` fails only where its parent refused it a chunk. -/
theorem ralcPoolAlloc_null (serves : Serves P A owner ok limit)
    (holds : Holds P ok owner p w L cs free live) (asserts : AllocAsserts P limit p)
    (result : ralcPoolAlloc P A p w = (0, p', w')) :
    p.freeSlots = 0 ∧ grow P A p w = (false, p', w') := by
  cases ralcPoolAlloc_allotment serves holds asserts result with
  | refused empty grew => exact ⟨empty, grew⟩
  | grown empty nonnull => exact absurd rfl nonnull
  | taken given nonnull => exact absurd rfl nonnull

/-- `ralcPool_free` puts a live slot in front of the free ones and writes only into it. -/
theorem ralcPoolFree_cases (serves : Serves P A owner ok limit)
    (holds : Holds P ok owner p w L cs free live) (member : q ∈ live)
    (result : ralcPoolFree P p w q = (p', w')) :
    Holds P ok owner p' w' L cs (q :: free) (live.erase q) ∧
      ∀ x, x < q ∨ q + p.elemSize ≤ x → w'.mem x = w.mem x := by
  cases result
  have slot := holds.mem_slots (List.mem_append_right _ member)
  obtain ⟨c, found, low, high⟩ := holds.slot_inside slot
  have bound := holds.bounds serves found
  have wide := holds.wide
  have outside : ∀ x, x < q ∨ q + p.elemSize ≤ x → putSlotNext P w.mem q p.freeSlots x = w.mem x :=
    fun x away => Platform.put_out (by omega)
  have written := holds.client serves (m := putSlotNext P w.mem q p.freeSlots) fun x away =>
    outside x (away q member)
  refine ⟨⟨written.ok, wide, holds.aligned, holds.request, written.stack, holds.held, holds.room,
    holds.distinct, ⟨rfl, ?_⟩, ?_, ?_⟩, outside⟩
  · have next : slotNext P (putSlotNext P w.mem q p.freeSlots) q = p.freeSlots :=
      Platform.get_put (holds.head_le serves)
    dsimp only
    rw [next]
    exact written.path
  · have moved := (List.perm_cons_erase member).symm.append_left free
    exact (List.perm_middle.symm.trans moved).trans holds.divided
  · have length := holds.length_le serves
    have positive := List.length_pos_of_mem member
    have count := holds.count
    rw [List.length_append] at length
    dsimp only
    rw [List.length_erase_of_mem member, Platform.sub_of_le (by omega) (by omega), count]

theorem mem_chunks_length (serves : Serves P A owner ok limit) (before : ok w L)
    (held : ∀ c ∈ cs, L c.block = some ⟨owner, c.blockSize⟩) (distinct : (cs.map Chunk.block).Nodup) :
    cs.length ≤ P.sizeMax := by
  have inside : (cs.map Chunk.block).toFinset ⊆ Finset.Ioc 0 P.sizeMax := by
    intro a member
    obtain ⟨c, found, rfl⟩ := List.mem_map.mp (List.mem_toFinset.mp member)
    obtain ⟨positive, bound⟩ := serves.bounds before (held c found)
    exact Finset.mem_Ioc.mpr (by omega)
  have bound := Finset.card_le_card inside
  rwa [List.toFinset_card_of_nodup distinct, Nat.card_Ioc, Nat.sub_zero, List.length_map] at bound

theorem clearLoop_spec (serves : Serves P A owner ok limit) (before : ok w L)
    (stack : Stack P w.mem ptr cs) (held : ∀ c ∈ cs, L c.block = some ⟨owner, c.blockSize⟩)
    (room : ∀ c ∈ cs, headerSize P ≤ c.blockSize) (distinct : (cs.map Chunk.block).Nodup)
    (enough : cs.length ≤ rounds) :
    clearLoop P A w ptr rounds = some (freeAll A w (cs.map Chunk.block)) := by
  induction cs generalizing ptr w L rounds with
  | nil =>
    obtain rfl : ptr = 0 := stack
    cases rounds <;> exact if_pos rfl
  | cons c cs ih =>
    obtain ⟨rfl, -, -, rest⟩ := stack
    have here := held c List.mem_cons_self
    have positive := (serves.bounds before here).1
    have above := headerSize_ge (P := P)
    have some : blockChunk P c.block ≠ 0 := by
      rw [blockChunk]
      omega
    obtain ⟨outside, distinct⟩ := List.nodup_cons.mp distinct
    obtain ⟨same, freed⟩ := serves.free before here
    have held' : ∀ d ∈ cs, L.release c.block d.block = Option.some ⟨owner, d.blockSize⟩ := by
      intro d member
      rw [Blocks.release_other]
      · exact held d (List.mem_cons_of_mem _ member)
      · intro equal
        exact outside (equal ▸ List.mem_map_of_mem member)
    obtain ⟨rounds, rfl⟩ : ∃ r, rounds = r + 1 := ⟨rounds - 1, by
      rw [List.length_cons] at enough
      omega⟩
    rw [clearLoop, if_neg some, chunkBlock_blockChunk]
    refine ih freed (stack_congr rest fun d member x inside => same ?_) held'
      (fun d member => room d (List.mem_cons_of_mem _ member)) distinct (by simpa using enough)
    have := room d (List.mem_cons_of_mem _ member)
    have := inside.1
    have := inside.2
    exact Blocks.mem_bytes (held' d member) (by dsimp only; omega)

theorem ralcPoolClear_spec (serves : Serves P A owner ok limit)
    (holds : Holds P ok owner p w L cs free live) :
    ralcPoolClear P A p w = some ({ p with chunks := 0, freeSlots := 0, count := 0 },
        freeAll A w (cs.map Chunk.block)) ∧
      Holds P ok owner { p with chunks := 0, freeSlots := 0, count := 0 }
        (freeAll A w (cs.map Chunk.block)) (L.without (cs.map Chunk.block)) [] [] [] := by
  have loop := clearLoop_spec serves holds.ok holds.stack holds.held
    (fun c member => (holds.room c member).1) holds.distinct
    (mem_chunks_length serves holds.ok holds.held holds.distinct)
  obtain ⟨-, freed⟩ := serves.freeAll holds.ok holds.distinct fun b member => by
    obtain ⟨c, found, rfl⟩ := List.mem_map.mp member
    exact ⟨_, holds.held c found⟩
  constructor
  · rw [ralcPoolClear, loop]
    rfl
  · exact ⟨freed, holds.wide, holds.aligned, holds.request, rfl, by simp, by simp, List.nodup_nil, rfl,
      List.Perm.refl _, rfl⟩

theorem init_wide (asserts : InitAsserts P elemSize) (initChunkCap : Nat) :
    P.sizeT ≤ (ralcPoolInit P elemSize initChunkCap).elemSize := by
  have rounded := Platform.le_ratAlign asserts
  simp only [ralcPoolInit]
  refine Nat.le_trans ?_ rounded
  rw [sizeofFreeSlot]
  split <;> omega

theorem holds_init (asserts : InitAsserts P elemSize) (initial : ok w L) :
    Holds P ok owner (ralcPoolInit P elemSize initChunkCap) w L [] [] [] where
  ok := initial
  wide := init_wide asserts initChunkCap
  aligned := Platform.ratAlign_dvd _
  request := by
    rw [ralcPoolInit]
    dsimp only
    split <;> omega
  stack := rfl
  held := by simp
  room := by simp
  distinct := List.nodup_nil
  path := rfl
  divided := List.Perm.refl _
  count := rfl

end Ratlib.Pool
