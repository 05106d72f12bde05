import Ratlib.Clients.Containers
import Ratlib.Arena.Correctness
import Ratlib.Pool.Correctness

/-! Arenas and pools as clients of the allocator below them, and the objects in them: an
object that stays keeps its bytes through every call that is not a write into it. -/
namespace Ratlib

variable {P : Platform} {σ : Type u} {ι : Type v} {A : Ralc σ} {limit : Nat} {owner : ι}
  {ok ok' : World σ → Blocks ι → Prop} {L : Blocks ι} {w w' : World σ}

namespace Arena

variable {s s' : State σ} {p p' : RalcArena} {c d : Chunk} {cs : List Chunk}

theorem mem_cut (member : d ∈ cut m cs) : ∃ c ∈ cs, c.block = d.block ∧ c.cap = d.cap := by
  induction cs with
  | nil => cases member
  | cons c cs ih =>
    rw [cut] at member
    split at member
    · rcases List.mem_cons.mp member with rfl | below
      · exact ⟨c, List.mem_cons_self, rfl, rfl⟩
      · exact ⟨d, List.mem_cons_of_mem _ below, rfl, rfl⟩
    · obtain ⟨e, found, same⟩ := ih member
      exact ⟨e, List.mem_cons_of_mem _ found, same⟩

def Chunk.payload (P : Platform) (c : Chunk) : Set Nat :=
  Set.Ico (c.block + headerSize P) (c.block + headerSize P + c.cap)

theorem Holds.payload_bytes (holds : Holds P ok owner w L ptr cs) (member : c ∈ cs) :
    c.payload P ⊆ L.bytes := by
  intro x inside
  have low := inside.1
  have high := inside.2
  exact Blocks.mem_bytes (holds.held c member) (by dsimp only; omega)

/-- A rewind writes into no payload that stays. -/
theorem rewindLoop_keeps (serves : Serves P A owner ok limit)
    (holds : Holds P ok owner w L p.chunks cs) (within : size ≤ total cs)
    (result : rewindLoop P A p w size rounds = some (p', w')) (member : d ∈ cut (total cs - size) cs) :
    Set.EqOn w.mem w'.mem (d.payload P) := by
  induction rounds generalizing p w L cs size with
  | zero =>
    rw [rewindLoop] at result
    split at result
    · cases result
      exact fun _ _ => rfl
    · cases result
  | succ rounds ih =>
    by_cases done : size = 0
    · rw [rewindLoop, if_pos done] at result
      cases result
      exact fun _ _ => rfl
    · cases cs with
      | nil => exact absurd (Nat.le_zero.mp within) done
      | cons c cs =>
        obtain ⟨top, -, used, -⟩ := holds.stack
        have bound := holds.bound serves List.mem_cons_self
        have sum := holds.total_le serves
        have filled := holds.filled c List.mem_cons_self
        have above := headerSize_ge (P := P)
        have words : sizeofChunk P = 3 * P.sizeT := rfl
        have positive := holds.positive serves List.mem_cons_self
        have some : p.chunks ≠ 0 := by
          rw [top, blockChunk]
          omega
        rw [total_cons] at within sum
        rw [rewindLoop, if_neg done, if_neg some] at result
        dsimp only at result
        rw [used] at result
        split at result
        case isTrue inner =>
          cases result
          obtain ⟨e, found, block, cap⟩ := mem_cut member
          intro x inside
          rw [Chunk.payload, ← block, ← cap] at inside
          have away := holds.off_header serves found List.mem_cons_self inside
          rw [top]
          exact (Platform.put_out (by rw [blockChunk]; omega)).symm
        case isFalse outer =>
          have rest : c.size + total cs - size = total cs - (size - c.size) := by omega
          obtain ⟨block, freed⟩ := holds.pop serves
          rw [total_cons, rest, cut_cons (Nat.sub_le ..)] at member
          rw [block, Platform.sub_of_le (by omega) (by omega)] at result
          have later := ih (p := { p with chunks := chunkNext P w.mem p.chunks }) freed (by omega)
            result member
          obtain ⟨same, -⟩ := serves.free holds.ok (holds.held c List.mem_cons_self)
          obtain ⟨e, found, where_, cap⟩ := mem_cut member
          have stays := freed.payload_bytes found
          rw [Chunk.payload, where_, cap] at stays
          exact (same.mono stays).trans later

def Op.Spares (q : Nat) : Op → Prop
  | .write ptr _ _ => q ≠ ptr
  | .push _ | .mark | .rewind _ | .clear => True

/-- An object that is there before a call and after it has the same bytes. -/
theorem step_keeps (serves : Serves P A owner ok limit) (inv : Inv P ok owner s L cs)
    (taken : step P A limit s op = some s') (member : r ∈ s.regions) (stays : r ∈ s'.regions)
    (spared : op.Spares r.ptr) : Set.EqOn s.world.mem s'.world.mem (Set.Ico r.ptr (r.ptr + r.size)) := by
  have holds := inv.holding.holds
  have inside : ∀ {t : State σ} {ds : List Chunk}, Tiles P ds t.regions → Filled ds → r ∈ t.regions →
      ∃ d ∈ ds, Set.Ico r.ptr (r.ptr + r.size) ⊆ d.payload P := by
    intro t ds tiles filled there
    obtain ⟨d, found, low, high, -⟩ := tiles_inside tiles there
    have := (filled d found).2
    exact ⟨d, found, Set.Ico_subset_Ico low (by omega)⟩
  cases op with
  | push size =>
    obtain ⟨c, found, sub⟩ := inside inv.tiles holds.filled member
    simp only [step] at taken
    split at taken
    case isFalse => cases taken
    case isTrue asserts =>
      cases taken
      exact (push_keeps serves inv.holding asserts found).mono sub
  | mark =>
    cases taken
    exact fun _ _ => rfl
  | rewind mark =>
    by_cases valid : mark ∈ s.marks
    · obtain ⟨t, L', same, inv', -⟩ := rewind_effect serves inv valid
      obtain rfl := Option.some.inj (same.symm.trans taken)
      obtain ⟨d, found, sub⟩ := inside inv'.tiles inv'.holding.holds.filled stays
      have within := (inv.marks mark valid).1
      have size := inv.holding.total
      have sum := holds.total_le serves
      simp only [step, if_pos valid, ralcArenaRewind, Option.map_map,
        Platform.sub_of_le within (show s.arena.size ≤ P.sizeMax by omega)] at taken
      obtain ⟨⟨p', w'⟩, looped, rfl⟩ := Option.map_eq_some_iff.mp taken
      have distance : total cs - (s.arena.size - mark) = mark := by omega
      rw [← distance] at found
      exact (rewindLoop_keeps serves holds (by omega) looped found).mono sub
    · rw [step, if_neg valid] at taken
      cases taken
  | clear =>
    obtain ⟨result, -, rfl⟩ := Option.map_eq_some_iff.mp taken
    cases stays
  | write ptr i byte =>
    simp only [step] at taken
    split at taken
    case isFalse => cases taken
    case isTrue live =>
      obtain ⟨r', member', rfl, low⟩ := live
      cases taken
      have symmetric : Std.Symm fun r t : Region =>
          r.ptr + r.size ≤ t.ptr ∨ t.ptr + t.size ≤ r.ptr := ⟨fun _ _ => Or.symm⟩
      have apart := (inv.laid serves).apart.forall member member'
        fun same => spared (congrArg Region.ptr same)
      intro x within
      have := within.1
      have := within.2
      exact (Mem.write_out (by rw [List.length_singleton]; omega)).symm

theorem Inv.kept (inv : Inv P ok owner s L cs) (after : ok' w' L)
    (same : Set.EqOn s.world.mem w'.mem L.bytes) : Inv P ok' owner { s with world := w' } L cs := by
  have holds := inv.holding.holds
  refine ⟨⟨⟨after, stack_congr holds.stack fun c member x inside => same ?_, holds.held,
    holds.distinct, holds.filled⟩, inv.holding.total⟩, inv.tiles, inv.marks⟩
  have := inside.1
  have := inside.2
  exact Blocks.mem_bytes (holds.held c member) (by dsimp only; omega)

theorem Inv.region_bytes (inv : Inv P ok owner s L cs) (member : r ∈ s.regions) :
    Set.Ico r.ptr (r.ptr + r.size) ⊆ L.bytes := by
  obtain ⟨c, found, low, high, -⟩ := tiles_inside inv.tiles member
  have := (inv.holding.holds.filled c found).2
  exact (Set.Ico_subset_Ico low (by omega)).trans (inv.holding.holds.payload_bytes found)

/-- The chunks hold the arena together, and the objects lie in them. -/
def Sound (P : Platform) (s : State σ) : Prop :=
  ∃ cs, Stack P s.world.mem s.arena.chunks cs ∧ Filled cs ∧ s.arena.size = Arena.total cs ∧
    Laid P cs s.regions

def client (P : Platform) (A : Ralc σ) (limit : Nat) (ι : Type v) : Client P A limit ι where
  State := State σ
  Op := Op
  View := RalcArena × List Nat × List (Region × List UInt8)
  step := step P A limit
  view s := (s.arena, s.marks, s.regions.map fun r => (r, Mem.read s.world.mem r.ptr r.size))
  world := State.world
  enter s w := { s with world := w }
  Holds ok owner L s := ∃ cs, Inv P ok owner s L cs
  Sound := Sound P
  Effect s op s' := ∀ r ∈ s.regions, r ∈ s'.regions → op.Spares r.ptr →
    Mem.read s'.world.mem r.ptr r.size = Mem.read s.world.mem r.ptr r.size
  world_enter _ _ := rfl
  enter_world _ := rfl
  enter_enter _ _ _ := rfl
  rests holds := holds.choose_spec.holding.holds.ok
  kept _ _ := by
    rintro ⟨cs, inv⟩ after same
    refine ⟨⟨cs, inv.kept after same⟩, Prod.ext rfl (Prod.ext rfl ?_)⟩
    refine List.map_congr_left fun r member => congrArg (Prod.mk r) ?_
    exact (Mem.read_congr (same.mono (inv.region_bytes member))).symm
  sound serves := by
    rintro ⟨cs, inv⟩
    have holds := inv.holding.holds
    exact ⟨cs, holds.stack, holds.filled, inv.holding.total.symm, inv.laid serves⟩
  effect serves := by
    rintro ⟨cs, inv⟩ taken
    obtain ⟨L', cs', inv', -⟩ := step_effect serves inv taken
    refine ⟨⟨L', cs', inv'⟩, fun r member stays spared => ?_⟩
    exact (Mem.read_congr (step_keeps serves inv taken member stays spared)).symm

end Arena

namespace Pool

variable {s s' : State σ} {cs : List Chunk} {free : List Nat}

def Op.Spares (q : Nat) : Op → Prop
  | .write ptr _ _ => q ≠ ptr
  | .alloc | .free _ | .clear => True

/-- A slot that is live before a call and after it has the same bytes. -/
theorem step_keeps (serves : Serves P A owner ok limit)
    (holds : Holds P ok owner s.pool s.world L cs free s.live)
    (taken : step P A limit s op = some s') (member : q ∈ s.live) (stays : q ∈ s'.live)
    (spared : op.Spares q) : Set.EqOn s.world.mem s'.world.mem (Set.Ico q (q + s.pool.elemSize)) := by
  have slot : ∀ {r}, r ∈ s.live → r ∈ slots P s.pool.elemSize cs := fun live =>
    holds.mem_slots (List.mem_append_right _ live)
  cases op with
  | alloc =>
    simp only [step] at taken
    split at taken
    case isFalse => cases taken
    case isTrue asserts =>
      cases taken
      obtain ⟨same, -⟩ := ralcPoolAlloc_cases serves holds asserts rfl
      exact same.mono fun x inside => holds.mem_bytes (slot member) inside
  | free ptr =>
    simp only [step] at taken
    split at taken
    case isFalse => cases taken
    case isTrue live =>
      cases taken
      have nodup := (List.nodup_append'.mp (holds.nodup serves)).2.1
      have different : q ≠ ptr := by
        rintro rfl
        exact (nodup.mem_erase_iff.mp stays).1 rfl
      have apart := holds.apart_of_ne serves (slot member) (slot live) different
      obtain ⟨-, outside⟩ := ralcPoolFree_cases serves holds live rfl
      intro x inside
      have := inside.1
      have := inside.2
      exact (outside x (by omega)).symm
  | clear =>
    obtain ⟨result, -, rfl⟩ := Option.map_eq_some_iff.mp taken
    cases stays
  | write ptr i byte =>
    simp only [step] at taken
    split at taken
    case isFalse => cases taken
    case isTrue live =>
      cases taken
      have apart := holds.apart_of_ne serves (slot member) (slot live.1) spared
      intro x inside
      have := live.2
      have := inside.1
      have := inside.2
      exact (Mem.write_out (by rw [List.length_singleton]; omega)).symm

def client (P : Platform) (A : Ralc σ) (limit : Nat) (ι : Type v) : Client P A limit ι where
  State := State σ
  Op := Op
  View := RalcPool × List (Nat × List UInt8)
  step := step P A limit
  view s := (s.pool, s.live.map fun q => (q, Mem.read s.world.mem q s.pool.elemSize))
  world := State.world
  enter s w := { s with world := w }
  Holds ok owner L s := ∃ cs free, Holds P ok owner s.pool s.world L cs free s.live
  Sound s := ∃ cs free, Divided P s cs free
  Effect s op s' := ∀ q ∈ s.live, q ∈ s'.live → op.Spares q →
    Mem.read s'.world.mem q s.pool.elemSize = Mem.read s.world.mem q s.pool.elemSize
  world_enter _ _ := rfl
  enter_world _ := rfl
  enter_enter _ _ _ := rfl
  rests holds := holds.choose_spec.choose_spec.ok
  kept _ _ := by
    rintro ⟨cs, free, holds⟩ after same
    refine ⟨⟨cs, free, ⟨after, holds.wide, holds.aligned, holds.request, ?_, holds.held, holds.room,
      holds.distinct, holds.path_kept same, holds.divided, holds.count⟩⟩, ?_⟩
    · exact stack_congr holds.stack fun _ member _ inside => same (holds.header_bytes member inside)
    · refine congrArg (Prod.mk _) (List.map_congr_left fun q member => congrArg (Prod.mk q) ?_)
      have slot := holds.mem_slots (List.mem_append_right _ member)
      exact (Mem.read_congr (same.mono fun x inside => holds.mem_bytes slot inside)).symm
  sound serves := by
    rintro ⟨cs, free, holds⟩
    exact ⟨cs, free, holds.divides serves⟩
  effect serves := by
    rintro ⟨cs, free, holds⟩ taken
    obtain ⟨⟨L', inv'⟩, -⟩ := step_inv serves ⟨_, cs, free, holds⟩ taken
    refine ⟨⟨L', inv'⟩, fun q member stays spared => ?_⟩
    exact (Mem.read_congr (step_keeps serves holds taken member stays spared)).symm

end Pool

namespace Objects

/-- Objects that a client has from an allocator, with their actual sizes. -/
structure State (σ : Type u) where
  world : World σ
  live : Nat → Option Nat

inductive Op where
  | alloc (size : Nat)
  | realloc (ptr newSize : Nat)
  | free (ptr : Nat)
  | write (ptr i : Nat) (byte : UInt8)

def answered (live : Nat → Option Nat) (reply : Reply) : Nat → Option Nat :=
  Function.update live reply.ptr reply.out

def Op.Spares (q : Nat) : Op → Prop
  | .realloc ptr _ | .free ptr | .write ptr _ _ => q ≠ ptr
  | .alloc _ => True

def step (A : Ralc σ) (limit : Nat) (s : State σ) : Op → Option (State σ)
  | .alloc size =>
    if size ≤ limit then
      let (reply, w) := ralcAlloc A s.world size
      some ⟨w, if reply.ptr = 0 then s.live else answered s.live reply⟩
    else none
  | .realloc ptr newSize =>
    if (s.live ptr).isSome ∧ newSize ≤ limit then
      let (reply, w) := ralcRealloc A s.world ptr newSize
      some ⟨w, if reply.ptr = 0 then s.live else answered (Function.update s.live ptr none) reply⟩
    else none
  | .free ptr =>
    if (s.live ptr).isSome then some ⟨ralcFree A s.world ptr, Function.update s.live ptr none⟩
    else none
  | .write ptr i byte =>
    if i < (s.live ptr).getD 0 then
      some { s with world := { s.world with mem := s.world.mem.write (ptr + i) [byte] } }
    else none

def Listed (owner : ι) (live : Nat → Option Nat) (L : Blocks ι) : Prop :=
  ∀ q n, live q = some n ↔ L q = some ⟨owner, n⟩

structure Holds (ok : World σ → Blocks ι → Prop) (owner : ι) (s : State σ) (L : Blocks ι) : Prop where
  live : Listed owner s.live L
  ok : ok s.world L

variable {s s' : State σ}

theorem Holds.bytes (holds : Holds ok owner s L) (live : s.live q = some n) :
    Set.Ico q (q + n) ⊆ L.bytes := Blocks.range_subset ((holds.live q n).mp live)

/-- What a call leaves of the objects that it is not about: the object and its bytes. -/
def Leaves (s : State σ) (op : Op) (s' : State σ) : Prop :=
  ∀ q n, s.live q = some n → op.Spares q →
    s'.live q = some n ∧ Set.EqOn s.world.mem s'.world.mem (Set.Ico q (q + n))

/-- What a call does to the object it is about. A request gets a new object that is large
enough or none; a resize takes the bytes that fit along, or leaves the object. -/
def Answers (A : Ralc σ) (s s' : State σ) : Op → Prop
  | .alloc size =>
    let reply := (ralcAlloc A s.world size).1
    if reply.ptr = 0 then s'.live = s.live
    else s.live reply.ptr = none ∧ ∃ actual, s'.live reply.ptr = some actual ∧ size ≤ actual
  | .realloc ptr newSize =>
    let reply := (ralcRealloc A s.world ptr newSize).1
    ∀ n, s.live ptr = some n →
      if reply.ptr = 0 then
        s'.live = s.live ∧ Set.EqOn s.world.mem s'.world.mem (Set.Ico ptr (ptr + n))
      else ∃ actual, s'.live reply.ptr = some actual ∧ newSize ≤ actual ∧
        ∀ i < min n newSize, s'.world.mem (reply.ptr + i) = s.world.mem (ptr + i)
  | .free ptr => s'.live ptr = none
  | .write .. => s'.live = s.live

theorem Listed.answered {live : Nat → Option Nat} {reply : Reply} (listed : Listed owner live L)
    (out : reply.out = some actual) :
    Listed owner (answered live reply) (L.grant reply.ptr owner actual) := by
  intro q n
  by_cases here : q = reply.ptr
  · subst here
    simp [Objects.answered, out]
  · rw [Objects.answered, Function.update_of_ne here, Blocks.grant_other here]
    exact listed q n

theorem Listed.release {live : Nat → Option Nat} (listed : Listed owner live L) (ptr : Nat) :
    Listed owner (Function.update live ptr none) (L.release ptr) := by
  intro q n
  by_cases here : q = ptr
  · subst here
    simp
  · rw [Function.update_of_ne here, Blocks.release_other here]
    exact listed q n

theorem Listed.free {live : Nat → Option Nat} (listed : Listed owner live L) (free : L q = none) :
    live q = none := by
  refine Option.eq_none_iff_forall_ne_some.mpr fun n there => ?_
  rw [(listed q n).mp there] at free
  cases free

theorem alloc_effect (serves : Serves P A owner ok limit) (holds : Holds ok owner s L)
    (taken : step A limit s (.alloc size) = some s') :
    (∃ L', Holds ok owner s' L') ∧ Leaves s (.alloc size) s' ∧ Answers A s s' (.alloc size) := by
  simp only [step] at taken
  split at taken
  case isFalse => cases taken
  case isTrue fits =>
    cases taken
    obtain ⟨same, outcome⟩ := serves.alloc holds.ok fits
    simp only [Answers]
    split at outcome
    case isTrue null =>
      simp only [if_pos null]
      exact ⟨⟨L, holds.live, outcome⟩, fun q n there _ => ⟨there, same.mono (holds.bytes there)⟩, trivial⟩
    case isFalse given =>
      obtain ⟨actual, out, large, fresh, after⟩ := outcome
      have free := holds.live.free fresh
      simp only [if_neg given]
      refine ⟨⟨_, holds.live.answered out, after⟩, fun q n there _ => ⟨?_, same.mono (holds.bytes there)⟩,
        free, actual, ?_, large⟩
      · have other : q ≠ (ralcAlloc A s.world size).1.ptr := by
          rintro rfl
          rw [free] at there
          cases there
        exact (Function.update_of_ne other ..).trans there
      · rw [answered, Function.update_self, out]

theorem realloc_effect (serves : Serves P A owner ok limit) (holds : Holds ok owner s L)
    (taken : step A limit s (.realloc ptr newSize) = some s') :
    (∃ L', Holds ok owner s' L') ∧ Leaves s (.realloc ptr newSize) s' ∧
      Answers A s s' (.realloc ptr newSize) := by
  simp only [step] at taken
  split at taken
  case isFalse => cases taken
  case isTrue asserts =>
    obtain ⟨live, fits⟩ := asserts
    obtain ⟨oldSize, old⟩ := Option.isSome_iff_exists.mp live
    cases taken
    obtain ⟨same, outcome⟩ := serves.realloc holds.ok ((holds.live ptr oldSize).mp old) fits
    have kept : ∀ q n, s.live q = some n → q ≠ ptr → Set.EqOn s.world.mem
        (ralcRealloc A s.world ptr newSize).2.mem (Set.Ico q (q + n)) := by
      intro q n there other
      have held := (holds.live q n).mp there
      exact same.mono (Blocks.range_subset (by rwa [Blocks.release_other other]))
    simp only [Answers]
    split at outcome
    case isTrue null =>
      obtain ⟨same, after⟩ := outcome
      simp only [if_pos null]
      exact ⟨⟨L, holds.live, after⟩, fun q n there other => ⟨there, kept q n there other⟩,
        fun n there => ⟨trivial, same.mono (holds.bytes there)⟩⟩
    case isFalse given =>
      obtain ⟨actual, out, large, fresh, after, bytes⟩ := outcome
      have released := holds.live.release ptr
      have free := released.free fresh
      simp only [if_neg given]
      refine ⟨⟨_, released.answered out, after⟩, fun q n there other => ⟨?_, kept q n there other⟩,
        fun n there => ⟨actual, ?_, large, ?_⟩⟩
      · have still : Function.update s.live ptr none q = some n :=
          (Function.update_of_ne other ..).trans there
        have away : q ≠ (ralcRealloc A s.world ptr newSize).1.ptr := by
          rintro rfl
          rw [free] at still
          cases still
        exact (Function.update_of_ne away ..).trans still
      · rw [answered, Function.update_self, out]
      · obtain rfl := Option.some.inj (old.symm.trans there)
        exact bytes

theorem step_effect (serves : Serves P A owner ok limit) (holds : Holds ok owner s L)
    (taken : step A limit s op = some s') :
    (∃ L', Holds ok owner s' L') ∧ Leaves s op s' ∧ Answers A s s' op := by
  cases op with
  | alloc size => exact alloc_effect serves holds taken
  | realloc ptr newSize => exact realloc_effect serves holds taken
  | free ptr =>
    simp only [step] at taken
    split at taken
    case isFalse => cases taken
    case isTrue live =>
      obtain ⟨size, there⟩ := Option.isSome_iff_exists.mp live
      cases taken
      obtain ⟨same, after⟩ := serves.free holds.ok ((holds.live ptr size).mp there)
      refine ⟨⟨_, holds.live.release ptr, after⟩, fun q n there other => ⟨?_, ?_⟩, ?_⟩
      · exact (Function.update_of_ne other ..).trans there
      · have held := (holds.live q n).mp there
        exact same.mono (Blocks.range_subset (by rwa [Blocks.release_other other]))
      · exact Function.update_self ..
  | write ptr i byte =>
    simp only [step] at taken
    split at taken
    case isFalse => cases taken
    case isTrue inside =>
      obtain ⟨size, there⟩ : ∃ size, s.live ptr = some size := by
        cases there : s.live ptr with
        | none => simp [there] at inside
        | some size => exact ⟨size, rfl⟩
      rw [there, Option.getD_some] at inside
      cases taken
      have held := (holds.live ptr size).mp there
      have out : ∀ x, x < ptr ∨ ptr + size ≤ x → s.world.mem.write (ptr + i) [byte] x = s.world.mem x :=
        fun x away => Mem.write_out (by rw [List.length_singleton]; omega)
      refine ⟨⟨L, holds.live, serves.inside holds.ok held out⟩, fun q n there other => ⟨there, ?_⟩, rfl⟩
      have apart := serves.separate holds.ok _ _ _ _ ((holds.live q n).mp there) held other
      intro x within
      have := within.1
      have := within.2
      dsimp only at apart
      exact (out x (by omega)).symm

/-- No two live objects share a byte, and none is NULL or wraps. -/
structure Sound (P : Platform) (s : State σ) : Prop where
  bounds : ∀ q n, s.live q = some n → 0 < q ∧ q + n ≤ P.sizeMax
  apart : ∀ q r n k, s.live q = some n → s.live r = some k → q ≠ r → q + n ≤ r ∨ r + k ≤ q

def client (P : Platform) (A : Ralc σ) (limit : Nat) (ι : Type v) : Client P A limit ι where
  State := State σ
  Op := Op
  View := Nat → Option (List UInt8)
  step := step A limit
  view s q := (s.live q).map fun n => Mem.read s.world.mem q n
  world := State.world
  enter s w := { s with world := w }
  Holds ok owner L s := Holds ok owner s L
  Sound := Sound P
  Effect s op s' := Leaves s op s' ∧ Answers A s s' op
  world_enter _ _ := rfl
  enter_world _ := rfl
  enter_enter _ _ _ := rfl
  rests holds := holds.ok
  kept _ _ holds after same := by
    refine ⟨⟨holds.live, after⟩, funext fun q => Option.map_congr fun n there => ?_⟩
    exact (Mem.read_congr (same.mono (holds.bytes there))).symm
  sound serves holds :=
    ⟨fun q n there => serves.bounds holds.ok ((holds.live q n).mp there), fun q r n k there there' =>
      serves.separate holds.ok _ _ _ _ ((holds.live q n).mp there) ((holds.live r k).mp there')⟩
  effect serves holds taken := step_effect serves holds taken

end Objects
end Ratlib
