import Ratlib.Tower.Contract
import Ratlib.Arena.Correctness

/-! An arena as a layer of a chain: it meets the contract if its parent does. -/
namespace Ratlib.Tower

variable {P : Platform} {σ : Type} {C : Checked σ} {ok : World σ → Blocks Unit → Prop}
  {w : World (Arena.RalcArena × σ)} {L L' : Blocks Unit}

/-- What `ralcArena_push` does under the assertions about sizes. -/
theorem arenaPush_guarded (admits : arenaAdmits P C w size = true) :
    Arena.ralcArenaPush P C.guarded w.state.1 (below w) size =
      Arena.ralcArenaPush P C.ralc w.state.1 (below w) size := by
  obtain ⟨-, requests⟩ := Bool.and_eq_true_iff.mp admits
  rw [Bool.or_eq_true, decide_eq_true_iff] at requests
  by_cases fits : Arena.Fits P w.state.1 (below w).mem (Arena.pushSize P size)
  · simp only [Arena.ralcArenaPush, if_pos fits]
  · simp only [Arena.ralcArenaPush, if_neg fits, guarded_alloc (requests.resolve_left fits)]

theorem arenaAdmits_asserts (admits : arenaAdmits P C w size = true) :
    Arena.PushAsserts P P.sizeMax w.state.1 w.mem size :=
  of_decide_eq_true (Bool.and_eq_true_iff.mp admits).1

def arenaState (w : World (Arena.RalcArena × σ)) (regions : List Arena.Region) : Arena.State σ :=
  ⟨w.state.1, below w, [], regions⟩

/-- The held ranges are objects of an arena over a parent that keeps `ok`. -/
structure ArenaHolds (P : Platform) (ok : World σ → Blocks Unit → Prop)
    (w : World (Arena.RalcArena × σ)) (L K : Blocks Unit) (cs : List Arena.Chunk)
    (rs : List Arena.Region) : Prop where
  inv : Arena.Inv P ok () (arenaState w rs) K cs
  objects : ∀ a block, L a = some block → ∃ r ∈ rs, r.ptr = a ∧ r.size = block.size

def ArenaOk (P : Platform) (ok : World σ → Blocks Unit → Prop) (w : World (Arena.RalcArena × σ))
    (L : Blocks Unit) : Prop :=
  ∃ K cs rs, ArenaHolds P ok w L K cs rs

variable {K : Blocks Unit} {cs : List Arena.Chunk} {rs : List Arena.Region}

theorem ArenaHolds.sub (holds : ArenaHolds P ok w L K cs rs)
    (fewer : ∀ a block, L' a = some block → L a = some block) : ArenaHolds P ok w L' K cs rs where
  inv := holds.inv
  objects a block held := holds.objects a block (fewer a block held)

theorem ArenaHolds.inside (holds : ArenaHolds P ok w L K cs rs) (held : L a = some block) :
    ∃ c ∈ cs, c.block + Arena.headerSize P ≤ a ∧
      a + block.size ≤ c.block + Arena.headerSize P + c.size ∧ c.size ≤ c.cap := by
  obtain ⟨r, member, rfl, size⟩ := holds.objects a block held
  obtain ⟨c, found, low, high, -⟩ := Arena.tiles_inside holds.inv.tiles member
  exact ⟨c, found, low, size ▸ high, (holds.inv.holding.holds.filled c found).2⟩

theorem ArenaHolds.payload (holds : ArenaHolds P ok w L K cs rs) (member : x ∈ L.bytes) :
    ∃ c ∈ cs, c.block + Arena.headerSize P ≤ x ∧ x < c.block + Arena.headerSize P + c.cap := by
  obtain ⟨a, block, held, low, high⟩ := member
  obtain ⟨c, found, start, stop, within⟩ := holds.inside held
  exact ⟨c, found, by omega, by omega⟩

theorem ArenaHolds.apart (serves : Serves P A () ok limit) (holds : ArenaHolds P ok w L K cs rs) :
    rs.Pairwise fun r s => r.ptr + r.size ≤ s.ptr ∨ s.ptr + s.size ≤ r.ptr :=
  have chunks := holds.inv.holding.holds
  Arena.tiles_apart holds.inv.tiles chunks.filled (chunks.pairwise serves)

theorem ArenaHolds.client (serves : Serves P A () ok limit) (holds : ArenaHolds P ok w L K cs rs)
    (same : Set.EqOn w.mem m' L.bytesᶜ) : ArenaHolds P ok { w with mem := m' } L K cs rs where
  inv := by
    refine ⟨holds.inv.holding.client serves fun x away => (same fun member => ?_).symm,
      holds.inv.tiles, by simp [arenaState]⟩
    obtain ⟨c, found, inside⟩ := holds.payload member
    have := away c found
    omega
  objects := holds.objects

/-- A successful push returns the rounded size. -/
theorem arenaPush_reply {A : Ralc σ} {w : World σ}
    (some : (Arena.ralcArenaPush P A p w size).1.ptr ≠ 0) :
    (Arena.ralcArenaPush P A p w size).1.out = Option.some (Arena.pushSize P size) := by
  rw [Arena.ralcArenaPush] at some ⊢
  dsimp only at some ⊢
  split
  case isTrue => rfl
  case isFalse full =>
    rw [if_neg full] at some
    split
    case isTrue null => exact absurd rfl (by rwa [if_pos null] at some)
    case isFalse => rfl

theorem arenaData_ne_zero (chunk offset : Nat) : Arena.data P chunk + offset ≠ 0 := by
  have := P.sizeT_ge
  rw [Arena.data, Arena.sizeofChunk]
  omega

/-- A push fails only where the parent refused a chunk. -/
theorem arenaPush_refused (null : (arenaPush P C w size).1.ptr = 0) :
    ¬Arena.Fits P w.state.1 w.mem (Arena.pushSize P size) ∧
      let request := Arena.pushRequest P w.state.1 (Arena.pushSize P size)
      (ralcAlloc C.ralc (below w) request).1.ptr = 0 ∧
        arenaPush P C w size = (.null, above w.state.1 (ralcAlloc C.ralc (below w) request).2) := by
  rw [arenaPush, Arena.ralcArenaPush] at null ⊢
  dsimp only at null ⊢
  split at null
  case isTrue => exact absurd null (arenaData_ne_zero _ _)
  case isFalse full =>
    rw [if_neg full]
    split at null
    case isTrue none => exact ⟨full, none, by rw [if_pos none]⟩
    case isFalse => exact absurd null (arenaData_ne_zero _ 0)

theorem arenaPush_null (null : (arenaPush P C w size).1.ptr = 0) : (arenaPush P C w size).1 = .null := by
  rw [(arenaPush_refused null).2.2]

/-- `ralcArena_push` as an allocator's answer. -/
theorem ArenaHolds.granted (serves : Serves P C.guarded () ok P.sizeMax)
    (holds : ArenaHolds P ok w L K cs rs) (admits : arenaAdmits P C w size = true) :
    Granted (ArenaOk P ok) () w L size (arenaPush P C w size) := by
  have asserts := arenaAdmits_asserts admits
  have keeps : ∀ c ∈ cs, Set.EqOn w.mem
      (Arena.ralcArenaPush P C.guarded w.state.1 (below w) size).2.2.mem
      (Set.Ico (c.block + Arena.headerSize P) (c.block + Arena.headerSize P + c.cap)) :=
    fun _ found => Arena.push_keeps serves holds.inv.holding asserts found
  have reply : (Arena.ralcArenaPush P C.guarded w.state.1 (below w) size).1.ptr ≠ 0 →
      (Arena.ralcArenaPush P C.guarded w.state.1 (below w) size).1.out = some (Arena.pushSize P size) :=
    arenaPush_reply
  have taken : Arena.step P C.guarded P.sizeMax (arenaState w rs) (.push size) = some
      (arenaState (arenaPush P C w size).2
        (Arena.received w.state.1.size (arenaPush P C w size).1 rs)) := by
    simp only [Arena.step]
    rw [if_pos (by exact asserts)]
    simp only [arenaState, arenaPush_guarded admits]
    rfl
  obtain ⟨K', cs', inv', -⟩ := Arena.push_effect serves holds.inv taken
  rw [arenaPush_guarded admits] at keeps reply
  have same : Set.EqOn w.mem (arenaPush P C w size).2.mem L.bytes := by
    intro x member
    obtain ⟨c, found, inside⟩ := holds.payload member
    exact keeps c found inside
  change (arenaPush P C w size).1.ptr ≠ 0 → (arenaPush P C w size).1.out = _ at reply
  generalize arenaPush P C w size = result at taken inv' same reply
  refine ⟨same, ?_⟩
  by_cases null : result.1.ptr = 0
  · rw [Arena.received, if_pos null] at inv'
    rw [if_pos null]
    exact ⟨K', cs', rs, inv', holds.objects⟩
  · obtain ⟨positive, large, -⟩ := Arena.pushSize_spec asserts.1
    rw [Arena.received, if_neg null, Reply.actual, reply null, Option.getD_some] at inv'
    rw [if_neg null]
    have holds' : ArenaHolds P ok result.2 L K' cs' _ :=
      ⟨inv', fun a block held => by
        obtain ⟨r, member, same⟩ := holds.objects a block held
        exact ⟨r, List.mem_cons_of_mem _ member, same⟩⟩
    obtain ⟨others, -⟩ := List.pairwise_cons.mp (holds'.apart serves)
    refine ⟨_, reply null, large, ?_, K', cs', _, inv', ?_⟩
    · rw [Option.eq_none_iff_forall_ne_some]
      intro block held
      obtain ⟨r, member, ptr, -⟩ := holds.objects _ block held
      obtain ⟨c, -, -, -, some, -⟩ := Arena.tiles_inside holds.inv.tiles member
      have := others r member
      dsimp only at this
      omega
    · intro a block held
      rcases Blocks.grant_some held with ⟨rfl, rfl⟩ | ⟨-, held⟩
      · exact ⟨_, List.mem_cons_self, rfl, rfl⟩
      · exact holds'.objects a block held

/-- An arena over an allocator that meets the contract meets it. -/
theorem ralcArena_meets (meets : Meets P C ok) : Meets P (ralcArena P C) (ArenaOk P ok) where
  bounds {w L a block} := by
    rintro ⟨K, cs, rs, holds⟩ held
    obtain ⟨c, found, low, high, within⟩ := holds.inside held
    have chunks := holds.inv.holding.holds
    have := chunks.positive meets.serves found
    have := chunks.bound meets.serves found
    omega
  separate {w L} := by
    rintro ⟨K, cs, rs, holds⟩ a b x y heldA heldB different
    obtain ⟨r, r_mem, rfl, size⟩ := holds.objects a x heldA
    obtain ⟨s, s_mem, rfl, size'⟩ := holds.objects b y heldB
    have : Std.Symm fun r s : Arena.Region => r.ptr + r.size ≤ s.ptr ∨ s.ptr + s.size ≤ r.ptr :=
      ⟨fun _ _ apart => apart.symm⟩
    have := (holds.apart meets.serves).forall r_mem s_mem fun same => different (by rw [same])
    omega
  client := by
    rintro w L m' ⟨K, cs, rs, holds⟩ same
    exact ⟨K, cs, rs, holds.client meets.serves same⟩
  alloc {w L size} := by
    rintro ⟨K, cs, rs, holds⟩ admits
    exact holds.granted meets.serves admits
  realloc_null {w L size} := by
    rintro ⟨K, cs, rs, holds⟩ admits
    have admits : arenaAdmits P C w size = true := by simpa [ralcArena] using admits
    simpa [ralcRealloc, ralcArena] using holds.granted meets.serves admits
  realloc {w L ptr oldSize newSize} := by
    rintro ⟨K, cs, rs, holds⟩ held -
    obtain ⟨c, found, low, -⟩ := holds.inside held
    have := holds.inv.holding.holds.positive meets.serves found
    rw [show ralcRealloc (ralcArena P C).ralc w ptr newSize = (.null, w) from if_pos (by omega)]
    exact regranted_null ⟨K, cs, rs, holds⟩
  free {w L ptr size} := by
    rintro ⟨K, cs, rs, holds⟩ held
    exact ⟨fun _ _ => rfl, K, cs, rs, holds.sub fun a block kept => (Blocks.release_some kept).2⟩
  refuses w ptr newSize null := by
    by_cases old : ptr ≠ 0
    · rw [show ralcRealloc (ralcArena P C).ralc w ptr newSize = (.null, w) from if_pos old]
    · rw [show ralcRealloc (ralcArena P C).ralc w ptr newSize = arenaPush P C w newSize from
        if_neg old] at null ⊢
      exact arenaPush_null null

end Ratlib.Tower
