import Ratlib.Gen.Bounds
import Ratlib.Pool.Correctness

/-! How much memory a pool holds. It grows by a chunk only where every slot is live, so that
it never has more slots than a chunk beyond those that were live at once. -/
namespace Ratlib.Pool

variable {P : Platform} {σ : Type u} {ι : Type v} {A : Ralc σ} {owner : ι}
  {ok : World σ → Blocks ι → Prop} {w w' : World σ} {L : Blocks ι} {p p' : RalcPool} {s s' s₀ : State σ}
  {cs : List Chunk} {free live : List Nat}

/-- Where an allocation adds a chunk, every slot was live. -/
theorem alloc_capacity (serves : Serves P A owner ok limit) (holds : Holds P ok owner p w L cs free live)
    (asserts : AllocAsserts P limit p) (result : ralcPoolAlloc P A p w = (q, p', w')) :
    (q = 0 ∧ p' = p ∧ Holds P ok owner p w' L cs free live) ∨ q ≠ 0 ∧ ∃ L' cs' free',
      Holds P ok owner p' w' L' cs' free' (q :: live) ∧
        (cs' = cs ∨ capacity cs = live.length ∧ ∃ c, cs' = c :: cs) := by
  cases ralcPoolAlloc_allotment serves holds asserts result with
  | refused empty grew same holds₁ => exact .inl ⟨rfl, rfl, holds₁⟩
  | grown empty nonnull new same size cap extended holds₁ =>
    have whole := holds.divided.length_eq
    rw [holds.free_nil serves empty, slots_length] at whole
    exact .inr ⟨nonnull, _, _, _, holds₁, .inr ⟨whole.symm, _, rfl⟩⟩
  | taken given nonnull new size cap holds₁ => exact .inr ⟨nonnull, _, _, _, holds₁, .inl rfl⟩

/-- A chunk has the slots asked for and those that fit into the slack of its block. -/
theorem Holds.cap_le (holds : Holds P ok owner p w L cs free live) (sized : Sized owner bound L)
    (small : bound ≤ headerSize P + p.chunkCap * p.elemSize + extra) (member : c ∈ cs) :
    c.cap ≤ p.chunkCap + extra / p.elemSize := by
  obtain ⟨header, cap⟩ := holds.room c member
  have size := sized _ _ (holds.held c member)
  calc c.cap = (c.blockSize - headerSize P) / p.elemSize := cap
    _ ≤ (p.elemSize * p.chunkCap + extra) / p.elemSize :=
      Nat.div_le_div_right (by rw [Nat.mul_comm]; omega)
    _ = p.chunkCap + extra / p.elemSize := Nat.mul_add_div holds.positive ..

/-- The chunks have no more slots than were live at some time before, and `chunk` more. -/
def Peaked (P : Platform) (A : Ralc σ) (limit : Nat) (s₀ : State σ) (ops : List Op) (cap chunk : Nat) : Prop :=
  ∃ earlier s, earlier <+: ops ∧ run (step P A limit) s₀ earlier = some s ∧ cap ≤ s.pool.count + chunk

theorem Peaked.later (peaked : Peaked P A limit s₀ ops cap chunk) (more : List Op) :
    Peaked P A limit s₀ (ops ++ more) cap chunk := by
  obtain ⟨earlier, s, before, ran, fewer⟩ := peaked
  exact ⟨earlier, s, before.trans (List.prefix_append ..), ran, fewer⟩

/-- What a run keeps: the chunks came when every slot was live. -/
structure Grown (P : Platform) (A : Ralc σ) (limit : Nat) (ok : World σ → Blocks ι → Prop) (owner : ι)
    (s₀ : State σ) (extra : Nat) (ops : List Op) (s : State σ) : Prop where
  elemSize : s.pool.elemSize = s₀.pool.elemSize
  chunkCap : s.pool.chunkCap = s₀.pool.chunkCap
  chunks : ∃ L cs free, Holds P ok owner s.pool s.world L cs free s.live ∧
    Peaked P A limit s₀ ops (capacity cs) (s₀.pool.chunkCap + extra / s₀.pool.elemSize)

def request (P : Platform) (limit : Nat) (p : RalcPool) : Nat :=
  min limit (headerSize P + p.chunkCap * p.elemSize)

section Step
variable (serves : Serves P A owner ok (request P limit s₀.pool))
  (sized : ∀ w L, ok w L → Sized owner (request P limit s₀.pool + extra) L)

include serves sized in
theorem alloc_grown (grown : Grown P A limit ok owner s₀ extra ops s)
    (ran : run (step P A limit) s₀ ops = some s) (taken : step P A limit s .alloc = some s') :
    Grown P A limit ok owner s₀ extra (ops ++ [.alloc]) s' := by
  obtain ⟨size, cap, L, cs, free, holds, peaked⟩ := grown
  simp only [step] at taken
  split at taken
  case isFalse => cases taken
  case isTrue asserts =>
    have admits : AllocAsserts P (request P limit s₀.pool) s.pool := by
      rcases asserts with some | ⟨fits, small⟩
      · exact .inl some
      · rw [size, cap] at small
        refine .inr ⟨fits, ?_⟩
        rw [size, cap]
        exact Nat.le_min.mpr ⟨small, Nat.le_refl _⟩
    generalize result : ralcPoolAlloc P A s.pool s.world = answer at taken
    obtain ⟨slot, p', w'⟩ := answer
    obtain rfl := Option.some.inj taken
    obtain ⟨-, size', cap', -⟩ := ralcPoolAlloc_cases serves holds admits result
    refine ⟨size'.trans size, cap'.trans cap, ?_⟩
    rcases alloc_capacity serves holds admits result with ⟨null, rfl, kept⟩ | ⟨some, L', cs', free', kept, outcome⟩
    · rw [if_pos null]
      exact ⟨L, cs, free, kept, peaked.later _⟩
    · rw [if_neg some]
      refine ⟨L', cs', free', kept, ?_⟩
      rcases outcome with rfl | ⟨full, c, rfl⟩
      · exact peaked.later _
      · have small : request P limit s₀.pool + extra ≤ headerSize P + p'.chunkCap * p'.elemSize + extra := by
          rw [size', cap', size, cap]
          exact Nat.add_le_add_right (Nat.min_le_right ..) extra
        have added := kept.cap_le (sized _ _ kept.ok) small List.mem_cons_self
        rw [size', cap', size, cap] at added
        refine ⟨ops, s, List.prefix_append .., ran, ?_⟩
        have count := holds.count
        rw [capacity]
        omega

include serves sized in
theorem step_grown (grown : Grown P A limit ok owner s₀ extra ops s)
    (ran : run (step P A limit) s₀ ops = some s) (taken : step P A limit s op = some s') :
    Grown P A limit ok owner s₀ extra (ops ++ [op]) s' := by
  cases op with
  | alloc => exact alloc_grown serves sized grown ran taken
  | free ptr =>
    obtain ⟨size, cap, L, cs, free, holds, peaked⟩ := grown
    simp only [step] at taken
    split at taken
    case isFalse => cases taken
    case isTrue member =>
      obtain rfl := Option.some.inj taken
      exact ⟨size, cap, L, cs, _, (ralcPoolFree_cases serves holds member rfl).1, peaked.later _⟩
  | clear =>
    obtain ⟨size, cap, L, cs, free, holds, -⟩ := grown
    obtain ⟨cleared, kept⟩ := ralcPoolClear_spec serves holds
    have later := (run_concat ran).trans taken
    rw [step, cleared] at taken
    obtain rfl := Option.some.inj taken
    exact ⟨size, cap, _, [], [], kept, _, _, List.prefix_rfl, later, Nat.zero_le _⟩
  | write ptr i byte =>
    obtain ⟨size, cap, L, cs, free, holds, peaked⟩ := grown
    simp only [step] at taken
    split at taken
    case isFalse => cases taken
    case isTrue inside =>
      obtain ⟨member, low⟩ := inside
      obtain rfl := Option.some.inj taken
      refine ⟨size, cap, L, cs, free, holds.client serves fun x away => Mem.write_out ?_, peaked.later _⟩
      have := away ptr member
      rw [List.length_singleton]
      omega

end Step

/-- A label of its own tells the chunks from blocks that were there before. -/
def Labelled (ok : World σ → Blocks ι → Prop) (owner : ι) (bound : Nat) (w : World σ)
    (L : Blocks (ι ⊕ Unit)) : Prop :=
  ok w (L.relabel (Sum.elim id fun _ => owner)) ∧ Sized (.inr ()) bound L

theorem labelled_serves (serves : Serves P A owner ok limit) (tight : Tight A owner ok limit extra)
    (smaller : limit' ≤ limit) : Serves P A (.inr ()) (Labelled ok owner (limit' + extra)) limit' := by
  have labelled : Serves P A (Sum.inr ()) (fun w L => ok w (L.relabel (Sum.elim id fun _ => owner))) limit :=
    serves.relabel
  have near : Tight A (Sum.inr ()) (fun w L => ok w (L.relabel (Sum.elim id fun _ => owner))) limit extra :=
    tight.relabel
  exact (labelled.lower smaller).sized (near.lower smaller)

theorem labelled_start (before : ok w L) (bound : Nat) : Labelled ok owner bound w (L.relabel Sum.inl) := by
  constructor
  · rwa [Blocks.relabel_relabel fun _ => rfl]
  · intro a size held
    obtain ⟨block, -, same⟩ := Option.map_eq_some_iff.mp held
    cases same

/-- After any run, whichever requests failed, the slots of all chunks are no more than were
live in one state of the run, and a chunk: the slots asked for and those that fit into what
the parent rounds up. -/
theorem run_peaked (serves : Serves P A owner ok limit) (tight : Tight A owner ok limit extra) (initial : ok w L)
    (asserts : InitAsserts P elemSize)
    (ran : run (step P A limit) (start P elemSize initChunkCap w) ops = some s) :
    ∃ cs free, Divided P s cs free ∧ ∃ earlier s₁, earlier <+: ops ∧
      run (step P A limit) (start P elemSize initChunkCap w) earlier = some s₁ ∧
      s.pool.count + free.length ≤ s₁.pool.count + s.pool.chunkCap + extra / s.pool.elemSize := by
  let s₀ := start P elemSize initChunkCap w
  have smaller : request P limit s₀.pool ≤ limit := Nat.min_le_left ..
  have serves' := labelled_serves serves tight smaller
  have initial' : Labelled ok owner (request P limit s₀.pool + extra) w (L.relabel Sum.inl) :=
    labelled_start initial _
  have first : Grown P A limit _ (Sum.inr ()) s₀ extra [] s₀ :=
    ⟨rfl, rfl, _, [], [], holds_init asserts initial', [], s₀, List.prefix_rfl, rfl, Nat.zero_le _⟩
  have grown := run_history (Grown P A limit _ (Sum.inr ()) s₀ extra)
    (fun before s op s' _ ran grown taken => step_grown serves' (fun w L both => both.2) grown ran taken) first ran
  obtain ⟨size, cap, L', cs, free, holds, earlier, s₁, before, ran₁, fewer⟩ := grown
  have divided := holds.divides serves'
  refine ⟨cs, free, divided, earlier, s₁, before, ran₁, ?_⟩
  rw [divided.total, size, cap, Nat.add_assoc]
  exact fewer

/-- Four slots that were live at once take a second chunk of three, whatever is freed after. -/
theorem run_peaked_lp64 : ∃ (s s₁ : State Gen.RalcGen) (cs : List Chunk) (free : List Nat) (earlier : List Op),
    run (step .lp64 (Gen.ralcGen .lp64) 4096) (start .lp64 20 3 Gen.kib)
      [.alloc, .alloc, .write 4176 0 7, .free 4144, .alloc, .alloc, .alloc, .free 4208, .free 4176] = some s ∧
    s.live = [4288, 4144] ∧ Divided .lp64 s cs free ∧
    run (step .lp64 (Gen.ralcGen .lp64) 4096) (start .lp64 20 3 Gen.kib) earlier = some s₁ ∧
    s.pool.count + free.length ≤ s₁.pool.count + 3 := by
  have facts : (run (step .lp64 (Gen.ralcGen .lp64) 4096) (start .lp64 20 3 Gen.kib)
      [.alloc, .alloc, .write 4176 0 7, .free 4144, .alloc, .alloc, .alloc, .free 4208, .free 4176]).map
        (fun s => (s.live, s.pool.chunkCap, s.pool.elemSize)) = some ([4288, 4144], 3, 32) := by decide +kernel
  obtain ⟨s, ran, sizes⟩ := Option.map_eq_some_iff.mp facts
  obtain ⟨live, cap, size⟩ : s.live = [4288, 4144] ∧ s.pool.chunkCap = 3 ∧ s.pool.elemSize = 32 := by
    simpa using sizes
  obtain ⟨cs, free, divided, earlier, s₁, -, ran₁, fewer⟩ :=
    run_peaked (Gen.kib_serves ()) (Gen.ralcGen_tight () _ _) Gen.kib_ok (by decide) ran
  rw [cap, size] at fewer
  exact ⟨s, s₁, cs, free, earlier, ran, live, divided, ran₁, fewer⟩

end Ratlib.Pool
