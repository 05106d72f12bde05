import Ratlib.Arena.Correctness
import Ratlib.Arena.Usage
import Ratlib.Gen.Bounds

/-! How much memory an arena holds. An object that does not fit the top chunk starts the
next one, so that what is wasted below the top chunk is less than what is in use. -/
namespace Ratlib.Arena

/-- Each chunk was made for its lowest object, which did not fit the chunk below. -/
def Thrifty (initChunkCap extra : Nat) (regions : List Region) : List Chunk → Prop
  | [] => True
  | c :: cs => (∃ r ∈ regions, r.start = total cs ∧ r.size ≤ c.size ∧
      c.cap ≤ max initChunkCap (2 * r.size) + extra ∧ ∀ below ∈ cs.head?, below.cap < below.size + r.size) ∧
      Thrifty initChunkCap extra regions cs

variable {P : Platform} {σ : Type u} {ι : Type v} {A : Ralc σ} {owner : ι}
  {ok : World σ → Blocks ι → Prop} {L : Blocks ι} {s s' : State σ} {c : Chunk} {cs cs' : List Chunk}
  {rs rs' : List Region} {w : World σ} {m : Mem}

theorem Thrifty.mono (thrifty : Thrifty init extra rs cs) (kept : ∀ r ∈ rs, r.start ≤ total cs → r ∈ rs') :
    Thrifty init extra rs' cs := by
  induction cs with
  | nil => trivial
  | cons c cs ih =>
    obtain ⟨⟨r, member, start, fits, made, full⟩, below⟩ := thrifty
    constructor
    · exact ⟨r, kept r member (by rw [start, total_cons]; exact Nat.le_add_left ..), start, fits, made, full⟩
    · exact ih below fun r member lower => kept r member (Nat.le_trans lower (Nat.le_add_left ..))

theorem Thrifty.extend (thrifty : Thrifty init extra rs (c :: cs)) (n : Nat) (region : Region) :
    Thrifty init extra (region :: rs) ({ c with size := c.size + n } :: cs) := by
  obtain ⟨⟨r, member, start, fits, made, full⟩, below⟩ := thrifty
  constructor
  · exact ⟨r, List.mem_cons_of_mem _ member, start, Nat.le_trans fits (Nat.le_add_right ..), made, full⟩
  · exact below.mono fun r member _ => List.mem_cons_of_mem _ member

theorem Thrifty.push {region : Region} (thrifty : Thrifty init extra rs cs) (start : region.start = total cs)
    (fits : region.size ≤ c.size) (made : c.cap ≤ max init (2 * region.size) + extra)
    (full : ∀ below ∈ cs.head?, below.cap < below.size + region.size) :
    Thrifty init extra (region :: rs) (c :: cs) := by
  constructor
  · exact ⟨region, List.mem_cons_self, start, fits, made, full⟩
  · exact thrifty.mono fun r member _ => List.mem_cons_of_mem _ member

/-- A cut at a boundary leaves the lowest objects of the chunks that it leaves. -/
theorem Thrifty.cut (thrifty : Thrifty init extra rs cs) (ends : ∀ r ∈ rs, r.start < mark → r.start + r.size ≤ mark) :
    Thrifty init extra (rs.filter fun r => r.start < mark) (cut mark cs) := by
  induction cs with
  | nil => trivial
  | cons c cs ih =>
    obtain ⟨⟨r, member, start, fits, made, full⟩, below⟩ := thrifty
    rw [Arena.cut]
    split
    case isTrue above =>
      have last := ends r member (start ▸ above)
      constructor
      · refine ⟨r, List.mem_filter.mpr ⟨member, decide_eq_true (start ▸ above)⟩, start, ?_, made, full⟩
        dsimp only
        omega
      · exact below.mono fun r member lower =>
          List.mem_filter.mpr ⟨member, decide_eq_true (Nat.lt_of_le_of_lt lower above)⟩
    case isFalse => exact ih below

theorem stack_null (stack : Stack P m 0 cs) (positive : ∀ c ∈ cs, 0 < c.block) : cs = [] := by
  cases cs with
  | nil => rfl
  | cons c cs =>
    have top := stack.1
    have header := headerSize_ge (P := P)
    have := positive c List.mem_cons_self
    rw [blockChunk] at top
    omega

/-- The headers in memory determine the chunks. -/
theorem stack_unique (first : Stack P m ptr cs) (second : Stack P m ptr cs')
    (positive : ∀ c ∈ cs, 0 < c.block) (positive' : ∀ c ∈ cs', 0 < c.block) : cs = cs' := by
  induction cs generalizing ptr cs' with
  | nil =>
    obtain rfl : ptr = 0 := first
    exact (stack_null second positive').symm
  | cons c cs ih =>
    cases cs' with
    | nil =>
      obtain rfl : ptr = 0 := second
      exact stack_null first positive
    | cons c' cs' =>
      obtain ⟨top, cap, size, rest⟩ := first
      obtain ⟨top', cap', size', rest'⟩ := second
      have block := congrArg (chunkBlock P) (top.symm.trans top')
      rw [chunkBlock_blockChunk, chunkBlock_blockChunk] at block
      have same : c = c' := by
        cases c
        cases c'
        simp only [Chunk.mk.injEq]
        exact ⟨block, cap.symm.trans cap', size.symm.trans size'⟩
      rw [same, ih rest rest' (fun d member => positive d (List.mem_cons_of_mem _ member))
        fun d member => positive' d (List.mem_cons_of_mem _ member)]

theorem Holding.unique {p : RalcArena} {L' : Blocks ι} (serves : Serves P A owner ok limit)
    (first : Holding P ok owner p w L cs) (second : Holding P ok owner p w L' cs') : cs = cs' :=
  stack_unique first.holds.stack second.holds.stack (fun _ => first.holds.positive serves)
    fun _ => second.holds.positive serves

/-- A new chunk has the default size or twice that of its object, and the slack of a block. -/
theorem pushRequest_le {p : RalcArena} (asserts : PushAsserts P limit p m size)
    (full : ¬Fits P p m (pushSize P size)) :
    pushRequest P p (pushSize P size) ≤ headerSize P + max p.chunkCap (2 * pushSize P size) := by
  rw [pushRequest_eq asserts full]
  split <;> omega

theorem push_thrifty (serves : Serves P A owner ok limit) (tight : Tight A owner ok limit extra)
    (inv : Inv P ok owner s L cs) (thrifty : Thrifty s.arena.chunkCap extra s.regions cs)
    (taken : step P A limit s (.push size) = some s') :
    ∃ L' cs', Inv P ok owner s' L' cs' ∧ s'.arena.chunkCap = s.arena.chunkCap ∧
      Thrifty s.arena.chunkCap extra s'.regions cs' := by
  obtain ⟨L', cs', inv', -, cap, -⟩ := push_effect serves inv taken
  refine ⟨L', cs', inv', cap, ?_⟩
  have holding' := inv'.holding
  clear inv'
  simp only [step] at taken
  split at taken
  case isFalse => cases taken
  case isTrue asserts =>
    obtain rfl := Option.some.inj taken
    obtain ⟨positive, -, -⟩ := pushSize_spec asserts.1
    have before := inv.holding.total
    by_cases fits : Fits P s.arena s.world.mem (pushSize P size)
    · obtain ⟨c, rest, rfl, room⟩ := (inv.holding.fits serves).mp fits
      have bound := inv.holding.holds.positive serves List.mem_cons_self
      obtain ⟨run, grown⟩ := push_top serves inv.holding room
      simp only [run] at holding' ⊢
      obtain rfl := grown.unique serves holding'
      rw [received, if_neg (by dsimp only; omega)]
      exact thrifty.extend _ _
    · have request := (pushRequest_ge asserts fits).2
      rcases push_cases serves inv.holding asserts rfl with
        ⟨c, rest, rfl, room, -⟩ | ⟨reply, arena, -, -, holding, -⟩ |
        ⟨block, actual, granted, some, reply, arena, -, holding⟩
      · exact absurd ((inv.holding.fits serves).mpr ⟨c, rest, rfl, room⟩) fits
      · rw [arena] at holding'
        obtain rfl := holding.unique serves holding'
        rw [reply]
        exact thrifty
      · obtain rfl := holding.unique serves holding'
        have near := tight.alloc inv.holding.holds.ok request (congrArg Reply.out granted)
        have sized := pushRequest_le asserts fits
        rw [reply, received, if_neg (by dsimp only; omega)]
        refine thrifty.push before.symm (Nat.le_refl _) ?_ fun below member => ?_
        · dsimp only [Reply.actual, Option.getD_some]
          omega
        · obtain ⟨rest, rfl⟩ := List.head?_eq_some_iff.mp member
          by_contra room
          exact fits ((inv.holding.fits serves).mpr ⟨below, rest, rfl, Nat.le_of_not_lt room⟩)

theorem rewind_thrifty (serves : Serves P A owner ok limit) (inv : Inv P ok owner s L cs)
    (thrifty : Thrifty init extra s.regions cs) (taken : step P A limit s (.rewind mark) = some s') :
    ∃ L' cs', Inv P ok owner s' L' cs' ∧ s'.arena.chunkCap = s.arena.chunkCap ∧
      Thrifty init extra s'.regions cs' := by
  by_cases valid : mark ∈ s.marks
  · obtain ⟨t, L', same, inv', -, within, -, cap, -⟩ := rewind_effect serves inv valid
    obtain rfl := Option.some.inj (same.symm.trans taken)
    refine ⟨L', _, inv', cap, ?_⟩
    have regions : t.regions = s.regions.filter fun r => r.start < mark := by
      rw [step, if_pos valid] at taken
      obtain ⟨result, -, rfl⟩ := Option.map_eq_some_iff.mp taken
      rfl
    rw [regions]
    refine thrifty.cut fun r member lower => ?_
    have kept : r ∈ t.regions := regions ▸ List.mem_filter.mpr ⟨member, decide_eq_true lower⟩
    exact Nat.le_trans (tiles_start inv'.tiles kept) (total_cut within).le
  · rw [step, if_neg valid] at taken
    cases taken

theorem step_thrifty (serves : Serves P A owner ok limit) (tight : Tight A owner ok limit extra)
    (inv : Inv P ok owner s L cs) (thrifty : Thrifty s.arena.chunkCap extra s.regions cs)
    (taken : step P A limit s op = some s') :
    ∃ L' cs', Inv P ok owner s' L' cs' ∧ s'.arena.chunkCap = s.arena.chunkCap ∧
      Thrifty s.arena.chunkCap extra s'.regions cs' := by
  cases op with
  | push size => exact push_thrifty serves tight inv thrifty taken
  | mark =>
    obtain rfl := Option.some.inj taken
    exact ⟨L, cs, mark_inv inv, rfl, thrifty⟩
  | rewind mark => exact rewind_thrifty serves inv thrifty taken
  | clear =>
    obtain ⟨t, L', same, inv', -, cap, -⟩ := clear_effect serves inv
    obtain rfl := Option.some.inj (same.symm.trans taken)
    exact ⟨L', [], inv', cap, trivial⟩
  | write ptr i byte =>
    obtain ⟨inv', -, arena, -⟩ := write_effect serves inv taken
    refine ⟨L, cs, inv', by rw [arena], ?_⟩
    simp only [step] at taken
    split at taken
    · obtain rfl := Option.some.inj taken
      exact thrifty
    · cases taken

/-- What the chunks below the top one waste is in use above them. -/
theorem Thrifty.unused_le (thrifty : Thrifty init extra rs cs) : unused cs.tail ≤ total cs := by
  induction cs with
  | nil => exact Nat.le_refl _
  | cons c cs ih =>
    obtain ⟨⟨r, -, -, fits, -, full⟩, below⟩ := thrifty
    have lower := ih below
    cases cs with
    | nil => exact Nat.zero_le _
    | cons d cs =>
      have wasted := full d rfl
      simp only [List.tail_cons, unused, List.map_cons, List.sum_cons, total_cons] at lower ⊢
      omega

theorem Thrifty.cap_le (thrifty : Thrifty init extra rs cs) (member : c ∈ cs) :
    c.cap ≤ max init (2 * c.size) + extra := by
  induction cs with
  | nil => cases member
  | cons d cs ih =>
    obtain ⟨⟨r, -, -, fits, made, -⟩, below⟩ := thrifty
    rcases List.mem_cons.mp member with rfl | member
    · omega
    · exact ih below member

theorem caps_eq (filled : Filled cs) : (cs.map Chunk.cap).sum = total cs + unused cs := by
  induction cs with
  | nil => rfl
  | cons c cs ih =>
    have room := (filled c List.mem_cons_self).2
    have rest := ih fun d member => filled d (List.mem_cons_of_mem _ member)
    simp only [unused, List.map_cons, List.sum_cons, total_cons] at rest ⊢
    omega

/-- After any run, whichever requests failed, the bytes left over below the top chunk are
no more than those in use, and all chunks together have room for twice what is in use and
the top chunk, which has the default size or twice that of what it holds. -/
theorem run_thrifty (serves : Serves P A owner ok limit) (tight : Tight A owner ok limit extra) (initial : ok w L)
    (ran : run (step P A limit) (start initChunkCap w) ops = some s) :
    ∃ cs, Stack P s.world.mem s.arena.chunks cs ∧ s.arena.size = total cs ∧
      (∀ c ∈ cs, 0 < c.size ∧ c.cap ≤ max initChunkCap (2 * c.size) + extra) ∧
      unused cs.tail ≤ s.arena.size ∧
      (cs.map Chunk.cap).sum ≤ 2 * s.arena.size + max initChunkCap (2 * s.arena.size) + extra := by
  obtain ⟨⟨L', cs, inv, thrifty⟩, cap⟩ : (∃ L cs, Inv P ok owner s L cs ∧
      Thrifty initChunkCap extra s.regions cs) ∧ s.arena.chunkCap = initChunkCap := by
    refine run_invariant (fun s => (∃ L cs, Inv P ok owner s L cs ∧ Thrifty initChunkCap extra s.regions cs) ∧
      s.arena.chunkCap = initChunkCap) ?_ ⟨⟨L, [], inv_start initial, trivial⟩, rfl⟩ ran
    rintro s op s' ⟨⟨L, cs, inv, thrifty⟩, rfl⟩ taken
    obtain ⟨L', cs', inv', cap, thrifty'⟩ := step_thrifty serves tight inv thrifty taken
    exact ⟨⟨L', cs', inv', thrifty'⟩, cap⟩
  have filled := inv.holding.holds.filled
  have total := inv.holding.total
  have wasted := thrifty.unused_le
  refine ⟨cs, inv.holding.holds.stack, total.symm, fun c member => ⟨(filled c member).1, thrifty.cap_le member⟩,
    total ▸ wasted, ?_⟩
  rw [caps_eq filled, ← total]
  cases cs with
  | nil => exact Nat.zero_le _
  | cons c cs =>
    have top := thrifty.cap_le List.mem_cons_self
    have room := (filled c List.mem_cons_self).2
    simp only [unused, List.tail_cons, List.map_cons, List.sum_cons, total_cons] at wasted ⊢
    omega

/-- Two chunks in a ralcGen; the 48 bytes left in the first one are too few for 60. -/
theorem run_thrifty_lp64 : ∃ (s : State Gen.RalcGen) (cs : List Chunk),
    run (step .lp64 (Gen.ralcGen .lp64) 4096) (start 64 Gen.kib)
      [.push 10, .mark, .push 100, .rewind 16, .push 60, .push 50] = some s ∧
    Stack .lp64 s.world.mem s.arena.chunks cs ∧ unused cs.tail ≤ s.arena.size ∧ s.arena.size = 144 := by
  have facts : (run (step .lp64 (Gen.ralcGen .lp64) 4096) (start 64 Gen.kib)
      [.push 10, .mark, .push 100, .rewind 16, .push 60, .push 50]).map (fun s => s.arena.size) = some 144 := by
    decide +kernel
  obtain ⟨s, ran, size⟩ := Option.map_eq_some_iff.mp facts
  obtain ⟨cs, stack, -, -, wasted, -⟩ :=
    run_thrifty (Gen.kib_serves ()) (Gen.ralcGen_tight () _ _) Gen.kib_ok ran
  exact ⟨s, cs, ran, stack, wasted, size⟩

end Ratlib.Arena
