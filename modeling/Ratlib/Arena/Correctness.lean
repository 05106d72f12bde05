import Ratlib.Arena.Runs
import Ratlib.Alloc.Trace
import Ratlib.Gen.Contract

/-! What holds after any run of an arena, over any parent that meets the allocator
contract: where its objects lie, and what a rewind restores. -/
namespace Ratlib.Arena

variable {P : Platform} {σ : Type u} {ι : Type v} {A : Ralc σ} {owner : ι}
  {ok : World σ → Blocks ι → Prop} {L : Blocks ι} {s s' t : State σ} {cs cs' : List Chunk}

theorem run_inv (serves : Serves P A owner ok limit) (inv : Inv P ok owner s L cs)
    (ran : run (step P A limit) s ops = some s') : ∃ L' cs', Inv P ok owner s' L' cs' := by
  refine run_invariant (fun s => ∃ L cs, Inv P ok owner s L cs) ?_ ⟨L, cs, inv⟩ ran
  rintro s op s' ⟨L, cs, inv⟩ taken
  obtain ⟨L', cs', inv', -⟩ := step_effect serves inv taken
  exact ⟨L', cs', inv'⟩

section Regions

theorem Holds.pairwise (serves : Serves P A owner ok limit) (holds : Holds P ok owner w L ptr cs) :
    cs.Pairwise fun c d => c.block + headerSize P + c.cap ≤ d.block ∨
      d.block + headerSize P + d.cap ≤ c.block := by
  have distinct := List.pairwise_map.mp holds.distinct
  refine distinct.imp_of_mem fun {c d} found found' different => ?_
  have := serves.separate holds.ok _ _ _ _ (holds.held c found) (holds.held d found') different
  dsimp only at this
  omega

/-- Where the live objects lie: in the used bytes of the chunks, which they cover
without overlap, and off the headers. -/
structure Laid (P : Platform) (cs : List Chunk) (regions : List Region) : Prop where
  inside : ∀ r ∈ regions, ∃ c ∈ cs, c.block + headerSize P ≤ r.ptr ∧
    r.ptr + r.size ≤ c.block + headerSize P + c.size ∧ 0 < r.size ∧
    P.alignment ∣ r.ptr - (c.block + headerSize P)
  apart : regions.Pairwise fun r s => r.ptr + r.size ≤ s.ptr ∨ s.ptr + s.size ≤ r.ptr
  headers : ∀ r ∈ regions, ∀ c ∈ cs, r.ptr + r.size ≤ c.block ∨ c.block + headerSize P ≤ r.ptr
  cover : ∀ x, (∃ r ∈ regions, r.ptr ≤ x ∧ x < r.ptr + r.size) ↔
    ∃ c ∈ cs, c.block + headerSize P ≤ x ∧ x < c.block + headerSize P + c.size

theorem tiles_apart (tiles : Tiles P cs rs) (filled : Filled cs)
    (separate : cs.Pairwise fun c d => c.block + headerSize P + c.cap ≤ d.block ∨
      d.block + headerSize P + d.cap ≤ c.block) :
    rs.Pairwise fun r s => r.ptr + r.size ≤ s.ptr ∨ s.ptr + s.size ≤ r.ptr := by
  induction cs generalizing rs with
  | nil =>
    rw [show rs = [] from tiles]
    exact List.Pairwise.nil
  | cons c cs ih =>
    obtain ⟨top, rest, rfl, tile, below⟩ := tiles
    obtain ⟨first, others⟩ := List.pairwise_cons.mp separate
    have filled' : Filled cs := fun d member => filled d (List.mem_cons_of_mem _ member)
    refine List.pairwise_append.mpr ⟨(tile_apart tile).imp Or.inr, ih below filled' others, ?_⟩
    intro r member s member'
    obtain ⟨low, high, -, here⟩ := tile_inside tile member
    obtain ⟨d, found, low', high', -⟩ := tiles_inside below member'
    have := first d found
    have := (filled c List.mem_cons_self).2
    have := (filled' d found).2
    omega

theorem Inv.laid (serves : Serves P A owner ok limit) (inv : Inv P ok owner s L cs) :
    Laid P cs s.regions := by
  have holds := inv.holding.holds
  refine ⟨fun r member => tiles_inside inv.tiles member,
    tiles_apart inv.tiles holds.filled (holds.pairwise serves), ?_, ?_⟩
  · intro r member c found
    obtain ⟨d, found', low, high, -⟩ := tiles_inside inv.tiles member
    have := (holds.filled d found').2
    by_cases same : c.block = d.block
    · omega
    · have := serves.separate holds.ok _ _ _ _ (holds.held c found) (holds.held d found') same
      dsimp only at this
      omega
  · intro x
    constructor
    · rintro ⟨r, member, low, high⟩
      obtain ⟨c, found, low', high', -⟩ := tiles_inside inv.tiles member
      exact ⟨c, found, by omega, by omega⟩
    · rintro ⟨c, found, inside⟩
      exact tiles_cover inv.tiles found inside

theorem push_null (serves : Serves P A owner ok limit) (inv : Inv P ok owner s L cs)
    (taken : step P A limit s (.push size) = some s')
    (null : (ralcArenaPush P A s.arena s.world size).1.ptr = 0) :
    s'.arena = s.arena ∧ s'.regions = s.regions ∧ s'.marks = s.marks ∧
      ∀ c ∈ cs, Set.EqOn s.world.mem s'.world.mem
        (Set.Ico c.block (c.block + headerSize P + c.cap)) := by
  simp only [step] at taken
  split at taken
  case isFalse => cases taken
  case isTrue asserts =>
    obtain rfl := Option.some.inj taken
    rcases push_cases serves inv.holding asserts rfl with
      ⟨c, rest, rfl, -, reply, -⟩ | ⟨reply, arena, -, -, -, same⟩ |
      ⟨block, actual, -, some, reply, -⟩
    · have positive := inv.holding.holds.positive serves List.mem_cons_self
      rw [reply] at null
      dsimp only at null
      omega
    · refine ⟨arena, by simp only [received, if_pos null], rfl, fun c found x hx => same ?_⟩
      exact Blocks.mem_bytes (inv.holding.holds.held c found)
        ⟨hx.1, by have := hx.2; dsimp only; omega⟩
    · rw [reply] at null
      dsimp only at null
      omega

/-- After any run the chunks are neither empty nor overfull and their sizes add up to
`p->size`; the live objects lie in them as `Laid` says; a failed push changes nothing. -/
theorem run_regions (serves : Serves P A owner ok limit) (initial : ok w L)
    (ran : run (step P A limit) (start initChunkCap w) ops = some s) :
    ∃ (L' : Blocks ι) (cs : List Chunk), Stack P s.world.mem s.arena.chunks cs ∧
      (∀ c ∈ cs, L' c.block = some ⟨owner, headerSize P + c.cap⟩) ∧ ok s.world L' ∧
      (∀ c ∈ cs, 0 < c.size ∧ c.size ≤ c.cap) ∧ s.arena.size = total cs ∧
      Laid P cs s.regions ∧
      ∀ size s', step P A limit s (.push size) = some s' →
        (ralcArenaPush P A s.arena s.world size).1.ptr = 0 →
        s'.arena = s.arena ∧ s'.regions = s.regions ∧ s'.marks = s.marks ∧
          ∀ c ∈ cs, Set.EqOn s.world.mem s'.world.mem
            (Set.Ico c.block (c.block + headerSize P + c.cap)) := by
  obtain ⟨L', cs, inv⟩ := run_inv serves (inv_start initial) ran
  have holds := inv.holding.holds
  exact ⟨L', cs, holds.stack, holds.held, holds.ok, holds.filled, inv.holding.total.symm,
    inv.laid serves, fun size s' taken null => push_null serves inv taken null⟩

theorem run_regions_lp64 : ∃ (s : State Gen.RalcGen) (cs : List Chunk),
    run (step .lp64 (Gen.ralcGen .lp64) 4096) (start 64 Gen.kib)
      [.push 10, .mark, .push 100, .push 0, .rewind 16, .push 3] = some s ∧
    Stack .lp64 s.world.mem s.arena.chunks cs ∧ Laid .lp64 cs s.regions := by
  obtain ⟨s, ran⟩ := Option.isSome_iff_exists.mp (show (run (step .lp64 (Gen.ralcGen .lp64) 4096)
    (start 64 Gen.kib) [.push 10, .mark, .push 100, .push 0, .rewind 16, .push 3]).isSome = true
    by decide +kernel)
  obtain ⟨_, cs, stack, -, -, -, -, laid, -⟩ := run_regions (Gen.kib_serves ()) Gen.kib_ok ran
  exact ⟨s, cs, ran, stack, laid⟩

end Regions

section Rewind

/-- The operation discards nothing pushed before position `m`. -/
def Op.StaysAbove (m : Nat) : Op → Prop
  | .rewind position => m ≤ position
  | .clear => False
  | _ => True

theorem freeAll_events (w : World (σ × List Event)) (blocks : List Nat) :
    (freeAll (traced A) w blocks).state.2 = w.state.2 ++ blocks.map .freed := by
  induction blocks generalizing w with
  | nil => simp
  | cons block blocks ih =>
    rw [freeAll_cons, ih, List.map_cons]
    show w.state.2 ++ [.freed block] ++ blocks.map .freed = _
    rw [List.append_assoc, List.singleton_append]

variable {before w w' : World (σ × List Event)} {base : List Chunk}

/-- Since the mark at `m`, when the stack was `base`: the stack cut there is still
`base`, and the chunks above are those acquired since and not freed. -/
structure Since (m : Nat) (before : World (σ × List Event)) (base : List Chunk)
    (w : World (σ × List Event)) (cs : List Chunk) : Prop where
  cut : cut m cs = base
  low : m ≤ total cs
  events : ∃ es, w.state.2 = before.state.2 ++ es ∧ outstanding es [] = some (popped m cs)

theorem Since.step (since : Since m before base w cs) (effect : Effect (traced A) w op cs w' cs')
    (above : op.StaysAbove m) : Since m before base w' cs' := by
  obtain ⟨kept, low, es, trace, left⟩ := since
  cases effect with
  | grow state =>
    exact ⟨kept, by simp only [total_cons] at low ⊢; omega, es, by rw [state, trace], left⟩
  | failed request null state =>
    refine ⟨kept, low, es, ?_, left⟩
    rw [state]
    show w.state.2 ++ answer [] (ralcAlloc (traced A) w request).1 = _
    rw [answer, if_pos null, List.append_nil, trace]
  | fresh request c block some state =>
    refine ⟨by rwa [cut_cons low], by rw [total_cons]; omega, es ++ [.granted c.block], ?_, ?_⟩
    · rw [state]
      show w.state.2 ++ answer [] (ralcAlloc (traced A) w request).1 = _
      rw [answer, block, if_neg some, List.nil_append, trace, List.append_assoc]
    · rw [outstanding_append, left, popped_cons low]
      rfl
  | mark => exact ⟨kept, low, es, trace, left⟩
  | rewind position within state =>
    refine ⟨by rw [cut_cut above within, kept], by rw [total_cut within]; exact above,
      es ++ (popped position cs).map .freed, ?_, ?_⟩
    · rw [state, freeAll_events, trace, List.append_assoc]
    · rw [outstanding_append, left, popped_cut above within]
      exact outstanding_freed _ _
  | clear => exact above.elim
  | write state => exact ⟨kept, low, es, by rw [state, trace], left⟩

theorem step_marks (taken : step P A limit s op = some s') (above : op.StaysAbove m)
    (valid : m ∈ s.marks) : m ∈ s'.marks := by
  cases op with
  | push size =>
    simp only [step] at taken
    split at taken
    · obtain rfl := Option.some.inj taken
      exact valid
    · cases taken
  | mark =>
    obtain rfl := Option.some.inj taken
    exact List.mem_cons_of_mem _ valid
  | rewind mark =>
    simp only [step] at taken
    split at taken
    · obtain ⟨result, -, rfl⟩ := Option.map_eq_some_iff.mp taken
      exact List.mem_filter.mpr ⟨valid, decide_eq_true above⟩
    · cases taken
  | clear => exact above.elim
  | write ptr i byte =>
    simp only [step] at taken
    split at taken
    · obtain rfl := Option.some.inj taken
      exact valid
    · cases taken

/-- What the run after a mark keeps, as long as it stays above it. -/
theorem run_since {s t : State (σ × List Event)} {ok : World (σ × List Event) → Blocks ι → Prop}
    (serves : Serves P (traced A) owner ok limit) (inv : Inv P ok owner s L cs)
    (since : Since m before base s.world cs) (valid : m ∈ s.marks)
    (ran : run (step P (traced A) limit) s ops = some t) (above : ∀ op ∈ ops, op.StaysAbove m) :
    ∃ L' cs', Inv P ok owner t L' cs' ∧ Since m before base t.world cs' ∧ m ∈ t.marks ∧
      t.arena.chunkCap = s.arena.chunkCap := by
  induction ops generalizing s L cs with
  | nil =>
    cases ran
    exact ⟨L, cs, inv, since, valid, rfl⟩
  | cons op ops ih =>
    obtain ⟨next, taken, rest⟩ := run_cons_some ran
    obtain ⟨L', cs', inv', effect, cap⟩ := step_effect serves inv taken
    have first := above op List.mem_cons_self
    obtain ⟨L'', cs'', inv'', since', valid', cap'⟩ := ih inv' (since.step effect first)
      (step_marks taken first valid) rest fun op member => above op (List.mem_cons_of_mem _ member)
    exact ⟨L'', cs'', inv'', since', valid', cap'.trans cap⟩

theorem stack_ptr {m m' : Mem} (first : Stack P m ptr cs) (second : Stack P m' ptr' cs) :
    ptr = ptr' := by
  cases cs with
  | nil => exact Eq.trans first (Eq.symm second)
  | cons c cs => exact first.1.trans second.1.symm

/-- A push into the top chunk depends on the headers only. -/
theorem push_same {w w' : World σ} (first : Stack P w.mem p.chunks cs)
    (second : Stack P w'.mem p.chunks cs) (fits : Fits P p w.mem (pushSize P size)) :
    (ralcArenaPush P A p w' size).1 = (ralcArenaPush P A p w size).1 := by
  cases cs with
  | nil => exact (fits.1 first).elim
  | cons c cs =>
    obtain ⟨-, cap, used, -⟩ := first
    obtain ⟨-, cap', used', -⟩ := second
    have fits' : Fits P p w'.mem (pushSize P size) := by
      rw [Fits, cap', used', ← cap, ← used]
      exact fits
    simp only [ralcArenaPush, if_pos fits, if_pos fits', used, used']

theorem arena_ext {p q : RalcArena} (chunks : p.chunks = q.chunks) (cap : p.chunkCap = q.chunkCap)
    (size : p.size = q.size) : p = q := by
  cases p
  cases q
  simp only at chunks cap size
  rw [chunks, cap, size]

/-- A state that `t` restores: the same arena and stack, and everything the parent
handed out in between taken back. -/
def Restores (P : Platform) (A : Ralc σ) (s t : State (σ × List Event)) : Prop :=
  ∃ cs events, t.arena = s.arena ∧ Stack P s.world.mem s.arena.chunks cs ∧
    Stack P t.world.mem t.arena.chunks cs ∧ t.world.state.2 = s.world.state.2 ++ events ∧
    outstanding events [] = some [] ∧ (frees events).Perm (grants events) ∧
    ∀ size, Fits P s.arena s.world.mem (pushSize P size) →
      (ralcArenaPush P (traced A) t.arena t.world size).1 =
        (ralcArenaPush P (traced A) s.arena s.world size).1

theorem rewind_since {s t : State (σ × List Event)}
    {ok : World (σ × List Event) → Blocks ι → Prop} (serves : Serves P (traced A) owner ok limit)
    (inv : Inv P ok owner s L cs) (later : run (step P (traced A) limit) s (.mark :: ops) = some t)
    (above : ∀ op ∈ ops, op.StaysAbove (ralcArenaMark s.arena)) :
    ∃ t', step P (traced A) limit t (.rewind (ralcArenaMark s.arena)) = some t' ∧
      Restores P A s t' := by
  obtain ⟨marked, taken, ran⟩ := run_cons_some later
  obtain rfl := Option.some.inj taken
  have size := inv.holding.total
  have stack := inv.holding.holds.stack
  have filled := inv.holding.holds.filled
  have none : popped s.arena.size cs = [] := by rw [← size, popped_total filled]
  have since : Since s.arena.size s.world cs s.world cs :=
    ⟨by rw [← size, cut_total filled], size.ge, [], by simp, by rw [none]; rfl⟩
  obtain ⟨_, cs', inv', since', valid, cap⟩ :=
    run_since serves (mark_inv inv) since List.mem_cons_self ran above
  obtain ⟨t', _, rewound, inv'', state, within, size', cap', -⟩ := rewind_effect serves inv' valid
  obtain ⟨-, -, events, trace, left⟩ := since'.step (.rewind _ within state) (Nat.le_refl _)
  rw [since'.cut] at inv'' left
  rw [none] at left
  have stack' := inv''.holding.holds.stack
  have arena : t'.arena = s.arena := arena_ext (stack_ptr stack' stack) (cap'.trans cap) size'
  refine ⟨t', rewound, cs, events, arena, stack, stack', trace, left, ?_, ?_⟩
  · simpa using outstanding_perm left
  · intro n fits
    rw [arena] at stack' ⊢
    exact push_same stack stack' fits

/-- A rewind restores the state in which its mark was taken: the arena and its stack
are as they were, every chunk acquired since then and no other has been freed once,
and a push that fitted the top chunk then gets the address it would have got. -/
theorem rewind_restores (serves : Serves P A owner ok limit) (initial : ok w₀ L)
    {s t : State (σ × List Event)}
    (ran : run (step P (traced A) limit) (start initChunkCap ⟨(w₀.state, []), w₀.mem⟩) ops = some s)
    (later : run (step P (traced A) limit) s (.mark :: ops') = some t)
    (above : ∀ op ∈ ops', op.StaysAbove (ralcArenaMark s.arena)) :
    ∃ t', step P (traced A) limit t (.rewind (ralcArenaMark s.arena)) = some t' ∧
      Restores P A s t' := by
  have serves := (traced_beside _).serves serves
  have fresh : ok (untraced (⟨(w₀.state, []), w₀.mem⟩ : World (σ × List Event))) L := initial
  obtain ⟨_, cs, inv⟩ := run_inv serves (inv_start fresh) ran
  exact rewind_since serves inv later above

theorem rewind_restores_lp64 : ∃ s t t' : State (Gen.RalcGen × List Event),
    run (step .lp64 (traced (Gen.ralcGen .lp64)) 4096)
      (start 64 ⟨(Gen.kib.state, []), Gen.kib.mem⟩) [.push 10] = some s ∧
    run (step .lp64 (traced (Gen.ralcGen .lp64)) 4096) s [.mark, .push 100, .mark, .push 0] = some t ∧
    step .lp64 (traced (Gen.ralcGen .lp64)) 4096 t (.rewind (ralcArenaMark s.arena)) = some t' ∧
    Restores .lp64 (Gen.ralcGen .lp64) s t' := by
  have facts : ((run (step .lp64 (traced (Gen.ralcGen .lp64)) 4096)
      (start 64 ⟨(Gen.kib.state, []), Gen.kib.mem⟩) [.push 10]).map fun s =>
        (run (step .lp64 (traced (Gen.ralcGen .lp64)) 4096) s
          [.mark, .push 100, .mark, .push 0]).isSome) = some true := by decide +kernel
  obtain ⟨s, ran, values⟩ := Option.map_eq_some_iff.mp facts
  obtain ⟨t, later⟩ := Option.isSome_iff_exists.mp values
  obtain ⟨t', rewound, restores⟩ := rewind_restores (Gen.kib_serves ()) Gen.kib_ok ran later (by simp [Op.StaysAbove])
  exact ⟨s, t, t', ran, later, rewound, restores⟩

end Rewind

end Ratlib.Arena
