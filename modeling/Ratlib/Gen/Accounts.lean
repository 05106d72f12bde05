import Ratlib.Gen.Correctness
import Ratlib.Gen.Usage

/-! What the numbers of ralcGen_getUsage say of a run: the client's objects with the sizes
it was told, and the holes, of which the bytes behind the last block are not counted. -/
namespace Ratlib.Gen

variable {P : Platform} {g : Grain P} {s : State} {bs : List Blk}

theorem Tracks.payloads (tracks : Tracks g s bs) :
    s.live q = some n ↔ (q, n) ∈ Gen.payloads P s.gen.buf bs := by
  rw [tracks.objects, mem_payloads]

/-- After any run `ralcGen_getUsage` counts the live objects, and the bytes of each as they
were last reported to the client. -/
theorem usage_objects (region : 0 < buf ∧ buf + bufSize ≤ P.sizeMax)
    (ran : run (step P) (start buf bufSize m) ops = some s) :
    ∃ usage, ralcGenGetUsage P s.gen s.mem = some ⟨usage, true, true⟩ ∧
      ∃ objects : List Nat, objects.Nodup ∧ (∀ q, q ∈ objects ↔ (s.live q).isSome) ∧
        usage.blockCount = objects.length ∧
        usage.blockSize = (objects.map fun q => (s.live q).getD 0).sum := by
  obtain ⟨rfl, -, bs, tracks⟩ := run_tracks (Grain.two P) region ran
  obtain ⟨usage, found, count, size, -⟩ := ralcGenGetUsage_spec tracks.layout
  have sizes : ∀ c ∈ Gen.payloads P s.gen.buf bs, (s.live c.1).getD 0 = c.2 := by
    intro c member
    rw [tracks.payloads.mpr member, Option.getD_some]
  refine ⟨usage, found, (Gen.payloads P s.gen.buf bs).map Prod.fst, ?_, fun q => ?_, ?_, ?_⟩
  · refine List.Nodup.map_on (fun c member d member' same => ?_) (payloads_nodup ..)
    have := sizes c member
    have := sizes d member'
    exact Prod.ext same (by rw [same] at *; omega)
  · rw [List.mem_map, Option.isSome_iff_exists]
    constructor
    · rintro ⟨c, member, rfl⟩
      exact ⟨c.2, tracks.payloads.mpr member⟩
    · rintro ⟨n, held⟩
      exact ⟨(q, n), tracks.payloads.mp held, rfl⟩
  · rw [count, List.length_map, ← List.length_map Prod.snd, payloads_size, List.length_map, tally]
  · rw [size, tally, ← payloads_size s.gen.buf, List.map_map]
    exact congrArg List.sum (List.map_congr_left fun c member => (sizes c member).symm)

theorem usage_objects_lp64 : ∃ s usage, run (step .lp64) (start 4096 256 fun _ => 0)
      [.alloc 16, .alloc 32, .free 4112, .realloc 4144 8] = some s ∧
    ralcGenGetUsage .lp64 s.gen s.mem = some ⟨usage, true, true⟩ ∧
    ∃ objects : List Nat, usage.blockCount = objects.length ∧
      usage.blockSize = (objects.map fun q => (s.live q).getD 0).sum := by
  obtain ⟨s, ran⟩ := Option.isSome_iff_exists.mp (show (run (step .lp64)
    (start 4096 256 fun _ => 0) [.alloc 16, .alloc 32, .free 4112, .realloc 4144 8]).isSome = true
    by decide +kernel)
  obtain ⟨usage, found, objects, -, -, count, size⟩ := usage_objects (by decide) ran
  exact ⟨s, usage, ran, found, objects, count, size⟩

def holes (P : Platform) : Nat → List Blk → List Nat
  | _, [] => []
  | a, b :: bs =>
    if b.unused then a :: holes P (data P a + b.size) bs else holes P (data P a + b.size) bs

theorem holes_split (member : block ∈ holes P a bs) :
    ∃ pre n post, bs = pre ++ ⟨n, true⟩ :: post ∧ block = a + span P pre := by
  induction bs generalizing a with
  | nil => exact absurd member List.not_mem_nil
  | cons b bs ih =>
    have later : block ∈ holes P (data P a + b.size) bs →
        ∃ pre n post, b :: bs = pre ++ ⟨n, true⟩ :: post ∧ block = a + span P pre := by
      intro found
      obtain ⟨pre, n, post, rfl, rfl⟩ := ih found
      refine ⟨b :: pre, n, post, rfl, ?_⟩
      rw [span_cons, data]
      omega
    rw [holes] at member
    split at member
    case isTrue unused =>
      rcases List.mem_cons.mp member with rfl | found
      · exact ⟨[], b.size, bs, by rw [← unused, List.nil_append], rfl⟩
      · exact later found
    case isFalse => exact later member

theorem mem_holes (pre post : List Blk) : a + span P pre ∈ holes P a (pre ++ ⟨n, true⟩ :: post) := by
  induction pre generalizing a with
  | nil => exact List.mem_cons_self
  | cons b pre ih =>
    have next : data P a + b.size + span P pre = a + span P (b :: pre) := by
      rw [span_cons, data]
      omega
    rw [List.cons_append, holes, ← next]
    split
    · exact List.mem_cons_of_mem _ ih
    · exact ih

theorem le_of_mem_holes (member : block ∈ holes P a bs) : a ≤ block := by
  obtain ⟨pre, n, post, rfl, rfl⟩ := holes_split member
  exact Nat.le_add_right ..

theorem holes_nodup (a : Nat) (bs : List Blk) : (holes P a bs).Nodup := by
  induction bs generalizing a with
  | nil => exact List.nodup_nil
  | cons b bs ih =>
    rw [holes]
    split
    · refine List.nodup_cons.mpr ⟨fun member => ?_, ih _⟩
      have later := le_of_mem_holes member
      have := sizeofBlock_ge (P := P)
      rw [data] at later
      omega
    · exact ih _

theorem holes_size (chain : Chain P m a prev bs) :
    (holes P a bs).map (blockSize P m) = (chosen true bs).map Blk.size := by
  induction bs generalizing a prev with
  | nil => rfl
  | cons b bs ih =>
    obtain ⟨-, size, rest⟩ := chain
    have same := ih rest
    rw [chosen] at same ⊢
    cases unused : b.unused <;> simp [holes, unused, same, size]

theorem isBlock_reached {b : Blk} {pre post : List Blk} (layout : Layout g p m (pre ++ b :: post)) :
    IsBlock P p m (p.buf + span P pre) := by
  have inside : blockIsEnd p (p.buf + span P pre) = false := by
    have extent := layout.extent
    have := span_pos (P := P) b post
    rw [span_append] at extent
    simp only [blockIsEnd, decide_eq_false_iff_not]
    omega
  induction pre using List.reverseRecOn generalizing b post with
  | nil => exact .first inside
  | append_singleton pre c ih =>
    have layout' : Layout g p m (pre ++ c :: (b :: post)) := by simpa using layout
    have before : blockIsEnd p (p.buf + span P pre) = false := by
      simp only [blockIsEnd, decide_eq_false_iff_not, span_append] at inside ⊢
      omega
    have next : blockNext P m (p.buf + span P pre) = p.buf + span P (pre ++ [c]) := by
      rw [blockNext, layout'.header.2.1]
      simp only [data, span_append, span_cons, span_nil]
      omega
    have reached := ih layout' before
    rw [← next] at inside ⊢
    exact .next reached inside

/-- The unused blocks, as `ralcGen_getUsage` meets them. -/
theorem mem_holes_iff (layout : Layout g p m bs) :
    block ∈ holes P p.buf bs ↔ IsBlock P p m block ∧ blockIsUnused P m block ≠ 0 := by
  constructor
  · intro member
    obtain ⟨pre, n, post, rfl, rfl⟩ := holes_split member
    refine ⟨isBlock_reached layout, ?_⟩
    rw [layout.isUnused, Blk.flag_unused]
    exact Nat.one_ne_zero
  · rintro ⟨reached, unused⟩
    obtain ⟨pre, ⟨n, flag⟩, post, rfl, rfl⟩ := isBlock_split layout reached
    rw [layout.isUnused] at unused
    cases flag with
    | false => exact absurd rfl unused
    | true => exact mem_holes pre post

/-- The bytes behind the last block that could be payload of another one. -/
def uncommitted (P : Platform) (p : RalcGen) : Nat := p.cap - p.size - sizeofBlock P

/-- The holes of ralc.h: `unused` are the reusable regions, and the uncommitted bytes, if
any, are one more. -/
structure HolesCounted (P : Platform) (p : RalcGen) (m : Mem) (usage : RalcUsage) (unused : List Nat) :
    Prop where
  count : usage.holeCount = unused.length + if 0 < uncommitted P p then 1 else 0
  some : 0 < usage.holeSize → 0 < usage.holeCount
  size : usage.holeSize = (unused.map (blockSize P m)).sum + uncommitted P p

/-- After any run `ralcGen_getUsage` counts the holes if and only if no bytes behind the
last block can hold a header and a payload. -/
theorem usage_holes_iff (region : 0 < buf ∧ buf + bufSize ≤ P.sizeMax)
    (ran : run (step P) (start buf bufSize m) ops = some s) :
    ∃ usage, ralcGenGetUsage P s.gen s.mem = some ⟨usage, true, true⟩ ∧
      ∃ unused : List Nat, unused.Nodup ∧
        (∀ block, block ∈ unused ↔ IsBlock P s.gen s.mem block ∧ blockIsUnused P s.mem block ≠ 0) ∧
        (HolesCounted P s.gen s.mem usage unused ↔ s.gen.cap - s.gen.size ≤ sizeofBlock P) := by
  obtain ⟨-, -, bs, tracks⟩ := run_tracks (Grain.two P) region ran
  have sizes := holes_size tracks.layout.chain
  have length : (holes P s.gen.buf bs).length = (tally bs).holeCount := by
    rw [← List.length_map (blockSize P s.mem), sizes, List.length_map, tally]
  refine ⟨_, ralcGenGetUsage_eq tracks.layout, holes P s.gen.buf bs, holes_nodup .., 
    fun block => mem_holes_iff tracks.layout, ?_⟩
  have size : (tally bs).holeSize = ((holes P s.gen.buf bs).map (blockSize P s.mem)).sum := by
    rw [sizes, tally]
  constructor
  · rintro ⟨count, -, -⟩
    by_contra room
    rw [length, if_pos (by rw [uncommitted]; omega)] at count
    dsimp only at count
    omega
  · intro full
    have none : uncommitted P s.gen = 0 := by
      rw [uncommitted]
      omega
    refine ⟨?_, ?_, ?_⟩
    · rw [none, if_neg (Nat.lt_irrefl 0), length]
      rfl
    · intro bytes
      rw [← uncommitted, none, Nat.add_zero] at bytes
      by_contra no
      have empty : chosen true bs = [] := List.length_eq_zero_iff.mp (Nat.eq_zero_of_not_pos no)
      rw [tally, empty] at bytes
      exact absurd bytes (Nat.lt_irrefl 0)
    · rw [← size]
      rfl

/-- A buffer of 128 bytes with a hole, and no room behind the last block. -/
theorem usage_holes_iff_lp64 : ∃ s usage unused,
    run (step .lp64) (start 4096 128 fun _ => 0) [.alloc 16, .alloc 64, .free 4112] = some s ∧
      ralcGenGetUsage .lp64 s.gen s.mem = some ⟨usage, true, true⟩ ∧
      HolesCounted .lp64 s.gen s.mem usage unused := by
  have facts : (run (step .lp64) (start 4096 128 fun _ => 0) [.alloc 16, .alloc 64, .free 4112]).map
      (fun s => decide (s.gen.cap - s.gen.size ≤ sizeofBlock .lp64)) = some true := by decide +kernel
  obtain ⟨s, ran, full⟩ := Option.map_eq_some_iff.mp facts
  obtain ⟨usage, found, unused, -, -, same⟩ := usage_holes_iff (by decide) ran
  exact ⟨s, usage, unused, ran, found, same.mpr (of_decide_eq_true full)⟩

/-- The bytes behind the only block are a hole without a count. -/
theorem usage_misses_tail : ∃ s usage, run (step .lp64) (start 4096 128 fun _ => 0) [.alloc 16] = some s ∧
    ralcGenGetUsage .lp64 s.gen s.mem = some ⟨usage, true, true⟩ ∧
    0 < usage.holeSize ∧ ¬0 < usage.holeCount := by
  have facts : (run (step .lp64) (start 4096 128 fun _ => 0) [.alloc 16]).map (fun s =>
      (ralcGenGetUsage .lp64 s.gen s.mem).map fun report =>
        (report.usage.holeSize, report.usage.holeCount, report.sizes, report.counts)) =
      some (some (80, 0, true, true)) := by decide +kernel
  obtain ⟨s, ran, values⟩ := Option.map_eq_some_iff.mp facts
  obtain ⟨⟨usage, sizes, counts⟩, found, values⟩ := Option.map_eq_some_iff.mp values
  obtain ⟨size, rest⟩ := Prod.mk.inj values
  obtain ⟨count, rest⟩ := Prod.mk.inj rest
  obtain ⟨rfl, rfl⟩ := Prod.mk.inj rest
  dsimp only at size count
  exact ⟨s, usage, ran, found, by omega, by omega⟩

end Ratlib.Gen
