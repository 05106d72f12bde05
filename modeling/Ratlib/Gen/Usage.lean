import Ratlib.Alloc.Usage
import Ratlib.Gen.Contract
import Mathlib.Data.Nat.Bitwise

/-! The accounts of ralcGen: one walk over the headers, used and unused blocks told apart
by masks. -/
namespace Ratlib.Gen

section Model
variable (P : Platform)

def usageAdd (out : RalcUsage) (isUnused size : Nat) : RalcUsage :=
  let isUnusedMask := P.add (P.sizeMax ^^^ isUnused) 1
  { out with
    blockCount := P.add out.blockCount (if isUnused = 0 then 1 else 0)
    blockSize := P.add out.blockSize ((P.sizeMax ^^^ isUnusedMask) &&& size)
    holeCount := P.add out.holeCount isUnused
    holeSize := P.add out.holeSize (isUnusedMask &&& size) }

/-- The loop of `ralcGen_getUsage`. Every round passes a header, so `p->size` rounds are
enough (`usageWalk_spec`). -/
def usageWalk (p : RalcGen) (m : Mem) : Nat → Nat → RalcUsage → Option RalcUsage
  | 0, block, out => if blockIsEnd p block then some out else none
  | rounds + 1, block, out =>
    if blockIsEnd p block then some out
    else usageWalk p m rounds (blockNext P m block)
      (usageAdd P out (blockIsUnused P m block) (blockSize P m block))

def ralcGenGetUsage (p : RalcGen) (m : Mem) : Option Report :=
  (usageWalk P p m p.size p.buf ⟨0, 0, 0, 0, 0⟩).map fun out =>
    let remainingSize := P.sub p.cap p.size
    let holeSize := P.add out.holeSize (P.mul (if remainingSize > sizeofBlock P then 1 else 0)
      (P.sub remainingSize (sizeofBlock P)))
    let systemSize := P.sub (P.sub p.cap out.blockSize) holeSize
    ⟨{ out with holeSize := holeSize, systemSize := systemSize }, decide (p.size ≤ p.cap), true⟩

end Model

/-- The blocks in use, or the others. -/
def chosen (unused : Bool) (bs : List Blk) : List Blk := bs.filter fun b => b.unused = unused

def tally (bs : List Blk) : RalcUsage where
  blockCount := (chosen false bs).length
  blockSize := ((chosen false bs).map Blk.size).sum
  holeCount := (chosen true bs).length
  holeSize := ((chosen true bs).map Blk.size).sum
  systemSize := 0

variable {P : Platform} {g : Grain P} {p : RalcGen} {m : Mem} {bs front rest : List Blk}

/-- Headers, blocks in use and holes make up the buffer. -/
theorem tally_span (bs : List Blk) : span P bs =
    bs.length * sizeofBlock P + (tally bs).blockSize + (tally bs).holeSize := by
  induction bs with
  | nil => simp [tally, chosen]
  | cons b bs ih =>
    rw [span_cons, ih, List.length_cons, Nat.succ_mul]
    cases unused : b.unused <;> simp [tally, chosen, unused] <;> omega

theorem tally_length (bs : List Blk) : bs.length = (tally bs).blockCount + (tally bs).holeCount := by
  induction bs with
  | nil => rfl
  | cons b bs ih => cases unused : b.unused <;> simp [tally, chosen, unused] at ih ⊢ <;> omega

theorem mask_used : P.add (P.sizeMax ^^^ 0) 1 = 0 := by
  rw [Nat.xor_zero, Platform.add, P.sizeMax_succ, Platform.wrap, Nat.mod_self]

theorem mask_unused : P.add (P.sizeMax ^^^ 1) 1 = P.sizeMax := by
  have odd : P.sizeMax % 2 = 1 := by
    have := P.sizeMax_succ
    obtain ⟨k, same⟩ : 2 ∣ 256 ^ P.sizeT := Dvd.dvd.pow (by decide) (by have := P.sizeT_ge; omega)
    omega
  have cleared : P.sizeMax ^^^ 1 = P.sizeMax - 1 := Nat.xor_one_of_odd (Nat.odd_iff.mpr odd)
  have := P.sizeMax_ge
  rw [cleared, Platform.add_of_le (by omega)]
  omega

theorem sizeMax_and (small : n ≤ P.sizeMax) : P.sizeMax &&& n = n := by
  have range : P.sizeMax = 2 ^ (8 * P.sizeT) - 1 := by
    rw [Platform.sizeMax, Nat.pow_mul]
  have positive := Nat.two_pow_pos (8 * P.sizeT)
  rw [Nat.and_comm, range, Nat.and_two_pow_sub_one_eq_mod, Nat.mod_eq_of_lt (by omega)]

theorem usageAdd_tally (bs : List Blk) (b : Blk) (small : span P (bs ++ [b]) ≤ P.sizeMax) :
    usageAdd P (tally bs) b.flag b.size = tally (bs ++ [b]) := by
  have sums := tally_span (P := P) bs
  have counts := tally_length bs
  have width := sizeofBlock_ge (P := P)
  have few := Nat.le_mul_of_pos_right bs.length (show 0 < sizeofBlock P by omega)
  simp only [span_append, span_cons, span_nil] at small
  cases unused : b.unused with
  | false =>
    have flag : b.flag = 0 := by rw [Blk.flag, unused]; rfl
    simp only [usageAdd, flag, mask_used]
    rw [Nat.xor_zero, Nat.zero_and, sizeMax_and (by omega), if_pos trivial,
      Platform.add_of_le (by omega), Platform.add_of_le (by omega), Platform.add_of_le (by omega),
      Platform.add_of_le (by omega)]
    simp [tally, chosen, unused]
  | true =>
    have flag : b.flag = 1 := by rw [Blk.flag, unused]; rfl
    simp only [usageAdd, flag, mask_unused]
    rw [Nat.xor_self, Nat.zero_and, sizeMax_and (by omega), if_neg (by omega),
      Platform.add_of_le (by omega), Platform.add_of_le (by omega), Platform.add_of_le (by omega),
      Platform.add_of_le (by omega)]
    simp [tally, chosen, unused]

/-- The loop counts the rest of the blocks. -/
theorem usageWalk_spec (layout : Layout g p m (front ++ rest)) (enough : span P rest ≤ rounds) :
    usageWalk P p m rounds (p.buf + span P front) (tally front) = some (tally (front ++ rest)) := by
  induction rest generalizing front rounds with
  | nil =>
    rw [List.append_nil] at layout ⊢
    cases rounds with
    | zero => rw [usageWalk, if_pos layout.ends]
    | succ rounds => rw [usageWalk, if_pos layout.ends]
  | cons b rest ih =>
    have room := layout.room
    have width := sizeofBlock_ge (P := P)
    simp only [span_append, span_cons] at enough room
    have inside := Bool.eq_false_iff.mp layout.inside
    have small : span P (front ++ [b]) ≤ P.sizeMax := by
      simp only [span_append, span_cons, span_nil]
      omega
    obtain ⟨rounds, rfl⟩ : ∃ r, rounds = r + 1 := ⟨rounds - 1, by omega⟩
    have layout' : Layout g p m ((front ++ [b]) ++ rest) := by simpa using layout
    rw [usageWalk, if_neg inside, layout.isUnused, layout.header.2.1, layout.next, usageAdd_tally front b small,
      ih layout' (by omega), List.append_assoc]
    rfl

def payloads (P : Platform) : Nat → List Blk → List (Nat × Nat)
  | _, [] => []
  | a, b :: bs =>
    if b.unused then payloads P (data P a + b.size) bs
    else (data P a, b.size) :: payloads P (data P a + b.size) bs

theorem mem_payloads : c ∈ payloads P a bs ↔ Object P a bs c.1 c.2 := by
  induction bs generalizing a with
  | nil => simp [payloads, Object]
  | cons b bs ih => cases unused : b.unused <;> simp [payloads, Object, unused, ih, Prod.ext_iff]

theorem payloads_nodup (a : Nat) (bs : List Blk) : (payloads P a bs).Nodup := by
  induction bs generalizing a with
  | nil => exact List.nodup_nil
  | cons b bs ih =>
    rw [payloads]
    split
    · exact ih _
    · refine List.nodup_cons.mpr ⟨fun member => ?_, ih _⟩
      have := object_bounds (mem_payloads.mp member)
      have := sizeofBlock_ge (P := P)
      omega

theorem payloads_size (a : Nat) (bs : List Blk) :
    (payloads P a bs).map Prod.snd = (chosen false bs).map Blk.size := by
  induction bs generalizing a with
  | nil => rfl
  | cons b bs ih =>
    rw [chosen] at ih ⊢
    cases unused : b.unused <;> simp [payloads, unused, ih]

theorem Frame.blockCount {m' : Mem} {p' : RalcGen} {bs' : List Blk} (frame : Frame g {q} p m bs p' m' bs')
    (object : Object P p.buf bs' q n) (fresh : ∀ k, ¬Object P p.buf bs q k) :
    (tally bs').blockCount = (tally bs).blockCount + 1 := by
  have members : (payloads P p.buf bs').Perm ((q, n) :: payloads P p.buf bs) := by
    refine (List.perm_ext_iff_of_nodup (payloads_nodup ..) ?_).mpr fun c => ?_
    · exact List.nodup_cons.mpr ⟨fun member => fresh n (mem_payloads.mp member), payloads_nodup ..⟩
    · rw [List.mem_cons, mem_payloads, mem_payloads]
      by_cases new : c.1 = q
      · constructor
        · intro found
          have same := object_separate found object
          have := sizeofBlock_ge (P := P)
          exact Or.inl (Prod.ext new (by omega))
        · rintro (rfl | old)
          · exact object
          · exact absurd (new ▸ old) (fresh c.2)
      · rw [frame.objects c.1 new c.2]
        exact ⟨Or.inr, fun either => either.resolve_left fun same => new (congrArg Prod.fst same)⟩
  have length : ∀ bs, (payloads P p.buf bs).length = (tally bs).blockCount := fun bs => by
    rw [← List.length_map Prod.snd, payloads_size, List.length_map, tally]
  rw [← length, ← length, members.length_eq, List.length_cons]

/-- The bytes held are in blocks in use. -/
theorem Holds.encard_le {ι : Type u} {w : World RalcGen} {L : Blocks ι} (holds : Holds g n w L bs) :
    L.bytes.encard ≤ (tally bs).blockSize := by
  have inside : ∀ x ∈ L.bytes, ∃ c ∈ payloads P w.state.buf bs, c.1 ≤ x ∧ x < c.1 + c.2 := by
    rintro x ⟨a, block, held, inside⟩
    exact ⟨(a, block.size), mem_payloads.mpr (holds.objects a block held), inside⟩
  rw [tally, ← payloads_size w.state.buf]
  exact encard_le_sum inside

/-- The whole report: the walk, and the bytes behind the blocks as far as they exceed a
header. -/
theorem ralcGenGetUsage_eq (layout : Layout g p m bs) :
    ralcGenGetUsage P p m = some ⟨{ tally bs with
      holeSize := (tally bs).holeSize + (p.cap - p.size - sizeofBlock P)
      systemSize := p.cap - (tally bs).blockSize - ((tally bs).holeSize + (p.cap - p.size - sizeofBlock P)) },
      true, true⟩ := by
  have extent := layout.extent
  have within := layout.within
  have addressable := layout.addressable
  have sums := tally_span (P := P) bs
  have layout' : Layout g p m ([] ++ bs) := layout
  have walk := usageWalk_spec layout' extent.le
  rw [List.nil_append, span_nil, Nat.add_zero] at walk
  have remaining : P.sub p.cap p.size = p.cap - p.size := Platform.sub_of_le within (by omega)
  have tail : P.mul (if p.cap - p.size > sizeofBlock P then 1 else 0)
      (P.sub (p.cap - p.size) (sizeofBlock P)) = p.cap - p.size - sizeofBlock P := by
    split
    case isTrue room =>
      rw [Platform.sub_of_le (by omega) (by omega), Platform.mul_of_le (by omega), Nat.one_mul]
    case isFalse full => rw [Platform.mul_of_le (by omega), Nat.zero_mul, Nat.sub_eq_zero_of_le (by omega)]
  have hole : P.add (tally bs).holeSize (p.cap - p.size - sizeofBlock P) =
      (tally bs).holeSize + (p.cap - p.size - sizeofBlock P) := Platform.add_of_le (by omega)
  have system : P.sub (P.sub p.cap (tally bs).blockSize)
      ((tally bs).holeSize + (p.cap - p.size - sizeofBlock P)) =
      p.cap - (tally bs).blockSize - ((tally bs).holeSize + (p.cap - p.size - sizeofBlock P)) := by
    rw [Platform.sub_of_le (a := p.cap) (by omega) (by omega), Platform.sub_of_le (by omega) (by omega)]
  rw [ralcGenGetUsage, show (⟨0, 0, 0, 0, 0⟩ : RalcUsage) = tally [] from rfl, walk, Option.map_some,
    decide_eq_true within]
  simp only [remaining, tail, hole, system]

/-- The blocks, the holes and the rest of the buffer are all of it. -/
theorem ralcGenGetUsage_spec (layout : Layout g p m bs) :
    ∃ usage, ralcGenGetUsage P p m = some ⟨usage, true, true⟩ ∧
      usage.blockCount = (tally bs).blockCount ∧ usage.blockSize = (tally bs).blockSize ∧
      usage.blockSize + usage.holeSize + usage.systemSize = p.cap := by
  have extent := layout.extent
  have within := layout.within
  have sums := tally_span (P := P) bs
  exact ⟨_, ralcGenGetUsage_eq layout, rfl, rfl, by dsimp only; omega⟩

end Ratlib.Gen
