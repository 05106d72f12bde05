import Ratlib.Gen.Correctness
import Ratlib.Gen.Contract
import Ratlib.Alloc.Slack

/-! Requests near the top of `size_t`. `ralcGen_alloc` and `ralcGen_realloc` assert that a
size can be rounded, not that the sums they compare with the buffer can be formed. -/
namespace Ratlib.Gen

section Model
variable (P : Platform)

/-- `size <= SIZE_MAX - (RAT_ALIGNMENT - 1)` -/
def AssertsSize (size : Nat) : Prop := size + (P.alignment - 1) ≤ P.sizeMax

/-- The sum of the room test of `ralcGen_alloc` does not wrap, or is refused all the same. -/
def RoomSound (p : RalcGen) (size : Nat) : Prop :=
  sizeofBlock P + P.ratAlign size ≤ P.sizeMax ∨
    P.sub p.cap p.size < P.add (sizeofBlock P) (P.ratAlign size)

def IsLast (p : RalcGen) (m : Mem) (ptr : Nat) : Prop :=
  ptr ≠ 0 ∧ blockIsEnd p (blockNext P m (ptr - sizeofBlock P))

instance (size : Nat) : Decidable (AssertsSize P size) := inferInstanceAs (Decidable (_ ≤ _))

instance (p : RalcGen) (size : Nat) : Decidable (RoomSound P p size) :=
  inferInstanceAs (Decidable (_ ∨ _))

instance (p : RalcGen) (m : Mem) (ptr : Nat) : Decidable (IsLast P p m ptr) :=
  inferInstanceAs (Decidable (_ ∧ _))

/-- The sum that `ralcGen_realloc` compares with the buffer is sound: the new size of the
buffer for the last block, that of `ralcGen_alloc` for the others. -/
def ResizeSound (p : RalcGen) (m : Mem) (ptr newSize : Nat) : Prop :=
  if IsLast P p m ptr then
    p.size - blockSize P m (ptr - sizeofBlock P) + P.ratAlign newSize ≤ P.sizeMax
  else RoomSound P p newSize

instance (p : RalcGen) (m : Mem) (ptr newSize : Nat) : Decidable (ResizeSound P p m ptr newSize) :=
  inferInstanceAs (Decidable (ite _ _ _))

/-- A reply is NULL, or reports at least the size asked for and a block that lies, header
and payload, in the bytes in use. -/
def Inside (size : Nat) (result : Reply × RalcGen × Mem) : Prop :=
  result.1.ptr ≠ 0 → ∃ actual, result.1.out = some actual ∧ size ≤ actual ∧
    result.2.1.buf + sizeofBlock P ≤ result.1.ptr ∧
    result.1.ptr + actual ≤ result.2.1.buf + result.2.1.size ∧ result.2.1.size ≤ result.2.1.cap

/-- One call, under the functions' own assertions, of which the sums are sound. -/
def soundStep (s : State) : Op → Option State
  | .alloc size =>
    if AssertsSize P size ∧ RoomSound P s.gen size then
      let (reply, p, m) := ralcGenAlloc P s.gen s.mem size
      some ⟨p, m, answered s.live 0 reply⟩
    else none
  | .realloc ptr newSize =>
    if (ptr = 0 ∨ (s.live ptr).isSome) ∧ AssertsSize P newSize ∧ ResizeSound P s.gen s.mem ptr newSize then
      let (reply, p, m) := ralcGenRealloc P s.gen s.mem ptr newSize
      some ⟨p, m, answered s.live ptr reply⟩
    else none
  | op => step P s op

end Model

variable {P : Platform} {g : Grain P} {p : RalcGen} {m : Mem} {s s' : State} {bs : List Blk}

/-- A request of which the sum wraps finds no hole. -/
theorem walk_wraps (layout : Layout g p m bs) (wraps : P.sizeMax < sizeofBlock P + P.ratAlign size) :
    allocWalk P p m (P.ratAlign size) p.size p.buf 0 = .tail (p.buf + p.size) (endSize 0 bs) := by
  have layout' : Layout g p m ([] ++ bs) := layout
  have walk := allocWalk_spec (P.ratAlign size) layout' layout.extent.le
  simp only [List.nil_append, span_nil, Nat.add_zero, endSize_nil] at walk
  refine walk.resolve_left ?_
  rintro ⟨pre, k, post, rfl, fits, -⟩
  have room := layout.room
  simp only [span_append, span_cons] at room
  omega

/-- The request is refused as one of the wrapped size, -/
theorem alloc_refused (layout : Layout g p m bs) (wraps : P.sizeMax < sizeofBlock P + P.ratAlign size)
    (refused : P.sub p.cap p.size < P.add (sizeofBlock P) (P.ratAlign size)) :
    ralcGenAlloc P p m size = (.null, p, m) := by
  simp only [ralcGenAlloc, walk_wraps layout wraps, if_pos refused]

/-- or granted as one. -/
theorem alloc_taken (layout : Layout g p m bs) (wraps : P.sizeMax < sizeofBlock P + P.ratAlign size)
    (taken : ¬P.sub p.cap p.size < P.add (sizeofBlock P) (P.ratAlign size)) :
    (ralcGenAlloc P p m size).1 = ⟨data P (p.buf + p.size), some (P.ratAlign size)⟩ := by
  simp only [ralcGenAlloc, walk_wraps layout wraps, if_neg taken]

theorem Inside.bound {result : Reply × RalcGen × Mem} (inside : Inside P size result)
    (layout : Layout g p m bs) (region : result.2.1.buf = p.buf ∧ result.2.1.cap = p.cap)
    (reply : result.1 = ⟨q, some actual⟩) (some : q ≠ 0) :
    p.buf + sizeofBlock P ≤ q ∧ q + actual ≤ P.sizeMax := by
  have addressable := layout.addressable
  rw [Inside, reply, region.1, region.2] at inside
  obtain ⟨actual', same, -, low, high, within⟩ := inside some
  cases same
  exact ⟨low, by dsimp only at high; omega⟩

theorem Frame.inside {result : Reply × RalcGen × Mem} (frame : Frame g but p m bs result.2.1 result.2.2 bs')
    (object : Object P p.buf bs' q n) (grown : size ≤ n) (reply : result.1 = ⟨q, some n⟩) :
    Inside P size result := by
  intro _
  rw [← frame.buf] at object
  have bounds := frame.layout.bounds object
  rw [reply]
  exact ⟨n, rfl, grown, bounds.1, bounds.2, frame.layout.within⟩

theorem Allocated.inside {result : Reply × RalcGen × Mem} (allocated : Allocated g p m bs size result) :
    Inside P size result := by
  rcases allocated with rfl | ⟨q, n, bs', reply, grown, frame, object, -⟩
  · exact fun some => absurd rfl some
  · exact frame.inside object grown reply

theorem Reallocated.inside {result : Reply × RalcGen × Mem}
    (reallocated : Reallocated g p m bs ptr o size result) : Inside P size result := by
  rcases reallocated with rfl | ⟨q, n, bs', reply, grown, frame, object, -⟩
  · exact fun some => absurd rfl some
  · exact frame.inside object grown reply

theorem alloc_inside_iff (layout : Layout g p m bs) (asserts : AssertsSize P size) :
    Inside P size (ralcGenAlloc P p m size) ↔ RoomSound P p size := by
  by_cases wraps : sizeofBlock P + P.ratAlign size ≤ P.sizeMax
  · exact iff_of_true (ralcGenAlloc_cases layout ⟨asserts, wraps⟩).inside (Or.inl wraps)
  · have wraps := Nat.lt_of_not_le wraps
    by_cases refused : P.sub p.cap p.size < P.add (sizeofBlock P) (P.ratAlign size)
    · refine iff_of_true ?_ (Or.inr refused)
      rw [alloc_refused layout wraps refused]
      exact fun some => absurd rfl some
    · refine iff_of_false (fun inside => ?_) (fun sound => ?_)
      · have bound := inside.bound layout (ralcGenAlloc_region size)
          (alloc_taken layout wraps refused) (data_ne_zero _)
        omega
      · exact refused (sound.resolve_left (by omega))

theorem ratAlign_twice (size : Nat) : P.ratAlign (P.ratAlign size) = P.ratAlign size :=
  Platform.ratAlign_of_dvd (Platform.ratAlign_dvd size)
    (Platform.aligned_room (Platform.ratAlign_dvd size) (Platform.ratAlign_le size))

theorem isLast_iff (layout : Layout g p m bs) (object : Object P p.buf bs ptr o) :
    IsLast P p m ptr ↔ blockIsEnd p (ptr + o) = true := by
  have size := object_header layout object
  have low := (layout.bounds object).1
  have next : blockNext P m (ptr - sizeofBlock P) = ptr + o := by
    rw [blockNext, size, data]
    omega
  rw [IsLast, next, and_iff_right (layout.object_positive object)]

theorem admitsResize_of_sums (asserts : AssertsSize P newSize)
    (room : sizeofBlock P + P.ratAlign newSize ≤ P.sizeMax)
    (total : IsLast P p m ptr →
      p.size - blockSize P m (ptr - sizeofBlock P) + P.ratAlign newSize ≤ P.sizeMax) :
    AdmitsResize P p m ptr newSize := by
  refine ⟨⟨asserts, room⟩, fun some => ⟨⟨?_, ?_⟩, fun ends => total ⟨some, ends⟩⟩⟩
  · exact Platform.aligned_room (Platform.ratAlign_dvd newSize) (Platform.ratAlign_le newSize)
  · rwa [ratAlign_twice]

/-- A request of which the sum wraps goes to `ralcGen_alloc`, unless it is for the last block. -/
theorem realloc_moves (layout : Layout g p m bs) (object : Object P p.buf bs ptr o)
    (inner : ¬IsLast P p m ptr) (wraps : P.sizeMax < sizeofBlock P + P.ratAlign newSize) :
    (ralcGenRealloc P p m ptr newSize).1 = (ralcGenAlloc P p m (P.ratAlign newSize)).1 := by
  have nonnull := layout.object_positive object
  have ends := (isLast_iff layout object).not.mp inner
  have size := object_header layout object
  have room := layout.room
  obtain ⟨pre, left, right, post, around, rfl⟩ := object_surround layout object
  have behind := around.behind layout
  have more : right ++ post ≠ [] := fun last => ends ((around.isEnd layout).mpr last)
  have after := added_after layout around more
  have block : data P (p.buf + span P (pre ++ left)) - sizeofBlock P =
      p.buf + span P (pre ++ left) := Nat.add_sub_cancel ..
  have next : blockNext P m (p.buf + span P (pre ++ left)) =
      data P (p.buf + span P (pre ++ left)) + o := by
    rw [blockNext, ← block, size, block]
  rw [block] at size
  have bounds := layout.bounds object
  have within := layout.within
  have addressable := layout.addressable
  rw [span_append right] at behind
  rw [ralcGenRealloc, if_neg nonnull, block]
  simp only [next, size, ends, after, Bool.false_eq_true, false_and, if_false]
  rw [Platform.add_of_le (by omega), if_neg (by omega)]
  split <;> rfl

/-- The new size of the buffer wraps, and fits into it. -/
theorem realloc_stretches (layout : Layout g p m bs) (object : Object P p.buf bs ptr o)
    (last : IsLast P p m ptr) (wraps : P.sizeMax < p.size - o + P.ratAlign newSize) :
    (ralcGenRealloc P p m ptr newSize).1 = ⟨ptr, some (P.ratAlign newSize)⟩ := by
  have size := object_header layout object
  have bounds := layout.bounds object
  have within := layout.within
  have addressable := layout.addressable
  have small := Platform.ratAlign_le (P := P) newSize
  have here : data P (ptr - sizeofBlock P) = ptr := by
    rw [data]
    omega
  have wrapped : P.add (P.sub p.size (blockSize P m (ptr - sizeofBlock P))) (P.ratAlign newSize) =
      p.size - o + P.ratAlign newSize - (P.sizeMax + 1) := by
    rw [size, Platform.sub_of_le (by omega) (by omega), Platform.add_wraps (by omega) small wraps]
  simp only [ralcGenRealloc, if_neg last.1, wrapped]
  rw [if_pos ⟨last.2, by omega⟩, here]

theorem realloc_inside_iff (layout : Layout g p m bs) (object : Object P p.buf bs ptr o)
    (asserts : AssertsSize P newSize) :
    Inside P newSize (ralcGenRealloc P p m ptr newSize) ↔ ResizeSound P p m ptr newSize := by
  have size := object_header layout object
  have bounds := layout.bounds object
  have within := layout.within
  have addressable := layout.addressable
  rw [ResizeSound]
  split
  case isTrue last =>
    have ends := (isLast_iff layout object).mp last
    rw [blockIsEnd, decide_eq_true_iff] at ends
    by_cases total : p.size - blockSize P m (ptr - sizeofBlock P) + P.ratAlign newSize ≤ P.sizeMax
    · have room : sizeofBlock P + P.ratAlign newSize ≤ P.sizeMax := by
        rw [size] at total
        omega
      have admits := admitsResize_of_sums asserts room fun _ => total
      exact iff_of_true (ralcGenRealloc_cases layout object admits).inside total
    · refine iff_of_false (fun inside => ?_) total
      rw [size] at total
      have stretched := realloc_stretches layout object last (Nat.lt_of_not_le total)
      have bound := inside.bound layout (ralcGenRealloc_region ptr newSize)
        stretched (layout.object_positive object)
      omega
  case isFalse inner =>
    by_cases wraps : sizeofBlock P + P.ratAlign newSize ≤ P.sizeMax
    · have admits := admitsResize_of_sums asserts wraps fun last => absurd last inner
      exact iff_of_true (ralcGenRealloc_cases layout object admits).inside (Or.inl wraps)
    · have wraps := Nat.lt_of_not_le wraps
      have moves := realloc_moves layout object inner wraps
      have wraps' : P.sizeMax < sizeofBlock P + P.ratAlign (P.ratAlign newSize) := by
        rwa [ratAlign_twice]
      by_cases refused : P.sub p.cap p.size < P.add (sizeofBlock P) (P.ratAlign newSize)
      · refine iff_of_true (fun some => ?_) (Or.inr refused)
        rw [moves, alloc_refused layout wraps' (by rwa [ratAlign_twice])] at some
        exact absurd rfl some
      · refine iff_of_false (fun inside => ?_) (fun sound => ?_)
        · have taken := alloc_taken layout wraps' (by rwa [ratAlign_twice])
          have bound := inside.bound layout (ralcGenRealloc_region ptr newSize)
            (moves.trans taken) (data_ne_zero _)
          rw [ratAlign_twice] at bound
          omega
        · exact refused (sound.resolve_left (by omega))

/-- A sound request of which a sum wraps is refused. -/
theorem realloc_refused (tracks : Tracks g s bs) (live : ptr = 0 ∨ (s.live ptr).isSome)
    (asserts : AssertsSize P newSize) (sound : ResizeSound P s.gen s.mem ptr newSize)
    (wraps : ¬AdmitsResize P s.gen s.mem ptr newSize) :
    ralcGenRealloc P s.gen s.mem ptr newSize = (.null, s.gen, s.mem) := by
  have layout := tracks.layout
  refine ralcGenRealloc_null ?_
  rw [ResizeSound] at sound
  split at sound
  case isTrue last =>
    obtain ⟨n, held⟩ := Option.isSome_iff_exists.mp (live.resolve_left last.1)
    have object := (tracks.objects ptr n).mp held
    have bounds := layout.bounds object
    have room : sizeofBlock P + P.ratAlign newSize ≤ P.sizeMax := by
      rw [object_header layout object] at sound
      omega
    exact absurd (admitsResize_of_sums asserts room fun _ => sound) wraps
  case isFalse inner =>
    by_cases fits : sizeofBlock P + P.ratAlign newSize ≤ P.sizeMax
    · exact absurd (admitsResize_of_sums asserts fits fun last => absurd last inner) wraps
    · have refused := sound.resolve_left fits
      have exceeds := Nat.lt_of_not_le fits
      by_cases null : ptr = 0
      · rw [ralcGenRealloc, if_pos null, alloc_refused layout exceeds refused]
        rfl
      · obtain ⟨n, held⟩ := Option.isSome_iff_exists.mp (live.resolve_left null)
        have object := (tracks.objects ptr n).mp held
        rw [realloc_moves layout object inner exceeds,
          alloc_refused layout (by rwa [ratAlign_twice]) (by rwa [ratAlign_twice])]
        rfl

/-- A sound step is one of which no sum wraps, or changes nothing. -/
theorem soundStep_cases (tracks : Tracks g s bs) (taken : soundStep P s op = some s') :
    s' = s ∨ step P s op = some s' := by
  cases op with
  | alloc size =>
    simp only [soundStep] at taken
    split at taken
    case isFalse => cases taken
    case isTrue met =>
      obtain ⟨asserts, sound⟩ := met
      by_cases wraps : sizeofBlock P + P.ratAlign size ≤ P.sizeMax
      · refine Or.inr ?_
        simp only [step]
        rw [if_pos ⟨asserts, wraps⟩]
        exact taken
      · rw [alloc_refused tracks.layout (Nat.lt_of_not_le wraps) (sound.resolve_left wraps)] at taken
        exact Or.inl (Option.some.inj taken).symm
  | realloc ptr newSize =>
    simp only [soundStep] at taken
    split at taken
    case isFalse => cases taken
    case isTrue met =>
      obtain ⟨live, asserts, sound⟩ := met
      by_cases admits : AdmitsResize P s.gen s.mem ptr newSize
      · refine Or.inr ?_
        simp only [step]
        rw [if_pos ⟨live, admits⟩]
        exact taken
      · rw [realloc_refused tracks live asserts sound admits] at taken
        exact Or.inl (Option.some.inj taken).symm
  | free ptr => exact Or.inr taken
  | clear => exact Or.inr taken
  | write ptr i byte => exact Or.inr taken

/-- After any run of sound steps a request is answered inside the buffer if and only if
it is sound itself. -/
theorem inside_iff (region : 0 < buf ∧ buf + bufSize ≤ P.sizeMax)
    (ran : run (soundStep P) (start buf bufSize m) ops = some s) :
    (∀ size, AssertsSize P size →
      (Inside P size (ralcGenAlloc P s.gen s.mem size) ↔ RoomSound P s.gen size)) ∧
    ∀ ptr newSize, (ptr = 0 ∨ (s.live ptr).isSome) → AssertsSize P newSize →
      (Inside P newSize (ralcGenRealloc P s.gen s.mem ptr newSize) ↔
        ResizeSound P s.gen s.mem ptr newSize) := by
  obtain ⟨bs, tracks⟩ : ∃ bs, Tracks (Grain.two P) s bs := by
    refine run_invariant (fun s => ∃ bs, Tracks (Grain.two P) s bs) ?_ ⟨[], tracks_start region m⟩ ran
    rintro s op s' ⟨bs, tracks⟩ taken
    rcases soundStep_cases tracks taken with rfl | stepped
    · exact ⟨bs, tracks⟩
    · obtain ⟨bs', tracks', -⟩ := step_keeps tracks stepped
      exact ⟨bs', tracks'⟩
  refine ⟨fun size asserts => alloc_inside_iff tracks.layout asserts, ?_⟩
  rintro ptr newSize live asserts
  by_cases null : ptr = 0
  · have other : ¬IsLast P s.gen s.mem ptr := fun last => last.1 null
    rw [ResizeSound, if_neg other, ralcGenRealloc, if_pos null]
    exact alloc_inside_iff tracks.layout asserts
  · obtain ⟨n, held⟩ := Option.isSome_iff_exists.mp (live.resolve_left null)
    exact realloc_inside_iff tracks.layout ((tracks.objects ptr n).mp held) asserts

theorem inside_iff_lp64 : ∃ s, run (soundStep .lp64) (start 4096 256 fun _ => 0)
      [.alloc 16, .alloc 32, .realloc 4112 64] = some s ∧
    Inside .lp64 100 (ralcGenAlloc .lp64 s.gen s.mem 100) := by
  obtain ⟨s, ran⟩ := Option.isSome_iff_exists.mp (show (run (soundStep .lp64)
    (start 4096 256 fun _ => 0) [.alloc 16, .alloc 32, .realloc 4112 64]).isSome = true
    by decide +kernel)
  exact ⟨s, ran, ((inside_iff (by decide) ran).1 100 (by decide)).mpr (Or.inl (by decide))⟩

/-- The sum of the room test is 0 for this size: the block "fits" behind the last byte. -/
theorem alloc_overflows : ∃ s, run (soundStep .lp64) (start 4096 256 fun _ => 0) [.alloc 16] = some s ∧
    AssertsSize .lp64 (2 ^ 64 - 16) ∧
    ¬Inside .lp64 (2 ^ 64 - 16) (ralcGenAlloc .lp64 s.gen s.mem (2 ^ 64 - 16)) := by
  have facts : (run (soundStep .lp64) (start 4096 256 fun _ => 0) [.alloc 16]).map (fun s =>
      ((ralcGenAlloc .lp64 s.gen s.mem (2 ^ 64 - 16)).1.ptr,
        (ralcGenAlloc .lp64 s.gen s.mem (2 ^ 64 - 16)).1.out,
        (ralcGenAlloc .lp64 s.gen s.mem (2 ^ 64 - 16)).2.1.buf,
        (ralcGenAlloc .lp64 s.gen s.mem (2 ^ 64 - 16)).2.1.size)) =
      some (4144, some (2 ^ 64 - 16), 4096, 32) := by decide +kernel
  obtain ⟨s, ran, values⟩ := Option.map_eq_some_iff.mp facts
  obtain ⟨ptr, rest⟩ := Prod.mk.inj values
  obtain ⟨out, rest⟩ := Prod.mk.inj rest
  obtain ⟨buf, size⟩ := Prod.mk.inj rest
  refine ⟨s, ran, by decide, fun inside => ?_⟩
  obtain ⟨actual, found, -, -, high, -⟩ := inside (by rw [ptr]; decide)
  rw [out] at found
  cases found
  rw [ptr, buf, size] at high
  omega

theorem ratAlign_near (size : Nat) : P.ratAlign size ≤ size + (P.alignment - 1) := by
  have := Nat.div_mul_le_self (P.wrap (size + (P.alignment - 1))) P.alignment
  have : P.wrap (size + (P.alignment - 1)) ≤ size + (P.alignment - 1) := Nat.mod_le _ _
  rw [Platform.ratAlign]
  omega

/-- What `block_split` leaves to the block has no room for a header. -/
theorem blockSplit_near (ordered : used ≤ available) (fits : available ≤ P.sizeMax) :
    (blockSplit P p m block available used).2 < used + sizeofBlock P := by
  have width := sizeofBlock_ge (P := P)
  simp only [blockSplit, Platform.sub_of_le ordered fits]
  split <;> dsimp only <;> omega

theorem allocWalk_hole (rounds : Nat) (found : allocWalk P p m size rounds block prevSize = .hole hole) :
    size ≤ blockSize P m hole := by
  induction rounds generalizing block prevSize with
  | zero => cases found
  | succ rounds ih =>
    rw [allocWalk] at found
    split at found
    case isTrue => cases found
    case isFalse =>
      split at found
      case isTrue taken =>
        cases found
        exact taken.2
      case isFalse => exact ih found

theorem ralcGenAlloc_near (out : (ralcGenAlloc P p m size).1.out = some actual) :
    actual < P.ratAlign size + sizeofBlock P := by
  have width := sizeofBlock_ge (P := P)
  simp only [ralcGenAlloc] at out
  generalize found : allocWalk P p m (P.ratAlign size) p.size p.buf 0 = walk at out
  cases walk with
  | hole block =>
    cases out
    exact blockSplit_near (allocWalk_hole _ found) (Platform.get_le _ _)
  | tail block prevSize =>
    dsimp only at out
    split at out
    case isTrue => cases out
    case isFalse =>
      cases out
      omega

/-- Blocks of ralcGen exceed what was asked for by less than the rounding and a header. -/
theorem ralcGen_tight (owner : ι) (ok : World RalcGen → Blocks ι → Prop) (limit : Nat) :
    Tight (ralcGen P) owner ok limit (P.alignment + sizeofBlock P - 2) where
  alloc {w _ size _} _ _ out := by
    have near := ralcGenAlloc_near (p := w.state) (m := w.mem) out
    have := ratAlign_near (P := P) size
    have := P.alignment_pos
    omega
  realloc {w _ ptr newSize actual} _ _ _ out := by
    have width := sizeofBlock_ge (P := P)
    have rounded := ratAlign_near (P := P) newSize
    have := P.alignment_pos
    suffices near : actual < P.ratAlign newSize + sizeofBlock P by omega
    change (ralcGenRealloc P w.state w.mem ptr newSize).1.out = some actual at out
    rw [ralcGenRealloc] at out
    split at out
    case isTrue => exact ralcGenAlloc_near out
    case isFalse =>
      dsimp only at out
      split at out
      case isTrue =>
        cases out
        omega
      case isFalse =>
        have bound : (if blockIsEnd w.state (blockNext P w.mem (ptr - sizeofBlock P)) = true then
            blockSize P w.mem (ptr - sizeofBlock P) else P.add (blockSize P w.mem (ptr - sizeofBlock P))
              (if blockIsUnused P w.mem (blockNext P w.mem (ptr - sizeofBlock P)) ≠ 0 then
                P.add (sizeofBlock P) (blockSize P w.mem (blockNext P w.mem (ptr - sizeofBlock P)))
              else 0)) ≤ P.sizeMax := by
          split
          · exact Platform.get_le _ _
          · exact Platform.wrap_le _
        generalize (if blockIsEnd w.state (blockNext P w.mem (ptr - sizeofBlock P)) = true then
          blockSize P w.mem (ptr - sizeofBlock P) else _) = availableSize at out bound
        split at out
        case isTrue available =>
          cases out
          exact blockSplit_near available bound
        case isFalse =>
          have again : (ralcGenAlloc P w.state w.mem (P.ratAlign newSize)).1.out = some actual := by
            split at out <;> exact out
          have near := ralcGenAlloc_near again
          rwa [ratAlign_twice] at near

end Ratlib.Gen
