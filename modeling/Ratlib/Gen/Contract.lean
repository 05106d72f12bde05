import Ratlib.Gen.Operations

/-! ralcGen meets the allocator contract: over any buffer, for requests too small to
make a sum wrap, whoever owns the objects. -/
namespace Ratlib.Gen

variable {P : Platform} {g : Grain P} {ι : Type u} {L : Blocks ι} {w : World RalcGen}
  {p' : RalcGen} {m' : Mem} {bs bs' : List Blk}

/-- The held ranges are live objects of a well-formed buffer of `cap` bytes. -/
structure Holds (g : Grain P) (cap : Nat) (w : World RalcGen) (L : Blocks ι) (bs : List Blk) :
    Prop where
  layout : Layout g w.state w.mem bs
  cap : w.state.cap = cap
  objects : ∀ a block, L a = some block → Object P w.state.buf bs a block.size

def GenOk (g : Grain P) (cap : Nat) (w : World RalcGen) (L : Blocks ι) : Prop :=
  ∃ bs, Holds g cap w L bs

/-- The blocks of `L'` are blocks of `L` away from `but`. -/
def Kept (but : Set Nat) (L L' : Blocks ι) : Prop :=
  ∀ a block, L' a = some block → a ∉ but ∧ L a = some block

theorem Holds.change (holds : Holds g size w L bs) (frame : Frame g but w.state w.mem bs p' m' bs')
    (kept : Kept but L L') : Holds g size ⟨p', m'⟩ L' bs' where
  layout := frame.layout
  cap := frame.cap.trans holds.cap
  objects := by
    intro a block held
    obtain ⟨other, before⟩ := kept a block held
    dsimp only
    rw [frame.buf]
    exact (frame.objects a other block.size).mpr (holds.objects a block before)

theorem Holds.grant (holds : Holds g size w L bs) (object : Object P w.state.buf bs q n) :
    Holds g size w (L.grant q owner n) bs where
  layout := holds.layout
  cap := holds.cap
  objects := by
    intro a block held
    rcases Blocks.grant_some held with ⟨rfl, rfl⟩ | ⟨-, held⟩
    · exact object
    · exact holds.objects a block held

theorem Holds.bytes (holds : Holds g size w L bs) (frame : Frame g but w.state w.mem bs p' m' bs')
    (kept : Kept but L L') : Set.EqOn w.mem m' (Blocks.bytes L') := by
  rintro x ⟨a, block, held, inside⟩
  obtain ⟨other, before⟩ := kept a block held
  exact frame.bytes a other block.size (holds.objects a block before) inside

theorem Holds.bounds (holds : Holds g size w L bs) (held : L a = some block) :
    0 < a ∧ a + block.size ≤ P.sizeMax := by
  have object := holds.objects a block held
  have := holds.layout.object_positive object
  have := holds.layout.bounds object
  have := holds.layout.addressable
  have := holds.layout.within
  omega

theorem Holds.separate (holds : Holds g size w L bs) : L.Separate := by
  intro a b x y heldA heldB different
  have := object_separate (holds.objects a x heldA) (holds.objects b y heldB)
  omega

theorem Holds.client (holds : Holds g size w L bs) (same : Set.EqOn w.mem m' L.bytesᶜ) :
    Holds g size { w with mem := m' } L bs := by
  refine ⟨holds.layout.payload ?_, holds.cap, holds.objects⟩
  intro x _ _ changed
  have inside : x ∈ L.bytes := by
    by_contra outside
    exact changed (same outside)
  obtain ⟨a, block, held, inside⟩ := inside
  exact ⟨a, block.size, holds.objects a block held, inside⟩

theorem Holds.fresh (holds : Holds g size w L bs) (gone : ∀ k, ¬Object P w.state.buf bs q k) :
    L q = none :=
  Option.eq_none_iff_forall_ne_some.mpr fun block held => gone _ (holds.objects q block held)

theorem Holds.granted (holds : Holds g size w L bs)
    (allocated : Allocated g w.state w.mem bs request (reply, p', m')) :
    Granted (GenOk g size) owner w L request (reply, ⟨p', m'⟩) := by
  rcases allocated with same | ⟨q, n, bs', rfl, grown, frame, object, fresh⟩
  · obtain ⟨rfl, rfl, rfl⟩ : reply = .null ∧ p' = w.state ∧ m' = w.mem := by simpa using same
    exact ⟨fun _ _ => rfl, by simpa [Reply.null] using ⟨bs, holds⟩⟩
  · have kept : Kept {q} L L := by
      intro a block held
      refine ⟨?_, held⟩
      rintro rfl
      exact fresh _ (holds.objects a block held)
    dsimp only at frame object
    rw [← frame.buf] at object
    have positive := frame.layout.object_positive object
    refine ⟨holds.bytes frame kept, ?_⟩
    rw [if_neg positive]
    exact ⟨n, rfl, grown, holds.fresh fresh, bs', (holds.change frame kept).grant object⟩

theorem kept_release : Kept {ptr} L (L.release ptr) := by
  intro a block held
  obtain ⟨other, held⟩ := Blocks.release_some held
  exact ⟨other, held⟩

theorem Holds.regranted (holds : Holds g size w L bs) (held : L ptr = some ⟨owner, o⟩)
    (resized : Reallocated g w.state w.mem bs ptr o request (reply, p', m')) :
    Regranted (GenOk g size) owner w L ptr o request (reply, ⟨p', m'⟩) := by
  rcases resized with same | ⟨q, n, bs', rfl, grown, frame, object, gone, bytes⟩
  · obtain ⟨rfl, rfl, rfl⟩ : reply = .null ∧ p' = w.state ∧ m' = w.mem := by simpa using same
    exact ⟨fun _ _ => rfl, by simpa [Reply.null] using ⟨fun _ _ => rfl, bs, holds⟩⟩
  · have kept : Kept {ptr, q} L (L.release ptr) := by
      intro a block held
      obtain ⟨other, held⟩ := Blocks.release_some held
      refine ⟨?_, held⟩
      rintro (rfl | rfl)
      · exact other rfl
      · exact (gone other _).2 (holds.objects a block held)
    dsimp only at frame object bytes
    have fresh : L.release ptr q = none := by
      by_cases same : q = ptr
      · rw [same, Blocks.release_same]
      · rw [Blocks.release_other same]
        exact holds.fresh fun k => (gone same k).2
    rw [← frame.buf] at object
    have positive := frame.layout.object_positive object
    refine ⟨holds.bytes frame kept, ?_⟩
    rw [if_neg positive]
    exact ⟨n, rfl, grown, fresh, ⟨bs', (holds.change frame kept).grant object⟩, bytes⟩

theorem admitsSize_of_le (size_le : size ≤ limit)
    (room : limit + cap + 2 * P.alignment + sizeofBlock P ≤ P.sizeMax) : AdmitsSize P size := by
  have positive := P.alignment_pos
  have rounded : P.ratAlign size < size + P.alignment := Platform.ratAlign_lt (by omega)
  exact ⟨by omega, by omega⟩

theorem admitsResize_of_le (within : p.size ≤ cap) (size_le : size ≤ limit)
    (room : limit + cap + 2 * P.alignment + sizeofBlock P ≤ P.sizeMax) :
    AdmitsResize P p m ptr size := by
  have positive := P.alignment_pos
  have rounded : P.ratAlign size < size + P.alignment := Platform.ratAlign_lt (by omega)
  have again := Platform.ratAlign_of_dvd (Platform.ratAlign_dvd (P := P) size) (by omega)
  refine ⟨admitsSize_of_le size_le room, fun _ => ⟨⟨by omega, by rw [again]; omega⟩, fun _ => ?_⟩⟩
  omega

/-- `ralcGen` is an allocator as ralc.h describes it. -/
theorem ralcGen_serves (g : Grain P) (owner : ι)
    (room : limit + cap + 2 * P.alignment + sizeofBlock P ≤ P.sizeMax) :
    Serves P (ralcGen P) owner (GenOk g cap) limit where
  bounds := by
    rintro w L a block ⟨bs, holds⟩ held
    exact holds.bounds held
  separate := by
    rintro w L ⟨bs, holds⟩
    exact holds.separate
  client := by
    rintro w L m' ⟨bs, holds⟩ same
    exact ⟨bs, holds.client same⟩
  alloc := by
    rintro w L size ⟨bs, holds⟩ small
    exact holds.granted (ralcGenAlloc_cases holds.layout (admitsSize_of_le small room))
  realloc_null := by
    rintro w L size ⟨bs, holds⟩ small
    exact holds.granted (ralcGenAlloc_cases holds.layout (admitsSize_of_le small room))
  realloc := by
    rintro w L ptr o newSize ⟨bs, holds⟩ held small
    have within := holds.layout.within
    rw [holds.cap] at within
    exact holds.regranted held (ralcGenRealloc_cases holds.layout (holds.objects ptr _ held)
      (admitsResize_of_le within small room))
  free := by
    rintro w L ptr size ⟨bs, holds⟩ held
    obtain ⟨bs', frame, -⟩ := ralcGenFree_frame holds.layout (holds.objects ptr _ held)
    exact ⟨holds.bytes frame kept_release, bs', holds.change frame kept_release⟩

section Refusal
variable {p : RalcGen} {m : Mem}

theorem data_ne_zero (block : Nat) : data P block ≠ 0 := by
  have := sizeofBlock_ge (P := P)
  rw [data]
  omega

/-- A failed `ralcGen_alloc` has touched nothing. -/
theorem ralcGenAlloc_null (null : (ralcGenAlloc P p m size).1.ptr = 0) :
    ralcGenAlloc P p m size = (.null, p, m) := by
  rw [ralcGenAlloc] at null ⊢
  dsimp only at null ⊢
  generalize allocWalk P p m (P.ratAlign size) p.size p.buf 0 = walk at null ⊢
  cases walk with
  | hole block => exact absurd null (data_ne_zero block)
  | tail block prevSize =>
    dsimp only at null ⊢
    split
    case isTrue => rfl
    case isFalse room =>
      rw [if_neg room] at null
      exact absurd null (data_ne_zero block)

/-- A failed `ralcGen_realloc` has touched nothing. -/
theorem ralcGenRealloc_null (null : (ralcGenRealloc P p m ptr newSize).1.ptr = 0) :
    ralcGenRealloc P p m ptr newSize = (.null, p, m) := by
  rw [ralcGenRealloc] at null ⊢
  split at null
  case isTrue new => rw [if_pos new, ralcGenAlloc_null null]
  case isFalse old =>
    rw [if_neg old]
    dsimp only at null ⊢
    generalize (if blockIsEnd p (blockNext P m (ptr - sizeofBlock P)) = true then
      blockSize P m (ptr - sizeofBlock P) else _) = availableSize at null ⊢
    split at null
    case isTrue => exact absurd null (data_ne_zero _)
    case isFalse inner =>
      rw [if_neg inner]
      split at null
      case isTrue => exact absurd null (data_ne_zero _)
      case isFalse short =>
        rw [if_neg short]
        split at null
        case isTrue none =>
          rw [ralcGenAlloc_null none]
          exact if_pos rfl
        case isFalse some => exact absurd null some

theorem blockMerge_region (block : Nat) :
    (blockMerge P p m block).1.buf = p.buf ∧ (blockMerge P p m block).1.cap = p.cap := by
  simp only [blockMerge, apply_ite Prod.fst, apply_ite RalcGen.buf, apply_ite RalcGen.cap, ite_self, and_self]

theorem ralcGenAlloc_region (size : Nat) :
    (ralcGenAlloc P p m size).2.1.buf = p.buf ∧ (ralcGenAlloc P p m size).2.1.cap = p.cap := by
  simp only [ralcGenAlloc]
  cases allocWalk P p m (P.ratAlign size) p.size p.buf 0 with
  | hole block => exact ⟨rfl, rfl⟩
  | tail block prevSize =>
    dsimp only
    split <;> exact ⟨rfl, rfl⟩

theorem ralcGenRealloc_region (ptr newSize : Nat) :
    (ralcGenRealloc P p m ptr newSize).2.1.buf = p.buf ∧
      (ralcGenRealloc P p m ptr newSize).2.1.cap = p.cap := by
  rw [ralcGenRealloc]
  split
  case isTrue => exact ralcGenAlloc_region newSize
  case isFalse =>
    dsimp only
    generalize (if blockIsEnd p (blockNext P m (ptr - sizeofBlock P)) = true then
      blockSize P m (ptr - sizeofBlock P) else _) = availableSize
    simp only [apply_ite Prod.snd, apply_ite Prod.fst, apply_ite RalcGen.buf, apply_ite RalcGen.cap,
      blockMerge_region, ralcGenAlloc_region, ite_self, and_self]

end Refusal

/-- A fresh allocator over a buffer has handed out nothing. -/
theorem genOk_init (g : Grain P) (region : 0 < buf ∧ buf + cap ≤ P.sizeMax) (m : Mem) :
    GenOk g cap ⟨ralcGenInit buf cap, m⟩ (fun _ => none : Blocks ι) :=
  ⟨[], Layout.init region m, rfl, by simp⟩

/-- A zeroed buffer of 1 KiB at address 4096. -/
def kib : World RalcGen := ⟨ralcGenInit 4096 1024, fun _ => 0⟩

theorem kib_serves (owner : ι) :
    Serves .lp64 (ralcGen .lp64) owner (GenOk (Grain.two .lp64) 1024) 4096 :=
  ralcGen_serves _ owner (by decide)

theorem kib_ok : GenOk (Grain.two .lp64) 1024 kib (fun _ => none : Blocks ι) :=
  genOk_init _ (by decide) _

end Ratlib.Gen
