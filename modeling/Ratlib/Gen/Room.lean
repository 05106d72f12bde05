import Ratlib.Gen.Bounds
import Mathlib.Order.Bounds.Basic

/-! Which requests ralcGen refuses. Freed neighbours are merged at once, so that the bytes
between two live objects are one block; a request is answered at the lowest address where
header and payload lie clear of the live objects, and refused if there is none. -/
namespace Ratlib.Gen

section Model
variable (P : Platform)

/-- The `n` bytes from `x` on are bytes of the buffer outside the live objects and their
headers, the objects at `but` not counted. -/
def Vacant (s : State) (but : Set Nat) (x n : Nat) : Prop :=
  s.gen.buf ≤ x ∧ x + n ≤ s.gen.buf + s.gen.cap ∧
    ∀ q k, q ∉ but → s.live q = some k → q + k ≤ x ∨ x + n ≤ q - sizeofBlock P

/-- The places for a header and `size` bytes, rounded. -/
def places (s : State) (size : Nat) : Set Nat :=
  {x | Vacant P s ∅ x (sizeofBlock P + P.ratAlign size)}

/-- A reply is the lowest place there is. -/
def FirstFit (s : State) (size : Nat) (reply : Reply) : Prop :=
  if reply.ptr = 0 then places P s size = ∅
  else IsLeast (places P s size) (reply.ptr - sizeofBlock P)

/-- A reply to a resize is the block itself if the size is vacant there, and the lowest
place if not. -/
def StaysOrFits (s : State) (ptr newSize : Nat) (reply : Reply) : Prop :=
  let here := Vacant P s {ptr} (ptr - sizeofBlock P) (sizeofBlock P + P.ratAlign newSize)
  (here → reply.ptr = ptr) ∧ (¬here → FirstFit P s newSize reply)

end Model

variable {P : Platform} {g : Grain P} {p : RalcGen} {m : Mem} {s : State} {bs front pre post : List Blk}

def Blk.fits (size : Nat) (b : Blk) : Bool := b.unused && decide (size ≤ b.size)

theorem fits_iff {b : Blk} : b.fits size = true ↔ b.unused = true ∧ size ≤ b.size := by
  rw [Blk.fits, Bool.and_eq_true, decide_eq_true_iff]

/-- Blocks none of which fits leave no place in front of their end: the bytes between
two live objects are one unused block, header included. -/
theorem vacant_past (separated : Separated (pre ++ post)) (used : TailUsed (pre ++ post))
    (small : ∀ b ∈ pre, b.fits size = false) (low : a ≤ x)
    (clear : ∀ q k, Object P a (pre ++ post) q k →
      q + k ≤ x ∨ x + (sizeofBlock P + size) ≤ q - sizeofBlock P) : a + span P pre ≤ x := by
  induction pre generalizing a with
  | nil => exact low
  | cons b pre ih =>
    have width := sizeofBlock_ge (P := P)
    have start : data P a = a + sizeofBlock P := rfl
    have behind : data P a + b.size ≤ x := by
      cases unused : b.unused with
      | false =>
        have apart := clear (data P a) b.size (Or.inl ⟨unused, rfl, rfl⟩)
        omega
      | true =>
        obtain ⟨c, rest, next, live⟩ := hole_followed separated used unused
        have unfit := mt fits_iff.mpr (Bool.eq_false_iff.mp (small b List.mem_cons_self))
        have apart := clear (data P (data P a + b.size)) c.size (Or.inr ?_)
        · have header : data P (data P a + b.size) = data P a + b.size + sizeofBlock P := rfl
          rw [unused, eq_self, true_and] at unfit
          omega
        · rw [next]
          exact Or.inl ⟨live, rfl, rfl⟩
    have rest := ih (List.isChain_cons.mp separated).2 used.tail
      (fun c member => small c (List.mem_cons_of_mem _ member)) behind
      fun q k object => clear q k (Or.inr object)
    rw [span_cons]
    omega

theorem allocWalk_pass (rounds : Nat) (layout : Layout g p m (front ++ (pre ++ post)))
    (small : ∀ b ∈ pre, b.fits size = false) :
    allocWalk P p m size (pre.length + rounds) (p.buf + span P front) (endSize 0 front) =
      allocWalk P p m size rounds (p.buf + span P (front ++ pre)) (endSize 0 (front ++ pre)) := by
  induction pre generalizing front with
  | nil => rw [List.append_nil, List.length_nil, Nat.zero_add]
  | cons b pre ih =>
    have unfit := mt fits_iff.mpr (Bool.eq_false_iff.mp (small b List.mem_cons_self))
    have flag := layout.isUnused
    have inside := Bool.eq_false_iff.mp layout.inside
    have last : endSize 0 (front ++ [b]) = b.size := by simp
    have layout' : Layout g p m ((front ++ [b]) ++ (pre ++ post)) := by simpa using layout
    have rest := ih layout' fun c member => small c (List.mem_cons_of_mem _ member)
    rw [List.length_cons, Nat.add_right_comm, allocWalk, if_neg inside, flag, layout.header.2.1, layout.next,
      if_neg ?_, ← last, rest]
    · simp
    · rw [Blk.flag]
      simpa using unfit

theorem length_le_span (bs : List Blk) : bs.length ≤ span P bs := by
  induction bs with
  | nil => exact Nat.zero_le _
  | cons b bs ih =>
    have width := sizeofBlock_ge (P := P)
    rw [List.length_cons, span_cons]
    omega

/-- The loop stops at the first block that fits, -/
theorem Layout.walk_hole (layout : Layout g p m (pre ++ ⟨k, true⟩ :: post))
    (small : ∀ b ∈ pre, b.fits size = false) (large : size ≤ k) :
    allocWalk P p m size p.size p.buf 0 = .hole (p.buf + span P pre) := by
  have extent := layout.extent
  have few := length_le_span (P := P) pre
  have positive := span_pos (P := P) ⟨k, true⟩ post
  rw [span_append] at extent
  obtain ⟨rounds, enough⟩ : ∃ r, p.size = pre.length + (r + 1) := ⟨p.size - pre.length - 1, by omega⟩
  have layout' : Layout g p m ([] ++ (pre ++ ⟨k, true⟩ :: post)) := layout
  have passed := allocWalk_pass (rounds + 1) layout' small
  simp only [span_nil, Nat.add_zero, endSize_nil, ← enough, List.nil_append] at passed
  rw [passed, allocWalk, if_neg (Bool.eq_false_iff.mp layout.inside), layout.isUnused, layout.header.2.1,
    if_pos ⟨by simp, large⟩]

/-- and behind the last block if there is none. -/
theorem Layout.walk_tail (layout : Layout g p m bs) (small : ∀ b ∈ bs, b.fits size = false) :
    allocWalk P p m size p.size p.buf 0 = .tail (p.buf + p.size) (endSize 0 bs) := by
  have layout' : Layout g p m ([] ++ bs) := layout
  have walk := allocWalk_spec size layout' layout.extent.le
  simp only [List.nil_append, span_nil, Nat.add_zero, endSize_nil] at walk
  refine walk.resolve_left ?_
  rintro ⟨pre, k, post, rfl, fits, -⟩
  have unfit := small ⟨k, true⟩ (by simp)
  rw [Bool.eq_false_iff] at unfit
  exact unfit (fits_iff.mpr ⟨rfl, fits⟩)

theorem Tracks.hole_vacant (tracks : Tracks g s (pre ++ ⟨k, true⟩ :: post)) (fits : size ≤ k) :
    Vacant P s ∅ (s.gen.buf + span P pre) (sizeofBlock P + size) := by
  have extent := tracks.layout.extent
  have within := tracks.layout.within
  simp only [span_append, span_cons] at extent
  refine ⟨Nat.le_add_right .., by omega, fun q n _ held => ?_⟩
  have object := (tracks.objects q n).mp held
  rw [object_append] at object
  rcases object with object | ⟨unused, -⟩ | object
  · exact Or.inl (object_bounds object).2
  · cases unused
  · have bounds := object_bounds object
    simp only [data] at bounds
    exact Or.inr (by omega)

theorem Tracks.tail_vacant (tracks : Tracks g s bs) (room : s.gen.size + n ≤ s.gen.cap) :
    Vacant P s ∅ (s.gen.buf + s.gen.size) n :=
  ⟨Nat.le_add_right .., by omega,
    fun q k _ held => Or.inl (tracks.layout.bounds ((tracks.objects q k).mp held)).2⟩

/-- No place starts before blocks that do not fit end. -/
theorem Tracks.places_past (tracks : Tracks g s (pre ++ post))
    (small : ∀ b ∈ pre, b.fits (P.ratAlign size) = false) (place : x ∈ places P s size) :
    s.gen.buf + span P pre ≤ x :=
  vacant_past tracks.layout.separated tracks.layout.tailUsed small place.1 fun q k object =>
    place.2.2 q k (Set.notMem_empty q) ((tracks.objects q k).mpr object)

theorem firstFit_null : FirstFit P s size .null ↔ places P s size = ∅ := by
  rw [FirstFit, Reply.null, if_pos rfl]

theorem firstFit_data : FirstFit P s size ⟨data P block, out⟩ ↔ IsLeast (places P s size) block := by
  rw [FirstFit, if_neg (data_ne_zero block), data, Nat.add_sub_cancel]

/-- `ralcGen_alloc` answers with the lowest place. -/
theorem Tracks.alloc_firstFit (tracks : Tracks g s bs) (admits : AdmitsSize P size) :
    FirstFit P s size (ralcGenAlloc P s.gen s.mem size).1 := by
  have layout := tracks.layout
  have extent := layout.extent
  have within := layout.within
  have addressable := layout.addressable
  cases found : bs.find? (Blk.fits (P.ratAlign size)) with
  | some b =>
    obtain ⟨fits, pre, post, rfl, before⟩ := List.find?_eq_some_iff_append.mp found
    have small : ∀ c ∈ pre, c.fits (P.ratAlign size) = false := fun c member => by
      simpa using before c member
    obtain ⟨k, flag⟩ := b
    obtain ⟨rfl, large⟩ : flag = true ∧ P.ratAlign size ≤ k := fits_iff.mp fits
    rw [ralcGenAlloc, layout.walk_hole small large]
    dsimp only
    rw [firstFit_data]
    exact ⟨tracks.hole_vacant large, fun x place => tracks.places_past small place⟩
  | none =>
    have small : ∀ c ∈ bs, c.fits (P.ratAlign size) = false := fun c member => by
      simpa using List.find?_eq_none.mp found c member
    have past : ∀ x ∈ places P s size, s.gen.buf + s.gen.size ≤ x := by
      intro x place
      rw [← extent]
      rw [← List.append_nil bs] at tracks
      exact tracks.places_past small place
    rw [ralcGenAlloc, layout.walk_tail small]
    dsimp only
    rw [Platform.sub_of_le within (by omega), Platform.add_of_le admits.2]
    split
    case isTrue full =>
      rw [firstFit_null, Set.eq_empty_iff_forall_notMem]
      intro x place
      have := past x place
      have := place.2.1
      omega
    case isFalse room =>
      rw [firstFit_data]
      exact ⟨tracks.tail_vacant (by omega), past⟩

/-- Whether `n` bytes are free from a block on: up to the end of the buffer for the last
one, up to the block in use behind it for the others. -/
theorem Tracks.stays_iff (tracks : Tracks g s bs) (around : Surround bs pre left o right post) (n : Nat) :
    Vacant P s {data P (s.gen.buf + span P (pre ++ left))} (s.gen.buf + span P (pre ++ left))
        (sizeofBlock P + n) ↔
      if right ++ post = [] then s.gen.size - o + n ≤ s.gen.cap else n ≤ o + span P right := by
  have layout := tracks.layout
  have width := sizeofBlock_ge (P := P)
  have within := layout.within
  have extent := around.behind layout
  have header : ∀ a, data P a = a + sizeofBlock P := fun _ => rfl
  have before : ∀ q k, Object P s.gen.buf (pre ++ left) q k → q + k ≤ s.gen.buf + span P (pre ++ left) :=
    fun q k object => (object_bounds object).2
  have inner := around.inner layout
  obtain ⟨rfl, -, hole, -, used⟩ := around
  rw [header] at extent
  split
  case isTrue last =>
    rw [last, span_nil] at extent
    constructor
    · intro vacant
      have := vacant.2.1
      omega
    · intro room
      refine ⟨Nat.le_add_right .., by omega, fun q k other held => ?_⟩
      have object := (tracks.objects q k).mp held
      rw [last, object_append] at object
      rcases object with object | ⟨-, same, -⟩ | object
      · exact Or.inl (before q k object)
      · exact absurd same other
      · exact object.elim
  case isFalse more =>
    obtain ⟨c, rest, rfl⟩ := List.exists_cons_of_ne_nil (inner more)
    have live : c.unused = false := used c rfl
    rw [span_append right, span_cons] at extent
    constructor
    · intro vacant
      have object : Object P s.gen.buf ((pre ++ left) ++ ⟨o, false⟩ :: (right ++ c :: rest))
          (data P (data P (s.gen.buf + span P (pre ++ left)) + o + span P right)) c.size := by
        rw [object_append]
        refine Or.inr (Or.inr ?_)
        rw [object_append]
        exact Or.inr (Or.inl ⟨live, rfl, rfl⟩)
      have apart := vacant.2.2 _ _ ?_ ((tracks.objects _ _).mpr object)
      · simp only [header] at apart
        omega
      · rw [Set.mem_singleton_iff]
        simp only [header]
        omega
    · intro fits
      refine ⟨Nat.le_add_right .., by omega, fun q k other held => ?_⟩
      have object := (tracks.objects q k).mp held
      rw [object_append] at object
      rcases object with object | ⟨-, same, -⟩ | object
      · exact Or.inl (before q k object)
      · exact absurd same other
      · rw [object_append] at object
        have behind := object_bounds (object.resolve_left (hole_object hole))
        simp only [header] at behind
        exact Or.inr (by omega)

/-- `ralcGen_realloc` leaves the block where it is if it can, -/
theorem Tracks.realloc_fit (tracks : Tracks g s bs) (held : s.live ptr = some o)
    (admits : AdmitsResize P s.gen s.mem ptr newSize) :
    StaysOrFits P s ptr newSize (ralcGenRealloc P s.gen s.mem ptr newSize).1 := by
  have layout := tracks.layout
  have object := (tracks.objects ptr o).mp held
  obtain ⟨admitted, resized⟩ := admits
  obtain ⟨again, total⟩ := resized (layout.object_positive object)
  have addressable := layout.addressable
  have within := layout.within
  have bounds := layout.bounds object
  have size := object_header layout object
  have moved : FirstFit P s newSize (ralcGenAlloc P s.gen s.mem (P.ratAlign newSize)).1 := by
    have fit := tracks.alloc_firstFit again
    rwa [FirstFit, places, ratAlign_twice] at fit
  obtain ⟨pre, left, right, post, around, rfl⟩ := object_surround layout object
  have behind := around.behind layout
  have isEnd := around.isEnd layout
  have after := added_after layout around
  have block : data P (s.gen.buf + span P (pre ++ left)) - sizeofBlock P =
      s.gen.buf + span P (pre ++ left) := Nat.add_sub_cancel ..
  have next : blockNext P s.mem (s.gen.buf + span P (pre ++ left)) =
      data P (s.gen.buf + span P (pre ++ left)) + o := by
    rw [blockNext, ← block, size, block]
  rw [block] at size total
  rw [next, size] at total
  rw [StaysOrFits, block, tracks.stays_iff around, ralcGenRealloc, if_neg (data_ne_zero _), block]
  simp only [next, size]
  by_cases last : right ++ post = []
  · have ends := isEnd.mpr last
    have total := total ends
    rw [Platform.sub_of_le (by omega) (by omega), Platform.add_of_le total]
    simp only [ends, last, if_true, true_and]
    by_cases room : s.gen.size - o + P.ratAlign newSize ≤ s.gen.cap
    · rw [if_pos room]
      exact ⟨fun _ => rfl, fun full => absurd room full⟩
    · rw [if_neg room, if_neg (by omega)]
      refine ⟨fun fits => absurd fits room, fun _ => ?_⟩
      split
      · exact moved
      · exact moved
  · have inside : blockIsEnd s.gen (data P (s.gen.buf + span P (pre ++ left)) + o) = false :=
      Bool.eq_false_iff.mpr fun ends => last (isEnd.mp ends)
    rw [span_append right] at behind
    simp only [inside, last, Bool.false_eq_true, if_false, false_and, after last]
    rw [Platform.add_of_le (by omega)]
    by_cases fits : P.ratAlign newSize ≤ o + span P right
    · rw [if_pos fits]
      exact ⟨fun _ => rfl, fun small => absurd fits small⟩
    · rw [if_neg fits]
      refine ⟨fun here => absurd here fits, fun _ => ?_⟩
      split
      · exact moved
      · exact moved

/-- The bytes in use end with a live object. -/
theorem Tracks.compact (tracks : Tracks g s bs) (filled : s.gen.size ≠ 0) :
    ∃ q k, s.live q = some k ∧ q + k = s.gen.buf + s.gen.size := by
  have extent := tracks.layout.extent
  rcases bs.eq_nil_or_concat' with rfl | ⟨pre, b, rfl⟩
  · exact absurd extent.symm filled
  · have used := tracks.layout.tailUsed b (by simp)
    refine ⟨data P (s.gen.buf + span P pre), b.size, (tracks.objects _ _).mpr ?_, ?_⟩
    · rw [object_append]
      exact Or.inr (Or.inl ⟨used, rfl, rfl⟩)
    · simp only [span_append, span_cons, span_nil] at extent
      simp only [data]
      omega

/-- After any run a request is answered at the lowest address where header and payload
are clear of the live objects, and refused only if there is none; a resize leaves its block
where it is if the bytes behind it allow. The bytes in use end with a live object. -/
theorem requests_first_fit (region : 0 < buf ∧ buf + bufSize ≤ P.sizeMax)
    (ran : run (step P) (start buf bufSize m) ops = some s) :
    (∀ size, AdmitsSize P size → FirstFit P s size (ralcGenAlloc P s.gen s.mem size).1) ∧
      (∀ ptr o newSize, s.live ptr = some o → AdmitsResize P s.gen s.mem ptr newSize →
        StaysOrFits P s ptr newSize (ralcGenRealloc P s.gen s.mem ptr newSize).1) ∧
      (s.gen.size ≠ 0 → ∃ q k, s.live q = some k ∧ q + k = s.gen.buf + s.gen.size) := by
  obtain ⟨-, -, bs, tracks⟩ := run_tracks (Grain.two P) region ran
  exact ⟨fun _ => tracks.alloc_firstFit, fun _ _ _ => tracks.realloc_fit, tracks.compact⟩

/-- The hole that two freed neighbours leave is the lowest place for their bytes. -/
theorem requests_first_fit_lp64 : ∃ s, run (step .lp64) (start 4096 256 fun _ => 0)
      [.alloc 16, .alloc 32, .alloc 48, .free 4112, .free 4144] = some s ∧
    FirstFit .lp64 s 64 (ralcGenAlloc .lp64 s.gen s.mem 64).1 ∧
    (ralcGenAlloc .lp64 s.gen s.mem 64).1.ptr = 4112 := by
  have facts : (run (step .lp64) (start 4096 256 fun _ => 0)
      [.alloc 16, .alloc 32, .alloc 48, .free 4112, .free 4144]).map (fun s =>
        (ralcGenAlloc .lp64 s.gen s.mem 64).1.ptr) = some 4112 := by decide +kernel
  obtain ⟨s, ran, reply⟩ := Option.map_eq_some_iff.mp facts
  exact ⟨s, ran, (requests_first_fit (by decide) ran).1 64 (by decide), reply⟩

end Ratlib.Gen
