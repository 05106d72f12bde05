import Ratlib.Gen.Operations
import Ratlib.Library.Runs

/-! Runs of ralcGen over its buffer: the calls in any order, with the objects the
client holds and the bytes it writes into them. -/
namespace Ratlib.Gen

/-- An allocator, its memory, and the actual sizes of the live objects. -/
structure State where
  gen : RalcGen
  mem : Mem
  live : Nat → Option Nat

inductive Op where
  | alloc (size : Nat)
  | realloc (ptr newSize : Nat)
  | free (ptr : Nat)
  | clear
  | write (ptr i : Nat) (byte : UInt8)

def Op.Spares (q : Nat) : Op → Prop
  | alloc _ => True
  | realloc ptr _ => q ≠ ptr
  | free ptr => q ≠ ptr
  | clear => False
  | write ptr _ _ => q ≠ ptr

variable (P : Platform)

def start (buf bufSize : Nat) (m : Mem) : State := ⟨ralcGenInit buf bufSize, m, fun _ => none⟩

/-- The live objects after a reply, those at `ptr` given up if it succeeded. -/
def answered (live : Nat → Option Nat) (ptr : Nat) (reply : Reply) : Nat → Option Nat :=
  if reply.ptr = 0 then live
  else Function.update (Function.update live ptr none) reply.ptr reply.out

/-- One call. Frees and resizes name live objects, clients write into live objects,
and a request whose `size_t` sums would wrap is refused. -/
def step (s : State) : Op → Option State
  | .alloc size =>
    if AdmitsSize P size then
      let (reply, p, m) := ralcGenAlloc P s.gen s.mem size
      some ⟨p, m, answered s.live 0 reply⟩
    else none
  | .realloc ptr newSize =>
    if (ptr = 0 ∨ (s.live ptr).isSome) ∧ AdmitsResize P s.gen s.mem ptr newSize then
      let (reply, p, m) := ralcGenRealloc P s.gen s.mem ptr newSize
      some ⟨p, m, answered s.live ptr reply⟩
    else none
  | .free ptr =>
    if (s.live ptr).isSome then
      let (p, m) := ralcGenFree P s.gen s.mem ptr
      some ⟨p, m, Function.update s.live ptr none⟩
    else none
  | .clear => some ⟨ralcGenClear s.gen, s.mem, fun _ => none⟩
  | .write ptr i byte =>
    if i < (s.live ptr).getD 0 then some { s with mem := s.mem.write (ptr + i) [byte] } else none

variable {P} {g : Grain P} {s s' : State} {bs bs' : List Blk}

/-- The blocks say what the buffer holds, and the used ones are the live objects. -/
structure Tracks {P : Platform} (g : Grain P) (s : State) (bs : List Blk) : Prop where
  layout : Layout g s.gen s.mem bs
  objects : ∀ ptr n, s.live ptr = some n ↔ Object P s.gen.buf bs ptr n

theorem object_size (first : Object P a bs ptr n) (second : Object P a bs ptr k) : k = n := by
  have width := sizeofBlock_ge (P := P)
  rcases object_separate first second with ⟨-, same⟩ | apart | apart
  · exact same.symm
  · omega
  · omega

theorem tracks_start (region : 0 < buf ∧ buf + bufSize ≤ P.sizeMax) (m : Mem) :
    Tracks g (start buf bufSize m) [] where
  layout := Layout.init region m
  objects := by simp [start, Object]

/-- A change of the buffer around some objects, seen with the client's table. -/
theorem Tracks.change {live : Nat → Option Nat} (tracks : Tracks g s bs)
    (frame : Frame g but s.gen s.mem bs p' m' bs') (others : ∀ q ∉ but, live q = s.live q)
    (here : ∀ q ∈ but, ∀ n, live q = some n ↔ Object P s.gen.buf bs' q n) :
    Tracks g ⟨p', m', live⟩ bs' where
  layout := frame.layout
  objects := by
    intro q n
    rw [frame.buf]
    by_cases member : q ∈ but
    · exact here q member n
    · rw [frame.objects q member n, ← tracks.objects q n]
      simp only [others q member]

theorem answered_other (live : Nat → Option Nat) (reply : Reply) (other : q ∉ ({ptr, reply.ptr} : Set Nat)) :
    answered live ptr reply q = live q := by
  simp only [Set.mem_insert_iff, Set.mem_singleton_iff, not_or] at other
  rw [answered]
  split
  · rfl
  · rw [Function.update_of_ne other.2, Function.update_of_ne other.1]

/-- A successful reply keeps the table true. -/
theorem Tracks.answer (tracks : Tracks g s bs)
    (frame : Frame g {ptr, q} s.gen s.mem bs p' m' bs') (target : Object P s.gen.buf bs' q n)
    (gone : q ≠ ptr → ∀ k, ¬Object P s.gen.buf bs' ptr k) :
    Tracks g ⟨p', m', answered s.live ptr ⟨q, some n⟩⟩ bs' := by
  have positive : q ≠ 0 := by
    apply frame.layout.object_positive (n := n)
    rwa [frame.buf]
  refine tracks.change frame (fun r other => answered_other s.live ⟨q, some n⟩ other) ?_
  intro r member k
  rw [answered, if_neg positive]
  by_cases same : r = q
  · subst same
    rw [Function.update_self, Option.some.injEq]
    constructor
    · rintro rfl
      exact target
    · exact fun object => (object_size target object).symm
  · obtain rfl : r = ptr := by simpa [same] using member
    rw [Function.update_of_ne same, Function.update_self]
    simp [gone (Ne.symm same) k]

/-- What a call keeps: the buffer, and the objects it is not about with their bytes. -/
structure Keeps (s : State) (spared : Nat → Prop) (s' : State) : Prop where
  buf : s'.gen.buf = s.gen.buf
  cap : s'.gen.cap = s.gen.cap
  others : ∀ q n, spared q → s.live q = some n →
    s'.live q = some n ∧ Set.EqOn s.mem s'.mem (Set.Ico q (q + n))

theorem keeps_refl (s : State) (spared : Nat → Prop) : Keeps s spared s where
  buf := rfl
  cap := rfl
  others _ _ _ held := ⟨held, fun _ _ => rfl⟩

theorem Frame.keeps (frame : Frame g but s.gen s.mem bs p' m' bs') (tracks : Tracks g s bs)
    {live : Nat → Option Nat} (others : ∀ q ∉ but, live q = s.live q) :
    Keeps s (· ∉ but) ⟨p', m', live⟩ where
  buf := frame.buf
  cap := frame.cap
  others q n other held :=
    ⟨(others q other).trans held, frame.bytes q other n ((tracks.objects q n).mp held)⟩

theorem alloc_step (tracks : Tracks g s bs)
    (taken : step P s (.alloc size) = some s') :
    ∃ bs', Tracks g s' bs' ∧ Keeps s (fun _ => True) s' := by
  simp only [step] at taken
  split at taken
  case isFalse => cases taken
  case isTrue admits =>
    obtain rfl := Option.some.inj taken
    rcases ralcGenAlloc_cases tracks.layout admits with
      same | ⟨q, n, bs', reply, -, frame, target, fresh⟩
    · rw [same]
      exact ⟨bs, tracks, keeps_refl s _⟩
    · have wider : Frame g {0, q} s.gen s.mem bs _ _ bs' := frame.mono (by simp)
      rw [reply]
      refine ⟨bs', tracks.answer wider target ?_, ?_⟩
      · intro _ k object
        rw [← frame.buf] at object
        exact frame.layout.object_positive object rfl
      · have keeps := wider.keeps tracks fun r other =>
          answered_other s.live ⟨q, some n⟩ other
        refine ⟨keeps.buf, keeps.cap, fun r k _ held => keeps.others r k ?_ held⟩
        have object := (tracks.objects r k).mp held
        rintro (rfl | rfl)
        · exact tracks.layout.object_positive object rfl
        · exact fresh k object

/-- A resize changed nothing, or the object is live where the reply says, is large
enough and begins with the old bytes. -/
def Resized (s : State) (ptr oldSize newSize : Nat) (reply : Reply) (s' : State) : Prop :=
  if reply.ptr = 0 then s' = s
  else ∃ n, reply.out = some n ∧ newSize ≤ n ∧ s'.live reply.ptr = some n ∧
    (reply.ptr ≠ ptr → s'.live ptr = none) ∧
    ∀ i < min oldSize newSize, s'.mem (reply.ptr + i) = s.mem (ptr + i)

/-- `ralcGen_realloc` of a live object, failed or not. -/
theorem realloc_step (tracks : Tracks g s bs)
    (held : s.live ptr = some o) (taken : step P s (.realloc ptr newSize) = some s') :
    (∃ bs', Tracks g s' bs' ∧ Keeps s (· ≠ ptr) s') ∧
      Resized s ptr o newSize (ralcGenRealloc P s.gen s.mem ptr newSize).1 s' := by
  have object := (tracks.objects ptr o).mp held
  have positive := tracks.layout.object_positive object
  simp only [step] at taken
  split at taken
  case isFalse => cases taken
  case isTrue admits =>
    obtain rfl := Option.some.inj taken
    rcases ralcGenRealloc_cases tracks.layout object admits.2 with
      same | ⟨q, n, bs', reply, grown, frame, target, gone, bytes⟩
    · rw [same]
      exact ⟨⟨bs, tracks, keeps_refl s _⟩, by simp [Resized, Reply.null, answered]⟩
    · have positive' : q ≠ 0 := by
        rw [← frame.buf] at target
        exact frame.layout.object_positive target
      rw [reply, Resized, if_neg positive']
      have tracks' := tracks.answer frame target fun different k => (gone different k).1
      have keeps := frame.keeps tracks fun r other =>
        answered_other s.live ⟨q, some n⟩ other
      refine ⟨⟨bs', tracks', keeps.buf, keeps.cap, ?_⟩, n, rfl, grown, ?_, ?_, bytes⟩
      · intro r k different held'
        apply keeps.others r k _ held'
        rintro (rfl | rfl)
        · exact different rfl
        · exact (gone different k).2 ((tracks.objects r k).mp held')
      · rw [tracks'.objects]
        dsimp only
        rwa [frame.buf]
      · intro different
        refine Option.eq_none_iff_forall_ne_some.mpr fun k held' => ?_
        have object' := (tracks'.objects ptr k).mp held'
        dsimp only at object'
        rw [frame.buf] at object'
        exact (gone different k).1 object'

theorem realloc_null_step (tracks : Tracks g s bs)
    (taken : step P s (.realloc 0 newSize) = some s') :
    ∃ bs', Tracks g s' bs' ∧ Keeps s (fun _ => True) s' := by
  simp only [step] at taken
  split at taken
  case isFalse => cases taken
  case isTrue admits =>
    refine alloc_step tracks (?_ : step P s (.alloc newSize) = some s')
    simp only [step]
    rw [if_pos admits.2.1]
    simpa only [ralcGenRealloc, if_true] using taken

theorem free_step (tracks : Tracks g s bs)
    (taken : step P s (.free ptr) = some s') :
    ∃ bs', Tracks g s' bs' ∧ Keeps s (· ≠ ptr) s' := by
  simp only [step] at taken
  split at taken
  case isFalse => cases taken
  case isTrue live =>
    obtain rfl := Option.some.inj taken
    obtain ⟨n, held⟩ := Option.isSome_iff_exists.mp live
    obtain ⟨bs', frame, gone⟩ :=
      ralcGenFree_frame tracks.layout ((tracks.objects ptr n).mp held)
    have others : ∀ q ∉ ({ptr} : Set Nat), Function.update s.live ptr none q = s.live q :=
      fun q other => Function.update_of_ne other _ _
    refine ⟨bs', tracks.change frame others ?_, frame.keeps tracks others⟩
    rintro q rfl k
    simp [gone k]

theorem clear_step (tracks : Tracks g s bs) (taken : step P s .clear = some s') :
    Tracks g s' [] ∧ Keeps s (fun _ => False) s' := by
  obtain rfl := Option.some.inj taken
  exact ⟨tracks_start tracks.layout.addressable s.mem, rfl, rfl, fun _ _ spared => spared.elim⟩

theorem write_step (tracks : Tracks g s bs) (taken : step P s (.write ptr i byte) = some s') :
    Tracks g s' bs ∧ Keeps s (· ≠ ptr) s' := by
  simp only [step] at taken
  split at taken
  case isFalse => cases taken
  case isTrue inside =>
    obtain rfl := Option.some.inj taken
    obtain ⟨n, held⟩ : ∃ n, s.live ptr = some n := by
      cases held : s.live ptr with
      | none => simp [held] at inside
      | some n => exact ⟨n, rfl⟩
    rw [held, Option.getD_some] at inside
    have object := (tracks.objects ptr n).mp held
    have one : [byte].length = 1 := rfl
    refine ⟨⟨tracks.layout.payload ?_, tracks.objects⟩, rfl, rfl, ?_⟩
    · intro x _ _ changed
      refine ⟨ptr, n, object, ?_⟩
      by_contra outside
      exact changed (Mem.write_out (by omega)).symm
    · intro q k other held'
      refine ⟨held', fun x hx => (Mem.write_out ?_).symm⟩
      have := object_separate object ((tracks.objects q k).mp held')
      have := hx.1
      have := hx.2
      omega

/-- Every step keeps the blocks in order, and the objects it spares. -/
theorem step_keeps (tracks : Tracks g s bs)
    (taken : step P s op = some s') :
    ∃ bs', Tracks g s' bs' ∧ Keeps s op.Spares s' := by
  cases op with
  | alloc size => exact alloc_step tracks taken
  | realloc ptr newSize =>
    by_cases null : ptr = 0
    · subst null
      obtain ⟨bs', tracks', keeps⟩ := realloc_null_step tracks taken
      exact ⟨bs', tracks', keeps.buf, keeps.cap, fun q n _ => keeps.others q n trivial⟩
    · obtain ⟨o, held⟩ : ∃ o, s.live ptr = some o := by
        simp only [step] at taken
        split at taken
        case isTrue admits =>
          exact Option.isSome_iff_exists.mp (admits.1.resolve_left null)
        case isFalse => cases taken
      exact (realloc_step tracks held taken).1
  | free ptr => exact free_step tracks taken
  | clear => exact ⟨[], clear_step tracks taken⟩
  | write ptr i byte => exact ⟨bs, write_step tracks taken⟩

end Ratlib.Gen
