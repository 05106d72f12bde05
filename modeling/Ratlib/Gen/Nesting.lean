import Ratlib.Gen.Runs

/-! A buffer's headers are determined by the objects in it: holes fill the gaps between
them, no two holes are neighbours, and none is at the end. So objects that go in the
opposite order to the one they came in leave no trace. -/
namespace Ratlib.Gen

section Headers

/-- A header as the memory has it, at its offset into the buffer. -/
structure Header where
  offset : Nat
  size : Nat
  prevSize : Nat
  unused : Bool
deriving DecidableEq

variable (P : Platform)

/-- The headers from `block` on. Every round passes one, so `p->size` rounds are more
than enough (`headersFrom_eq`). -/
def headersFrom (p : RalcGen) (m : Mem) : Nat → Nat → List Header
  | 0, _ => []
  | rounds + 1, block =>
    if blockIsEnd p block then []
    else ⟨block - p.buf, blockSize P m block, prevSizeUnused P m block &&& maskPrevsize P,
      decide (blockIsUnused P m block ≠ 0)⟩ :: headersFrom p m rounds (blockNext P m block)

def headers (p : RalcGen) (m : Mem) : List Header := headersFrom P p m p.size p.buf

/-- The headers of the blocks, from an offset on and behind a payload of `prev` bytes. -/
def headersOf : Nat → Nat → List Blk → List Header
  | _, _, [] => []
  | offset, prev, b :: bs =>
    ⟨offset, b.size, prev, b.unused⟩ :: headersOf (offset + (sizeofBlock P + b.size)) b.size bs

end Headers

variable {P : Platform} {g : Grain P} {m m' : Mem} {p p' : RalcGen} {bs bs' : List Blk} {s s' : State}

theorem headersFrom_eq (layout : Layout g p m (front ++ rest)) (enough : span P rest ≤ rounds) :
    headersFrom P p m rounds (p.buf + span P front) =
      headersOf P (span P front) (endSize 0 front) rest := by
  induction rest generalizing front rounds with
  | nil =>
    rw [List.append_nil] at layout
    cases rounds with
    | zero => rfl
    | succ rounds => rw [headersFrom, if_pos layout.ends, headersOf]
  | cons b rest ih =>
    have width := sizeofBlock_ge (P := P)
    have room := layout.room
    have below := endSize_le (P := P) front
    have flag := b.flag_lt
    simp only [span_append, span_cons] at enough room
    have inside := Bool.eq_false_iff.mp layout.inside
    have even : 2 ∣ endSize 0 front := endSize_dvd (Nat.dvd_zero 2) fun c member =>
      layout.even c (List.mem_append_left _ member)
    have unused : decide (b.flag ≠ 0) = b.unused := by
      rw [Blk.flag]
      cases b.unused <;> rfl
    obtain ⟨rounds, rfl⟩ : ∃ r, rounds = r + 1 := ⟨rounds - 1, by omega⟩
    have layout' : Layout g p m ((front ++ [b]) ++ rest) := by simpa using layout
    have rest := ih layout' (show span P rest ≤ rounds by omega)
    simp only [span_append, span_cons, span_nil, Nat.add_zero, endSize_append, endSize_cons,
      endSize_nil] at rest
    rw [headersFrom, if_neg inside, layout.isUnused, unused, layout.header.1, layout.header.2.1,
      and_maskPrevsize even b (by omega), layout.next, headersOf, Nat.add_sub_cancel_left]
    simp only [span_append, span_cons, span_nil, Nat.add_zero]
    rw [rest]

/-- What the headers of a buffer say. -/
theorem Layout.headers_eq (layout : Layout g p m bs) : headers P p m = headersOf P 0 0 bs := by
  have whole : Layout g p m ([] ++ bs) := layout
  exact headersFrom_eq whole layout.extent.le

section Unique

theorem object_head (b : Blk) (bs : List Blk) (used : b.unused = false) :
    Object P a (b :: bs) (data P a) b.size := Or.inl ⟨used, rfl, rfl⟩

/-- Only the first block's payload can be right behind the first header. -/
theorem object_first {b : Blk} (object : Object P a (b :: bs) (data P a) k) :
    b.unused = false ∧ k = b.size := by
  rcases object with ⟨used, -, size⟩ | object
  · exact ⟨used, size⟩
  · have := sizeofBlock_ge (P := P)
    have := object_bounds object
    omega

theorem object_hole {b : Blk} (hole : b.unused = true) :
    Object P a (b :: bs) q k ↔ Object P (data P a + b.size) bs q k := by
  simp [Object, hole]

/-- The first object behind a hole says how large the hole is at most. -/
theorem hole_le {b b' : Blk} (separated : Separated (b :: bs)) (used : TailUsed (b :: bs))
    (hole : b.unused = true) (hole' : b'.unused = true)
    (found : ∀ q k, Object P a (b :: bs) q k → Object P a (b' :: bs') q k) : b'.size ≤ b.size := by
  obtain ⟨c, rest, rfl, cUsed⟩ := hole_followed separated used hole
  have object := found _ _ ((object_hole hole).mpr (object_head c rest cUsed))
  have := object_bounds ((object_hole hole').mp object)
  simp only [data] at this
  omega

theorem blocks_object {b : Blk} (separated : Separated (b :: bs)) (used : TailUsed (b :: bs)) :
    ∃ q k, Object P a (b :: bs) q k := by
  cases hole : b.unused with
  | false => exact ⟨_, _, object_head b bs hole⟩
  | true =>
    obtain ⟨c, rest, rfl, cUsed⟩ := hole_followed separated used hole
    exact ⟨_, _, (object_hole hole).mpr (object_head c rest cUsed)⟩

/-- Blocks with the same objects begin with the same block. -/
theorem head_unique {b b' : Blk} (separated : Separated (b :: bs)) (used : TailUsed (b :: bs))
    (separated' : Separated (b' :: bs')) (used' : TailUsed (b' :: bs'))
    (same : ∀ q k, Object P a (b :: bs) q k ↔ Object P a (b' :: bs') q k) : b = b' := by
  have sizes : b.unused = b'.unused ∧ b.size = b'.size := by
    cases hole : b.unused with
    | false =>
      obtain ⟨found, size⟩ := object_first ((same _ _).mp (object_head b bs hole))
      exact ⟨found.symm, size⟩
    | true =>
      have hole' : b'.unused = true := by
        by_contra found
        rw [Bool.not_eq_true] at found
        have := (object_first ((same _ _).mpr (object_head b' bs' found))).1
        rw [hole] at this
        cases this
      have low := hole_le separated used hole hole' fun q k => (same q k).mp
      have high := hole_le separated' used' hole' hole fun q k => (same q k).mpr
      exact ⟨hole'.symm, by omega⟩
  obtain ⟨n, u⟩ := b
  obtain ⟨n', u'⟩ := b'
  obtain ⟨rfl, rfl⟩ := sizes
  rfl

theorem object_tail {b : Blk} : Object P (data P a + b.size) bs q k ↔
    Object P a (b :: bs) q k ∧ data P a < q := by
  have width := sizeofBlock_ge (P := P)
  constructor
  · intro object
    have := object_bounds object
    exact ⟨Or.inr object, by omega⟩
  · rintro ⟨⟨-, rfl, -⟩ | object, behind⟩
    · omega
    · exact object

/-- Blocks with the same objects, whose holes lie between them, are the same. -/
theorem blocks_unique (separated : Separated bs) (used : TailUsed bs) (separated' : Separated bs')
    (used' : TailUsed bs') (same : ∀ q k, Object P a bs q k ↔ Object P a bs' q k) : bs = bs' := by
  induction bs generalizing a bs' with
  | nil =>
    cases bs' with
    | nil => rfl
    | cons b' bs' =>
      obtain ⟨q, k, object⟩ := blocks_object (P := P) (a := a) separated' used'
      exact ((same q k).mpr object).elim
  | cons b bs ih =>
    cases bs' with
    | nil =>
      obtain ⟨q, k, object⟩ := blocks_object (P := P) (a := a) separated used
      exact ((same q k).mp object).elim
    | cons b' bs' =>
      obtain rfl := head_unique separated used separated' used' same
      have behind : ∀ q k, Object P (data P a + b.size) bs q k ↔ Object P (data P a + b.size) bs' q k :=
        fun q k => object_tail.trans ((and_congr_left' (same q k)).trans object_tail.symm)
      rw [ih (List.isChain_cons.mp separated).2 used.tail (List.isChain_cons.mp separated').2 used'.tail
        behind]

/-- The client's objects say what the headers are. -/
theorem Tracks.determined (tracks : Tracks g s bs) (tracks' : Tracks g s' bs')
    (buf : s'.gen.buf = s.gen.buf) (cap : s'.gen.cap = s.gen.cap) (live : s'.live = s.live) :
    s'.gen = s.gen ∧ headers P s'.gen s'.mem = headers P s.gen s.mem := by
  have same : bs' = bs := by
    refine blocks_unique tracks'.layout.separated tracks'.layout.tailUsed tracks.layout.separated
      tracks.layout.tailUsed (P := P) (a := s.gen.buf) fun q k => ?_
    rw [← tracks.objects, ← live, tracks'.objects, buf]
  subst same
  have size : s'.gen.size = s.gen.size := tracks'.layout.extent.symm.trans tracks.layout.extent
  refine ⟨?_, tracks'.layout.headers_eq.trans tracks.layout.headers_eq.symm⟩
  calc s'.gen = ⟨s'.gen.buf, s'.gen.cap, s'.gen.size⟩ := rfl
    _ = s.gen := by rw [buf, cap, size]

end Unique

section Nested

/-- A buffer, and the objects that have come in since some point, the latest first. -/
structure Scope where
  state : State
  opened : List Nat

inductive NestedOp where
  | alloc (size : Nat)
  | free
  | write (ptr i : Nat) (byte : UInt8)

/-- One call, where only the object that came in last may go; a failed allocation opens
nothing. -/
def nestedStep (P : Platform) (t : Scope) : NestedOp → Option Scope
  | .alloc size => (step P t.state (.alloc size)).map fun s =>
    let q := (ralcGenAlloc P t.state.gen t.state.mem size).1.ptr
    ⟨s, if q = 0 then t.opened else q :: t.opened⟩
  | .free =>
    match t.opened with
    | [] => none
    | q :: opened => (step P t.state (.free q)).map fun s => ⟨s, opened⟩
  | .write ptr i byte => (step P t.state (.write ptr i byte)).map fun s => ⟨s, t.opened⟩

def closed (live : Nat → Option Nat) (opened : List Nat) : Nat → Option Nat :=
  opened.foldl (fun live q => Function.update live q none) live

/-- The invariant of a nested run from `s`: without what it opened, the client's objects
are those of `s`. -/
structure Unwinds (g : Grain P) (s : State) (t : Scope) : Prop where
  tracks : ∃ bs, Tracks g t.state bs
  buf : t.state.gen.buf = s.gen.buf
  cap : t.state.gen.cap = s.gen.cap
  live : closed t.state.live t.opened = s.live

theorem update_idle {live : Nat → Option Nat} (none : live q = none) :
    Function.update live q Option.none = live := by
  rw [← none]
  exact Function.update_eq_self q live

/-- An allocation opens what it adds. -/
theorem closed_answered {live : Nat → Option Nat} (null : live 0 = none) (fresh : live q = none)
    (opened : List Nat) :
    closed (answered live 0 ⟨q, out⟩) (if q = 0 then opened else q :: opened) = closed live opened := by
  by_cases failed : q = 0
  · rw [if_pos failed, answered, if_pos failed]
  · rw [if_neg failed, answered, if_neg failed, closed, List.foldl_cons, Function.update_idem,
      update_idle null, update_idle fresh, closed]

theorem Tracks.absent (tracks : Tracks g s bs) (gone : ∀ k, ¬Object P s.gen.buf bs q k) :
    s.live q = none :=
  Option.eq_none_iff_forall_ne_some.mpr fun k held => gone k ((tracks.objects q k).mp held)

theorem Tracks.null (tracks : Tracks g s bs) : s.live 0 = none :=
  tracks.absent fun _ object => tracks.layout.object_positive object rfl

theorem Tracks.fresh (tracks : Tracks g s bs) (admits : AdmitsSize P size) :
    s.live (ralcGenAlloc P s.gen s.mem size).1.ptr = none := by
  rcases ralcGenAlloc_cases tracks.layout admits with same | ⟨q, n, -, reply, -, -, -, fresh⟩
  · rw [same]
    exact tracks.null
  · rw [reply]
    exact tracks.absent fresh

theorem step_alloc_live (taken : step P s (.alloc size) = some s') : AdmitsSize P size ∧
    s'.live = answered s.live 0 (ralcGenAlloc P s.gen s.mem size).1 := by
  simp only [step] at taken
  split at taken
  case isFalse => cases taken
  case isTrue admits =>
    obtain rfl := Option.some.inj taken
    exact ⟨admits, rfl⟩

theorem step_free_live (taken : step P s (.free ptr) = some s') :
    s'.live = Function.update s.live ptr none := by
  simp only [step] at taken
  split at taken
  case isFalse => cases taken
  case isTrue =>
    obtain rfl := Option.some.inj taken
    rfl

theorem step_write_live (taken : step P s (.write ptr i byte) = some s') : s'.live = s.live := by
  simp only [step] at taken
  split at taken
  case isFalse => cases taken
  case isTrue =>
    obtain rfl := Option.some.inj taken
    rfl

/-- A call that leaves the live objects, less the opened ones, as they were. -/
theorem Unwinds.keep (unwinds : Unwinds g s t) (taken : step P t.state op = some s')
    (live : closed s'.live opened = closed t.state.live t.opened) : Unwinds g s ⟨s', opened⟩ := by
  obtain ⟨bs, tracks⟩ := unwinds.tracks
  obtain ⟨bs', tracks', keeps⟩ := step_keeps tracks taken
  exact ⟨⟨bs', tracks'⟩, keeps.buf.trans unwinds.buf, keeps.cap.trans unwinds.cap,
    live.trans unwinds.live⟩

theorem nestedStep_unwinds (unwinds : Unwinds g s t) (taken : nestedStep P t op = some t') :
    Unwinds g s t' := by
  cases op with
  | alloc size =>
    obtain ⟨s', stepped, rfl⟩ := Option.map_eq_some_iff.mp taken
    refine unwinds.keep stepped ?_
    obtain ⟨bs, tracks⟩ := unwinds.tracks
    obtain ⟨admits, live⟩ := step_alloc_live stepped
    rw [live]
    exact closed_answered tracks.null (tracks.fresh admits) t.opened
  | free =>
    simp only [nestedStep] at taken
    split at taken
    case h_1 => cases taken
    case h_2 q opened same =>
      obtain ⟨s', stepped, rfl⟩ := Option.map_eq_some_iff.mp taken
      refine unwinds.keep stepped ?_
      rw [step_free_live stepped, same]
      rfl
  | write ptr i byte =>
    obtain ⟨s', stepped, rfl⟩ := Option.map_eq_some_iff.mp taken
    refine unwinds.keep stepped ?_
    rw [step_write_live stepped]

/-- A nested run that closed what it opened. -/
theorem nested_back (tracks : Tracks g s bs) (ran : run (nestedStep P) ⟨s, []⟩ ops = some t)
    (balanced : t.opened = []) :
    t.state.gen = s.gen ∧ headers P t.state.gen t.state.mem = headers P s.gen s.mem := by
  obtain ⟨⟨bs', tracks'⟩, buf, cap, live⟩ := run_invariant (Unwinds g s)
    (fun t op t' => nestedStep_unwinds) ⟨⟨bs, tracks⟩, rfl, rfl, rfl⟩ ran
  rw [balanced] at live
  exact tracks.determined tracks' buf cap live

/-- An allocation and the free of what it returned, as a nested run. -/
theorem alloc_free (admits : AdmitsSize P size) (tracks : Tracks g s bs)
    (result : ralcGenAlloc P s.gen s.mem size = (reply, p', m')) (some : reply.ptr ≠ 0) :
    ∃ live, run (nestedStep P) ⟨s, []⟩ [.alloc size, .free] =
      Option.some ⟨⟨(ralcGenFree P p' m' reply.ptr).1, (ralcGenFree P p' m' reply.ptr).2, live⟩, []⟩ := by
  have held : (answered s.live 0 reply reply.ptr).isSome := by
    rcases ralcGenAlloc_cases tracks.layout admits with same | ⟨q, n, -, granted, -⟩
    · rw [result] at same
      cases same
      exact absurd rfl some
    · rw [result] at granted
      obtain rfl : reply = ⟨q, Option.some n⟩ := granted
      rw [answered, if_neg some, Function.update_self]
      rfl
  refine ⟨Function.update (answered s.live 0 reply) reply.ptr none, ?_⟩
  simp only [run_cons, nestedStep, step, if_pos admits, result, Option.map_some, Option.bind_some,
    if_neg some, if_pos held]
  rfl

/-- After any run, an allocation followed by the free of what it returned restores every
header, and so does any run that frees what it allocated in the opposite order. -/
theorem nesting_restores (region : 0 < buf ∧ buf + bufSize ≤ P.sizeMax)
    (ran : run (step P) (start buf bufSize m) ops = some s) :
    (∀ size reply p m', AdmitsSize P size → ralcGenAlloc P s.gen s.mem size = (reply, p, m') →
      reply.ptr ≠ 0 →
        (ralcGenFree P p m' reply.ptr).1 = s.gen ∧
          headers P (ralcGenFree P p m' reply.ptr).1 (ralcGenFree P p m' reply.ptr).2 =
            headers P s.gen s.mem) ∧
    ∀ nested t, run (nestedStep P) ⟨s, []⟩ nested = some t → t.opened = [] →
      t.state.gen = s.gen ∧ headers P t.state.gen t.state.mem = headers P s.gen s.mem := by
  obtain ⟨bs, tracks⟩ : ∃ bs, Tracks (Grain.two P) s bs :=
    run_invariant (fun s => ∃ bs, Tracks (Grain.two P) s bs)
      (fun s op s' ⟨bs, tracks⟩ taken => ⟨_, (step_keeps tracks taken).choose_spec.1⟩)
      ⟨[], tracks_start region m⟩ ran
  refine ⟨?_, fun nested t back balanced => nested_back tracks back balanced⟩
  intro size reply p m' admits result some
  obtain ⟨live, back⟩ := alloc_free admits tracks result some
  exact nested_back tracks back rfl

theorem nesting_restores_lp64 : ∃ s t,
    run (step .lp64) (start 4096 1024 fun _ => 0)
      [.alloc 100, .alloc 20, .alloc 50, .free 4112, .write 4240 0 7] = some s ∧
    run (nestedStep .lp64) ⟨s, []⟩ [.alloc 40, .alloc 30, .free, .alloc 300, .free, .free] = some t ∧
    t.state.gen = s.gen ∧ headers .lp64 t.state.gen t.state.mem = headers .lp64 s.gen s.mem := by
  have facts : ((run (step .lp64) (start 4096 1024 fun _ => 0)
      [.alloc 100, .alloc 20, .alloc 50, .free 4112, .write 4240 0 7]).bind fun s =>
        (run (nestedStep .lp64) ⟨s, []⟩ [.alloc 40, .alloc 30, .free, .alloc 300, .free, .free]).map
          Scope.opened) = some [] := by decide +kernel
  obtain ⟨s, ran, rest⟩ := Option.bind_eq_some_iff.mp facts
  obtain ⟨t, back, balanced⟩ := Option.map_eq_some_iff.mp rest
  exact ⟨s, t, ran, back, (nesting_restores (by decide) ran).2 _ t back balanced⟩

end Nested

end Ratlib.Gen
