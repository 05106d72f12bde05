import Ratlib.Gen.Runs

/-! What holds after any run of ralcGen: the shape of the buffer, and which bytes a
call can touch. Block sizes are multiples of the alignment only where headers are. -/
namespace Ratlib.Gen

variable {P : Platform} {g : Grain P} {s s' : State} {bs : List Blk}

/-- A header that `BLOCK_NEXT` reaches from the start of the buffer. -/
inductive IsBlock (P : Platform) (p : RalcGen) (m : Mem) : Nat → Prop
  | first : blockIsEnd p p.buf = false → IsBlock P p m p.buf
  | next : IsBlock P p m block → blockIsEnd p (blockNext P m block) = false →
      IsBlock P p m (blockNext P m block)

theorem isBlock_split (layout : Layout g p m bs) (reached : IsBlock P p m block) :
    ∃ pre b post, bs = pre ++ b :: post ∧ block = p.buf + span P pre := by
  have extent := layout.extent
  induction reached with
  | first inside =>
    cases bs with
    | nil =>
      rw [span_nil] at extent
      simp [blockIsEnd, ← extent] at inside
    | cons b post => exact ⟨[], b, post, rfl, rfl⟩
  | next _ inside ih =>
    obtain ⟨pre, b, post, rfl, rfl⟩ := ih
    have next : blockNext P m (p.buf + span P pre) = p.buf + span P (pre ++ [b]) := by
      rw [blockNext, layout.header.2.1]
      simp only [data, span_append, span_cons, span_nil]
      omega
    rw [next] at inside ⊢
    cases post with
    | nil =>
      rw [extent] at inside
      simp [blockIsEnd] at inside
    | cons c post => exact ⟨pre ++ [b], c, post, by simp, rfl⟩

/-- Live payloads and headers do not overlap. -/
theorem object_isBlock (layout : Layout g p m bs) (object : Object P p.buf bs q n)
    (reached : IsBlock P p m block) : q + n ≤ block ∨ data P block ≤ q := by
  obtain ⟨pre, b, post, rfl, rfl⟩ := isBlock_split layout reached
  rw [object_append] at object
  rcases object with object | ⟨-, rfl, -⟩ | object
  · exact Or.inl (object_bounds object).2
  · exact Or.inr (Nat.le_refl _)
  · have := object_bounds object
    exact Or.inr (by omega)

theorem Tracks.empty (tracks : Tracks g s bs) (none : ∀ ptr, s.live ptr = none) : s.gen.size = 0 := by
  rw [← tracks.layout.extent]
  rcases bs.eq_nil_or_concat' with rfl | ⟨pre, b, rfl⟩
  · rfl
  · have used := tracks.layout.tailUsed b (by simp)
    have object : Object P s.gen.buf (pre ++ [b]) (data P (s.gen.buf + span P pre)) b.size := by
      rw [object_append]
      exact Or.inr (Or.inl ⟨used, rfl, rfl⟩)
    have held := (tracks.objects _ _).mpr object
    rw [none] at held
    cases held

/-- The invariant of a run. -/
theorem run_tracks (g : Grain P) (region : 0 < buf ∧ buf + bufSize ≤ P.sizeMax)
    (ran : run (step P) (start buf bufSize m) ops = some s) :
    s.gen.buf = buf ∧ s.gen.cap = bufSize ∧ ∃ bs, Tracks g s bs := by
  refine run_invariant (fun s => s.gen.buf = buf ∧ s.gen.cap = bufSize ∧ ∃ bs, Tracks g s bs)
    ?_ ⟨rfl, rfl, [], tracks_start region m⟩ ran
  rintro s op s' ⟨sameBuf, sameCap, bs, tracks⟩ taken
  obtain ⟨bs', tracks', keeps⟩ := step_keeps tracks taken
  exact ⟨keeps.buf.trans sameBuf, keeps.cap.trans sameCap, bs', tracks'⟩

/-- After any run the headers form one chain over exactly the bytes in use, its used
blocks being the live objects, no two unused blocks adjacent and none of them last. -/
theorem run_chain (header : P.alignment ∣ sizeofBlock P)
    (region : 0 < buf ∧ buf + bufSize ≤ P.sizeMax)
    (ran : run (step P) (start buf bufSize m) ops = some s) :
    ∃ bs, Chain P s.mem buf 0 bs ∧ span P bs = s.gen.size ∧ s.gen.buf = buf ∧
      s.gen.size ≤ s.gen.cap ∧ s.gen.cap = bufSize ∧ (∀ b ∈ bs, P.alignment ∣ b.size) ∧
      (∀ ptr n, s.live ptr = some n ↔ Object P buf bs ptr n) ∧ Separated bs ∧ TailUsed bs ∧
      ((∀ ptr, s.live ptr = none) → s.gen.size = 0) := by
  obtain ⟨rfl, sameCap, bs, tracks⟩ := run_tracks (Grain.aligned header) region ran
  have layout := tracks.layout
  exact ⟨bs, layout.chain, layout.extent, rfl, layout.within, sameCap, layout.aligned,
    tracks.objects, layout.separated, layout.tailUsed, tracks.empty⟩

theorem run_chain_lp64 : ∃ s bs, run (step .lp64) (start 4096 256 fun _ => 0)
      [.alloc 16, .alloc 32, .free 4112, .realloc 4144 8] = some s ∧
    Chain .lp64 s.mem 4096 0 bs ∧ span .lp64 bs = s.gen.size := by
  obtain ⟨s, ran⟩ := Option.isSome_iff_exists.mp (show (run (step .lp64)
    (start 4096 256 fun _ => 0) [.alloc 16, .alloc 32, .free 4112, .realloc 4144 8]).isSome = true
    by decide +kernel)
  obtain ⟨bs, chain, extent, -⟩ := run_chain (by decide) (by decide) ran
  exact ⟨s, bs, ran, chain, extent⟩

/-- After any run the live payloads are disjoint from each other and from the headers;
a call keeps the other objects with their bytes, and a resize keeps a prefix. -/
theorem run_frame (region : 0 < buf ∧ buf + bufSize ≤ P.sizeMax)
    (ran : run (step P) (start buf bufSize m) ops = some s) :
    (∀ q n q' n', s.live q = some n → s.live q' = some n' → q ≠ q' → q + n ≤ q' ∨ q' + n' ≤ q) ∧
      (∀ q n block, s.live q = some n → IsBlock P s.gen s.mem block →
        q + n ≤ block ∨ data P block ≤ q) ∧
      (∀ op s' q n, step P s op = some s' → op.Spares q → s.live q = some n →
        s'.live q = some n ∧ Set.EqOn s.mem s'.mem (Set.Ico q (q + n))) ∧
      ∀ ptr o newSize s', s.live ptr = some o → step P s (.realloc ptr newSize) = some s' →
        Resized s ptr o newSize (ralcGenRealloc P s.gen s.mem ptr newSize).1 s' := by
  obtain ⟨-, -, bs, tracks⟩ := run_tracks (Grain.two P) region ran
  refine ⟨?_, ?_, ?_, ?_⟩
  · intro q n q' n' held held' different
    have := object_separate ((tracks.objects q n).mp held) ((tracks.objects q' n').mp held')
    omega
  · intro q n block held reached
    exact object_isBlock tracks.layout ((tracks.objects q n).mp held) reached
  · intro op s' q n taken spared held
    obtain ⟨bs', -, keeps⟩ := step_keeps tracks taken
    exact keeps.others q n spared held
  · intro ptr o newSize s' held taken
    exact (realloc_step tracks held taken).2

theorem run_frame_lp64 : ∃ s s', run (step .lp64) (start 4096 256 fun _ => 0)
      [.alloc 16, .alloc 32] = some s ∧ step .lp64 s (.realloc 4112 64) = some s' ∧
    Resized s 4112 16 64 (ralcGenRealloc .lp64 s.gen s.mem 4112 64).1 s' := by
  have facts : (run (step .lp64) (start 4096 256 fun _ => 0) [.alloc 16, .alloc 32]).map
      (fun s => (s.live 4112, (step .lp64 s (.realloc 4112 64)).isSome)) = some (some 16, true) := by
    decide +kernel
  obtain ⟨s, ran, values⟩ := Option.map_eq_some_iff.mp facts
  obtain ⟨held, taken⟩ := Prod.mk.inj values
  obtain ⟨s', taken⟩ := Option.isSome_iff_exists.mp taken
  exact ⟨s, s', ran, taken, (run_frame (by decide) ran).2.2.2 _ _ _ _ held taken⟩

end Ratlib.Gen
