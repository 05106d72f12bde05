import Ratlib.Rlist.Correctness

/-! The sizes that elements record. An insertion records what it asked for or more; the
fallback of `rlist_resize` asks for whatever the refused realloc left in `newSize`. -/
namespace Ratlib.Rlist

variable {P : Platform} {σ : Type u} {ι : Type v} {A : Ralc σ} {owner : ι}
  {ok : World σ → Blocks ι → Prop} {w : World σ} {L : Blocks ι} {p : RList} {xs ys : List Nat}

theorem objElem_data : objElem P (data P e) = e := Nat.add_sub_cancel ..

/-- An insertion fails with its request, and leaves the list alone; a new element records
what the allocator reported, less the header. -/
theorem rlistInsert_size (fits : headerSize P + size ≤ P.sizeMax)
    (request : ralcAlloc A w (headerSize P + size) = (block, w'))
    (result : rlistInsert P A p w obj size = (q, p', w'')) :
    if block.ptr = 0 then q = 0 ∧ p' = p ∧ w'' = w'
    else q ≠ 0 ∧ rlistElemSize P w''.mem q = P.sub (block.actual size) (headerSize P) := by
  simp only [rlistInsert, rlistElemAllocSize, Platform.add_of_le fits, request] at result
  by_cases null : block.ptr = 0
  · rw [if_pos null] at result ⊢
    cases result
    exact ⟨rfl, rfl, rfl⟩
  · rw [if_neg null] at result ⊢
    cases result
    have := P.sizeT_ge
    refine ⟨by simp only [data, sizeofElem]; omega, ?_⟩
    rw [rlistElemSize, objElem_data]
    exact Platform.get_put (Platform.wrap_le _)

section Resize

def Resizes (P : Platform) (w : World σ) (q newSize : Nat) (result : Nat × RList × World σ) : Prop :=
  let (q', _, w') := result
  q' ≠ 0 → newSize ≤ rlistElemSize P w'.mem q' ∧
    ∀ i < min (rlistElemSize P w.mem q) newSize, w'.mem (q' + i) = w.mem (q + i)

/-- The parent resizes the block, or refuses the fallback too, or grants it a block that
has room for the new size, whatever the refused realloc left to ask for. -/
def Affords (P : Platform) (A : Ralc σ) (w : World σ) (q newSize : Nat) : Prop :=
  let (resized, w') := ralcRealloc A w (objBlock P q) (headerSize P + newSize)
  resized.ptr ≠ 0 ∨
    let fresh := (ralcAlloc A w' (headerSize P + resized.actual newSize)).1
    fresh.ptr = 0 ∨ headerSize P + newSize ≤ fresh.actual 0

theorem rlistResize_iff (serves : Serves P A owner ok limit)
    (holds : Holds P ok owner p w L (xs ++ q :: ys)) (asserts : ResizeAsserts P A limit w q newSize) :
    Resizes P w q newSize (rlistResize P A p w q newSize) ↔ Affords P A w q newSize := by
  have cases : ∀ q' p' w', rlistResize P A p w q newSize = (q', p', w') → _ :=
    fun q' p' w' => rlistResize_cases serves holds asserts
  obtain ⟨⟨representable, small⟩, fallback⟩ := asserts
  have moves := serves.realloc holds.ok (holds.held q (by simp)) small
  rw [Affords]
  rw [resizeAsks] at cases
  generalize resize : ralcRealloc A w (objBlock P q) (headerSize P + newSize) = attempt
    at moves fallback cases ⊢
  obtain ⟨resized, w₁⟩ := attempt
  generalize result : rlistResize P A p w q newSize = answer
  obtain ⟨q', p', w'⟩ := answer
  dsimp only at fallback ⊢
  by_cases moved : resized.ptr ≠ 0
  · have effect := cases q' p' w' result
    rw [if_neg moved] at effect
    refine iff_of_true (fun given => ?_) (Or.inl moved)
    rw [if_neg given] at effect
    exact ⟨effect.1, effect.2.1.bytes⟩
  · have null := not_not.mp moved
    obtain ⟨same, kept⟩ := (if_pos null).mp moves.2
    generalize request : ralcAlloc A w₁ (headerSize P + resized.actual newSize) = attempt
    obtain ⟨fresh, w₂⟩ := attempt
    have effect := rlistResize_fallback serves holds representable resize null same kept (fallback null)
      request result
    rw [or_iff_right moved]
    split at effect
    case isTrue refused =>
      exact iff_of_true (fun given => absurd effect.1 given) (Or.inl refused)
    case isFalse granted =>
      obtain ⟨actual, out, large, positive, size, replaced, -⟩ := effect
      rw [or_iff_right granted, Reply.actual, out, Option.getD_some]
      constructor
      · intro resizes
        have := (resizes positive).1
        omega
      · intro room _
        exact ⟨by omega, fun i low => replaced.bytes i (by omega)⟩

/-- After any run, `rlist_resize` of a live element gives it the new size and keeps its
bytes if and only if the parent affords it. -/
theorem resize_sizes_iff (serves : Serves P A owner ok limit) (initial : ok w L)
    (ran : run (step P A limit) (start w) ops = some s) (member : q ∈ s.live)
    (asserts : ResizeAsserts P A limit s.world q newSize) :
    Resizes P s.world q newSize (rlistResize P A s.list s.world q newSize) ↔
      Affords P A s.world q newSize := by
  obtain ⟨L', holds⟩ := run_invariant (Inv P ok owner) (fun _ _ _ => step_inv serves)
    (inv_start initial) ran
  obtain ⟨xs, ys, same⟩ := List.append_of_mem member
  rw [same] at holds
  exact rlistResize_iff serves holds asserts

/-- An allocator that refuses every resize, and writes 0 for the size. -/
def allocOnly (A : Ralc σ) : Ralc σ where
  alloc := A.alloc
  realloc w _ _ := (⟨0, some 0⟩, w)
  free := A.free

theorem allocOnly_serves (serves : Serves P A owner ok limit) : Serves P (allocOnly A) owner ok limit where
  bounds := serves.bounds
  separate := serves.separate
  client := serves.client
  alloc := serves.alloc
  realloc_null before _ := ⟨fun _ _ => rfl, (if_pos rfl).mpr before⟩
  realloc before _ _ := ⟨fun _ _ => rfl, (if_pos rfl).mpr ⟨fun _ _ => rfl, before⟩⟩
  free := serves.free

theorem resize_sizes_iff_lp64 : ∃ s, run (step .lp64 (Gen.ralcGen .lp64) 4096) (start Gen.kib)
      [.insert 0 4, .insert 0 8, .write 4144 3 7] = some s ∧
    Resizes .lp64 s.world 4144 60 (rlistResize .lp64 (Gen.ralcGen .lp64) s.list s.world 4144 60) := by
  have facts : (run (step .lp64 (Gen.ralcGen .lp64) 4096) (start Gen.kib)
      [.insert 0 4, .insert 0 8, .write 4144 3 7]).map (fun s =>
        (decide (4144 ∈ s.live), decide (ResizeAsserts .lp64 (Gen.ralcGen .lp64) 4096 s.world 4144 60),
          (ralcRealloc (Gen.ralcGen .lp64) s.world (objBlock .lp64 4144)
            (headerSize .lp64 + 60)).1.ptr)) = some (true, true, 4240) := by
    decide +kernel
  obtain ⟨s, ran, values⟩ := Option.map_eq_some_iff.mp facts
  obtain ⟨member, rest⟩ := Prod.mk.inj values
  obtain ⟨asserts, ptr⟩ := Prod.mk.inj rest
  exact ⟨s, ran, (resize_sizes_iff (Gen.kib_serves ()) Gen.kib_ok ran (of_decide_eq_true member)
    (of_decide_eq_true asserts)).mpr (Or.inl (ne_of_eq_of_ne ptr (by decide)))⟩

/-- An element that grows from 16 bytes to 64 is left with none: the fallback asks for a
header and the 0 bytes that the refused realloc wrote. -/
theorem resize_loses_size : ∃ (ok : World Gen.RalcGen → Blocks Unit → Prop) (s : State Gen.RalcGen),
    Serves .lp64 (allocOnly (Gen.ralcGen .lp64)) () ok 4096 ∧ ok Gen.kib (fun _ => none) ∧
      run (step .lp64 (allocOnly (Gen.ralcGen .lp64)) 4096) (start Gen.kib)
        [.insert 0 4, .insert 0 8, .write 4144 3 7] = some s ∧
      4144 ∈ s.live ∧ ResizeAsserts .lp64 (allocOnly (Gen.ralcGen .lp64)) 4096 s.world 4144 64 ∧
      ¬Resizes .lp64 s.world 4144 64
        (rlistResize .lp64 (allocOnly (Gen.ralcGen .lp64)) s.list s.world 4144 64) := by
  have facts : (run (step .lp64 (allocOnly (Gen.ralcGen .lp64)) 4096) (start Gen.kib)
      [.insert 0 4, .insert 0 8, .write 4144 3 7]).map (fun s =>
        let (q, _, w) := rlistResize .lp64 (allocOnly (Gen.ralcGen .lp64)) s.list s.world 4144 64
        (decide (4144 ∈ s.live),
          decide (ResizeAsserts .lp64 (allocOnly (Gen.ralcGen .lp64)) 4096 s.world 4144 64), q,
          rlistElemSize .lp64 w.mem q)) = some (true, true, 4272, 0) := by
    decide +kernel
  obtain ⟨s, ran, values⟩ := Option.map_eq_some_iff.mp facts
  refine ⟨_, s, allocOnly_serves (Gen.kib_serves ()), Gen.kib_ok, ran, ?_⟩
  generalize rlistResize .lp64 (allocOnly (Gen.ralcGen .lp64)) s.list s.world 4144 64 = result at values ⊢
  obtain ⟨q, p, w⟩ := result
  simp only [Prod.mk.injEq] at values
  obtain ⟨member, asserts, ptr, size⟩ := values
  refine ⟨of_decide_eq_true member, of_decide_eq_true asserts, fun resizes => ?_⟩
  have := (resizes (ne_of_eq_of_ne ptr (by decide))).1
  omega

end Resize

end Ratlib.Rlist
