import Ratlib.Alloc.Interface

/-! Blocks that change places, by a successful realloc or by a new block that is filled
before the old one is freed, and blocks freed one after the other. -/
namespace Ratlib

variable {P : Platform} {σ : Type u} {ι : Type v} {A : Ralc σ} {owner : ι}
  {ok : World σ → Blocks ι → Prop} {w w₁ w' : World σ} {L : Blocks ι} {reply : Reply}

/-- The block at `ptr` lies at `ptr'`, where it begins with its first `n` bytes. -/
structure Relocated (ok : World σ → Blocks ι → Prop) (owner : ι) (w : World σ) (L : Blocks ι)
    (ptr n ptr' actual : Nat) (w' : World σ) : Prop where
  nonnull : ptr' ≠ 0
  fresh : L.release ptr ptr' = none
  ok : ok w' ((L.release ptr).grant ptr' owner actual)
  others : Set.EqOn w.mem w'.mem (L.release ptr).bytes
  bytes : ∀ i < n, w'.mem (ptr' + i) = w.mem (ptr + i)

theorem Regranted.relocated (regranted : Regranted ok owner w L ptr oldSize newSize (reply, w'))
    (nonnull : reply.ptr ≠ 0) : ∃ actual, reply.out = some actual ∧ newSize ≤ actual ∧
      Relocated ok owner w L ptr (min oldSize newSize) reply.ptr actual w' := by
  obtain ⟨others, outcome⟩ := regranted
  rw [if_neg nonnull] at outcome
  obtain ⟨actual, out, large, fresh, kept, bytes⟩ := outcome
  exact ⟨actual, out, large, nonnull, fresh, kept, others, bytes⟩

theorem Relocated.blocks (relocated : Relocated ok owner w L ptr n ptr' actual w')
    (held : L a = some block) (other : a ≠ ptr) :
    a ≠ ptr' ∧ (L.release ptr).grant ptr' owner actual a = L a := by
  have kept : L.release ptr a = L a := Blocks.release_other other
  have different : a ≠ ptr' := Blocks.ne_of_fresh (kept.trans held) relocated.fresh
  exact ⟨different, by rw [Blocks.grant_other different, kept]⟩

/-- A new block, and the bytes its owner gave it before freeing the old one. -/
theorem Serves.replace (serves : Serves P A owner ok limit) (held : L ptr = some ⟨owner, oldSize⟩)
    (same : Set.EqOn w.mem w₁.mem L.bytes) (fresh : L ptr' = none)
    (granted : ok w₁ (L.grant ptr' owner actual))
    (inside : ∀ x, x < ptr' ∨ ptr' + actual ≤ x → m x = w₁.mem x) :
    let freed := ralcFree A { w₁ with mem := m } ptr
    L.release ptr ptr' = none ∧ ok freed ((L.release ptr).grant ptr' owner actual) ∧
      Set.EqOn w.mem freed.mem (L.release ptr).bytes ∧
      ∀ i < actual, freed.mem (ptr' + i) = m (ptr' + i) := by
  intro freed
  have different := Blocks.ne_of_fresh held fresh
  obtain ⟨others, filled⟩ := serves.fill same fresh granted inside
  obtain ⟨kept, left⟩ := serves.free filled (Blocks.grant_kept fresh held)
  rw [Blocks.grant_release different] at kept left
  have new : (L.release ptr).grant ptr' owner actual ptr' = some ⟨owner, actual⟩ :=
    Blocks.grant_same
  have fresh' : L.release ptr ptr' = none := by rwa [Blocks.release_other (Ne.symm different)]
  refine ⟨fresh', left, fun x member => ?_, fun i low =>
    (kept (Blocks.mem_bytes new (by dsimp only; omega))).symm⟩
  exact (others (Blocks.bytes_release_subset member)).trans
    (kept (Blocks.bytes_subset_grant fresh' member))

/-- A new block that begins with a copy of the old one. -/
theorem Serves.copied (serves : Serves P A owner ok limit) (held : L ptr = some ⟨owner, oldSize⟩)
    (same : Set.EqOn w.mem w₁.mem L.bytes) (nonnull : ptr' ≠ 0) (fresh : L ptr' = none)
    (granted : ok w₁ (L.grant ptr' owner actual)) (short : n ≤ oldSize) (room : n ≤ actual) :
    Relocated ok owner w L ptr n ptr' actual
      (ralcFree A { w₁ with mem := w₁.mem.copy ptr' ptr n } ptr) := by
  have inside : ∀ x, x < ptr' ∨ ptr' + actual ≤ x → w₁.mem.copy ptr' ptr n x = w₁.mem x :=
    fun x outside => Mem.copy_out (by omega)
  obtain ⟨fresh', freed, others, bytes⟩ := serves.replace held same fresh granted inside
  refine ⟨nonnull, fresh', freed, others, ?_⟩
  intro i low
  rw [bytes i (by omega), Mem.copy_in low]
  exact (same (Blocks.mem_bytes held (by dsimp only; omega))).symm

/-- The allocator granted one block more, and its client wrote into its blocks only. -/
structure Extended (A : Ralc σ) (ok : World σ → Blocks ι → Prop) (w : World σ) (request : Nat)
    (w' : World σ) (L' : Blocks ι) : Prop where
  granted : (ralcAlloc A w request).1.ptr ≠ 0
  ok : ok (ralcAlloc A w request).2 L'
  state : w'.state = (ralcAlloc A w request).2.state
  outside : Set.EqOn (ralcAlloc A w request).2.mem w'.mem L'.bytesᶜ

def freeAll (A : Ralc σ) (w : World σ) (blocks : List Nat) : World σ := blocks.foldl (ralcFree A) w

@[simp] theorem freeAll_nil : freeAll A w [] = w := rfl
@[simp] theorem freeAll_cons : freeAll A w (b :: bs) = freeAll A (ralcFree A w b) bs := rfl

theorem freeAll_append : freeAll A w (bs ++ cs) = freeAll A (freeAll A w bs) cs := List.foldl_append

theorem Serves.freeAll {blocks : List Nat} (serves : Serves P A owner ok limit) (before : ok w L)
    (nodup : blocks.Nodup) (held : ∀ b ∈ blocks, ∃ size, L b = some ⟨owner, size⟩) :
    Set.EqOn w.mem (freeAll A w blocks).mem (L.without blocks).bytes ∧
      ok (freeAll A w blocks) (L.without blocks) := by
  induction blocks generalizing w L with
  | nil => exact ⟨fun _ _ => rfl, by rwa [Blocks.without_nil]⟩
  | cons b bs ih =>
    obtain ⟨outside, nodup⟩ := List.nodup_cons.mp nodup
    obtain ⟨size, here⟩ := held b List.mem_cons_self
    obtain ⟨kept, left⟩ := serves.free before here
    have held' : ∀ c ∈ bs, ∃ size, L.release b c = some ⟨owner, size⟩ := by
      intro c member
      rw [Blocks.release_other (ne_of_mem_of_not_mem member outside)]
      exact held c (List.mem_cons_of_mem _ member)
    obtain ⟨kept', left'⟩ := ih left nodup held'
    rw [Blocks.without_cons, freeAll_cons]
    exact ⟨fun x member => (kept (Blocks.bytes_without_subset member)).trans (kept' member), left'⟩

end Ratlib
