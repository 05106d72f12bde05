import Ratlib.Tower.Contract
import Ratlib.Rlist.Correctness

/-! A linked list as a layer of a chain: it meets the contract if its parent does. -/
namespace Ratlib.Tower

variable {P : Platform} {σ : Type} {C : Checked σ} {ok : World σ → Blocks Unit → Prop}
  {w : World (Rlist.RList × σ)} {L L' K : Blocks Unit} {objs xs ys : List Nat} {m' : Mem}

section Guarded
variable {p : Rlist.RList} {w : World σ}

theorem insertAdmits_asserts (admits : insertAdmits P C w size = true) :
    Rlist.AllocAsserts P P.sizeMax size := of_decide_eq_true (Bool.and_eq_true_iff.mp admits).1

/-- What `rlist_insert` does under the assertions about sizes. -/
theorem rlistInsert_guarded (admits : insertAdmits P C w size = true) :
    Rlist.rlistInsert P C.guarded p w obj size = Rlist.rlistInsert P C.ralc p w obj size := by
  obtain ⟨-, request⟩ := Bool.and_eq_true_iff.mp admits
  have asserts := insertAdmits_asserts admits
  simp only [Rlist.rlistInsert, Rlist.rlistElemAllocSize, Platform.add_of_le asserts.1,
    guarded_alloc request]

/-- What `rlist_resize` does under the assertions about sizes. -/
theorem rlistResize_guarded (admits : resizeAdmits P C w obj newSize = true) :
    Rlist.rlistResize P C.guarded p w obj newSize = Rlist.rlistResize P C.ralc p w obj newSize ∧
      Rlist.ResizeAsserts P C.guarded P.sizeMax w obj newSize := by
  simp only [resizeAdmits, Bool.and_eq_true, decide_eq_true_eq] at admits
  obtain ⟨⟨asserts, request⟩, second⟩ := admits
  have same := guarded_realloc request
  refine ⟨?_, by rwa [Rlist.ResizeAsserts, same]⟩
  obtain ⟨⟨fits, -⟩, fallback⟩ := asserts
  simp only [Rlist.rlistResize, Rlist.rlistElemAllocSize, Platform.add_of_le fits, same]
  generalize ralcRealloc C.ralc w (Rlist.objBlock P obj) (Rlist.headerSize P + newSize) = attempt
    at fallback second ⊢
  obtain ⟨reply, w₁⟩ := attempt
  dsimp only at fallback second ⊢
  by_cases null : reply.ptr = 0
  · rw [null] at second
    rw [Platform.add_of_le (fallback null).1, guarded_alloc second]
    rfl
  · rw [if_pos null, if_pos null]

theorem freeRun_guarded (w : World σ) (e count : Nat) :
    Rlist.freeRun P C.guarded w e count = Rlist.freeRun P C.ralc w e count := by
  induction count generalizing w e with
  | zero => rfl
  | succ count ih => exact ih _ _

theorem rlistRemove_guarded : Rlist.rlistRemove P C.guarded p w obj count =
    Rlist.rlistRemove P C.ralc p w obj count := by
  simp only [Rlist.rlistRemove, freeRun_guarded]

end Guarded

/-- The held ranges are elements of a list over a parent that keeps `ok`. -/
structure ListHolds (P : Platform) (ok : World σ → Blocks Unit → Prop) (w : World (Rlist.RList × σ))
    (L K : Blocks Unit) (objs : List Nat) : Prop where
  holds : Rlist.Holds P ok () w.state.1 (below w) K objs
  objects : ∀ a block, L a = some block → a ∈ objs ∧ block.size = Rlist.rlistElemSize P w.mem a

def ListOk (P : Platform) (ok : World σ → Blocks Unit → Prop) (w : World (Rlist.RList × σ))
    (L : Blocks Unit) : Prop :=
  ∃ K objs, ListHolds P ok w L K objs

theorem ListHolds.element (list : ListHolds P ok w L K objs) (member : x ∈ L.bytes) :
    ∃ q ∈ objs, x ∈ Set.Ico q (q + Rlist.rlistElemSize P w.mem q) := by
  obtain ⟨a, block, held, inside⟩ := member
  obtain ⟨found, size⟩ := list.objects a block held
  exact ⟨a, found, size ▸ inside⟩

theorem ListHolds.client (serves : Serves P A () ok limit) (list : ListHolds P ok w L K objs)
    (same : Set.EqOn w.mem m' L.bytesᶜ) : ListHolds P ok { w with mem := m' } L K objs := by
  obtain ⟨holds, sizes⟩ := list.holds.client serves (m := m') fun x away => (same fun member => by
    obtain ⟨q, found, low, high⟩ := list.element member
    have := away q found
    dsimp only [below] at this
    omega).symm
  refine ⟨holds, fun a block held => ?_⟩
  obtain ⟨found, size⟩ := list.objects a block held
  exact ⟨found, size.trans (sizes a found).symm⟩

/-- Held ranges among elements that stayed keep their bytes. -/
theorem kept_bytes (objects : ∀ a block, L a = some block →
      a ∈ objs ∧ block.size = Rlist.rlistElemSize P w.mem a)
    (unmoved : Rlist.Unmoved P w.mem m' objs) : Set.EqOn w.mem m' L.bytes := by
  rintro x ⟨a, block, held, inside⟩
  obtain ⟨found, size⟩ := objects a block held
  exact (unmoved a found).2 (size ▸ inside)

/-- One more element is held. -/
theorem kept_grant {w' : World (Rlist.RList × σ)} {q : Nat}
    (objects : ∀ a block, L a = some block →
      a ∈ xs ++ ys ∧ block.size = Rlist.rlistElemSize P w.mem a)
    (unmoved : Rlist.Unmoved P w.mem w'.mem (xs ++ ys))
    (holds : Rlist.Holds P ok () w'.state.1 (below w') K (xs ++ q :: ys)) :
    ListHolds P ok w' (L.grant q () (Rlist.rlistElemSize P w'.mem q)) K (xs ++ q :: ys) := by
  refine ⟨holds, fun a block held => ?_⟩
  rcases Blocks.grant_some held with ⟨rfl, rfl⟩ | ⟨-, held⟩
  · exact ⟨by simp, rfl⟩
  · obtain ⟨found, size⟩ := objects a block held
    exact ⟨mem_around_cons found, size.trans (unmoved a found).1.symm⟩

/-- `rlist_push` as an allocator's answer. -/
theorem ListHolds.granted (serves : Serves P C.guarded () ok P.sizeMax)
    (list : ListHolds P ok w L K objs) (admits : insertAdmits P C (below w) size = true) :
    Granted (ListOk P ok) () w L size (listPush P C w size) := by
  have result : Rlist.rlistInsert P C.guarded w.state.1 (below w) 0 size =
      Rlist.rlistInsert P C.ralc w.state.1 (below w) 0 size := rlistInsert_guarded admits
  rw [listPush]
  generalize Rlist.rlistInsert P C.ralc w.state.1 (below w) 0 size = answer at result ⊢
  obtain ⟨q, p', w'⟩ := answer
  have holds : Rlist.Holds P ok () w.state.1 (below w) K (objs ++ []) := by simpa using list.holds
  obtain ⟨unmoved, effect⟩ :=
    Rlist.rlistInsert_cases serves holds (insertAdmits_asserts admits) result
  have objects : ∀ a block, L a = some block →
      a ∈ objs ++ [] ∧ block.size = Rlist.rlistElemSize P w.mem a := by simpa using list.objects
  refine ⟨kept_bytes objects unmoved, ?_⟩
  split at effect
  case isTrue null =>
    obtain ⟨rfl, kept⟩ := effect
    refine (if_pos null).mpr ⟨K, objs ++ [], kept, fun a block held => ?_⟩
    obtain ⟨found, size⟩ := objects a block held
    exact ⟨found, size.trans (unmoved a found).1.symm⟩
  case isFalse some =>
    obtain ⟨new, large, K', kept, -⟩ := effect
    refine (if_neg some).mpr ⟨_, if_pos some, large, ?_, K', _, kept_grant objects unmoved kept⟩
    rw [Option.eq_none_iff_forall_ne_some]
    exact fun block held => new (objects q block held).1

theorem ListHolds.others (list : ListHolds P ok w L K (xs ++ ptr :: ys)) (a : Nat) (block : Block Unit)
    (kept : L.release ptr a = some block) :
    a ∈ xs ++ ys ∧ block.size = Rlist.rlistElemSize P w.mem a := by
  obtain ⟨different, kept⟩ := Blocks.release_some kept
  obtain ⟨found, size⟩ := list.objects a block kept
  refine ⟨?_, size⟩
  simp only [List.mem_append, List.mem_cons] at found ⊢
  tauto

/-- `rlist_resize` as an allocator's answer. -/
theorem ListHolds.regranted (meets : Meets P C ok) (list : ListHolds P ok w L K objs)
    (held : L ptr = some ⟨(), oldSize⟩) (admits : resizeAdmits P C (below w) ptr newSize = true) :
    Regranted (ListOk P ok) () w L ptr oldSize newSize
      (objReply P (Rlist.rlistResize P C.ralc w.state.1 (below w) ptr newSize)) := by
  obtain ⟨member, size⟩ := list.objects ptr _ held
  obtain ⟨xs, ys, rfl⟩ := List.append_of_mem member
  obtain ⟨result, asserts⟩ := rlistResize_guarded (p := w.state.1) admits
  generalize Rlist.rlistResize P C.ralc w.state.1 (below w) ptr newSize = answer at result ⊢
  obtain ⟨q, p', w'⟩ := answer
  have effect := Rlist.rlistResize_cases meets.serves list.holds asserts result
  have asks : Rlist.resizeAsks P C.guarded (below w) ptr newSize = newSize := by
    simp only [resizeAdmits, Bool.and_eq_true] at admits
    rw [Rlist.resizeAsks, guarded_realloc admits.1.2]
    split
    case isTrue null => rw [meets.refuses _ _ _ null, Reply.actual, Reply.null, Option.getD_none]
    case isFalse => rfl
  have others := list.others
  rw [asks] at effect
  split at effect
  case isTrue null =>
    obtain ⟨rfl, kept, same⟩ := effect
    have unmoved := list.holds.unmoved meets.serves same
    have bytes : Set.EqOn w.mem w'.mem L.bytes := kept_bytes list.objects unmoved
    refine ⟨fun x found => bytes (Blocks.bytes_release_subset found), (if_pos null).mpr ?_⟩
    refine ⟨bytes, K, _, kept, fun a block held => ?_⟩
    obtain ⟨found, size⟩ := list.objects a block held
    exact ⟨found, size.trans (unmoved a found).1.symm⟩
  case isFalse some =>
    obtain ⟨large, replaced, K', kept⟩ := effect
    refine ⟨kept_bytes others replaced.unmoved, (if_neg some).mpr ?_⟩
    refine ⟨_, if_pos some, large, ?_, ⟨K', _, kept_grant others replaced.unmoved kept⟩, ?_⟩
    · rw [Option.eq_none_iff_forall_ne_some]
      exact fun block held => replaced.new (others q block held).1
    · exact fun i low => replaced.bytes i (size ▸ low)

/-- `rlist_remove` of one element. -/
theorem ListHolds.freed (serves : Serves P C.guarded () ok P.sizeMax)
    (list : ListHolds P ok w L K objs) (held : L ptr = some ⟨(), size⟩) :
    Set.EqOn w.mem (ralcFree (ralcList P C).ralc w ptr).mem (L.release ptr).bytes ∧
      ListOk P ok (ralcFree (ralcList P C).ralc w ptr) (L.release ptr) := by
  obtain ⟨member, -⟩ := list.objects ptr _ held
  obtain ⟨xs, ys, rfl⟩ := List.append_of_mem member
  have holds : Rlist.Holds P ok () w.state.1 (below w) K (xs ++ ptr :: [] ++ ys) := by
    simpa using list.holds
  have result : Rlist.rlistRemove P C.guarded w.state.1 (below w) ptr 1 =
      Rlist.rlistRemove P C.ralc w.state.1 (below w) ptr 1 := rlistRemove_guarded
  change _ ∧ ListOk P ok (above (Rlist.rlistRemove P C.ralc w.state.1 (below w) ptr 1).2.1
    (Rlist.rlistRemove P C.ralc w.state.1 (below w) ptr 1).2.2) _
  change Set.EqOn w.mem (Rlist.rlistRemove P C.ralc w.state.1 (below w) ptr 1).2.2.mem _ ∧ _
  generalize Rlist.rlistRemove P C.ralc w.state.1 (below w) ptr 1 = answer at result ⊢
  obtain ⟨q, p', w'⟩ := answer
  obtain ⟨-, unmoved, K', kept⟩ := Rlist.rlistRemove_cases serves holds result
  have others := list.others
  refine ⟨kept_bytes others unmoved, K', xs ++ ys, kept, fun a block held => ?_⟩
  obtain ⟨found, size⟩ := others a block held
  exact ⟨found, size.trans (unmoved a found).1.symm⟩

/-- A list over an allocator that meets the contract meets it. -/
theorem ralcList_meets (meets : Meets P C ok) : Meets P (ralcList P C) (ListOk P ok) where
  bounds {w L a block} := by
    rintro ⟨K, objs, list⟩ held
    obtain ⟨found, size⟩ := list.objects a block held
    have := Rlist.above_of_held meets.serves list.holds.ok (list.holds.held a found)
    dsimp only [below] at this
    omega
  separate {w L} := by
    rintro ⟨K, objs, list⟩ a b x y heldA heldB different
    obtain ⟨a_mem, size⟩ := list.objects a x heldA
    obtain ⟨b_mem, size'⟩ := list.objects b y heldB
    have above := Rlist.above_of_held meets.serves list.holds.ok (list.holds.held a a_mem)
    have above' := Rlist.above_of_held meets.serves list.holds.ok (list.holds.held b b_mem)
    have other := Rlist.objBlock_ne above.1 above'.1 different
    have := meets.separate list.holds.ok _ _ _ _ (list.holds.held a a_mem) (list.holds.held b b_mem) other
    simp only [Rlist.objBlock, below] at this
    omega
  client := by
    rintro w L m' ⟨K, objs, list⟩ same
    exact ⟨K, objs, list.client meets.serves same⟩
  alloc {w L size} := by
    rintro ⟨K, objs, list⟩ admits
    exact list.granted meets.serves admits
  realloc_null {w L size} := by
    rintro ⟨K, objs, list⟩ admits
    have admits : insertAdmits P C (below w) size = true := by simpa [ralcList] using admits
    simpa [ralcRealloc, ralcList] using list.granted meets.serves admits
  realloc {w L ptr oldSize newSize} := by
    rintro ⟨K, objs, list⟩ held admits
    obtain ⟨found, -⟩ := list.objects ptr _ held
    have above := list.holds.above meets.serves found
    have some : ptr ≠ 0 := by omega
    have admits : resizeAdmits P C (below w) ptr newSize = true := by
      simpa [ralcList, some] using admits
    simpa [ralcRealloc, ralcList, some] using list.regranted meets held admits
  free {w L ptr size} := by
    rintro ⟨K, objs, list⟩ held
    exact list.freed meets.serves held
  refuses w ptr newSize null := by
    have quiet : ∀ answer : Nat × Rlist.RList × World σ,
        (objReply P answer).1.ptr = 0 → (objReply P answer).1 = .null := by
      rintro ⟨obj, p, w'⟩ null
      obtain rfl : obj = 0 := null
      rfl
    have answers : ∃ answer, ralcRealloc (ralcList P C).ralc w ptr newSize = objReply P answer := by
      by_cases new : ptr = 0
      · exact ⟨_, if_pos new⟩
      · exact ⟨_, if_neg new⟩
    obtain ⟨answer, same⟩ := answers
    rw [same] at null ⊢
    exact quiet answer null

end Ratlib.Tower
