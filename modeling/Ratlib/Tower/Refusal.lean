import Ratlib.Tower.Runs

/-! A request that fails at the top of a chain has changed nothing in it: each layer
passes a request on before it writes anything, and writes nothing once it is refused. -/
namespace Ratlib.Tower

variable {P : Platform} {σ : Type} {C : Checked σ} {ok : World σ → Blocks Unit → Prop}
  {g : Gen.Grain P} {buf cap : Nat}

/-- A refused request leaves the world as it was. -/
structure Steady (C : Checked σ) (ok : World σ → Blocks Unit → Prop) : Prop where
  alloc : ok w L → C.admitsAlloc w size = true → (ralcAlloc C.ralc w size).1.ptr = 0 →
    (ralcAlloc C.ralc w size).2 = w
  realloc : ok w L → (ptr = 0 ∨ L ptr = some ⟨(), oldSize⟩) → C.admitsRealloc w ptr newSize = true →
    (ralcRealloc C.ralc w ptr newSize).1.ptr = 0 → (ralcRealloc C.ralc w ptr newSize).2 = w

theorem buffer_steady : Steady (ralcGeneral P) (BufferOk g buf cap) where
  alloc {w L size} _ _ null := by
    have same := Gen.ralcGenAlloc_null null
    exact congrArg (fun answer : Reply × Gen.RalcGen × Mem => World.mk answer.2.1 answer.2.2) same
  realloc {w L ptr oldSize newSize} _ _ _ null := by
    have same := Gen.ralcGenRealloc_null null
    exact congrArg (fun answer : Reply × Gen.RalcGen × Mem => World.mk answer.2.1 answer.2.2) same

theorem arenaPush_steady (steady : Steady C ok) {w : World (Arena.RalcArena × σ)}
    (before : ArenaOk P ok w L) (admits : arenaAdmits P C w size = true)
    (null : (arenaPush P C w size).1.ptr = 0) : (arenaPush P C w size).2 = w := by
  obtain ⟨K, cs, rs, holds⟩ := before
  obtain ⟨-, requests⟩ := Bool.and_eq_true_iff.mp admits
  rw [Bool.or_eq_true, decide_eq_true_iff] at requests
  have kept : ok (below w) K := holds.inv.holding.holds.ok
  obtain ⟨full, none, refused⟩ := arenaPush_refused null
  rw [refused, steady.alloc kept (requests.resolve_left full) none]
  rfl

theorem arena_steady (steady : Steady C ok) : Steady (ralcArena P C) (ArenaOk P ok) where
  alloc before admits null := arenaPush_steady steady before admits null
  realloc {w L ptr oldSize newSize} before _ admits null := by
    by_cases old : ptr ≠ 0
    · rw [show ralcRealloc (ralcArena P C).ralc w ptr newSize = (.null, w) from if_pos old]
    · rw [show ralcRealloc (ralcArena P C).ralc w ptr newSize = arenaPush P C w newSize from
        if_neg old] at null ⊢
      have admits : arenaAdmits P C w newSize = true := by simpa [ralcArena, not_not.mp old] using admits
      exact arenaPush_steady steady before admits null

theorem ralcPoolAlloc_steady (meets : Meets P C ok) (steady : Steady C ok) {p : Pool.RalcPool} {w : World σ}
    (holds : Pool.Holds P ok () p w K cs free live) (admits : slotAdmits P C p w = true)
    (result : Pool.ralcPoolAlloc P C.ralc p w = (0, p', w')) : p' = p ∧ w' = w := by
  have asserts := slotAdmits_asserts admits
  obtain ⟨empty, grew⟩ := Pool.ralcPoolAlloc_null meets.serves holds asserts
    ((ralcPoolAlloc_guarded admits).trans result)
  obtain ⟨rfl, null, rfl⟩ := Pool.grow_failed grew
  obtain ⟨-, request⟩ := Bool.and_eq_true_iff.mp admits
  rw [Bool.or_eq_true, decide_eq_true_iff] at request
  have request := request.resolve_left (not_not_intro empty)
  rw [grow_request asserts (Nat.le_refl _) empty, guarded_alloc request] at null ⊢
  exact ⟨rfl, steady.alloc holds.ok request null⟩

theorem poolAlloc_steady (meets : Meets P C ok) (steady : Steady C ok)
    {w : World (Pool.RalcPool × σ)} (before : PoolOk P ok w L) (admits : poolAdmits P C w size = true)
    (null : (poolAlloc P C w size).1.ptr = 0) : (poolAlloc P C w size).2 = w := by
  obtain ⟨K, cs, free, live, pool⟩ := before
  obtain ⟨-, admits⟩ := Bool.and_eq_true_iff.mp admits
  rw [Bool.or_eq_true, decide_eq_true_iff] at admits
  rw [poolAlloc] at null ⊢
  split at null
  case isTrue large => rw [if_pos large]
  case isFalse fits =>
    rw [if_neg fits]
    dsimp only at null ⊢
    generalize answered : Pool.ralcPoolAlloc P C.ralc w.state.1 (below w) = answer at null ⊢
    obtain ⟨slot, p', w'⟩ := answer
    obtain rfl : slot = 0 := null
    obtain ⟨rfl, rfl⟩ := ralcPoolAlloc_steady meets steady pool.holds (admits.resolve_left fits) answered
    rfl

theorem pool_steady (meets : Meets P C ok) (steady : Steady C ok) :
    Steady (ralcPool P C) (PoolOk P ok) where
  alloc before admits null := poolAlloc_steady meets steady before admits null
  realloc {w L ptr oldSize newSize} before _ admits null := by
    by_cases old : ptr ≠ 0
    · rw [show ralcRealloc (ralcPool P C).ralc w ptr newSize = (.null, w) from if_pos old]
    · rw [show ralcRealloc (ralcPool P C).ralc w ptr newSize = poolAlloc P C w newSize from
        if_neg old] at null ⊢
      have admits : poolAdmits P C w newSize = true := by simpa [ralcPool, not_not.mp old] using admits
      exact poolAlloc_steady meets steady before admits null

section List
variable {w : World σ} {p p' : Rlist.RList} {L : Blocks Unit}

theorem rlistData_pos (e : Nat) : Rlist.data P e ≠ 0 := by
  have := P.sizeT_ge
  rw [Rlist.data, Rlist.sizeofElem]
  omega

/-- An insertion that failed is as the parent's refusal left it. -/
theorem rlistInsert_null (admits : insertAdmits P C w size = true)
    (result : Rlist.rlistInsert P C.ralc p w obj size = (0, p', w')) :
    (ralcAlloc C.ralc w (Rlist.headerSize P + size)).1.ptr = 0 ∧ p' = p ∧
      w' = (ralcAlloc C.ralc w (Rlist.headerSize P + size)).2 := by
  rw [Rlist.rlistInsert, Rlist.rlistElemAllocSize, Platform.add_of_le (insertAdmits_asserts admits).1] at result
  dsimp only at result
  split at result
  case isTrue null =>
    cases result
    exact ⟨null, rfl, rfl⟩
  case isFalse => exact absurd (congrArg Prod.fst result) (rlistData_pos _)

theorem rlistInsert_steady (steady : Steady C ok) (before : ok w L)
    (admits : insertAdmits P C w size = true)
    (result : Rlist.rlistInsert P C.ralc p w obj size = (0, p', w')) : p' = p ∧ w' = w := by
  obtain ⟨-, request⟩ := Bool.and_eq_true_iff.mp admits
  obtain ⟨null, rfl, rfl⟩ := rlistInsert_null admits result
  exact ⟨rfl, steady.alloc before request null⟩

/-- The second attempt of `rlist_resize` finds the world as the first one found it. -/
theorem rlistResize_steady (steady : Steady C ok) (before : ok w L)
    (held : L (Rlist.objBlock P obj) = some ⟨(), oldSize⟩)
    (admits : resizeAdmits P C w obj newSize = true)
    (result : Rlist.rlistResize P C.ralc p w obj newSize = (0, p', w')) : p' = p ∧ w' = w := by
  simp only [resizeAdmits, Bool.and_eq_true, decide_eq_true_eq] at admits
  obtain ⟨⟨⟨⟨fits, -⟩, fallback⟩, request⟩, second⟩ := admits
  rw [Rlist.rlistResize, Rlist.rlistElemAllocSize, Platform.add_of_le fits] at result
  have unchanged := steady.realloc before (Or.inr held) request
  generalize ralcRealloc C.ralc w (Rlist.objBlock P obj) (Rlist.headerSize P + newSize) = attempt
    at unchanged fallback second result
  obtain ⟨reply, w₁⟩ := attempt
  dsimp only at unchanged fallback second result
  split at result
  case isTrue => exact absurd (congrArg Prod.fst result) (rlistData_pos _)
  case isFalse null =>
    have null := not_not.mp null
    obtain rfl := unchanged null
    have request : C.admitsAlloc w₁ (Rlist.headerSize P + reply.actual newSize) = true := by
      simpa [null] using second
    rw [Rlist.rlistElemAllocSize, Platform.add_of_le (fallback null).1] at result
    split at result
    case isTrue null' =>
      rw [steady.alloc before request null'] at result
      cases result
      exact ⟨rfl, rfl⟩
    case isFalse => exact absurd (congrArg Prod.fst result) (rlistData_pos _)

end List

theorem objReply_null (answer : Nat × Rlist.RList × World σ)
    (null : (objReply P answer).1.ptr = 0) : ∃ p' w', answer = (0, p', w') := by
  obtain ⟨obj, p', w'⟩ := answer
  obtain rfl : obj = 0 := null
  exact ⟨p', w', rfl⟩

theorem listPush_steady (steady : Steady C ok) {w : World (Rlist.RList × σ)} (before : ListOk P ok w L)
    (admits : insertAdmits P C (below w) size = true) (null : (listPush P C w size).1.ptr = 0) :
    (listPush P C w size).2 = w := by
  obtain ⟨K, objs, list⟩ := before
  rw [listPush] at null ⊢
  obtain ⟨p', w', answered⟩ := objReply_null _ null
  obtain ⟨rfl, rfl⟩ := rlistInsert_steady steady list.holds.ok admits answered
  rw [answered]
  rfl

theorem list_steady (steady : Steady C ok) : Steady (ralcList P C) (ListOk P ok) where
  alloc before admits null := listPush_steady steady before admits null
  realloc {w L ptr oldSize newSize} before live admits null := by
    by_cases new : ptr = 0
    · rw [show ralcRealloc (ralcList P C).ralc w ptr newSize = listPush P C w newSize from
        if_pos new] at null ⊢
      exact listPush_steady steady before (by simpa [ralcList, new] using admits) null
    · obtain ⟨K, objs, list⟩ := before
      obtain ⟨found, -⟩ := list.objects ptr _ (live.resolve_left new)
      have admits : resizeAdmits P C (below w) ptr newSize = true := by
        simpa [ralcList, new] using admits
      rw [show ralcRealloc (ralcList P C).ralc w ptr newSize = objReply P
        (Rlist.rlistResize P C.ralc w.state.1 (below w) ptr newSize) from if_neg new] at null ⊢
      obtain ⟨p', w', answered⟩ := objReply_null _ null
      obtain ⟨rfl, rfl⟩ :=
        rlistResize_steady steady list.holds.ok (list.holds.held ptr found) admits answered
      rw [answered]
      rfl

/-- No chain does half of what it was asked. -/
theorem chain_steady (ls : List Layer) : Steady (chain P ls) (ChainOk g buf cap ls) := by
  induction ls with
  | nil => exact buffer_steady
  | cons l ls ih =>
    cases l with
    | arena initChunkCap => exact arena_steady ih
    | pool elemSize initChunkCap => exact pool_steady (chain_meets ls) ih
    | list => exact list_steady ih

/-- After any run, a failed request at the top leaves every layer and every byte as they
were before the call. -/
theorem refusal_unchanged {ls : List Layer} {s : Client ls} {ops : List (Op ls)}
    (region : 0 < buf ∧ buf + cap ≤ P.sizeMax)
    (asserts : ∀ l ∈ ls, l.InitAsserts P)
    (ran : run (step P ls) (start P buf cap m ls) ops = some s) :
    (∀ size, (chain P ls).admitsAlloc (world ls s) size = true →
      (ralcAlloc (chain P ls).ralc (world ls s) size).1.ptr = 0 →
      (ralcAlloc (chain P ls).ralc (world ls s) size).2 = world ls s) ∧
    ∀ ptr newSize, ptr = 0 ∨ (held P ls s ptr).isSome →
      (chain P ls).admitsRealloc (world ls s) ptr newSize = true →
      (ralcRealloc (chain P ls).ralc (world ls s) ptr newSize).1.ptr = 0 →
      (ralcRealloc (chain P ls).ralc (world ls s) ptr newSize).2 = world ls s := by
  have chained := (run_inv (Gen.Grain.two P) region asserts ran).chain
  have steady : Steady (chain P ls) (ChainOk (Gen.Grain.two P) buf cap ls) := chain_steady ls
  refine ⟨fun size => steady.alloc chained, fun ptr newSize live admits null => ?_⟩
  rcases live with rfl | live
  · have none : 0 = 0 ∨ held P ls s 0 = some ⟨(), 0⟩ := Or.inl rfl
    exact steady.realloc chained none admits null
  · obtain ⟨⟨_, size⟩, found⟩ := Option.isSome_iff_exists.mp live
    exact steady.realloc chained (Or.inr found) admits null

def threeLayers : List Layer := [.list, .arena 64, .pool 200 1]

theorem refusal_unchanged_lp64 : ∃ s,
    run (step .lp64 threeLayers) (start .lp64 4096 700 (fun _ => 0) threeLayers)
        [.insert 0 8, .insert 0 4, .resize 4208 20] = some s ∧
      (ralcRealloc (chain .lp64 threeLayers).ralc (world _ s) 4256 150).1.ptr = 0 ∧
      (ralcRealloc (chain .lp64 threeLayers).ralc (world _ s) 4256 150).2 = world _ s := by
  have facts : (run (step .lp64 threeLayers) (start .lp64 4096 700 (fun _ => 0) threeLayers)
      [.insert 0 8, .insert 0 4, .resize 4208 20]).map (fun s =>
        ((held .lp64 _ s 4256).isSome, (chain .lp64 threeLayers).admitsRealloc (world _ s) 4256 150,
          (ralcRealloc (chain .lp64 threeLayers).ralc (world _ s) 4256 150).1.ptr)) =
        some (true, true, 0) := by
    decide +kernel
  obtain ⟨s, ran, values⟩ := Option.map_eq_some_iff.mp facts
  obtain ⟨live, rest⟩ := Prod.mk.inj values
  obtain ⟨admits, null⟩ := Prod.mk.inj rest
  exact ⟨s, ran, null, (refusal_unchanged (by decide) (by decide) ran).2 _ _ (Or.inr live) admits null⟩

end Ratlib.Tower
