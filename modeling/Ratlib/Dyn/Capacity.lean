import Ratlib.Dyn.Correctness
import Ratlib.Alloc.Fresh
import Ratlib.Alloc.Relocation
import Ratlib.Tower.Arenas

/-! When `rdyn_setCap` keeps the elements it goes on to count. The copy of its fallback
stops at the requested capacity, the count only at the capacity of the rounded block. -/
namespace Ratlib.Dyn

open Arr

variable {P : Platform} {σ : Type u} {ι : Type v} {A : Ralc σ} {owner : ι}
  {ok : World σ → Blocks ι → Prop} {w : World σ} {L : Blocks ι} {p : RDyn}

/-- What a successful call has to keep: the array counts old elements only, each with
its bytes, and no more than its capacity. -/
def Carries (p : RDyn) (w : World σ) : Bool × RDyn × World σ → Prop
  | (true, p', w') => p'.count ≤ p'.cap ∧ p'.count ≤ p.count ∧
      ∀ i < p'.count, elem w'.mem p'.buf p'.elemSize i = elem w.mem p.buf p.elemSize i
  | (false, _, _) => True

/-- The parent resizes the block and carries over all elements its new size has room
for, or gives no block, or gives a block without room for more than `newCap`. -/
def Spares (A : Ralc σ) (p : RDyn) (w : World σ) (newCap : Nat) : Prop :=
  let (resized, w') := ralcRealloc A w p.buf (newCap * p.elemSize)
  if resized.ptr ≠ 0 then
    ∀ i < min p.count (resized.actual 0 / p.elemSize),
      elem w'.mem resized.ptr p.elemSize i = elem w.mem p.buf p.elemSize i
  else
    let fresh := (ralcAlloc A w' (newCap * p.elemSize)).1
    fresh.ptr = 0 ∨ fresh.actual (resized.actual 0) / p.elemSize ≤ newCap

/-- A request beyond the number of elements carries them all over. -/
theorem rdynSetCap_grows (serves : Serves P A owner ok limit) (holds : Holds ok owner p w L)
    (positive : 0 < newCap) (fits : newCap * p.elemSize ≤ P.sizeMax)
    (small : newCap * p.elemSize ≤ limit) (enough : p.count ≤ newCap) :
    Carries p w (rdynSetCap P A p w newCap) := by
  have copied : (if p.count < newCap then p.count else newCap) = p.count := by
    split <;> omega
  simp only [rdynSetCap, if_neg (Nat.ne_of_gt positive), copied]
  have cases := reallocBuf_cases serves holds (Nat.le_refl p.count) enough fits small
  generalize reallocBuf P A p w newCap p.count = attempt at cases ⊢
  obtain ⟨none | ⟨newArr, newCap'⟩, w'⟩ := attempt
  case none => exact True.intro
  case some =>
    have larger : newCap ≤ newCap' := Moved.larger cases
    have count : (if p.count > newCap' then newCap' else p.count) = p.count := by
      split <;> omega
    simp only [Carries, count]
    refine ⟨by omega, Nat.le_refl _, fun i low => elem_congr fun k inside => ?_⟩
    rw [Nat.add_assoc, Nat.add_assoc]
    exact Moved.bytes cases _ (offset_lt low inside)

/-- A request below the number of elements, by what the parent answers. -/
theorem rdynSetCap_shrinks (fits : newCap * p.elemSize ≤ P.sizeMax) (positive : 0 < newCap)
    (few : newCap < p.count) (nonnull : p.buf ≠ 0)
    (resize : ralcRealloc A w p.buf (newCap * p.elemSize) = (resized, w₁))
    (alloc : ralcAlloc A w₁ (newCap * p.elemSize) = (fresh, w₂)) :
    let become := fun buf cap => { p with buf := buf, cap := cap, count := min p.count cap }
    rdynSetCap P A p w newCap =
      if resized.ptr ≠ 0 then (true, become resized.ptr (resized.actual 0 / p.elemSize), w₁)
      else if fresh.ptr = 0 then (false, p, w₂)
      else (true, become fresh.ptr (fresh.actual (resized.actual 0) / p.elemSize),
        ralcFree A { w₂ with mem := w₂.mem.copy fresh.ptr p.buf (newCap * p.elemSize) } p.buf) := by
  have copied : (if p.count < newCap then p.count else newCap) = newCap := if_neg (by omega)
  have clamp : ∀ cap, (if p.count > cap then cap else p.count) = min p.count cap := by
    intro cap
    split <;> omega
  rw [← Platform.mul_of_le fits] at resize alloc
  simp only [rdynSetCap, if_neg (Nat.ne_of_gt positive), copied, reallocBuf_ends resize alloc,
    Platform.mul_of_le fits, if_pos nonnull, clamp]
  by_cases moved : resized.ptr ≠ 0
  · simp only [if_pos moved]
  · by_cases null : fresh.ptr = 0
    · simp only [if_neg moved, if_pos null]
    · simp only [if_neg moved, if_neg null]

/-- The fallback copies `newCap` elements and leaves the rest of the new block alone. -/
theorem fallback_bytes (serves : Serves P A owner ok limit) (holds : Holds ok owner p w L)
    (nonnull : p.buf ≠ 0) (few : newCap < p.count) (same : Set.EqOn w.mem w₁.mem L.bytes)
    (granted : Granted ok owner w₁ L (newCap * p.elemSize) (fresh, w₂)) (some : fresh.ptr ≠ 0) :
    let freed := ralcFree A { w₂ with mem := w₂.mem.copy fresh.ptr p.buf (newCap * p.elemSize) } p.buf
    newCap * p.elemSize ≤ fresh.actual 0 ∧
      (∀ x < newCap * p.elemSize, freed.mem (fresh.ptr + x) = w.mem (p.buf + x)) ∧
      ∀ x, newCap * p.elemSize ≤ x → x < fresh.actual 0 →
        freed.mem (fresh.ptr + x) = w₂.mem (fresh.ptr + x) := by
  intro freed
  obtain ⟨size, held, -⟩ := holds.block nonnull
  obtain ⟨same', outcome⟩ := granted
  rw [if_neg some] at outcome
  obtain ⟨actual, out, large, unused, kept⟩ := outcome
  dsimp only at same' out unused kept
  have total : fresh.actual 0 = actual := by rw [Reply.actual, out, Option.getD_some]
  obtain ⟨-, -, -, bytes⟩ := serves.replace (m := w₂.mem.copy fresh.ptr p.buf (newCap * p.elemSize))
    held (same.trans same') unused kept fun x away => Mem.copy_out (by omega)
  have used := Nat.mul_le_mul_right p.elemSize (Nat.le_of_lt few)
  rw [total]
  refine ⟨large, fun x low => ?_, fun x high low => ?_⟩
  · rw [bytes x (by omega), Mem.copy_in low]
    exact ((same.trans same') (holds.used (by omega))).symm
  · rw [bytes x low, Mem.copy_out (by omega)]

theorem elem_byte (same : elem m a elemSize i = elem m' b elemSize i) (positive : 0 < elemSize) :
    m (a + i * elemSize) = m' (b + i * elemSize) := by
  obtain ⟨n, rfl⟩ := Nat.exists_eq_succ_of_ne_zero (Nat.ne_of_gt positive)
  simp only [elem, Mem.read, List.range_succ_eq_map, List.map_cons, List.cons.injEq] at same
  exact same.1

/-- The fallback keeps the elements counted if the block has no room for more than are
copied; otherwise some bytes in the rest of the block differ from the old ones. -/
theorem fallback_iff (serves : Serves P A owner ok limit) (holds : Holds ok owner p w L)
    (nonnull : p.buf ≠ 0) (few : newCap < p.count) (same : Set.EqOn w.mem w₁.mem L.bytes)
    (granted : Granted ok owner w₁ L (newCap * p.elemSize) (fresh, w₂)) (some : fresh.ptr ≠ 0) :
    (∀ bytes, Carries p w
      (true, { p with buf := fresh.ptr, cap := fresh.actual 0 / p.elemSize,
                      count := min p.count (fresh.actual 0 / p.elemSize) },
        ralcFree (scribbled A bytes) { w₂ with
          mem := (fill bytes fresh w₂.mem).copy fresh.ptr p.buf (newCap * p.elemSize) } p.buf)) ↔
      fresh.actual 0 / p.elemSize ≤ newCap := by
  have parts := fun bytes => fallback_bytes (scribbled_serves serves bytes) holds nonnull few same
    (granted.filled serves bytes) some
  constructor
  · intro carries
    by_contra room
    let different : Mem := fun x => w.mem (p.buf + (x - fresh.ptr)) + 1
    obtain ⟨large, -, rest⟩ := parts different
    obtain ⟨-, -, kept⟩ := carries different
    have inside : newCap * p.elemSize < fresh.actual 0 := by
      have beyond := Nat.mul_le_mul_right p.elemSize (Nat.lt_of_not_le room)
      have within := Nat.div_mul_le_self (fresh.actual 0) p.elemSize
      have positive := holds.positive
      rw [Nat.succ_mul] at beyond
      omega
    have filled : fill different fresh w₂.mem (fresh.ptr + newCap * p.elemSize) = different _ :=
      fill_inside some (by omega) different
    have first := elem_byte (kept newCap (by dsimp only; omega)) holds.positive
    rw [rest _ (Nat.le_refl _) inside] at first
    exact absurd (filled.symm.trans first) (by simp [different])
  · intro room bytes
    obtain ⟨-, copied, -⟩ := parts bytes
    refine ⟨Nat.min_le_right .., Nat.min_le_left .., fun i low => elem_congr fun k inside => ?_⟩
    rw [Nat.add_assoc, Nat.add_assoc]
    exact copied _ (offset_lt (by dsimp only at low; omega) inside)

/-- `rdyn_setCap` keeps the elements it counts, whatever new blocks hold, if and only if
it is asked for no fewer, or its parent spares them. -/
theorem rdynSetCap_iff (serves : Serves P A owner ok limit) (holds : Holds ok owner p w L)
    (positive : 0 < newCap) (fits : newCap * p.elemSize ≤ P.sizeMax)
    (small : newCap * p.elemSize ≤ limit) :
    (∀ bytes, Carries p w (rdynSetCap P (scribbled A bytes) p w newCap)) ↔
      p.count ≤ newCap ∨ Spares A p w newCap := by
  by_cases enough : p.count ≤ newCap
  · exact ⟨fun _ => Or.inl enough, fun _ bytes =>
      rdynSetCap_grows (scribbled_serves serves bytes) holds positive fits small enough⟩
  have few := Nat.lt_of_not_le enough
  have nonnull := holds.nonnull (by omega)
  obtain ⟨size, held, room⟩ := holds.block nonnull
  have regranted := serves.realloc holds.ok held small
  simp only [Spares, or_iff_right enough]
  generalize resize : ralcRealloc A w p.buf (newCap * p.elemSize) = attempt at regranted ⊢
  obtain ⟨resized, w₁⟩ := attempt
  dsimp only
  generalize alloc : ralcAlloc A w₁ (newCap * p.elemSize) = attempt
  obtain ⟨fresh, w₂⟩ := attempt
  simp only [fun bytes => rdynSetCap_shrinks (A := scribbled A bytes) fits positive few nonnull
    ((scribbled_realloc nonnull bytes).trans resize) (scribbled_alloc alloc bytes)]
  by_cases moved : resized.ptr ≠ 0
  · simp only [if_pos moved]
    constructor
    · intro carries
      exact (carries w.mem).2.2
    · intro spared bytes
      exact ⟨Nat.min_le_right .., Nat.min_le_left .., spared⟩
  · obtain ⟨-, outcome⟩ := regranted
    rw [if_pos (not_not.mp moved)] at outcome
    obtain ⟨same, kept⟩ := outcome
    have granted := serves.alloc kept small
    rw [alloc] at granted
    simp only [if_neg moved]
    by_cases null : fresh.ptr = 0
    · simp only [if_pos null]
      exact ⟨fun _ => Or.inl null, fun _ _ => True.intro⟩
    · simp only [if_neg null, or_iff_right null, granted.actual_eq null (resized.actual 0)]
      exact fallback_iff serves holds nonnull few same granted null

theorem rdynSetCap_iff_lp64 : ∃ s, run (step .lp64 (Gen.ralcGen .lp64) 4096) (start 2 Gen.kib)
      [.insert 0 3, .write 1 [7, 8]] = some s ∧
    ∀ bytes, Carries s.dyn s.world
      (rdynSetCap .lp64 (scribbled (Gen.ralcGen .lp64) bytes) s.dyn s.world 5) := by
  have facts : (run (step .lp64 (Gen.ralcGen .lp64) 4096) (start 2 Gen.kib)
      [.insert 0 3, .write 1 [7, 8]]).map (fun s => s.dyn.count) = some 3 := by decide +kernel
  obtain ⟨s, ran, count⟩ := Option.map_eq_some_iff.mp facts
  obtain ⟨⟨size, L, holds⟩, -⟩ :=
    run_spliced (Gen.kib_serves ()) (inv_start Gen.kib_ok (by decide)) ran
  exact ⟨s, ran, (rdynSetCap_iff (Gen.kib_serves ()) holds (show 0 < 5 by decide)
    (by rw [size]; decide) (by rw [size]; decide)).mpr (Or.inl (by omega))⟩

def arenaOverGen : Ralc (Arena.RalcArena × Gen.RalcGen) :=
  (Tower.ralcArena .lp64 (Tower.ralcGeneral .lp64)).guarded

def kibArena : World (Arena.RalcArena × Gen.RalcGen) :=
  ⟨(Arena.ralcArenaInit 64, Gen.kib.state), Gen.kib.mem⟩

/-- An arena refuses to resize the block of ten bytes and rounds the new one to 16: nine
bytes of the ten still counted were not carried over. -/
theorem setCap_drops_elements : ∃ (ok : World (Arena.RalcArena × Gen.RalcGen) → Blocks Unit → Prop)
    (limit : Nat) (s : State (Arena.RalcArena × Gen.RalcGen)) (L : Blocks Unit),
    Serves .lp64 arenaOverGen () ok limit ∧
      run (step .lp64 arenaOverGen limit) (start 1 kibArena) [.insert 0 10, .write 9 [7]] = some s ∧
      Holds ok () s.dyn s.world L ∧
      ¬Carries s.dyn s.world (rdynSetCap .lp64 arenaOverGen s.dyn s.world 1) := by
  have serves := (Tower.ralcArena_meets (Tower.ralcGeneral_meets (Gen.Grain.two .lp64) 1024)).serves
  have initial : Tower.ArenaOk .lp64 (Gen.GenOk (Gen.Grain.two .lp64) 1024) kibArena (fun _ => none) :=
    ⟨_, [], [], Arena.inv_start Gen.kib_ok, by simp⟩
  have facts : (run (step .lp64 arenaOverGen Platform.lp64.sizeMax) (start 1 kibArena)
      [.insert 0 10, .write 9 [7]]).map (fun s =>
        let (set, p, w) := rdynSetCap .lp64 arenaOverGen s.dyn s.world 1
        (set, p.count, elem s.world.mem s.dyn.buf 1 9, elem w.mem p.buf p.elemSize 9, s.dyn.elemSize)) =
      some (true, 10, [7], [0], 1) := by decide +kernel
  obtain ⟨s, ran, values⟩ := Option.map_eq_some_iff.mp facts
  obtain ⟨⟨-, L, holds⟩, -⟩ := run_spliced serves (inv_start initial (by decide)) ran
  refine ⟨_, _, s, L, serves, ran, holds, fun carries => ?_⟩
  generalize rdynSetCap .lp64 arenaOverGen s.dyn s.world 1 = result at values carries
  obtain ⟨set, p, w⟩ := result
  simp only [Prod.mk.injEq] at values
  obtain ⟨rfl, count, old, new, one⟩ := values
  obtain ⟨-, -, same⟩ := carries
  have same := same 9 (by omega)
  rw [new, one, old] at same
  cases same

end Ratlib.Dyn
