import Ratlib.Library.Amortized
import Ratlib.Dyn.Correctness
import Ratlib.Gen.Bounds

/-! What growing and shrinking cost a dynamic array: how many elements its calls move to
another buffer, over any parent and whichever of its calls fail. -/
namespace Ratlib.Dyn

section Moves
variable (P : Platform) {σ : Type u} (A : Ralc σ)

/-- The elements that `grow` moves to a buffer with room to spare, and to one without. -/
def growMoves (p : RDyn) (w : World σ) (growCount : Nat) : Nat × Nat :=
  let newCount := P.add p.count growCount
  if newCount ≤ p.cap then (0, 0)
  else
    match reallocBuf P A p w (P.add newCount (newCount / 2)) p.count with
    | (some _, _) => (p.count, 0)
    | (none, w) =>
      match reallocBuf P A p w newCount p.count with
      | (some _, _) => (0, p.count)
      | (none, _) => (0, 0)

def shrinkMoves (p : RDyn) (w : World σ) (shrinkCount : Nat) : Nat :=
  if ¬p.allowShrink then 0
  else if p.count ≤ shrinkCount then 0
  else
    let newCount := P.sub p.count shrinkCount
    if newCount ≤ p.cap / 2 then
      match reallocBuf P A p w (P.add newCount (newCount / 3)) newCount with
      | (some _, _) => newCount
      | (none, _) => 0
    else 0

def removeMoves (p : RDyn) (w : World σ) (index count : Nat) : Nat :=
  let (_, m) := Arr.rarrRemove P w.mem p.buf p.elemSize p.count index count
  shrinkMoves P A p { w with mem := m } count

/-- The elements that a call moves, with room to spare and without. -/
def Op.moves (s : State σ) : Op → Nat × Nat
  | .insert _ count => growMoves P A s.dyn s.world count
  | .remove index count => (removeMoves P A s.dyn s.world index count, 0)
  | .resize index oldCount newCount =>
    if newCount > oldCount then growMoves P A s.dyn s.world (P.sub newCount oldCount)
    else (removeMoves P A s.dyn s.world (P.add index newCount) (P.sub oldCount newCount), 0)
  | .clear | .allowShrink _ | .write .. => (0, 0)

end Moves

/-- What a call makes of the sizes `count` and `cap`, and the elements that it moves. A buffer
has up to `slack` elements more than was asked for. -/
inductive Resized (slack : Nat) (allow : Bool) (count cap : Nat) : Nat → Nat → Nat × Nat → Prop
  | stays (within : n ≤ cap) : Resized slack allow count cap n cap (0, 0)
  | empties : Resized slack allow count cap 0 0 (0, 0)
  | grows (more : count ≤ n) (full : cap < n) (room : n + n / 2 ≤ newCap)
      (tight : newCap ≤ n + n / 2 + slack) : Resized slack allow count cap n newCap (count, 0)
  | fills (more : count ≤ n) (full : cap < n) (room : n ≤ newCap) (tight : newCap ≤ n + slack) :
      Resized slack allow count cap n newCap (0, count)
  | shrinks (allowed : allow = true) (fewer : n ≤ count) (half : n ≤ cap / 2) (room : n + n / 3 ≤ newCap)
      (tight : newCap ≤ n + n / 3 + slack) : Resized slack allow count cap n newCap (n, 0)

variable {P : Platform} {σ : Type u} {ι : Type v} {A : Ralc σ} {owner : ι}
  {ok : World σ → Blocks ι → Prop} {w w' : World σ} {L : Blocks ι} {p p' : RDyn} {s s' : State σ}

theorem actual_le {reply : Reply} (reported : ∀ actual, reply.out = some actual → actual ≤ bound)
    (small : before ≤ bound) : reply.actual before ≤ bound := by
  rw [Reply.actual]
  cases out : reply.out with
  | none => exact small
  | some actual => exact reported actual out

theorem reallocBuf_newCap (serves : Serves P A owner ok limit) (tight : Tight A owner ok limit extra)
    (holds : Holds ok owner p w L) (few : n ≤ p.count) (fewer : n ≤ cap)
    (fits : cap * p.elemSize ≤ P.sizeMax) (small : cap * p.elemSize ≤ limit)
    (result : reallocBuf P A p w cap n = (some (newArr, newCap), w')) :
    cap ≤ newCap ∧ newCap ≤ cap + extra / p.elemSize := by
  have moved := reallocBuf_cases serves holds few fewer fits small
  rw [result] at moved
  refine ⟨moved.larger, ?_⟩
  have positive := holds.positive
  have enough : ∀ actual, actual ≤ cap * p.elemSize + extra → actual / p.elemSize ≤ cap + extra / p.elemSize := by
    intro actual bound
    calc actual / p.elemSize
        ≤ (cap * p.elemSize + extra) / p.elemSize := Nat.div_le_div_right bound
      _ = cap + extra / p.elemSize := by
        rw [Nat.add_comm, Nat.add_mul_div_right _ _ positive, Nat.add_comm]
  have first := realloc_moved serves holds few fewer small
  have owned : p.buf = 0 ∨ ∃ oldSize, L p.buf = some ⟨owner, oldSize⟩ := by
    by_cases null : p.buf = 0
    · exact .inl null
    · obtain ⟨size, held, -⟩ := holds.block null
      exact .inr ⟨size, held⟩
  have reported : ∀ actual, _ = some actual → _ := fun _ => tight.realloc holds.ok owned small
  rw [← Platform.mul_of_le fits] at first reported
  generalize resize : ralcRealloc A w p.buf (P.mul cap p.elemSize) = attempt at first reported
  obtain ⟨resized, w₁⟩ := attempt
  generalize alloc : ralcAlloc A w₁ (P.mul cap p.elemSize) = attempt
  obtain ⟨fresh, w₂⟩ := attempt
  rw [reallocBuf_ends resize alloc] at result
  dsimp only at first reported
  rw [Platform.mul_of_le fits] at reported
  have bound := actual_le reported (Nat.zero_le _)
  split at result
  case isTrue =>
    cases result
    exact enough _ bound
  case isFalse refused =>
    rw [if_pos (not_not.mp refused)] at first
    split at result
    case isTrue => cases result
    case isFalse =>
      cases result
      refine enough _ (actual_le (fun actual out => ?_) bound)
      rw [Platform.mul_of_le fits] at alloc
      exact tight.alloc first.1 small (by rw [alloc]; exact out)

theorem grow_resized (serves : Serves P A owner ok limit) (tight : Tight A owner ok limit extra)
    (holds : Holds ok owner p w L) (asserts : GrowAsserts P limit p growCount) :
    Resized (extra / p.elemSize) p.allowShrink p.count p.cap (grow P A p w growCount).2.1.count
      (grow P A p w growCount).2.1.cap (growMoves P A p w growCount) := by
  have positive := holds.positive
  obtain ⟨wraps, room⟩ := asserts
  have bounded := Nat.le_trans holds.count (holds.cap_le serves)
  simp only [grow, growMoves, Platform.add_of_le (show p.count + growCount ≤ P.sizeMax by omega)]
  by_cases fits : p.count + growCount ≤ p.cap
  · rw [if_pos fits, if_pos fits]
    exact .stays fits
  · rw [if_neg fits, if_neg fits]
    obtain ⟨divides, small⟩ := room.resolve_left fits
    have more : p.count ≤ p.count + growCount := Nat.le_add_right _ _
    generalize p.count + growCount = newCount at fits divides small more ⊢
    have spare : newCount ≤ newCount + newCount / 2 := Nat.le_add_right _ _
    have representable : (newCount + newCount / 2) * p.elemSize ≤ P.sizeMax :=
      (Nat.le_div_iff_mul_le positive).mp divides
    have fewer := Nat.mul_le_mul_right p.elemSize spare
    rw [Platform.add_of_le (Nat.le_trans (Nat.le_mul_of_pos_right _ positive) representable)]
    have first := reallocBuf_cases serves holds (Nat.le_refl _)
      (show p.count ≤ newCount + newCount / 2 by omega) representable small
    generalize attempted : reallocBuf P A p w (newCount + newCount / 2) p.count = attempt at first ⊢
    obtain ⟨moved | ⟨newArr, newCap⟩, w₁⟩ := attempt
    case some =>
      obtain ⟨large, near⟩ := reallocBuf_newCap serves tight holds (Nat.le_refl _)
        (Nat.le_trans more spare) representable small attempted
      exact .grows more (Nat.lt_of_not_le fits) large near
    case none =>
      have holds₁ : Holds ok owner p w₁ L :=
        ⟨first.1, positive, holds.count, holds.empty, holds.block⟩
      dsimp only
      generalize again : reallocBuf P A p w₁ newCount p.count = attempt
      obtain ⟨moved | ⟨newArr, newCap⟩, w₂⟩ := attempt
      case some =>
        obtain ⟨large, near⟩ := reallocBuf_newCap serves tight holds₁ (Nat.le_refl _) more
          (Nat.le_trans fewer representable) (Nat.le_trans fewer small) again
        exact .fills more (Nat.lt_of_not_le fits) large near
      case none => exact .stays holds.count

theorem shrink_resized (serves : Serves P A owner ok limit) (tight : Tight A owner ok limit extra)
    (holds : Holds ok owner p w L) (asserts : ShrinkAsserts limit p shrinkCount) :
    Resized (extra / p.elemSize) p.allowShrink p.count p.cap (shrink P A p w shrinkCount).1.count
      (shrink P A p w shrinkCount).1.cap (shrinkMoves P A p w shrinkCount, 0) := by
  obtain ⟨ordered, small⟩ := asserts
  have bounded := Nat.le_trans holds.count (holds.cap_le serves)
  have count := holds.count
  have fewer : p.count - shrinkCount ≤ p.cap := by omega
  simp only [shrink, shrinkMoves, Platform.sub_of_le ordered bounded]
  by_cases allowed : p.allowShrink = true
  · rw [if_neg (not_not.mpr allowed), if_neg (not_not.mpr allowed)]
    by_cases all : p.count ≤ shrinkCount
    · rw [if_pos all, if_pos all]
      exact .empties
    · rw [if_neg all, if_neg all]
      by_cases half : p.count - shrinkCount ≤ p.cap / 2
      · rw [if_pos half, if_pos half]
        have request := small ⟨allowed, half⟩
        have few : p.count - shrinkCount ≤ p.count := Nat.sub_le _ _
        generalize p.count - shrinkCount = newCount at fewer half request few ⊢
        have smaller : newCount + newCount / 3 ≤ p.cap := by omega
        have fits := Nat.le_trans (Nat.mul_le_mul_right p.elemSize smaller) (holds.bound serves)
        rw [Platform.add_of_le (Nat.le_trans smaller (holds.cap_le serves))]
        generalize attempted : reallocBuf P A p w (newCount + newCount / 3) newCount = attempt
        obtain ⟨moved | ⟨newArr, newCap⟩, w₁⟩ := attempt
        case some =>
          obtain ⟨large, near⟩ := reallocBuf_newCap serves tight holds few (Nat.le_add_right _ _) fits
            request attempted
          exact .shrinks allowed few half large near
        case none => exact .stays fewer
      · rw [if_neg half, if_neg half]
        exact .stays fewer
  · rw [if_pos allowed, if_pos allowed]
    exact .stays fewer

theorem remove_resized (serves : Serves P A owner ok limit) (tight : Tight A owner ok limit extra)
    (holds : Holds ok owner p w L) (asserts : ShrinkAsserts limit p count)
    (inside : index + count ≤ p.count) :
    Resized (extra / p.elemSize) p.allowShrink p.count p.cap (rdynRemove P A p w index count).2.1.count
      (rdynRemove P A p w index count).2.1.cap (removeMoves P A p w index count, 0) := by
  have outside := fun x =>
    Arr.rarrRemove_out (m := w.mem) (x := x) (holds.used_fits serves) holds.positive inside p.buf
  rw [rdynRemove, removeMoves]
  exact shrink_resized serves tight (holds.shift serves outside) asserts

theorem insert_resized (serves : Serves P A owner ok limit) (tight : Tight A owner ok limit extra)
    (holds : Holds ok owner p w L) (asserts : GrowAsserts P limit p count) (index : Nat) :
    Resized (extra / p.elemSize) p.allowShrink p.count p.cap (rdynInsert P A p w index count).2.1.count
      (rdynInsert P A p w index count).2.1.cap (growMoves P A p w count) := by
  have grown := grow_resized serves tight holds asserts
  rw [rdynInsert]
  generalize grow P A p w count = attempt at grown ⊢
  obtain ⟨success, p₁, w₁⟩ := attempt
  cases success <;> exact grown

theorem step_resized (serves : Serves P A owner ok limit) (tight : Tight A owner ok limit extra)
    (inv : Inv ok owner elemSize s) (taken : step P A limit s op = some s') :
    Resized (extra / elemSize) s.dyn.allowShrink s.dyn.count s.dyn.cap s'.dyn.count s'.dyn.cap
      (op.moves P A s) := by
  obtain ⟨asserts, rfl⟩ := step_call taken
  obtain ⟨rfl, L, holds⟩ := inv
  have bounded := Nat.le_trans holds.count (holds.cap_le serves)
  cases op with
  | insert index count => exact insert_resized serves tight holds asserts.2 index
  | remove index count =>
    obtain ⟨inside, run, shrinks⟩ := asserts
    exact remove_resized serves tight holds shrinks (by omega)
  | resize index oldCount newCount =>
    obtain ⟨inside, run, representable, room⟩ := asserts
    simp only [call, rdynResize, Op.moves]
    by_cases more : newCount > oldCount
    · rw [if_pos more, if_pos more]
      rw [if_pos more] at room
      rw [Platform.sub_of_le more.le representable]
      exact insert_resized serves tight holds room _
    · rw [if_neg more, if_neg more]
      rw [if_neg more] at room
      rw [Platform.sub_of_le (Nat.le_of_not_lt more) (by omega), Platform.add_of_le (by omega)]
      exact remove_resized serves tight holds room (by omega)
  | clear => exact .empties
  | allowShrink allow => exact .stays holds.count
  | write index bytes => exact .stays holds.count

def arrivals (P : Platform) (A : Ralc σ) (limit : Nat) (s : State σ) (op : Op) : Nat :=
  ((step P A limit s op).map fun s' => s'.dyn.count - s.dyn.count).getD 0

def departures (P : Platform) (A : Ralc σ) (limit : Nat) (s : State σ) (op : Op) : Nat :=
  ((step P A limit s op).map fun s' => s.dyn.count - s'.dyn.count).getD 0

theorem arrivals_eq (taken : step P A limit s op = some s') :
    arrivals P A limit s op = s'.dyn.count - s.dyn.count := by
  rw [arrivals, taken, Option.map_some, Option.getD_some]

theorem departures_eq (taken : step P A limit s op = some s') :
    departures P A limit s op = s.dyn.count - s'.dyn.count := by
  rw [departures, taken, Option.map_some, Option.getD_some]

/-- What the elements beyond two thirds of the buffer have saved up for a larger one, or the
room beyond three halves of them for a smaller one. -/
def saved (s : State σ) : Nat :=
  max (3 * s.dyn.count - 2 * s.dyn.cap) (4 * s.dyn.cap - 6 * s.dyn.count)

theorem step_pays (serves : Serves P A owner ok limit) (tight : Tight A owner ok limit extra)
    (inv : Inv ok owner elemSize s) (taken : step P A limit s op = some s') :
    (op.moves P A s).1 + saved s' ≤
      saved s + (6 * (arrivals P A limit s op + departures P A limit s op) + 4 * (extra / elemSize)) := by
  have resized := step_resized serves tight inv taken
  obtain ⟨-, L, holds⟩ := inv
  have count := holds.count
  rw [arrivals_eq taken, departures_eq taken, saved, saved]
  generalize s'.dyn.count = n, s'.dyn.cap = newCap, op.moves P A s = moves at resized ⊢
  cases resized with
  | stays within => omega
  | empties => omega
  | grows more full room tight => omega
  | fills more full room tight => omega
  | shrinks allowed fewer half room tight => omega

def savedToGrow (s : State σ) : Nat := 3 * s.dyn.count - 2 * s.dyn.cap

theorem step_pays_growth (serves : Serves P A owner ok limit) (tight : Tight A owner ok limit extra)
    (inv : Inv ok owner elemSize s) (grows : s.dyn.allowShrink = false)
    (taken : step P A limit s op = some s') :
    (op.moves P A s).1 + savedToGrow s' ≤ savedToGrow s + 3 * arrivals P A limit s op := by
  have resized := step_resized serves tight inv taken
  obtain ⟨-, L, holds⟩ := inv
  have count := holds.count
  rw [arrivals_eq taken, savedToGrow, savedToGrow]
  generalize s'.dyn.count = n, s'.dyn.cap = newCap, op.moves P A s = moves at resized ⊢
  cases resized with
  | stays within => omega
  | empties => omega
  | grows more full room tight => omega
  | fills more full room tight => omega
  | shrinks allowed fewer half room tight =>
    rw [grows] at allowed
    cases allowed

/-- A buffer is no larger than half as many elements again as there were once, and the slack. -/
def Roomy (P : Platform) (A : Ralc σ) (limit slack : Nat) (s₀ : State σ) (ops : List Op) (s : State σ) : Prop :=
  ∃ earlier s₁, earlier <+: ops ∧ run (step P A limit) s₀ earlier = some s₁ ∧
    2 * s.dyn.cap ≤ 3 * s₁.dyn.count + 2 * slack

theorem step_roomy (serves : Serves P A owner ok limit) (tight : Tight A owner ok limit extra)
    (inv : Inv ok owner elemSize s) (ran : run (step P A limit) s₀ ops = some s)
    (roomy : Roomy P A limit (extra / elemSize) s₀ ops s) (taken : step P A limit s op = some s') :
    Roomy P A limit (extra / elemSize) s₀ (ops ++ [op]) s' := by
  have resized := step_resized serves tight inv taken
  have later := (run_concat ran).trans taken
  have now (bound : 2 * s'.dyn.cap ≤ 3 * s'.dyn.count + 2 * (extra / elemSize)) :
      Roomy P A limit (extra / elemSize) s₀ (ops ++ [op]) s' :=
    ⟨ops ++ [op], s', List.prefix_rfl, later, bound⟩
  obtain ⟨earlier, s₁, before, ran₁, bound⟩ := roomy
  have then_ (same : s'.dyn.cap = s.dyn.cap) : Roomy P A limit (extra / elemSize) s₀ (ops ++ [op]) s' :=
    ⟨earlier, s₁, before.trans (List.prefix_append ..), ran₁, same ▸ bound⟩
  generalize size : s'.dyn.count = n, room : s'.dyn.cap = newCap, op.moves P A s = moves at resized now then_
  cases resized with
  | stays within => exact then_ rfl
  | empties => exact now (by omega)
  | grows more full room tight => exact now (by omega)
  | fills more full room tight => exact now (by omega)
  | shrinks allowed fewer half room tight => exact now (by omega)

theorem step_grows (serves : Serves P A owner ok limit) (inv : Inv ok owner elemSize s)
    (grows : s.dyn.allowShrink = false) (never : op ≠ .allowShrink true) (taken : step P A limit s op = some s') :
    s'.dyn.allowShrink = false := by
  obtain ⟨asserts, rfl⟩ := step_call taken
  obtain ⟨-, L, holds⟩ := inv
  cases op with
  | insert index count => exact (rdynInsert_cases serves holds asserts.2 asserts.1 rfl).1.allowShrink.trans grows
  | remove index count =>
    obtain ⟨inside, run, shrinks⟩ := asserts
    exact (rdynRemove_cases serves holds shrinks (by omega) rfl).1.allowShrink.trans grows
  | resize index oldCount newCount =>
    obtain ⟨inside, run, representable, room⟩ := asserts
    exact (rdynResize_cases serves holds room (by omega) representable rfl).1.allowShrink.trans grows
  | clear => exact grows
  | allowShrink allow =>
    cases allow with
    | false => rfl
    | true => exact absurd rfl never
  | write index bytes => exact grows

/-- Over any run, whichever requests fail, the calls move no more than six elements for each
that came or went, and the slack of a buffer four times for each call; an array that never
shrinks moves no more than three for each that came. The elements that `grow` moves to
buffers without room to spare, after the parent refused one with, are counted apart. A
buffer has room for half as many elements again as there were once, and the slack. -/
theorem rdyn_amortized (serves : Serves P A owner ok limit) (tight : Tight A owner ok limit extra)
    (before : ok w L) (positive : 0 < elemSize) (ran : run (step P A limit) (start elemSize w) ops = some s) :
    let cost := fun count : State σ → Op → Nat => totalCost (step P A limit) count (start elemSize w) ops
    cost (fun s op => (op.moves P A s).1) ≤ 6 * (cost (arrivals P A limit) + cost (departures P A limit)) +
        4 * (extra / elemSize) * ops.length ∧
      ((∀ op ∈ ops, op ≠ .allowShrink true) →
        cost (fun s op => (op.moves P A s).1) ≤ 3 * cost (arrivals P A limit)) ∧
      Roomy P A limit (extra / elemSize) (start elemSize w) ops s := by
  intro cost
  have initial : Inv ok owner elemSize (start elemSize w) := inv_start before positive
  have keeps : ∀ s op s', Inv ok owner elemSize s → step P A limit s op = some s' → Inv ok owner elemSize s' := by
    intro s op s' inv taken
    obtain ⟨asserts, rfl⟩ := step_call taken
    exact (call_effect serves inv asserts).1
  refine ⟨?_, fun never => ?_, ?_⟩
  · have paid := run_potential (Inv ok owner elemSize) saved
      (fun s op => 6 * (arrivals P A limit s op + departures P A limit s op) + 4 * (extra / elemSize))
      (fun s op s' _ => keeps s op s') (fun s op s' _ inv taken => step_pays serves tight inv taken) initial ran
    have const : totalCost (step P A limit) (fun _ _ => 4 * (extra / elemSize)) (start elemSize w) ops ≤ _ :=
      totalCost_const ..
    rw [totalCost_add, totalCost_mul, totalCost_add] at paid
    have none : saved (start elemSize w) = 0 := rfl
    dsimp only [cost]
    omega
  · have paid := run_potential (fun s => Inv ok owner elemSize s ∧ s.dyn.allowShrink = false) savedToGrow
      (fun s op => 3 * arrivals P A limit s op)
      (fun s op s' member inv taken =>
        ⟨keeps s op s' inv.1 taken, step_grows serves inv.1 inv.2 (never op member) taken⟩)
      (fun s op s' _ inv taken => step_pays_growth serves tight inv.1 inv.2 taken) ⟨initial, rfl⟩ ran
    rw [totalCost_mul] at paid
    have none : savedToGrow (start elemSize w) = 0 := rfl
    dsimp only [cost]
    omega
  · refine (run_history (fun ops s => Inv ok owner elemSize s ∧
      Roomy P A limit (extra / elemSize) (start elemSize w) ops s) ?_ ⟨initial, ?_⟩ ran).2
    · rintro before s op s' - ran ⟨inv, roomy⟩ taken
      exact ⟨keeps s op s' inv taken, step_roomy serves tight inv ran roomy taken⟩
    · exact ⟨[], _, List.prefix_rfl, rfl, Nat.zero_le _⟩

/-- Two buffers that were outgrown and one that was too large, in a ralcGen. -/
theorem rdyn_amortized_lp64 : ∃ s, run (step .lp64 (Gen.ralcGen .lp64) 4096) (start 16 Gen.kib)
      [.insert 0 2, .insert 2 2, .insert 4 2, .allowShrink true, .insert 1 4, .remove 0 9] = some s ∧
    totalCost (step .lp64 (Gen.ralcGen .lp64) 4096) (fun s op => (op.moves .lp64 (Gen.ralcGen .lp64) s).1)
        (start 16 Gen.kib)
        [.insert 0 2, .insert 2 2, .insert 4 2, .allowShrink true, .insert 1 4, .remove 0 9] = 9 ∧
    Roomy .lp64 (Gen.ralcGen .lp64) 4096 1 (start 16 Gen.kib)
      [.insert 0 2, .insert 2 2, .insert 4 2, .allowShrink true, .insert 1 4, .remove 0 9] s := by
  have facts : (run (step .lp64 (Gen.ralcGen .lp64) 4096) (start 16 Gen.kib)
      [.insert 0 2, .insert 2 2, .insert 4 2, .allowShrink true, .insert 1 4, .remove 0 9]).map
        (fun s => s.dyn.count) = some 1 := by decide +kernel
  have moved : totalCost (step .lp64 (Gen.ralcGen .lp64) 4096)
      (fun s op => (op.moves .lp64 (Gen.ralcGen .lp64) s).1) (start 16 Gen.kib)
      [.insert 0 2, .insert 2 2, .insert 4 2, .allowShrink true, .insert 1 4, .remove 0 9] = 9 := by decide +kernel
  obtain ⟨s, ran, -⟩ := Option.map_eq_some_iff.mp facts
  obtain ⟨-, -, roomy⟩ := rdyn_amortized (Gen.kib_serves ()) (Gen.ralcGen_tight () _ _) Gen.kib_ok
    (show 0 < 16 by decide) ran
  exact ⟨s, ran, moved, roomy⟩

end Ratlib.Dyn
