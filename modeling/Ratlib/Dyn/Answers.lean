import Ratlib.Dyn.Resizing
import Ratlib.Alloc.Requests

/-! What `rdyn_resize` returns. NULL has two meanings: no request was granted, or no buffer
is left to point into. -/
namespace Ratlib.Dyn

open Arr

variable {P : Platform} {σ : Type u} {ι : Type v} {A : Ralc σ} {owner : ι} {L : Blocks ι} {p p' : RDyn}

section Removal
variable {w w' : World σ}

/-- A removal of everything frees the buffer of an array that may shrink. -/
theorem rdynRemove_emptied (removed : rdynRemove P A p w index count = (b, p', w'))
    (allow : p.allowShrink) (all : p.count ≤ count) : b = 0 ∧ p'.buf = 0 ∧ p'.cap = 0 := by
  simp only [rdynRemove, shrink, allow, not_true_eq_false, if_false, if_pos all, rdynClear] at removed
  cases removed
  exact ⟨rfl, rfl, rfl⟩

theorem rdynRemove_kept (removed : rdynRemove P A p w index count = (b, p', w'))
    (keeps : ¬p.allowShrink) : p'.buf = p.buf := by
  simp only [rdynRemove, shrink, if_pos keeps] at removed
  cases removed
  rfl

end Removal

section Logged
variable {w w' : World (σ × List Request)} {s : State (σ × List Request)}
  {ok : World (σ × List Request) → Blocks ι → Prop}

/-- `reallocBuf` without a result had both of its requests refused. -/
theorem reallocBuf_refused (result : reallocBuf P (logged A) p w cap copyCount = (none, w')) :
    Refused w w' := by
  generalize resize : ralcRealloc (logged A) w p.buf (P.mul cap p.elemSize) = attempt
  obtain ⟨resized, w₁⟩ := attempt
  generalize request : ralcAlloc (logged A) w₁ (P.mul cap p.elemSize) = attempt
  obtain ⟨fresh, w₂⟩ := attempt
  rw [reallocBuf_ends resize request] at result
  split at result
  case isTrue => cases result
  case isFalse refused =>
    split at result
    case isTrue null =>
      cases result
      have first := Refused.single (logged_realloc resize) (not_not.mp refused)
      exact first.trans (Refused.single (logged_alloc request) null)
    case isFalse => cases result

theorem grow_refused (result : grow P (logged A) p w growCount = (false, p', w')) :
    p' = p ∧ Refused w w' := by
  simp only [grow] at result
  split at result
  case isTrue => cases result
  case isFalse =>
    generalize first : reallocBuf P (logged A) p w _ p.count = attempt at result
    obtain ⟨none | ⟨newArr, newCap⟩, w₁⟩ := attempt
    case some => cases result
    case none =>
      dsimp only at result
      generalize second : reallocBuf P (logged A) p w₁ _ p.count = attempt at result
      obtain ⟨none | ⟨newArr, newCap⟩, w₂⟩ := attempt
      case some => cases result
      case none =>
        cases result
        exact ⟨rfl, (reallocBuf_refused first).trans (reallocBuf_refused second)⟩

/-- An insertion that gives NULL did nothing but ask in vain. -/
theorem rdynInsert_refused (serves : Serves P (logged A) owner ok limit)
    (holds : Holds ok owner p w L) (asserts : GrowAsserts P limit p count) (some : 0 < count)
    (result : rdynInsert P (logged A) p w index count = (0, p', w')) : p' = p ∧ Refused w w' := by
  have grown := grow_cases serves holds asserts
  rw [rdynInsert] at result
  generalize grew : grow P (logged A) p w count = attempt at grown result
  obtain ⟨success, p₁, w₁⟩ := attempt
  cases success with
  | false =>
    cases result
    exact grow_refused grew
  | true =>
    obtain ⟨⟨⟨L', holds'⟩, -⟩, total, -⟩ := grown
    have nonnull := holds'.nonnull (by omega)
    simp only [rarrInsert, Prod.mk.injEq] at result
    omega

/-- The run covers the whole array, no element replaces it, and the array may shrink. -/
def Empties (p : RDyn) (oldCount newCount : Nat) : Prop :=
  p.allowShrink ∧ newCount = 0 ∧ oldCount = p.count

def Performed (s : State (σ × List Request)) (index oldCount newCount : Nat) (p : RDyn)
    (w : World (σ × List Request)) : Prop :=
  p.count = s.dyn.count - oldCount + newCount ∧
    Replaced index oldCount newCount s.list (contents p w.mem)

/-- What `rdyn_resize` returns: NULL for an array it emptied, which has no buffer left, and
for an array it left as it was because no request was granted; a pointer into the buffer
otherwise. -/
def Tells (s : State (σ × List Request)) (index oldCount newCount : Nat) :
    Nat × RDyn × World (σ × List Request) → Prop
  | (b, p, w) =>
    (Empties s.dyn oldCount newCount ∧ b = 0 ∧ p.buf = 0 ∧ p.cap = 0 ∧
      Performed s index oldCount newCount p w) ∨
    (¬Empties s.dyn oldCount newCount ∧ b = 0 ∧ oldCount < newCount ∧ Refused s.world w ∧
      p = s.dyn ∧ contents p w.mem = s.list) ∨
    (¬Empties s.dyn oldCount newCount ∧ b ≠ 0 ∧ p.buf ≠ 0 ∧ b = p.buf + index * p.elemSize ∧
      Performed s index oldCount newCount p w)

theorem rdynResize_grows (serves : Serves P (logged A) owner ok limit)
    (holds : Holds ok owner s.dyn s.world L)
    (asserts : (Op.resize index oldCount newCount).Asserts P limit s.dyn) (more : newCount > oldCount) :
    Tells s index oldCount newCount (rdynResize P (logged A) s.dyn s.world index oldCount newCount) := by
  obtain ⟨inside, run, representable, room⟩ := asserts
  rw [if_pos more] at room
  have within : index + oldCount ≤ s.dyn.count := by omega
  have bounded := Nat.le_trans holds.count (holds.cap_le serves)
  have keeps : ¬Empties s.dyn oldCount newCount := by
    intro empties
    have := empties.2.1
    omega
  generalize inserted : rdynInsert P (logged A) s.dyn s.world (index + oldCount) (newCount - oldCount) =
    outcome
  obtain ⟨b, p, w⟩ := outcome
  rw [rdynResize_more more (by omega) representable inserted]
  obtain ⟨becomes, effect⟩ := rdynInsert_cases serves holds room within inserted
  by_cases null : b = 0
  · subst null
    obtain ⟨rfl, refused⟩ := rdynInsert_refused serves holds room (by omega) inserted
    rw [if_pos rfl] at effect
    rw [if_neg (not_not_intro rfl)]
    exact Or.inr (Or.inl ⟨keeps, rfl, more, refused, rfl, effect⟩)
  · rw [if_neg null] at effect
    obtain ⟨-, total, gap, length, list⟩ := effect
    obtain ⟨L', holds'⟩ := becomes.holds
    have nonnull : p.buf ≠ 0 := holds'.nonnull (by omega)
    have pointer : P.mul index p.elemSize = index * p.elemSize :=
      mul_le_of_le (holds'.used_fits serves) (by omega)
    rw [if_pos null, pointer]
    refine Or.inr (Or.inr ⟨keeps, by omega, nonnull, rfl, by omega, gap, length, ?_⟩)
    rwa [Nat.min_eq_left more.le]

theorem rdynResize_shrinks (serves : Serves P (logged A) owner ok limit)
    (holds : Holds ok owner s.dyn s.world L)
    (asserts : (Op.resize index oldCount newCount).Asserts P limit s.dyn) (fewer : ¬newCount > oldCount)
    (some : 0 < oldCount ∨ 0 < newCount) :
    Tells s index oldCount newCount (rdynResize P (logged A) s.dyn s.world index oldCount newCount) := by
  have within : index + oldCount ≤ s.dyn.count := by
    obtain ⟨inside, run, -⟩ := asserts
    omega
  have bounded := Nat.le_trans holds.count (holds.cap_le serves)
  obtain ⟨-, -, representable, room⟩ := asserts
  generalize removed : rdynRemove P (logged A) s.dyn s.world (index + newCount) (oldCount - newCount) =
    outcome
  obtain ⟨b, p, w⟩ := outcome
  have result := rdynResize_fewer fewer (by omega) removed
  have list := (rdynResize_cases serves holds room within representable result).2
  rw [if_neg fun both => fewer both.1] at list
  rw [if_neg fewer] at room
  obtain ⟨becomes, total, answer, -⟩ := rdynRemove_cases serves holds room (by omega) removed
  have performed : Performed s index oldCount newCount p w := ⟨by omega, list⟩
  rw [result]
  by_cases empties : Empties s.dyn oldCount newCount
  · have gone : s.dyn.count ≤ oldCount - newCount := by
      obtain ⟨-, nothing, all⟩ := empties
      omega
    obtain ⟨rfl, buf, cap⟩ := rdynRemove_emptied removed empties.1 gone
    rw [if_neg (not_not_intro rfl)]
    exact Or.inl ⟨empties, rfl, buf, cap, performed⟩
  · have nonnull : p.buf ≠ 0 := by
      by_cases left : 0 < p.count
      · obtain ⟨L', holds'⟩ := becomes.holds
        exact holds'.nonnull left
      · have keeps : ¬s.dyn.allowShrink := fun allow => empties ⟨allow, by omega, by omega⟩
        rw [rdynRemove_kept removed keeps]
        exact holds.nonnull (by omega)
    have pointer : P.mul index p.elemSize = index * p.elemSize := by
      rw [becomes.elemSize]
      exact mul_le_of_le (holds.used_fits serves) (by omega)
    rw [if_pos nonnull] at answer
    rw [if_pos (by omega), pointer]
    exact Or.inr (Or.inr ⟨empties, by omega, nonnull, rfl, performed⟩)

end Logged

/-- In every state that calls lead to, `rdyn_resize` of a run that is not empty before and
after returns NULL only if it emptied an array that may shrink, or if it left the array as
it was because none of its requests was granted. -/
theorem rdynResize_tells {ok : World σ → Blocks ι → Prop} {w : World (σ × List Request)}
    {s : State (σ × List Request)} (serves : Serves P A owner ok limit)
    (initial : ok (untraced w) L) (positive : 0 < elemSize)
    (ran : run (stepCall P (logged A) limit) (start elemSize w) calls = some s)
    (asserts : (Op.resize index oldCount newCount).Asserts P limit s.dyn)
    (occupied : 0 < oldCount ∨ 0 < newCount) :
    Tells s index oldCount newCount
      (rdynResize P (logged A) s.dyn s.world index oldCount newCount) := by
  have logs := (logged_beside _).serves serves
  obtain ⟨-, L', holds⟩ := run_holds logs initial positive ran
  by_cases more : newCount > oldCount
  · exact rdynResize_grows logs holds asserts more
  · exact rdynResize_shrinks logs holds asserts more occupied

/-- A ralcGen over a zeroed buffer of 1 KiB that was asked for nothing. -/
def kibLog : World (Gen.RalcGen × List Request) := ⟨(Gen.kib.state, []), Gen.kib.mem⟩

theorem rdynResize_tells_lp64 : ∃ s,
    run (stepCall .lp64 (logged (Gen.ralcGen .lp64)) 4096) (start 1 kibLog)
      [.of (.insert 0 3), .of (.write 1 [7]), .setCap 4, .of (.allowShrink true)] = some s ∧
    Tells s 1 2 9 (rdynResize .lp64 (logged (Gen.ralcGen .lp64)) s.dyn s.world 1 2 9) := by
  have facts : (run (stepCall .lp64 (logged (Gen.ralcGen .lp64)) 4096) (start 1 kibLog)
      [.of (.insert 0 3), .of (.write 1 [7]), .setCap 4, .of (.allowShrink true)]).map
        (fun s => decide ((Op.resize 1 2 9).Asserts .lp64 4096 s.dyn)) = some true := by decide +kernel
  obtain ⟨s, ran, asserts⟩ := Option.map_eq_some_iff.mp facts
  exact ⟨s, ran, rdynResize_tells (w := kibLog) (Gen.kib_serves ()) Gen.kib_ok (by decide) ran
    (of_decide_eq_true asserts) (by decide)⟩

/-- A performed resize that returns NULL: it takes all three elements out of an array that
may shrink. -/
theorem rdynResize_null : ∃ s,
    run (stepCall .lp64 (logged (Gen.ralcGen .lp64)) 4096) (start 1 kibLog)
      [.of (.insert 0 3), .of (.allowShrink true)] = some s ∧
    (Op.resize 0 3 0).Asserts .lp64 4096 s.dyn ∧ s.dyn.count = 3 ∧
    (rdynResize .lp64 (logged (Gen.ralcGen .lp64)) s.dyn s.world 0 3 0).1 = 0 ∧
    (rdynResize .lp64 (logged (Gen.ralcGen .lp64)) s.dyn s.world 0 3 0).2.1.count = 0 := by
  have facts : (run (stepCall .lp64 (logged (Gen.ralcGen .lp64)) 4096) (start 1 kibLog)
      [.of (.insert 0 3), .of (.allowShrink true)]).map (fun s =>
        let (b, p, _) := rdynResize .lp64 (logged (Gen.ralcGen .lp64)) s.dyn s.world 0 3 0
        (decide ((Op.resize 0 3 0).Asserts .lp64 4096 s.dyn), s.dyn.count, b, p.count)) =
      some (true, 3, 0, 0) := by decide +kernel
  obtain ⟨s, ran, values⟩ := Option.map_eq_some_iff.mp facts
  simp only [Prod.mk.injEq, decide_eq_true_eq] at values
  exact ⟨s, ran, values⟩

end Ratlib.Dyn
