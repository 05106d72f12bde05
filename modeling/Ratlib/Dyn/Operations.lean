import Ratlib.Dyn.Model
import Ratlib.Arr.Elements

/-! What the functions of rdyn do to the elements, over any allocator that meets the
contract and whichever of its calls fail. -/
namespace Ratlib.Dyn

open Arr

variable {P : Platform} {σ : Type u} {ι : Type v} {A : Ralc σ} {owner : ι}
  {ok : World σ → Blocks ι → Prop} {w w' : World σ} {L : Blocks ι} {p p' : RDyn}

def contents (p : RDyn) (m : Mem) : List (List UInt8) := elems m p.buf p.elemSize p.count

/-- The capacity lies in the block the allocator reported. -/
structure Holds (ok : World σ → Blocks ι → Prop) (owner : ι) (p : RDyn) (w : World σ)
    (L : Blocks ι) : Prop where
  ok : ok w L
  positive : 0 < p.elemSize
  count : p.count ≤ p.cap
  empty : p.buf = 0 → p.cap = 0
  block : p.buf ≠ 0 → ∃ size, L p.buf = some ⟨owner, size⟩ ∧ p.cap * p.elemSize ≤ size

theorem Holds.bound (serves : Serves P A owner ok limit) (holds : Holds ok owner p w L) :
    p.cap * p.elemSize ≤ P.sizeMax := by
  by_cases none : p.buf = 0
  · rw [holds.empty none, Nat.zero_mul]
    exact Nat.zero_le _
  · obtain ⟨size, held, room⟩ := holds.block none
    have := serves.bounds holds.ok held
    dsimp only at this
    omega

theorem Holds.cap_le (serves : Serves P A owner ok limit) (holds : Holds ok owner p w L) :
    p.cap ≤ P.sizeMax :=
  Nat.le_trans (Nat.le_mul_of_pos_right _ holds.positive) (holds.bound serves)

theorem Holds.nonnull (holds : Holds ok owner p w L) (some : 0 < p.count) : p.buf ≠ 0 := by
  intro null
  have := holds.empty null
  have := holds.count
  omega

theorem Holds.used (holds : Holds ok owner p w L) (inside : x < p.count * p.elemSize) :
    p.buf + x ∈ L.bytes := by
  by_cases none : p.buf = 0
  · have empty := holds.empty none
    have count := holds.count
    rw [show p.count = 0 by omega, Nat.zero_mul] at inside
    omega
  · obtain ⟨size, held, room⟩ := holds.block none
    have := Nat.mul_le_mul_right p.elemSize holds.count
    exact Blocks.mem_bytes held (by dsimp only; omega)

theorem Holds.write (serves : Serves P A owner ok limit) (holds : Holds ok owner p w L)
    (outside : ∀ x, x < p.buf ∨ p.buf + p.cap * p.elemSize ≤ x → m x = w.mem x) :
    Holds ok owner p { w with mem := m } L := by
  refine ⟨?_, holds.positive, holds.count, holds.empty, holds.block⟩
  by_cases none : p.buf = 0
  · apply serves.client holds.ok
    intro x _
    rw [none, holds.empty none] at outside
    exact (outside x (by omega)).symm
  · obtain ⟨size, held, room⟩ := holds.block none
    exact serves.inside holds.ok held fun x away => outside x (by dsimp only at away; omega)

theorem Holds.shorten (holds : Holds ok owner p w L) (fewer : n ≤ p.cap) :
    Holds ok owner { p with count := n } w L where
  ok := holds.ok
  positive := holds.positive
  count := fewer
  empty := holds.empty
  block := holds.block

/-- A buffer with room for `cap` elements that begins with the first `n` old ones. -/
structure Moved (ok : World σ → Blocks ι → Prop) (owner : ι) (p : RDyn) (w : World σ) (cap n : Nat)
    (newArr newCap : Nat) (w' : World σ) : Prop where
  nonnull : newArr ≠ 0
  larger : cap ≤ newCap
  block : ∃ L size, ok w' L ∧ L newArr = some ⟨owner, size⟩ ∧ newCap * p.elemSize ≤ size
  bytes : ∀ x < n * p.elemSize, w'.mem (newArr + x) = w.mem (p.buf + x)

/-- The outcomes of `reallocBuf`: a moved buffer, or nothing changed. -/
def Rebuffered (ok : World σ → Blocks ι → Prop) (owner : ι) (p : RDyn) (w : World σ) (L : Blocks ι)
    (cap n : Nat) : Option (Nat × Nat) × World σ → Prop
  | (some (newArr, newCap), w') => Moved ok owner p w cap n newArr newCap w'
  | (none, w') => ok w' L ∧ Set.EqOn w.mem w'.mem L.bytes

theorem capacity_spec (positive : 0 < elemSize) (large : cap * elemSize ≤ actual) :
    cap ≤ actual / elemSize ∧ actual / elemSize * elemSize ≤ actual :=
  ⟨(Nat.le_div_iff_mul_le positive).mpr large, Nat.div_mul_le_self actual elemSize⟩

/-- The first attempt of `reallocBuf`. -/
theorem realloc_moved (serves : Serves P A owner ok limit) (holds : Holds ok owner p w L)
    (few : n ≤ p.count) (fewer : n ≤ cap) (small : cap * p.elemSize ≤ limit) :
    let result := ralcRealloc A w p.buf (cap * p.elemSize)
    if result.1.ptr = 0 then ok result.2 L ∧ Set.EqOn w.mem result.2.mem L.bytes
    else Moved ok owner p w cap n result.1.ptr (result.1.actual 0 / p.elemSize) result.2 := by
  intro result
  by_cases none : p.buf = 0
  · have granted := serves.realloc_null holds.ok small
    rw [← none] at granted
    obtain ⟨same, outcome⟩ := granted
    change Set.EqOn w.mem result.2.mem L.bytes at same
    change if result.1.ptr = 0 then _ else _ at outcome
    split at outcome
    case isTrue null => exact (if_pos null).mpr ⟨outcome, same⟩
    case isFalse nonnull =>
      obtain ⟨actual, out, large, -, granted⟩ := outcome
      have count := holds.count
      have empty := holds.empty none
      obtain ⟨larger, room⟩ := capacity_spec holds.positive large
      rw [if_neg nonnull, Reply.actual, out]
      refine ⟨nonnull, larger, ⟨_, actual, granted, Blocks.grant_same, room⟩, ?_⟩
      intro x inside
      rw [show n = 0 by omega, Nat.zero_mul] at inside
      omega
  · obtain ⟨size, held, room⟩ := holds.block none
    obtain ⟨same, outcome⟩ := serves.realloc holds.ok held small
    change if result.1.ptr = 0 then _ else _ at outcome
    split at outcome
    case isTrue null => exact (if_pos null).mpr ⟨outcome.2, outcome.1⟩
    case isFalse nonnull =>
      obtain ⟨actual, out, large, -, granted, bytes⟩ := outcome
      obtain ⟨larger, room'⟩ := capacity_spec holds.positive large
      rw [if_neg nonnull, Reply.actual, out]
      refine ⟨nonnull, larger, ⟨_, actual, granted, Blocks.grant_same, room'⟩, ?_⟩
      intro x inside
      apply bytes
      have := Nat.mul_le_mul_right p.elemSize (Nat.le_trans few holds.count)
      have := Nat.mul_le_mul_right p.elemSize fewer
      omega

/-- The second attempt, for an allocator that refused to resize. -/
theorem alloc_moved (serves : Serves P A owner ok limit) (holds : Holds ok owner p w L)
    (few : n ≤ p.count) (fewer : n ≤ cap)
    (granted : Granted ok owner w L (cap * p.elemSize) (newArr, w')) (nonnull : newArr.ptr ≠ 0) (before : Nat) :
    let copied := { w' with mem := w'.mem.copy newArr.ptr p.buf (n * p.elemSize) }
    Moved ok owner p w cap n newArr.ptr (newArr.actual before / p.elemSize)
      (if p.buf ≠ 0 then ralcFree A copied p.buf else copied) := by
  intro copied
  obtain ⟨same, outcome⟩ := granted
  rw [if_neg nonnull] at outcome
  obtain ⟨actual, out, large, fresh, granted⟩ := outcome
  dsimp only at same out granted
  obtain ⟨larger, room⟩ := capacity_spec holds.positive large
  have cover := Nat.mul_le_mul_right p.elemSize fewer
  have bytes : ∀ x < n * p.elemSize, copied.mem (newArr.ptr + x) = w.mem (p.buf + x) := by
    intro x inside
    have := Nat.mul_le_mul_right p.elemSize few
    exact (Mem.copy_in inside).trans (same (holds.used (by omega))).symm
  have granted' : ok copied (L.grant newArr.ptr owner actual) := by
    apply serves.inside granted Blocks.grant_same
    intro x outside
    exact Mem.copy_out (by dsimp only at outside; omega)
  rw [Reply.actual, out]
  split
  case isTrue old =>
    obtain ⟨size, held, -⟩ := holds.block old
    have different := Blocks.ne_of_fresh held fresh
    obtain ⟨kept, freed⟩ := serves.free granted' (Blocks.grant_kept fresh held)
    have block : (L.grant newArr.ptr owner actual).release p.buf newArr.ptr =
        some ⟨owner, actual⟩ := by
      rw [Blocks.release_other different.symm, Blocks.grant_same]
    refine ⟨nonnull, larger, ⟨_, actual, freed, block, room⟩, ?_⟩
    intro x inside
    rw [← bytes x inside]
    exact (kept (Blocks.mem_bytes block (by dsimp only; omega))).symm
  case isFalse =>
    exact ⟨nonnull, larger, ⟨_, actual, granted', Blocks.grant_same, room⟩, bytes⟩

theorem reallocBuf_ends (resize : ralcRealloc A w p.buf (P.mul cap p.elemSize) = (resized, w₁))
    (alloc : ralcAlloc A w₁ (P.mul cap p.elemSize) = (fresh, w₂)) :
    reallocBuf P A p w cap copyCount =
      if resized.ptr ≠ 0 then (some (resized.ptr, resized.actual 0 / p.elemSize), w₁)
      else if fresh.ptr = 0 then (none, w₂)
      else
        let copied := { w₂ with mem := w₂.mem.copy fresh.ptr p.buf (P.mul copyCount p.elemSize) }
        (some (fresh.ptr, fresh.actual (resized.actual 0) / p.elemSize),
          if p.buf ≠ 0 then ralcFree A copied p.buf else copied) := by
  simp only [reallocBuf, resize, alloc]

theorem reallocBuf_cases (serves : Serves P A owner ok limit) (holds : Holds ok owner p w L)
    (few : n ≤ p.count) (fewer : n ≤ cap) (fits : cap * p.elemSize ≤ P.sizeMax)
    (small : cap * p.elemSize ≤ limit) :
    Rebuffered ok owner p w L cap n (reallocBuf P A p w cap n) := by
  have cover : n * p.elemSize ≤ P.sizeMax := Nat.le_trans (Nat.mul_le_mul_right _ fewer) fits
  have first := realloc_moved serves holds few fewer small
  rw [← Platform.mul_of_le fits] at first small
  generalize resize : ralcRealloc A w p.buf (P.mul cap p.elemSize) = attempt at first
  obtain ⟨resized, w₁⟩ := attempt
  generalize alloc : ralcAlloc A w₁ (P.mul cap p.elemSize) = attempt
  obtain ⟨fresh, w₂⟩ := attempt
  rw [reallocBuf_ends resize alloc, Platform.mul_of_le cover]
  dsimp only at first
  split
  case isTrue moved =>
    rw [if_neg moved] at first
    exact first
  case isFalse refused =>
    rw [if_pos (not_not.mp refused)] at first
    obtain ⟨kept, same⟩ := first
    have holds₁ : Holds ok owner p w₁ L :=
      ⟨kept, holds.positive, holds.count, holds.empty, holds.block⟩
    have second := serves.alloc kept small
    rw [alloc] at second
    split
    case isTrue null =>
      obtain ⟨same', outcome⟩ := second
      rw [if_pos null] at outcome
      exact ⟨outcome, same.trans same'⟩
    case isFalse some =>
      rw [Platform.mul_of_le fits] at second
      have moved := alloc_moved serves holds₁ few fewer second some (resized.actual 0)
      refine ⟨moved.nonnull, moved.larger, moved.block, fun x inside => ?_⟩
      have := Nat.mul_le_mul_right p.elemSize few
      rw [moved.bytes x inside, same (holds.used (by omega))]

/-- The array `p'` holds together and has the settings of `p`. -/
structure Becomes (ok : World σ → Blocks ι → Prop) (owner : ι) (p p' : RDyn) (w' : World σ) :
    Prop where
  holds : ∃ L, Holds ok owner p' w' L
  elemSize : p'.elemSize = p.elemSize
  allowShrink : p'.allowShrink = p.allowShrink

theorem Moved.becomes (moved : Moved ok owner p w cap n newArr newCap w') (positive : 0 < p.elemSize)
    (fewer : count ≤ newCap) :
    Becomes ok owner p { p with buf := newArr, cap := newCap, count := count } w' := by
  obtain ⟨L, size, kept, held, room⟩ := moved.block
  exact ⟨⟨L, kept, positive, fewer, fun null => absurd null moved.nonnull, fun _ => ⟨size, held, room⟩⟩,
    rfl, rfl⟩

theorem Moved.elems (moved : Moved ok owner p w cap n newArr newCap w') :
    elems w'.mem newArr p.elemSize n = elems w.mem p.buf p.elemSize n :=
  elems_congr moved.bytes

theorem Holds.contents_kept (holds : Holds ok owner p w L) (same : Set.EqOn w.mem m L.bytes) :
    contents p m = contents p w.mem :=
  elems_congr fun _ inside => (same (holds.used inside)).symm

/-- `grow` makes room and keeps the elements, or changes nothing. -/
def Grown (ok : World σ → Blocks ι → Prop) (owner : ι) (p : RDyn) (w : World σ) (growCount : Nat) :
    Bool × RDyn × World σ → Prop
  | (true, p', w') => Becomes ok owner p p' w' ∧ p'.count = p.count + growCount ∧
      elems w'.mem p'.buf p.elemSize p.count = contents p w.mem
  | (false, p', w') => Becomes ok owner p p' w' ∧ p' = p ∧ contents p w'.mem = contents p w.mem

theorem Moved.grown (moved : Moved ok owner p w cap p.count newArr newCap w')
    (positive : 0 < p.elemSize) (enough : p.count + growCount ≤ cap) :
    Grown ok owner p w growCount
      (true, { p with buf := newArr, count := p.count + growCount, cap := newCap }, w') :=
  ⟨moved.becomes positive (Nat.le_trans enough moved.larger), rfl, moved.elems⟩

theorem grow_cases (serves : Serves P A owner ok limit) (holds : Holds ok owner p w L)
    (asserts : GrowAsserts P limit p growCount) :
    Grown ok owner p w growCount (grow P A p w growCount) := by
  have positive := holds.positive
  obtain ⟨wraps, room⟩ := asserts
  have bounded := Nat.le_trans holds.count (holds.cap_le serves)
  simp only [grow, Platform.add_of_le (show p.count + growCount ≤ P.sizeMax by omega)]
  by_cases fits : p.count + growCount ≤ p.cap
  · rw [if_pos fits]
    exact ⟨⟨⟨L, holds.shorten fits⟩, rfl, rfl⟩, rfl, rfl⟩
  · rw [if_neg fits]
    obtain ⟨divides, small⟩ := room.resolve_left fits
    generalize total : p.count + growCount = newCount at fits divides small ⊢
    have more : newCount ≤ newCount + newCount / 2 := Nat.le_add_right _ _
    have representable : (newCount + newCount / 2) * p.elemSize ≤ P.sizeMax :=
      (Nat.le_div_iff_mul_le positive).mp divides
    have fewer := Nat.mul_le_mul_right p.elemSize more
    rw [Platform.add_of_le (Nat.le_trans (Nat.le_mul_of_pos_right _ positive) representable)]
    have first := reallocBuf_cases serves holds (Nat.le_refl _)
      (show p.count ≤ newCount + newCount / 2 by omega) representable small
    generalize reallocBuf P A p w (newCount + newCount / 2) p.count = attempt at first ⊢
    obtain ⟨moved | ⟨newArr, newCap⟩, w₁⟩ := attempt
    case some =>
      subst total
      exact Moved.grown first positive more
    case none =>
      obtain ⟨kept, same⟩ := first
      have holds₁ : Holds ok owner p w₁ L :=
        ⟨kept, positive, holds.count, holds.empty, holds.block⟩
      have unchanged := holds.contents_kept same
      have second := reallocBuf_cases serves holds₁ (Nat.le_refl _)
        (show p.count ≤ newCount by omega) (Nat.le_trans fewer representable)
        (Nat.le_trans fewer small)
      dsimp only
      generalize reallocBuf P A p w₁ newCount p.count = attempt at second ⊢
      obtain ⟨moved | ⟨newArr, newCap⟩, w₂⟩ := attempt
      case some =>
        subst total
        obtain ⟨becomes, count, elems⟩ := Moved.grown second positive (Nat.le_refl _)
        exact ⟨becomes, count, elems.trans unchanged⟩
      case none =>
        obtain ⟨kept', same'⟩ := second
        refine ⟨⟨⟨L, kept', positive, holds.count, holds.empty, holds.block⟩, rfl, rfl⟩, rfl, ?_⟩
        rw [holds₁.contents_kept same', unchanged]

theorem rdynClear_cases (serves : Serves P A owner ok limit) (holds : Holds ok owner p w L) :
    Becomes ok owner p (rdynClear A p w).1 (rdynClear A p w).2 ∧ (rdynClear A p w).1.count = 0 := by
  refine ⟨⟨?_, rfl, rfl⟩, rfl⟩
  rw [rdynClear]
  split
  case isTrue old =>
    obtain ⟨size, held, -⟩ := holds.block old
    exact ⟨_, (serves.free holds.ok held).2, holds.positive, Nat.le_refl _, fun _ => rfl,
      fun null => absurd rfl null⟩
  case isFalse =>
    exact ⟨L, holds.ok, holds.positive, Nat.le_refl _, fun _ => rfl, fun null => absurd rfl null⟩

/-- `shrink` drops elements from the end, whether or not it finds a smaller buffer. -/
theorem shrink_cases (serves : Serves P A owner ok limit) (holds : Holds ok owner p w L)
    (asserts : ShrinkAsserts limit p shrinkCount) (result : shrink P A p w shrinkCount = (p', w')) :
    Becomes ok owner p p' w' ∧ p'.count = p.count - shrinkCount ∧
      contents p' w'.mem = elems w.mem p.buf p.elemSize (p.count - shrinkCount) := by
  obtain ⟨ordered, small⟩ := asserts
  have bounded := Nat.le_trans holds.count (holds.cap_le serves)
  have count := holds.count
  have shorter : ∀ {w' : World σ}, ok w' L → Set.EqOn w.mem w'.mem L.bytes →
      Becomes ok owner p { p with count := p.count - shrinkCount } w' ∧
        contents { p with count := p.count - shrinkCount } w'.mem =
          elems w.mem p.buf p.elemSize (p.count - shrinkCount) := by
    intro w' kept same
    have holds' := holds.shorten (Nat.le_trans (Nat.sub_le p.count shrinkCount) count)
    refine ⟨⟨⟨L, ⟨kept, holds'.positive, holds'.count, holds'.empty, holds'.block⟩⟩, rfl, rfl⟩, ?_⟩
    exact holds'.contents_kept same
  simp only [shrink, Platform.sub_of_le ordered bounded] at result
  split at result
  case isTrue =>
    cases result
    obtain ⟨becomes, list⟩ := shorter holds.ok fun _ _ => rfl
    exact ⟨becomes, rfl, list⟩
  case isFalse allowed =>
    split at result
    case isTrue all =>
      obtain ⟨becomes, none⟩ := rdynClear_cases serves holds
      rw [result] at becomes none
      have left : p.count - shrinkCount = 0 := by omega
      exact ⟨becomes, by rw [none, left], by rw [contents, none, left]; rfl⟩
    case isFalse =>
      split at result
      case isFalse =>
        cases result
        obtain ⟨becomes, list⟩ := shorter holds.ok fun _ _ => rfl
        exact ⟨becomes, rfl, list⟩
      case isTrue half =>
        have request := small ⟨by simpa using allowed, half⟩
        have few : p.count - shrinkCount ≤ p.count := Nat.sub_le _ _
        generalize p.count - shrinkCount = newCount at half request few shorter result ⊢
        have smaller : newCount + newCount / 3 ≤ p.cap := by omega
        have fits := Nat.le_trans (Nat.mul_le_mul_right p.elemSize smaller) (holds.bound serves)
        rw [Platform.add_of_le (Nat.le_trans smaller (holds.cap_le serves))] at result
        have outcome := reallocBuf_cases serves holds few (Nat.le_add_right newCount (newCount / 3))
          fits request
        generalize reallocBuf P A p w (newCount + newCount / 3) newCount = attempt at outcome result
        obtain ⟨moved | ⟨newArr, newCap⟩, w₁⟩ := attempt
        case some =>
          cases result
          have enough := Nat.le_trans (Nat.le_add_right newCount (newCount / 3)) outcome.larger
          exact ⟨outcome.becomes holds.positive enough, rfl, outcome.elems⟩
        case none =>
          cases result
          obtain ⟨becomes, list⟩ := shorter outcome.1 outcome.2
          exact ⟨becomes, rfl, list⟩

theorem Holds.used_fits (serves : Serves P A owner ok limit) (holds : Holds ok owner p w L) :
    p.count * p.elemSize ≤ P.sizeMax :=
  Nat.le_trans (Nat.mul_le_mul_right _ holds.count) (holds.bound serves)

theorem Holds.shift (serves : Serves P A owner ok limit) (holds : Holds ok owner p w L)
    (outside : ∀ x, x < p.buf ∨ p.buf + p.count * p.elemSize ≤ x → m x = w.mem x) :
    Holds ok owner p { w with mem := m } L := by
  have count := Nat.mul_le_mul_right p.elemSize holds.count
  exact holds.write serves fun x away => outside x (by omega)

theorem rdynInsert_cases (serves : Serves P A owner ok limit) (holds : Holds ok owner p w L)
    (asserts : GrowAsserts P limit p count) (inside : index ≤ p.count)
    (result : rdynInsert P A p w index count = (b, p', w')) :
    Becomes ok owner p p' w' ∧
      if b = 0 then contents p' w'.mem = contents p w.mem
      else b = p'.buf + index * p.elemSize ∧ p'.count = p.count + count ∧
        ∃ gap, gap.length = count ∧ contents p' w'.mem =
          (contents p w.mem).take index ++ gap ++ (contents p w.mem).drop index := by
  have grown := grow_cases serves holds asserts
  rw [rdynInsert] at result
  generalize grow P A p w count = attempt at grown result
  obtain ⟨success, p₁, w₁⟩ := attempt
  cases success with
  | false =>
    cases result
    obtain ⟨becomes, rfl, list⟩ := grown
    exact ⟨becomes, by rwa [if_pos rfl]⟩
  | true =>
    obtain ⟨⟨⟨L', holds'⟩, size, allow⟩, total, kept⟩ := grown
    have fits := holds'.used_fits serves
    have positive := holds'.positive
    have room : index + count ≤ p₁.count := by omega
    obtain ⟨gap, length, list⟩ := rarrInsert_elems (m := w₁.mem) fits positive room p₁.buf
    have outside := fun x => rarrInsert_out (m := w₁.mem) (x := x) fits positive room p₁.buf
    have pointer := congrArg Prod.fst (rarrInsert_run (m := w₁.mem) fits positive room p₁.buf)
    dsimp only at result
    generalize rarrInsert P w₁.mem p₁.buf p₁.elemSize p₁.count index count = shifted
      at list outside pointer result
    obtain ⟨b₁, m⟩ := shifted
    cases result
    dsimp only at list outside pointer
    refine ⟨⟨⟨L', holds'.shift serves outside⟩, size, allow⟩, ?_⟩
    have before : p'.count - count = p.count := by omega
    rw [before, size, kept] at list
    split
    case isTrue null =>
      have empty := holds'.empty (by omega)
      have := holds'.count
      have none : p.count = 0 := by omega
      have none' : p'.count = 0 := by omega
      simp [contents, elems, none, none']
    case isFalse =>
      refine ⟨by rw [pointer, size], total, gap, length, ?_⟩
      rw [contents, size]
      exact list

theorem rdynRemove_cases (serves : Serves P A owner ok limit) (holds : Holds ok owner p w L)
    (asserts : ShrinkAsserts limit p count) (inside : index + count ≤ p.count)
    (result : rdynRemove P A p w index count = (b, p', w')) :
    Becomes ok owner p p' w' ∧ p'.count = p.count - count ∧
      b = (if p'.buf ≠ 0 then p'.buf + index * p.elemSize else 0) ∧
      contents p' w'.mem =
        (contents p w.mem).take index ++ (contents p w.mem).drop (index + count) := by
  have fits := holds.used_fits serves
  have positive := holds.positive
  have list := rarrRemove_elems (m := w.mem) fits positive inside p.buf
  have outside := fun x => rarrRemove_out (m := w.mem) (x := x) fits positive inside p.buf
  rw [rdynRemove] at result
  generalize rarrRemove P w.mem p.buf p.elemSize p.count index count = shifted
    at list outside result
  obtain ⟨b₁, m⟩ := shifted
  dsimp only at result
  generalize shrunk : shrink P A p { w with mem := m } count = outcome at result
  obtain ⟨p₁, w₁⟩ := outcome
  cases result
  obtain ⟨becomes, total, kept⟩ := shrink_cases serves (holds.shift serves outside) asserts shrunk
  refine ⟨becomes, total, ?_, kept.trans list⟩
  rw [becomes.elemSize, Arr.mul_le_of_le fits (show index ≤ p.count by omega)]

def Replaced (index oldCount newCount : Nat) (before after : List α) : Prop :=
  ∃ gap, gap.length = newCount - oldCount ∧
    after = before.take (index + min oldCount newCount) ++ gap ++ before.drop (index + oldCount)

/-- A resize to more elements inserts behind the old run. -/
theorem rdynResize_more (more : newCount > oldCount) (bounded : index + oldCount ≤ P.sizeMax)
    (representable : newCount ≤ P.sizeMax)
    (inserted : rdynInsert P A p w (index + oldCount) (newCount - oldCount) = (b, p', w')) :
    rdynResize P A p w index oldCount newCount =
      (if b ≠ 0 then p'.buf + P.mul index p'.elemSize else 0, p', w') := by
  simp only [rdynResize, if_pos more, Platform.add_of_le bounded,
    Platform.sub_of_le more.le representable, inserted]

/-- Any other resize removes behind the new run. -/
theorem rdynResize_fewer (fewer : ¬newCount > oldCount) (bounded : index + oldCount ≤ P.sizeMax)
    (removed : rdynRemove P A p w (index + newCount) (oldCount - newCount) = (b, p', w')) :
    rdynResize P A p w index oldCount newCount =
      (if b ≠ 0 then p'.buf + P.mul index p'.elemSize else 0, p', w') := by
  simp only [rdynResize, if_neg fewer, Platform.add_of_le (show index + newCount ≤ P.sizeMax by omega),
    Platform.sub_of_le (Nat.le_of_not_lt fewer) (show oldCount ≤ P.sizeMax by omega), removed]

theorem rdynResize_cases (serves : Serves P A owner ok limit) (holds : Holds ok owner p w L)
    (asserts : if newCount > oldCount then GrowAsserts P limit p (newCount - oldCount)
      else ShrinkAsserts limit p (oldCount - newCount)) (inside : index + oldCount ≤ p.count)
    (representable : newCount ≤ P.sizeMax)
    (result : rdynResize P A p w index oldCount newCount = (b, p', w')) :
    Becomes ok owner p p' w' ∧
      if newCount > oldCount ∧ b = 0 then contents p' w'.mem = contents p w.mem
      else Replaced index oldCount newCount (contents p w.mem) (contents p' w'.mem) := by
  have bounded := Nat.le_trans holds.count (holds.cap_le serves)
  by_cases more : newCount > oldCount
  · rw [if_pos more] at asserts
    generalize inserted : rdynInsert P A p w (index + oldCount) (newCount - oldCount) = outcome
    obtain ⟨b₁, p₁, w₁⟩ := outcome
    rw [rdynResize_more more (by omega) representable inserted] at result
    cases result
    obtain ⟨becomes, effect⟩ := rdynInsert_cases serves holds asserts inside inserted
    refine ⟨becomes, ?_⟩
    by_cases null : b₁ = 0
    · rw [if_pos null] at effect
      rw [if_neg (not_not_intro null), if_pos ⟨more, rfl⟩]
      exact effect
    · rw [if_neg null] at effect
      obtain ⟨-, total, gap, length, list⟩ := effect
      obtain ⟨L', holds'⟩ := becomes.holds
      have nonnull : p'.buf ≠ 0 := holds'.nonnull (by omega)
      have points : p'.buf + P.mul index p'.elemSize ≠ 0 := by omega
      rw [if_pos null, if_neg fun both => points both.2]
      exact ⟨gap, length, by rw [Nat.min_eq_left (by omega), list]⟩
  · rw [if_neg more] at asserts
    generalize removed : rdynRemove P A p w (index + newCount) (oldCount - newCount) = outcome
    obtain ⟨b₁, p₁, w₁⟩ := outcome
    rw [rdynResize_fewer more (by omega) removed] at result
    cases result
    obtain ⟨becomes, -, -, list⟩ := rdynRemove_cases serves holds asserts (by omega) removed
    refine ⟨becomes, ?_⟩
    have rest : index + newCount + (oldCount - newCount) = index + oldCount := by omega
    rw [if_neg fun both => more both.1]
    refine ⟨[], by rw [List.length_nil]; omega, ?_⟩
    rw [list, Nat.min_eq_right (by omega), rest, List.append_nil]

end Ratlib.Dyn
