import Ratlib.Dyn.Operations
import Ratlib.Alloc.Requests
import Ratlib.Gen.Contract

/-! The capacity that `grow` asks for is a sum that may wrap, times an element size that
may make it wrap again. The array counts the elements all the same. -/
namespace Ratlib.Dyn

variable {P : Platform} {σ : Type u} {A : Ralc σ} {p : RDyn} {w w' : World (σ × Request)}

def wantedCap (P : Platform) (p : RDyn) (growCount : Nat) : Nat :=
  P.add (P.add p.count growCount) (P.add p.count growCount / 2)

def BufAsserts (P : Platform) (p : RDyn) (cap copyCount : Nat) : Prop :=
  copyCount ≤ p.count ∧ copyCount ≤ cap ∧ cap ≤ P.sizeMax / p.elemSize

instance (P : Platform) (p : RDyn) (cap copyCount : Nat) : Decidable (BufAsserts P p cap copyCount) :=
  inferInstanceAs (Decidable (_ ∧ _ ∧ _))

/-- No assertion of a `reallocBuf` fails that `grow` calls where it has to. -/
def BufsAssert (P : Platform) (A : Ralc σ) (p : RDyn) (w : World σ) (growCount : Nat) : Prop :=
  BufAsserts P p (wantedCap P p growCount) p.count ∧
    ((reallocBuf P A p w (wantedCap P p growCount) p.count).1 = none →
      BufAsserts P p (P.add p.count growCount) p.count)

/-- If the array grew, it has the capacity for what it counts, in a buffer whose reported
size has room for it. -/
def Enough (p : RDyn) (growCount : Nat) (result : Nat × RDyn × World (σ × Request)) : Prop :=
  let (q, p', w') := result
  p.cap < p.count + growCount → q ≠ 0 → p'.count ≤ p'.cap ∧ w'.state.2.reply.ptr = p'.buf ∧
    p'.count * p'.elemSize ≤ w'.state.2.reply.actual 0

/-- A new buffer is the one in hand, and its capacity what was reported has room for. -/
theorem reallocBuf_reports (reports : Reports A)
    (result : reallocBuf P (recorded A) p w cap copyCount = (some (newArr, newCap), w')) :
    w'.state.2.reply.ptr = newArr ∧ newCap = w'.state.2.reply.actual 0 / p.elemSize ∧
      P.mul cap p.elemSize ≤ w'.state.2.reply.actual 0 := by
  generalize resize : ralcRealloc (recorded A) w p.buf (P.mul cap p.elemSize) = attempt
  obtain ⟨resized, w₁⟩ := attempt
  generalize request : ralcAlloc (recorded A) w₁ (P.mul cap p.elemSize) = attempt
  obtain ⟨fresh, w₂⟩ := attempt
  rw [reallocBuf_ends resize request] at result
  split at result
  case isTrue moved =>
    cases result
    obtain ⟨actual, out, large, hand⟩ := recorded_realloc reports resize moved
    rw [hand]
    exact ⟨rfl, rfl, by rwa [Reply.actual, out, Option.getD_some]⟩
  case isFalse =>
    split at result
    case isTrue => cases result
    case isFalse granted =>
      obtain ⟨actual, out, large, hand⟩ := recorded_alloc reports request granted
      cases result
      have kept : ∀ w₃ : World (σ × Request), w₃.state.2 = ⟨P.mul cap p.elemSize, fresh⟩ →
          (if p.buf ≠ 0 then ralcFree (recorded A) w₃ p.buf else w₃).state.2 =
            ⟨P.mul cap p.elemSize, fresh⟩ := by
        intro w₃ same
        split
        · exact same
        · exact same
      rw [kept ⟨w₂.state, w₂.mem.copy fresh.ptr p.buf (P.mul copyCount p.elemSize)⟩ hand]
      simp only [Reply.actual, out, Option.getD_some]
      exact ⟨trivial, trivial, large⟩

/-- The product of a capacity that holds `n` elements, if it does not wrap. -/
theorem enough_of_fits (positive : 0 < p.elemSize) (fits : cap * p.elemSize ≤ P.sizeMax) (large : n ≤ cap)
    (reported : P.mul cap p.elemSize ≤ actual) : n ≤ actual / p.elemSize ∧ n * p.elemSize ≤ actual := by
  rw [Platform.mul_of_le fits] at reported
  have room := (Nat.mul_le_mul_right p.elemSize large).trans reported
  exact ⟨(Nat.le_div_iff_mul_le positive).mpr room, room⟩

/-- What `rdyn_insert` returns after it grew: one of the two buffers it may ask for. -/
theorem rdynInsert_grown {w w' : World σ} (fits : p.count + growCount ≤ P.sizeMax)
    (grows : p.cap < p.count + growCount)
    (result : rdynInsert P A p w index growCount = (q, p', w')) (given : q ≠ 0) :
    ∃ cap w₁ newArr newCap w₂, reallocBuf P A p w₁ cap p.count = (some (newArr, newCap), w₂) ∧
      (cap = wantedCap P p growCount ∨
        cap = p.count + growCount ∧ (reallocBuf P A p w (wantedCap P p growCount) p.count).1 = none) ∧
      p' = { p with buf := newArr, count := p.count + growCount, cap := newCap } ∧
      w'.state = w₂.state := by
  have total : P.add p.count growCount = p.count + growCount := Platform.add_of_le fits
  simp only [rdynInsert, grow, total, if_neg (Nat.not_le_of_lt grows)] at result
  rw [wantedCap, total]
  generalize first : reallocBuf P A p w (P.add (p.count + growCount) ((p.count + growCount) / 2))
    p.count = attempt at result ⊢
  obtain ⟨none | ⟨newArr, newCap⟩, w₁⟩ := attempt
  case some =>
    cases result
    exact ⟨_, w, newArr, newCap, w₁, first, Or.inl rfl, rfl, rfl⟩
  case none =>
    dsimp only at result
    generalize second : reallocBuf P A p w₁ (p.count + growCount) p.count = attempt at result
    obtain ⟨none | ⟨newArr, newCap⟩, w₂⟩ := attempt
    case some =>
      cases result
      exact ⟨_, w₁, newArr, newCap, w₂, second, Or.inr ⟨rfl, rfl⟩, rfl, rfl⟩
    case none =>
      cases result
      exact absurd rfl given

/-- An array that grows into capacities whose bytes do not wrap has room. -/
theorem rdynInsert_enough (reports : Reports A) (positive : 0 < p.elemSize)
    (fits : p.count + growCount ≤ P.sizeMax)
    (first : p.count + growCount ≤ wantedCap P p growCount ∧
      wantedCap P p growCount * p.elemSize ≤ P.sizeMax)
    (second : (reallocBuf P (recorded A) p w (wantedCap P p growCount) p.count).1 = none →
      (p.count + growCount) * p.elemSize ≤ P.sizeMax) :
    Enough p growCount (rdynInsert P (recorded A) p w index growCount) := by
  generalize result : rdynInsert P (recorded A) p w index growCount = answer
  obtain ⟨q, p', w'⟩ := answer
  intro grows given
  obtain ⟨cap, w₁, newArr, newCap, w₂, bought, caps, rfl, state⟩ := rdynInsert_grown fits grows result given
  obtain ⟨hand, capacity, reported⟩ := reallocBuf_reports reports bought
  have enough : p.count + growCount ≤ cap ∧ cap * p.elemSize ≤ P.sizeMax := by
    rcases caps with rfl | ⟨rfl, refused⟩
    · exact first
    · exact ⟨Nat.le_refl _, second refused⟩
  obtain ⟨elements, bytes⟩ := enough_of_fits positive enough.2 enough.1 reported
  rw [state]
  exact ⟨capacity ▸ elements, hand, bytes⟩

/-- What the array is after it grew over the allocator that reports what it was asked for. -/
theorem rdynInsert_granting (index : Nat) (fits : p.count + growCount ≤ P.sizeMax)
    (grows : p.cap < p.count + growCount) (w : World (Unit × Request)) :
    let size := P.mul (wantedCap P p growCount) p.elemSize
    ∃ q m, q ≠ 0 ∧ rdynInsert P (recorded granting) p w index growCount =
      (q, { p with buf := 1, count := p.count + growCount, cap := size / p.elemSize },
        ⟨((), ⟨size, ⟨1, some size⟩⟩), m⟩) := by
  intro size
  have total : P.add p.count growCount = p.count + growCount := Platform.add_of_le fits
  have bought : reallocBuf P (recorded granting) p w (wantedCap P p growCount) p.count =
      (some (1, size / p.elemSize), ⟨((), ⟨size, ⟨1, some size⟩⟩), w.mem⟩) := rfl
  rw [wantedCap, total] at bought
  simp only [rdynInsert, grow, total, if_neg (Nat.not_le_of_lt grows), bought]
  refine ⟨_, _, ?_, rfl⟩
  rw [Arr.rarrInsert]
  dsimp only
  omega

/-- The bytes asked for first, in a number that wraps once for all. -/
theorem wantedCap_mul (fits : p.count + growCount ≤ P.sizeMax) :
    P.mul (wantedCap P p growCount) p.elemSize =
      (p.count + growCount + (p.count + growCount) / 2) * p.elemSize % (P.sizeMax + 1) := by
  rw [wantedCap, Platform.add_of_le fits, Platform.mul, Platform.add, Platform.wrap, Platform.wrap,
    Nat.mod_mul_mod, P.sizeMax_succ]

/-- A number of bytes that wraps is too small for the elements. -/
theorem wraps_small (room : n * size ≤ (n + n / 2) * size % (sizeMax + 1)) :
    (n + n / 2) * size ≤ sizeMax := by
  have half : n / 2 * size ≤ n * size := Nat.mul_le_mul_right size (Nat.div_le_self n 2)
  have low : (n + n / 2) * size % (sizeMax + 1) < sizeMax + 1 := Nat.mod_lt _ (Nat.succ_pos _)
  have below := room.trans_lt low
  rw [Nat.add_mul] at room ⊢
  by_contra wraps
  rw [Nat.mod_eq_sub_mod (by omega), Nat.mod_eq_of_lt (by omega)] at room
  omega

/-- Over that allocator room is left for what was asked for first. -/
theorem granting_wanted {w : World (Unit × Request)} (fits : p.count + growCount ≤ P.sizeMax)
    (grows : p.cap < p.count + growCount)
    (enough : Enough p growCount (rdynInsert P (recorded granting) p w index growCount)) :
    p.count + growCount ≤ P.mul (wantedCap P p growCount) p.elemSize / p.elemSize := by
  obtain ⟨q, m, given, result⟩ := rdynInsert_granting index fits grows w
  rw [result] at enough
  exact (enough grows given).1

theorem wantedCap_eq (small : p.count + growCount + (p.count + growCount) / 2 ≤ P.sizeMax) :
    wantedCap P p growCount = p.count + growCount + (p.count + growCount) / 2 := by
  rw [wantedCap, Platform.add_of_le (a := p.count) (by omega), Platform.add_of_le small]

/-- Without the assertions of `reallocBuf` the bytes asked for first decide. -/
theorem insert_unchecked_iff (positive : 0 < p.elemSize) (fits : p.count + growCount ≤ P.sizeMax) :
    (∀ (σ : Type) (A : Ralc σ) (w : World (σ × Request)), Reports A →
      Enough p growCount (rdynInsert P (recorded A) p w index growCount)) ↔
    p.count + growCount ≤ p.cap ∨
      (p.count + growCount + (p.count + growCount) / 2) * p.elemSize ≤ P.sizeMax := by
  constructor
  · intro always
    by_cases grows : p.cap < p.count + growCount
    · have enough := always Unit granting ⟨((), ⟨0, .null⟩), fun _ => 0⟩ granting_reports
      refine Or.inr (wraps_small ?_)
      rw [← wantedCap_mul fits]
      exact (Nat.le_div_iff_mul_le positive).mp (granting_wanted fits grows enough)
    · exact Or.inl (Nat.le_of_not_lt grows)
  · rintro (room | fitting) σ A w reports
    · exact fun grows => absurd room (Nat.not_le_of_lt grows)
    · have small := Nat.le_trans (Nat.le_mul_of_pos_right _ positive) fitting
      refine rdynInsert_enough reports positive fits ?_ fun _ => ?_
      · rw [wantedCap_eq small]
        exact ⟨Nat.le_add_right .., fitting⟩
      · exact (Nat.mul_le_mul_right _ (Nat.le_add_right ..)).trans fitting

/-- With them their number decides, where they hold. -/
theorem insert_checked_iff (positive : 0 < p.elemSize) (fits : p.count + growCount ≤ P.sizeMax) :
    (∀ (σ : Type) (A : Ralc σ) (w : World (σ × Request)), Reports A →
      BufsAssert P (recorded A) p w growCount →
      Enough p growCount (rdynInsert P (recorded A) p w index growCount)) ↔
    p.count + growCount ≤ p.cap ∨ p.count + growCount + (p.count + growCount) / 2 ≤ P.sizeMax ∨
      ¬BufAsserts P p (wantedCap P p growCount) p.count := by
  have total : P.add p.count growCount = p.count + growCount := Platform.add_of_le fits
  constructor
  · intro always
    by_cases grows : p.cap < p.count + growCount
    · by_cases asserts : BufAsserts P p (wantedCap P p growCount) p.count
      · have enough := granting_wanted fits grows (always Unit granting
          ⟨((), ⟨0, .null⟩), fun _ => 0⟩ granting_reports ⟨asserts, fun none => by cases none⟩)
        rw [Platform.mul_of_le ((Nat.le_div_iff_mul_le positive).mp asserts.2.2),
          Nat.mul_div_cancel _ positive, wantedCap, total, Platform.add, Platform.wrap,
          ← P.sizeMax_succ] at enough
        have single : (p.count + growCount) * 1 ≤
            (p.count + growCount + (p.count + growCount) / 2) * 1 % (P.sizeMax + 1) := by
          rwa [Nat.mul_one, Nat.mul_one]
        exact Or.inr (Or.inl (by simpa using wraps_small single))
      · exact Or.inr (Or.inr asserts)
    · exact Or.inl (Nat.le_of_not_lt grows)
  · rintro (room | small | fails) σ A w reports ⟨asserts, asserts'⟩
    · exact fun grows => absurd room (Nat.not_le_of_lt grows)
    · refine rdynInsert_enough reports positive fits ⟨by rw [wantedCap_eq small]; omega, ?_⟩ fun refused => ?_
      · exact (Nat.le_div_iff_mul_le positive).mp asserts.2.2
      · rw [← total]
        exact (Nat.le_div_iff_mul_le positive).mp (asserts' refused).2.2
    · exact absurd asserts fails

/-- `rdyn_insert` that grows leaves room for what it counts over every allocator that
reports what it is asked for: without the inner assertions, if and only if the bytes it
asks for first do not wrap; with them, if and only if the capacity it asks for first does
not wrap, or an assertion fails. -/
theorem insert_enough_iff (positive : 0 < p.elemSize) (few : growCount ≤ P.sizeMax - p.count) (counted : p.count ≤ P.sizeMax) :
    ((∀ (σ : Type) (A : Ralc σ) (w : World (σ × Request)), Reports A →
        Enough p growCount (rdynInsert P (recorded A) p w index growCount)) ↔
      p.count + growCount ≤ p.cap ∨
        (p.count + growCount + (p.count + growCount) / 2) * p.elemSize ≤ P.sizeMax) ∧
    ((∀ (σ : Type) (A : Ralc σ) (w : World (σ × Request)), Reports A →
        BufsAssert P (recorded A) p w growCount →
        Enough p growCount (rdynInsert P (recorded A) p w index growCount)) ↔
      p.count + growCount ≤ p.cap ∨ p.count + growCount + (p.count + growCount) / 2 ≤ P.sizeMax ∨
        ¬BufAsserts P p (wantedCap P p growCount) p.count) :=
  ⟨insert_unchecked_iff positive (by omega), insert_checked_iff positive (by omega)⟩

theorem insert_enough_iff_lp64 :
    let w : World (Unit × Request) := ⟨((), ⟨0, .null⟩), fun _ => 0⟩
    Enough (rdynInit 8) 1000 (rdynInsert .lp64 (recorded granting) (rdynInit 8) w 0 1000) :=
  (insert_enough_iff (p := rdynInit 8) (by decide) (by decide) (by decide)).1.mpr
    (Or.inr (by decide)) Unit granting _ granting_reports

/-- The capacity wraps to 0: a ralcGen gives a block for 0 bytes, and the array counts
12297829382473034411 elements in it, with no assertion failed. -/
theorem insert_counts_nothing :
    let w : World (Gen.RalcGen × Request) := ⟨(Gen.kib.state, ⟨0, .null⟩), Gen.kib.mem⟩
    let result := rdynInsert .lp64 (recorded (Gen.ralcGen .lp64)) (rdynInit 1) w 0 12297829382473034411
    BufsAssert .lp64 (recorded (Gen.ralcGen .lp64)) (rdynInit 1) w 12297829382473034411 ∧
      result.2.2.state.2.size ≤ result.2.2.state.2.reply.actual 0 ∧
      result.1 ≠ 0 ∧ result.2.1.cap = 0 ∧ result.2.1.count = 12297829382473034411 ∧
      ¬Enough (rdynInit 1) 12297829382473034411 result := by
  intro w result
  have facts : (decide (BufAsserts .lp64 (rdynInit 1) (wantedCap .lp64 (rdynInit 1) 12297829382473034411) 0),
      (reallocBuf .lp64 (recorded (Gen.ralcGen .lp64)) (rdynInit 1) w
        (wantedCap .lp64 (rdynInit 1) 12297829382473034411) 0).1.isNone,
      result.2.2.state.2.size, result.1, result.2.1.cap, result.2.1.count) =
      (true, false, 0, 4112, 0, 12297829382473034411) := by decide +kernel
  clear_value result
  simp only [Prod.mk.injEq] at facts
  obtain ⟨asserts, granted, asked, ptr, cap, count⟩ := facts
  have given : result.1 ≠ 0 := by
    rw [ptr]
    decide
  refine ⟨⟨of_decide_eq_true asserts, fun none => ?_⟩, by rw [asked]; exact Nat.zero_le _, given, cap,
    count, fun enough => ?_⟩
  · change (reallocBuf .lp64 (recorded (Gen.ralcGen .lp64)) (rdynInit 1) w _ 0).1 = _ at none
    rw [none] at granted
    cases granted
  · have room := (enough (by decide) given).1
    rw [cap, count] at room
    omega

end Ratlib.Dyn
