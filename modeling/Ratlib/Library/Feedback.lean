import Mathlib.Algebra.Group.Hom.Basic
import Mathlib.Tactic.Abel
import Mathlib.Data.List.Induction

/-! Feedback registers over an additive group. A clock applies one additive
endomorphism and adds a fixed tap for a set input bit. Where the taps are their
own inverses, two input streams superpose; an endomorphism that commutes with
the clock carries one tap position to another. -/
namespace Ratlib.Feedback

variable {M : Type*} [AddCommGroup M] {T : M →+ M} {tap r s : M}

def clock (T : M →+ M) (tap r : M) (bit : Bool) : M := T r + if bit then tap else 0

def feed (T : M →+ M) (tap r : M) (bits : List Bool) : M := bits.foldl (clock T tap) r

@[simp] theorem feed_nil : feed T tap r [] = r := rfl

@[simp] theorem feed_cons : feed T tap r (bit :: bits) = feed T tap (clock T tap r bit) bits := rfl

theorem feed_append : feed T tap r (xs ++ ys) = feed T tap (feed T tap r xs) ys :=
  List.foldl_append

theorem feed_concat : feed T tap r (xs ++ [bit]) = clock T tap (feed T tap r xs) bit :=
  feed_append

/-- The register's own content is only clocked; the input enters from zero. -/
theorem feed_split (bits : List Bool) :
    feed T tap r bits = T^[bits.length] r + feed T tap 0 bits := by
  induction bits using List.reverseRecOn with
  | nil => simp
  | append_singleton bits bit ih =>
    simp only [feed_concat, clock, ih, map_add, List.length_append, List.length_singleton,
      Function.iterate_succ_apply', add_assoc]

theorem feed_zeros (n : Nat) : feed T tap r (List.replicate n false) = T^[n] r := by
  induction n generalizing r with
  | zero => rfl
  | succ n ih =>
    rw [List.replicate_succ, feed_cons, ih, Function.iterate_succ_apply]
    simp [clock]

/-- Anything additive that commutes with the clock moves the tap. -/
theorem map_feed (S : M →+ M) (commutes : ∀ x, S (T x) = T (S x)) (bits : List Bool) :
    S (feed T tap r bits) = feed T (S tap) (S r) bits := by
  induction bits generalizing r with
  | nil => rfl
  | cons bit bits ih =>
    have next : S (clock T tap r bit) = clock T (S tap) (S r) bit := by
      cases bit <;> simp [clock, commutes]
    rw [feed_cons, feed_cons, ih, next]

theorem iterate_feed (n : Nat) (bits : List Bool) :
    T^[n] (feed T tap r bits) = feed T (T^[n] tap) (T^[n] r) bits := by
  induction n with
  | zero => rfl
  | succ n ih => rw [Function.iterate_succ_apply', ih, map_feed T (fun _ => rfl),
      Function.iterate_succ_apply', Function.iterate_succ_apply']

/-- Superposition of two streams, where the tap is its own inverse. -/
theorem feed_superpose (own : tap + tap = 0) {xs ys : List Bool} (same : xs.length = ys.length) :
    feed T tap (r + s) (List.zipWith xor xs ys) = feed T tap r xs + feed T tap s ys := by
  induction xs generalizing r s ys with
  | nil =>
    obtain rfl := List.length_eq_zero_iff.mp same.symm
    rfl
  | cons x xs ih =>
    obtain _ | ⟨y, ys⟩ := ys
    · contradiction
    · have next : clock T tap (r + s) (xor x y) = clock T tap r x + clock T tap s y := by
        cases x <;> cases y <;> simp only [clock, map_add, Bool.bne_true, Bool.bne_false,
          Bool.not_true, Bool.not_false, if_true, if_false, Bool.false_eq_true, add_zero]
        · abel
        · abel
        · rw [add_add_add_comm, own, add_zero]
      rw [List.zipWith_cons_cons, feed_cons, next, ih (by simpa using same)]
      rfl

/-- Where everything is its own inverse, streams of one length leave the same register if
and only if their difference leaves it empty. -/
theorem feed_eq_iff (own : ∀ x : M, x + x = 0) {xs ys : List Bool} (same : xs.length = ys.length) :
    feed T tap r xs = feed T tap r ys ↔ feed T tap 0 (List.zipWith xor xs ys) = 0 := by
  have superposed := feed_superpose (T := T) (r := r) (s := r) (own tap) same
  rw [own r] at superposed
  rw [superposed]
  constructor
  · intro equal
    rw [equal, own]
  · intro zero
    rw [add_eq_zero_iff_eq_neg.mp zero, neg_eq_iff_add_eq_zero, own]

theorem eq_zeros (none : ∀ i : Nat, bits[i]? ≠ some true) :
    bits = List.replicate bits.length false := by
  refine List.eq_replicate_iff.mpr ⟨rfl, fun bit member => ?_⟩
  obtain ⟨i, inside, rfl⟩ := List.mem_iff_getElem.mp member
  have here := none i
  rw [List.getElem?_eq_getElem inside] at here
  cases bit : bits[i]
  · rfl
  · rw [bit] at here
    exact absurd rfl here

/-- A stream whose set bits lie in a window of `w` does not leave an injective register
empty, if no stream of that length does. -/
theorem feed_burst (injective : Function.Injective T) {bits : List Bool}
    (short : ∀ bits : List Bool, bits.length ≤ w → feed T tap 0 bits = 0 → ∀ bit ∈ bits, bit = false)
    (window : ∀ i : Nat, bits[i]? = some true → start ≤ i ∧ i < start + w)
    (zero : feed T tap 0 bits = 0) : ∀ bit ∈ bits, bit = false := by
  have split : bits = bits.take start ++ ((bits.drop start).take w ++ (bits.drop start).drop w) := by
    rw [List.take_append_drop, List.take_append_drop]
  have before : bits.take start = List.replicate (bits.take start).length false := by
    apply eq_zeros
    intro i set
    rw [List.getElem?_take] at set
    split at set
    · have := window i set
      omega
    · cases set
  have after : (bits.drop start).drop w = List.replicate ((bits.drop start).drop w).length false := by
    apply eq_zeros
    intro i set
    rw [List.getElem?_drop, List.getElem?_drop] at set
    have := window _ set
    omega
  rw [split, feed_append, feed_append, before, after, feed_zeros, feed_zeros, iterate_map_zero] at zero
  have inner : feed T tap 0 ((bits.drop start).take w) = 0 := by
    apply injective.iterate
    rw [zero, iterate_map_zero]
  have clear := short _ (List.length_take_le ..) inner
  intro bit member
  rw [split, before, after] at member
  simp only [List.mem_append, List.mem_replicate] at member
  rcases member with ⟨-, none⟩ | member | ⟨-, none⟩
  · exact none
  · exact clear bit member
  · exact none

end Ratlib.Feedback
