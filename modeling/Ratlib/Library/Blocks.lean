import Mathlib.Logic.Function.Basic
import Mathlib.Order.Interval.Set.Basic
import Mathlib.Data.Set.Function
import Mathlib.Order.Interval.Finset.Nat
import Mathlib.Algebra.BigOperators.Group.Finset.Basic
import Mathlib.Algebra.Order.BigOperators.Group.Finset

/-! Families of labelled address ranges: which ranges are held, by whom, and
which bytes they cover. Separate ranges below a bound have bounded total size. -/
namespace Ratlib

structure Block (ι : Type u) where
  owner : ι
  size : Nat

/-- The held ranges, by start address. -/
abbrev Blocks (ι : Type u) := Nat → Option (Block ι)

namespace Blocks

variable {ι : Type u}

def grant (L : Blocks ι) (a : Nat) (owner : ι) (size : Nat) : Blocks ι :=
  Function.update L a (some ⟨owner, size⟩)

def release (L : Blocks ι) (a : Nat) : Blocks ι := Function.update L a none

def bytes (L : Blocks ι) : Set Nat :=
  {x | ∃ a block, L a = some block ∧ a ≤ x ∧ x < a + block.size}

/-- No two held ranges share a byte. -/
def Separate (L : Blocks ι) : Prop :=
  ∀ a b x y, L a = some x → L b = some y → a ≠ b → a + x.size ≤ b ∨ b + y.size ≤ a

variable {L : Blocks ι}

@[simp] theorem grant_same : L.grant a owner size a = some ⟨owner, size⟩ := Function.update_self ..

theorem grant_other (other : b ≠ a) : L.grant a owner size b = L b := Function.update_of_ne other ..

@[simp] theorem release_same : L.release a a = none := Function.update_self ..

theorem release_other (other : b ≠ a) : L.release a b = L b := Function.update_of_ne other ..

theorem release_some (held : L.release a b = some block) : b ≠ a ∧ L b = some block := by
  by_cases same : b = a
  · subst same
    simp at held
  · exact ⟨same, by rwa [release_other same] at held⟩

theorem grant_some (held : L.grant a owner size b = some block) :
    b = a ∧ block = ⟨owner, size⟩ ∨ b ≠ a ∧ L b = some block := by
  by_cases same : b = a
  · subst same
    rw [grant_same] at held
    exact Or.inl ⟨rfl, (Option.some.inj held).symm⟩
  · exact Or.inr ⟨same, by rwa [grant_other same] at held⟩

theorem ne_of_fresh (held : L a = some block) (fresh : L b = none) : a ≠ b := by
  rintro rfl
  rw [fresh] at held
  cases held

/-- The held ranges stay beside one that is granted. -/
theorem grant_kept (fresh : L b = none) (held : L a = some block) :
    L.grant b owner size a = some block := by
  rwa [grant_other (ne_of_fresh held fresh)]

theorem release_grant (fresh : L a = none) : (L.grant a owner size).release a = L := by
  rw [grant, release, Function.update_idem, ← fresh, Function.update_eq_self]

theorem grant_release (other : b ≠ a) :
    (L.grant a owner size).release b = (L.release b).grant a owner size :=
  Function.update_comm other.symm ..

theorem mem_bytes (held : L a = some block) (inside : a ≤ x ∧ x < a + block.size) : x ∈ L.bytes :=
  ⟨a, block, held, inside.1, inside.2⟩

theorem bytes_release_subset : (L.release a).bytes ⊆ L.bytes := by
  rintro x ⟨b, block, held, inside⟩
  exact ⟨b, block, (release_some held).2, inside⟩

theorem bytes_subset_grant (fresh : L a = none) : L.bytes ⊆ (L.grant a owner size).bytes := by
  rintro x ⟨b, block, held, inside⟩
  exact ⟨b, block, grant_kept fresh held, inside⟩

theorem Separate.outside (separate : L.Separate) (held : L a = some block)
    (inside : x ∈ (L.release a).bytes) : x < a ∨ a + block.size ≤ x := by
  obtain ⟨b, other, found, low, high⟩ := inside
  obtain ⟨different, found⟩ := release_some found
  have := separate a b block other held found (Ne.symm different)
  omega

theorem Separate.away (separate : (L.grant a owner size).Separate) (fresh : L a = none)
    (inside : x ∈ L.bytes) : x < a ∨ a + size ≤ x :=
  separate.outside grant_same (by rwa [release_grant fresh])

theorem Separate.release (separate : L.Separate) : (L.release a).Separate :=
  fun _ _ _ _ held held' => separate _ _ _ _ (release_some held).2 (release_some held').2

/-- All of `as` released. -/
def without (L : Blocks ι) (as : List Nat) : Blocks ι := fun a => if a ∈ as then none else L a

@[simp] theorem without_nil : L.without [] = L := by
  funext a
  exact if_neg List.not_mem_nil

theorem without_cons : L.without (a :: as) = (L.release a).without as := by
  funext b
  by_cases same : b = a
  · subst same
    simp [without]
  · simp [without, release_other same, same]

theorem without_other (other : a ∉ as) : L.without as a = L a := if_neg other

theorem without_some (held : L.without as a = some block) : a ∉ as ∧ L a = some block := by
  rw [without] at held
  split at held
  case isTrue => cases held
  case isFalse other => exact ⟨other, held⟩

theorem bytes_without_subset : (L.without as).bytes ⊆ L.bytes := by
  rintro x ⟨b, block, held, inside⟩
  exact ⟨b, block, (without_some held).2, inside⟩

/-- Separate held ranges below `bound` have total size at most `bound`. -/
theorem Separate.total_le (separate : L.Separate) (s : Finset Nat) (size : Nat → Nat)
    (held : ∀ a ∈ s, ∃ block, L a = some block ∧ size a ≤ block.size)
    (below : ∀ a ∈ s, a + size a ≤ bound) : ∑ a ∈ s, size a ≤ bound := by
  have union : (s.biUnion fun a => Finset.Ico a (a + size a)).card = ∑ a ∈ s, size a := by
    rw [Finset.card_biUnion]
    · simp
    · intro a ha b hb different
      obtain ⟨x, heldA, sizeA⟩ := held a ha
      obtain ⟨y, heldB, sizeB⟩ := held b hb
      have := separate a b x y heldA heldB different
      rw [Function.onFun, Finset.disjoint_left]
      intro z hz hz'
      rw [Finset.mem_Ico] at hz hz'
      omega
  have inside : (s.biUnion fun a => Finset.Ico a (a + size a)) ⊆ Finset.range bound := by
    intro z hz
    obtain ⟨a, ha, hz⟩ := Finset.mem_biUnion.mp hz
    have := below a ha
    rw [Finset.mem_Ico] at hz
    exact Finset.mem_range.mpr (by omega)
  rw [← union]
  exact (Finset.card_le_card inside).trans (Finset.card_range bound).le

def relabel (g : ι → κ) (L : Blocks ι) : Blocks κ := fun a => (L a).map fun b => ⟨g b.owner, b.size⟩

section Relabel
variable {κ : Type v} {g : ι → κ}

theorem relabel_some (held : L a = some ⟨owner, size⟩) : L.relabel g a = some ⟨g owner, size⟩ := by
  rw [relabel, held]
  rfl

@[simp] theorem relabel_eq_none : L.relabel g a = none ↔ L a = none := Option.map_eq_none_iff

theorem relabel_back (held : L.relabel g a = some block) :
    ∃ owner, L a = some ⟨owner, block.size⟩ := by
  obtain ⟨b, there, rfl⟩ := Option.map_eq_some_iff.mp held
  exact ⟨b.owner, there⟩

@[simp] theorem relabel_release : (L.relabel g).release a = (L.release a).relabel g := by
  funext b
  by_cases same : b = a
  · subst same
    simp [relabel]
  · rw [release_other same, relabel, relabel, release_other same]

@[simp] theorem relabel_grant : (L.relabel g).grant a (g owner) size = (L.grant a owner size).relabel g := by
  funext b
  by_cases same : b = a
  · subst same
    simp [relabel]
  · rw [grant_other same, relabel, relabel, grant_other same]

@[simp] theorem bytes_relabel : (L.relabel g).bytes = L.bytes := by
  ext x
  constructor
  · rintro ⟨a, block, held, inside⟩
    obtain ⟨owner, there⟩ := relabel_back held
    exact ⟨a, _, there, inside⟩
  · rintro ⟨a, block, held, inside⟩
    exact ⟨a, _, relabel_some held, inside⟩

theorem Separate.relabel (separate : (L.relabel g).Separate) : L.Separate :=
  fun _ _ _ _ held held' => separate _ _ _ _ (relabel_some held) (relabel_some held')

/-- Labels given to ranges that had others come off again. -/
theorem relabel_relabel {h : κ → ι} (inverse : ∀ x, h (g x) = x) : (L.relabel g).relabel h = L := by
  funext a
  rw [Blocks.relabel, Blocks.relabel, Option.map_map]
  cases L a with
  | none => rfl
  | some block => simp [inverse]

end Relabel

end Blocks
end Ratlib
