import Ratlib.Library.Blocks
import Mathlib.Data.Option.Basic

/-! Families of held ranges put together and taken apart: the ranges of one label, and
those of all others. -/
namespace Ratlib.Blocks

variable {ι : Type u} {L F K : Blocks ι}

/-- The ranges of both families, those of the first where both hold one. -/
def union (L F : Blocks ι) : Blocks ι := fun a => (L a).or (F a)

/-- No address starts a range of both. -/
def Apart (L F : Blocks ι) : Prop := ∀ a block, L a = some block → F a = none

@[simp] theorem union_eq_none : L.union F a = none ↔ L a = none ∧ F a = none := by
  simp [union]

theorem union_left (held : L a = some block) : L.union F a = some block := by
  rw [union, held]
  rfl

theorem union_right (free : L a = none) : L.union F a = F a := by
  rw [union, free]
  rfl

theorem Apart.union_right (apart : Apart L F) (held : F a = some block) :
    L.union F a = some block := by
  cases other : L a with
  | none => rwa [Blocks.union_right other]
  | some block' =>
    rw [apart a block' other] at held
    cases held

theorem union_some (held : L.union F a = some block) :
    L a = some block ∨ L a = none ∧ F a = some block := by
  cases own : L a with
  | none => exact Or.inr ⟨rfl, by rwa [union_right own] at held⟩
  | some block' => exact Or.inl (by rwa [union_left own] at held)

theorem union_grant : (L.grant a owner size).union F = (L.union F).grant a owner size := by
  funext b
  by_cases same : b = a
  · subst same
    rw [grant_same, union_left grant_same]
  · rw [grant_other same, union, union, grant_other same]

theorem union_release (free : F a = none) : (L.release a).union F = (L.union F).release a := by
  funext b
  by_cases same : b = a
  · subst same
    rw [release_same, union_right release_same, free]
  · rw [release_other same, union, union, release_other same]

theorem Apart.bytes_union (apart : Apart L F) : (L.union F).bytes = L.bytes ∪ F.bytes := by
  ext x
  constructor
  · rintro ⟨a, block, held, inside⟩
    rcases union_some held with own | ⟨-, other⟩
    · exact Or.inl (mem_bytes own inside)
    · exact Or.inr (mem_bytes other inside)
  · rintro (⟨a, block, held, inside⟩ | ⟨a, block, held, inside⟩)
    · exact mem_bytes (union_left held) inside
    · exact mem_bytes (apart.union_right held) inside

theorem Apart.release (apart : Apart L F) : Apart (L.release a) F :=
  fun b block held => apart b block (release_some held).2

theorem Apart.grant (apart : Apart L F) (free : F a = none) : Apart (L.grant a owner size) F := by
  intro b block held
  rcases grant_some held with ⟨rfl, -⟩ | ⟨-, held⟩
  · exact free
  · exact apart b block held

/-- What is kept of both families is kept of each. -/
theorem Apart.eqOn {m m' : Nat → UInt8} (apart : Apart L F) (same : Set.EqOn m m' (L.union F).bytes) :
    Set.EqOn m m' L.bytes ∧ Set.EqOn m m' F.bytes := by
  rw [apart.bytes_union] at same
  exact ⟨same.mono Set.subset_union_left, same.mono Set.subset_union_right⟩

/-- Ranges that do not start at one address share no byte. -/
theorem Separate.foreign (separate : (L.union F).Separate) (apart : Apart L F) :
    F.bytes ⊆ L.bytesᶜ := by
  rintro x ⟨b, block', held', low', high'⟩ ⟨a, block, held, low, high⟩
  have different : a ≠ b := by
    rintro rfl
    rw [apart a block held] at held'
    cases held'
  have := separate a b block block' (union_left held) (apart.union_right held') different
  omega

theorem Separate.left (separate : (L.union F).Separate) : L.Separate :=
  fun _ _ _ _ held held' => separate _ _ _ _ (union_left held) (union_left held')

def Owned (i : ι) (L : Blocks ι) : Prop := ∀ a block, L a = some block → block.owner = i

theorem Owned.release (owned : Owned i L) : Owned i (L.release a) :=
  fun b block held => owned b block (release_some held).2

theorem Owned.grant (owned : Owned i L) : Owned i (L.grant a i size) := by
  intro b block held
  rcases grant_some held with ⟨-, rfl⟩ | ⟨-, held⟩
  · rfl
  · exact owned b block held

section Share
variable [DecidableEq ι]

def share (L : Blocks ι) (i : ι) : Blocks ι := fun a => (L a).filter fun block => block.owner = i

def others (L : Blocks ι) (i : ι) : Blocks ι := fun a => (L a).filter fun block => block.owner ≠ i

theorem share_some : L.share i a = some block ↔ L a = some block ∧ block.owner = i := by
  simp [share, Option.filter_eq_some_iff]

theorem others_some : L.others i a = some block ↔ L a = some block ∧ block.owner ≠ i := by
  simp [others, Option.filter_eq_some_iff]

theorem owned_share : Owned i (L.share i) := fun _ _ held => (share_some.mp held).2

theorem share_apart : Apart (L.share i) (L.others i) := by
  intro a block held
  obtain ⟨there, same⟩ := share_some.mp held
  simp [others, there, same]

theorem share_union_others : (L.share i).union (L.others i) = L := by
  funext a
  cases held : L a with
  | none => simp [union, share, others, held]
  | some block => by_cases same : block.owner = i <;> simp [union, share, others, held, same]

variable {i j : ι} (owned : Owned i K) (apart : Apart K (L.others i))

include owned in
theorem share_union_self : (K.union (L.others i)).share i = K := by
  funext a
  ext block
  rw [share_some]
  constructor
  · rintro ⟨held, same⟩
    rcases union_some held with own | ⟨-, other⟩
    · exact own
    · exact absurd same (others_some.mp other).2
  · intro own
    exact ⟨union_left own, owned a block own⟩

include owned apart in
theorem share_union_other (different : j ≠ i) : (K.union (L.others i)).share j = L.share j := by
  funext a
  ext block
  rw [share_some, share_some]
  constructor
  · rintro ⟨held, rfl⟩
    rcases union_some held with own | ⟨-, other⟩
    · exact absurd (owned a block own) different
    · exact ⟨(others_some.mp other).1, rfl⟩
  · rintro ⟨held, rfl⟩
    exact ⟨apart.union_right (others_some.mpr ⟨held, different⟩), rfl⟩

/-- The shares of different labels do not meet. -/
theorem share_subset_others (different : j ≠ i) (held : L.share j a = some block) :
    L.others i a = some block := by
  obtain ⟨there, rfl⟩ := share_some.mp held
  exact others_some.mpr ⟨there, different⟩

end Share

theorem range_subset (held : L a = some ⟨owner, size⟩) : Set.Ico a (a + size) ⊆ L.bytes :=
  fun _ inside => mem_bytes held inside

theorem bytes_mono (sub : ∀ a block, L a = some block → F a = some block) : L.bytes ⊆ F.bytes := by
  rintro x ⟨a, block, held, inside⟩
  exact mem_bytes (sub a block held) inside

end Ratlib.Blocks
