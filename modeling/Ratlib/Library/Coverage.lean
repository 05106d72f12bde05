import Ratlib.Library.Blocks
import Mathlib.Data.Set.Card

/-! How many bytes a list of address ranges covers: no more than the sizes add up to, and
no less if no two of them share a byte. -/
namespace Ratlib

variable {α : Type u} {start size : α → Nat} {cs : List α} {S : Set Nat}

/-- Bytes inside ranges are no more than the ranges have. -/
theorem encard_le_sum (inside : ∀ x ∈ S, ∃ c ∈ cs, start c ≤ x ∧ x < start c + size c) :
    S.encard ≤ (cs.map size).sum := by
  induction cs generalizing S with
  | nil =>
    have empty : S = ∅ := Set.eq_empty_of_forall_notMem fun x member => by
      obtain ⟨c, none, -⟩ := inside x member
      cases none
    simp [empty]
  | cons c cs ih =>
    have first : Set.encard (Set.Ico (start c) (start c + size c)) = size c := by
      rw [← Finset.coe_Ico, Set.encard_coe_eq_coe_finsetCard, Nat.card_Ico, Nat.add_sub_cancel_left]
    have rest : (S \ Set.Ico (start c) (start c + size c)).encard ≤ (cs.map size).sum := by
      refine ih fun x member => ?_
      obtain ⟨d, found, within⟩ := inside x member.1
      rcases List.mem_cons.mp found with rfl | found
      · exact absurd within member.2
      · exact ⟨d, found, within⟩
    rw [List.map_cons, List.sum_cons, Nat.cast_add, ← first]
    calc S.encard ≤ (Set.Ico (start c) (start c + size c) ∪ S).encard :=
          Set.encard_le_encard Set.subset_union_right
      _ = (Set.Ico (start c) (start c + size c) ∪ S \ Set.Ico (start c) (start c + size c)).encard := by
          rw [Set.union_sdiff_self]
      _ ≤ _ := (Set.encard_union_le ..).trans (by gcongr)

/-- Ranges that lie apart have no more bytes than the set they lie in. -/
theorem sum_le_encard (apart : cs.Pairwise fun c d => start c + size c ≤ start d ∨ start d + size d ≤ start c)
    (inside : ∀ c ∈ cs, Set.Ico (start c) (start c + size c) ⊆ S) : (cs.map size).sum ≤ S.encard := by
  induction cs generalizing S with
  | nil => simp
  | cons c cs ih =>
    obtain ⟨others, apart⟩ := List.pairwise_cons.mp apart
    have first : Set.encard (Set.Ico (start c) (start c + size c)) = size c := by
      rw [← Finset.coe_Ico, Set.encard_coe_eq_coe_finsetCard, Nat.card_Ico, Nat.add_sub_cancel_left]
    have rest : (cs.map size).sum ≤ (S \ Set.Ico (start c) (start c + size c)).encard := by
      refine ih apart fun d member x within => ⟨inside d (List.mem_cons_of_mem _ member) within, ?_⟩
      have := others d member
      have := within.1
      have := within.2
      rw [Set.mem_Ico]
      omega
    rw [List.map_cons, List.sum_cons, Nat.cast_add, ← first,
      ← Set.encard_sdiff_add_encard_of_subset (inside c List.mem_cons_self), add_comm]
    gcongr

/-- The ranges held are among the bytes of all of them. -/
theorem Blocks.Separate.sum_le_encard {ι : Type v} {L : Blocks ι}
    (separate : L.Separate) (distinct : (cs.map start).Nodup)
    (held : ∀ c ∈ cs, ∃ owner, L (start c) = some ⟨owner, size c⟩) :
    (cs.map size).sum ≤ L.bytes.encard := by
  have apart : cs.Pairwise fun c d => start c + size c ≤ start d ∨ start d + size d ≤ start c := by
    refine (List.pairwise_map.mp distinct).imp_of_mem ?_
    intro c d c_mem d_mem different
    obtain ⟨_, found⟩ := held c c_mem
    obtain ⟨_, found'⟩ := held d d_mem
    exact separate _ _ _ _ found found' different
  refine Ratlib.sum_le_encard apart fun c member x within => ?_
  obtain ⟨_, found⟩ := held c member
  exact Blocks.mem_bytes found within

end Ratlib
