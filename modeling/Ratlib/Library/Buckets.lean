import Mathlib.Data.List.Nodup
import Mathlib.Data.List.Range
import Mathlib.Logic.Function.Basic

/-! Sequences in numbered buckets: the members of the first `n` buckets, changes of one
bucket, and spreading a sequence over the buckets an index function names. -/
namespace Ratlib

variable {α : Type u}

/-- The members of the buckets below `n`, bucket by bucket. -/
def members (n : Nat) (chains : Nat → List α) : List α := (List.range n).flatMap chains

variable {n i : Nat} {chains chains' : Nat → List α} {es : List α} {index : α → Nat}

theorem mem_members : e ∈ members n chains ↔ ∃ i < n, e ∈ chains i := by
  simp [members]

theorem members_add (n more : Nat) (chains : Nat → List α) :
    ∃ after, members (n + more) chains = members n chains ++ after :=
  ⟨_, by rw [members, List.range_add, List.flatMap_append, members]⟩

/-- Members of different buckets differ where no two members agree. -/
theorem members_apart {g : α → β} (nodup : ((members n chains).map g).Nodup) (inside : i < n)
    (inside' : j < n) (other : i ≠ j) (member : x ∈ chains i) (member' : y ∈ chains j) :
    g x ≠ g y := by
  rw [members, List.map_flatMap, List.nodup_flatMap] at nodup
  have symmetric : Std.Symm (Function.onFun List.Disjoint fun i => (chains i).map g) :=
    ⟨fun _ _ => List.disjoint_symm⟩
  have apart := nodup.2.forall (List.mem_range.mpr inside) (List.mem_range.mpr inside') other
  exact fun same => apart (List.mem_map_of_mem member) (same ▸ List.mem_map_of_mem member')

theorem members_split (inside : i < n) (chains : Nat → List α) :
    ∃ before after, ∀ bucket,
      members n (Function.update chains i bucket) = before ++ bucket ++ after := by
  refine ⟨members i chains, (List.range' (i + 1) (n - (i + 1))).flatMap chains, fun bucket => ?_⟩
  have range : List.range n = List.range i ++ i :: List.range' (i + 1) (n - (i + 1)) := by
    have joined : List.range' 0 i ++ List.range' (0 + i) (n - (i + 1) + 1) =
        List.range' 0 (i + (n - (i + 1) + 1)) := List.range'_append_1
    rw [Nat.zero_add] at joined
    rw [List.range_eq_range', List.range_eq_range', ← List.range'_succ, joined]
    congr 1
    omega
  have other : ∀ j, j ≠ i → Function.update chains i bucket j = chains j :=
    fun j different => Function.update_of_ne different ..
  rw [members, range, List.flatMap_append, List.flatMap_cons, Function.update_self,
    List.append_assoc]
  congr 1
  · exact List.flatMap_congr fun j low => other j (by have := List.mem_range.mp low; omega)
  · congr 1
    refine List.flatMap_congr fun j high => other j ?_
    have := List.mem_range'_1.mp high
    omega

/-- A run in one bucket, and what is left without it. -/
theorem members_around (inside : i < n) (run : List α) :
    (members n (Function.update chains i (xs ++ run ++ ys))).Perm
      (run ++ members n (Function.update chains i (xs ++ ys))) := by
  obtain ⟨before, after, split⟩ := members_split inside chains
  rw [split, split]
  have front : before ++ (xs ++ run ++ ys) ++ after = before ++ xs ++ run ++ (ys ++ after) := by
    simp only [List.append_assoc]
  have back : run ++ (before ++ (xs ++ ys) ++ after) = run ++ (before ++ xs) ++ (ys ++ after) := by
    simp only [List.append_assoc]
  rw [front, back]
  exact List.perm_append_comm.append_right _

theorem members_taken (inside : i < n) (split : chains i = xs ++ run ++ ys) :
    (members n chains).Perm (run ++ members n (Function.update chains i (xs ++ ys))) := by
  have around := @members_around _ _ _ chains xs ys inside run
  rwa [← split, Function.update_eq_self] at around

theorem members_push (inside : i < n) :
    (members n (Function.update chains i (e :: chains i))).Perm (e :: members n chains) := by
  obtain ⟨before, after, split⟩ := members_split inside chains
  have old := split (chains i)
  rw [Function.update_eq_self] at old
  rw [split, old, List.append_assoc, List.append_assoc, List.cons_append]
  exact List.perm_middle

theorem mem_push (member : x ∈ Function.update chains i (e :: chains i) j) :
    x = e ∧ j = i ∨ x ∈ chains j := by
  by_cases same : j = i
  · subst same
    rw [Function.update_self] at member
    rcases List.mem_cons.mp member with rfl | old
    · exact Or.inl ⟨rfl, rfl⟩
    · exact Or.inr old
  · rw [Function.update_of_ne same] at member
    exact Or.inr member

/-- `es` pushed one after the other to the buckets that `index` names. -/
def spread (index : α → Nat) (es : List α) (chains : Nat → List α) : Nat → List α :=
  es.foldl (fun chains e => Function.update chains (index e) (e :: chains (index e))) chains

theorem spread_cons : spread index (e :: es) chains =
    spread index es (Function.update chains (index e) (e :: chains (index e))) := rfl

theorem spread_append : spread index (es ++ fs) chains =
    spread index fs (spread index es chains) := List.foldl_append

theorem mem_spread (member : x ∈ spread index es chains i) : x ∈ es ∨ x ∈ chains i := by
  induction es generalizing chains with
  | nil => exact Or.inr member
  | cons e es ih =>
    rcases ih member with later | before
    · exact Or.inl (List.mem_cons_of_mem e later)
    · rcases mem_push before with ⟨rfl, -⟩ | old
      · exact Or.inl List.mem_cons_self
      · exact Or.inr old

theorem spread_members (inside : ∀ e ∈ es, index e < n) :
    (members n (spread index es chains)).Perm (es ++ members n chains) := by
  induction es generalizing chains with
  | nil => exact List.Perm.refl _
  | cons e es ih =>
    rw [spread_cons]
    refine (ih fun x member => inside x (List.mem_cons_of_mem _ member)).trans ?_
    refine ((members_push (inside e List.mem_cons_self)).append_left es).trans ?_
    exact List.perm_middle

/-- Everything lies where its index says. -/
theorem spread_placed (placed : ∀ i, ∀ e ∈ chains i, index e = i) (i : Nat) :
    ∀ e ∈ spread index es chains i, index e = i := by
  induction es generalizing chains with
  | nil => exact placed i
  | cons e es ih =>
    rw [spread_cons]
    apply ih
    intro j x member
    rcases mem_push member with ⟨rfl, rfl⟩ | old
    · rfl
    · exact placed j x old

end Ratlib
