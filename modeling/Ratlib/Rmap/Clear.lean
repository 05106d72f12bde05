import Ratlib.Rmap.Operations

/-! `rmap_clear` frees the elements chain by chain, reading each link before the element
that holds it is freed. -/
namespace Ratlib.Rmap

variable {P : Platform} {σ : Type u} {ι : Type v} {A B E : Ralc σ} {ok : World σ → Blocks ι → Prop}
  {bo eo owner : ι} {f : List UInt8 → UInt32} {equals : List UInt8 → List UInt8 → Bool}
  {p p' : RMap} {w w' : World σ} {L L' : Blocks ι} {chains : Nat → List Elem}
  {base n i : Nat} {es rest : List Elem} {e : Elem}

/-- The elements in `rest` stay when those in `es` are freed. -/
theorem Housed.freed (housed : Housed P L bo eo base n (es ++ rest)) :
    Housed P (L.without (es.map Elem.addr)) bo eo base n rest := by
  have nodup := housed.nodup
  rw [List.map_append, List.nodup_append'] at nodup
  refine ⟨fun nonempty => ?_, fun x member => ?_,
    fun x member => housed.apart x (List.mem_append_right _ member), nodup.2.1,
    fun x member => housed.fits x (List.mem_append_right _ member)⟩
  · rw [Blocks.without_other]
    · exact housed.array nonempty
    · intro listed
      obtain ⟨e, member, same⟩ := List.mem_map.mp listed
      exact housed.apart e (List.mem_append_left _ member) same
  · rw [Blocks.without_other]
    · exact housed.held x (List.mem_append_right _ member)
    · exact fun listed => nodup.2.2 listed (List.mem_map_of_mem member)

theorem Housed.sublist (housed : Housed P L bo eo base n es) (fewer : rest.Sublist es) :
    Housed P L bo eo base n rest where
  array := housed.array
  held x member := housed.held x (fewer.subset member)
  apart x member := housed.apart x (fewer.subset member)
  nodup := (fewer.map Elem.addr).nodup housed.nodup
  fits x member := housed.fits x (fewer.subset member)

theorem Housed.blocks (housed : Housed P L bo eo base n es) :
    ∀ b ∈ es.map Elem.addr, ∃ size, L b = some ⟨eo, size⟩ := by
  intro b listed
  obtain ⟨e, member, rfl⟩ := List.mem_map.mp listed
  obtain ⟨size, held, -⟩ := housed.held e member
  exact ⟨size, held⟩

/-- The inner loop frees the elements of a chain. -/
theorem freeChain_cases (serves : Serves P E eo ok limit) (before : ok w L)
    (housed : Housed P L bo eo base n es)
    (path : Path (P.get w.mem) cur (es.map Elem.addr) 0) (enough : es.length < fuel) :
    freeChain P E fuel w cur = some (freeAll E w (es.map Elem.addr)) := by
  induction es generalizing w L cur fuel with
  | nil =>
    obtain ⟨fuel, rfl⟩ := Nat.exists_eq_succ_of_ne_zero (Nat.ne_zero_of_lt enough)
    have null : cur = 0 := path
    rw [freeChain, if_pos null]
    rfl
  | cons e es ih =>
    obtain ⟨fuel, rfl⟩ := Nat.exists_eq_succ_of_ne_zero (Nat.ne_zero_of_lt enough)
    obtain ⟨rfl, path⟩ := path
    obtain ⟨size, held, -⟩ := housed.held e List.mem_cons_self
    have nonnull : e.addr ≠ 0 := (serves.bounds before held).1.ne'
    obtain ⟨kept, after⟩ := serves.free before held
    have left : Housed P (L.release e.addr) bo eo base n es := by
      have freed : Housed P (L.without ([e].map Elem.addr)) bo eo base n es := Housed.freed housed
      rwa [List.map_singleton, Blocks.without_cons, Blocks.without_nil] at freed
    have path' : Path (P.get (ralcFree E w e.addr).mem) (P.get w.mem e.addr) (es.map Elem.addr) 0 := by
      refine path.congr fun c listed => ?_
      obtain ⟨x, member, rfl⟩ := List.mem_map.mp listed
      exact (Platform.get_congr fun y within =>
        kept (left.cell_bytes (Or.inr ⟨x, member, rfl⟩) within)).symm
    rw [freeChain, if_neg nonnull]
    exact ih after left path' (Nat.lt_of_succ_lt_succ enough)

/-- The outer loop frees the chains from the bucket `i` on. -/
theorem freeBuckets_cases (serves : Serves P E eo ok limit) (before : ok w L) (range : i + n ≤ N)
    (housed : Housed P L bo eo p.buckets N ((List.range' i n).flatMap chains))
    (linked : ∀ k, i ≤ k → k < i + n →
      Chain (P.get w.mem) 0 (bucket P p.buckets k) ((chains k).map Elem.addr))
    (enough : ∀ k < N, (chains k).length ≤ p.count) :
    freeBuckets P E p n i w =
      some (freeAll E w (((List.range' i n).flatMap chains).map Elem.addr)) := by
  induction n generalizing i w L with
  | zero => rfl
  | succ n ih =>
    rw [List.range'_succ, List.flatMap_cons] at housed ⊢
    have here := housed.sublist (List.sublist_append_left ..)
    have left := housed.freed
    have there : i < N := by omega
    have result := freeChain_cases serves before here (linked i (Nat.le_refl i) (by omega))
      (Nat.lt_succ_of_le (enough i there))
    obtain ⟨kept, after⟩ := serves.freeAll before here.nodup here.blocks
    have linked' : ∀ k, i + 1 ≤ k → k < i + 1 + n → Chain
        (P.get (freeAll E w ((chains i).map Elem.addr)).mem) 0 (bucket P p.buckets k)
          ((chains k).map Elem.addr) := by
      intro k low high
      refine (linked k (by omega) (by omega)).congr fun c listed => ?_
      have cell : IsCell P p.buckets N ((List.range' (i + 1) n).flatMap chains) c := by
        rcases List.mem_cons.mp listed with rfl | listed
        · exact Or.inl ⟨k, by omega, rfl⟩
        · obtain ⟨x, member, rfl⟩ := List.mem_map.mp listed
          exact Or.inr ⟨x, List.mem_flatMap.mpr ⟨k, List.mem_range'_1.mpr ⟨low, high⟩, member⟩, rfl⟩
      exact (Platform.get_congr fun y within => kept (left.cell_bytes cell within)).symm
    rw [freeBuckets, result, List.map_append, freeAll_append]
    exact ih after (by omega) left linked'

theorem Holds.empty (holds : Holds P ok bo eo f equals p w L chains) (none : p'.bucketCount = 0)
    (zero : p'.count = 0) (hashes : getHashVal p' = getHashVal p) (compares : p'.equals = p.equals)
    (after : ok w' L') (alone : Owns L' bo eo p.buckets 0 []) :
    Holds P ok bo eo f equals p' w' L' fun _ => [] where
  hashes := hashes.trans holds.hashes
  compares := compares.trans holds.compares
  ok := after
  housed := by
    rw [none]
    exact ⟨by simp, by simp [members], by simp [members], by simp [members], by simp [members]⟩
  owns := by
    rw [none]
    intro a block held owned
    simpa using alone a block held owned
  table := by
    rw [none]
    exact ⟨by simp, by simp [members]⟩
  filed := by
    rw [none]
    exact ⟨by simp, by simp [members], Or.inl rfl⟩
  count := by simp [zero, none, members]
  load := by simp [zero]

theorem rmapClear_cases (servesB : Serves P B bo ok limit) (serves : Serves P E eo ok limit)
    (holds : Holds P ok bo eo f equals p w L chains) :
    ∃ p' w' L', rmapClear P B E p w = some (p', w') ∧ p'.bucketCount = 0 ∧
      (Holds P ok bo eo f equals p' w' L' fun _ => []) ∧
      (p.bucketCount = 0 → p' = p ∧ w' = w) := by
  rw [rmapClear]
  split
  case isTrue none =>
    have zero : p.count = 0 := by rw [holds.count, none]; rfl
    have alone := holds.owns
    rw [none] at alone
    exact ⟨p, w, L, rfl, none, holds.empty none zero rfl rfl holds.ok alone, fun _ => ⟨rfl, rfl⟩⟩
  case isFalse nonempty =>
    have range : (List.range' 0 p.bucketCount).flatMap chains = members p.bucketCount chains := by
      rw [← List.range_eq_range', members]
    have housed := holds.housed
    rw [← range] at housed
    have result := freeBuckets_cases (i := 0) serves holds.ok (by omega) housed
      (fun k _ high => holds.table.linked k (by omega))
      (fun k low => holds.count ▸ length_bucket_le low chains)
    obtain ⟨-, after⟩ := serves.freeAll holds.ok housed.nodup housed.blocks
    have left : Housed P _ bo eo p.buckets p.bucketCount [] := Housed.freed (by simpa using housed)
    obtain ⟨size, array, -⟩ := left.array nonempty
    obtain ⟨-, freed⟩ := servesB.free after array
    have alone : Owns ((L.without ((members p.bucketCount chains).map Elem.addr)).release p.buckets)
        bo eo p.buckets 0 [] := by
      intro a block held owned
      obtain ⟨other, held⟩ := Blocks.release_some held
      obtain ⟨gone, held⟩ := Blocks.without_some held
      rcases holds.owns a block held owned with ⟨-, array⟩ | ⟨e, member, rfl⟩
      · exact absurd array other
      · exact absurd (List.mem_map_of_mem member) gone
    rw [range] at result freed
    rw [result]
    exact ⟨_, _, _, rfl, rfl, holds.empty rfl rfl rfl rfl freed alone, fun none => absurd none nonempty⟩

end Ratlib.Rmap
