import Ratlib.Rlist.Correctness

/-! Positions in a list: `rlist_at` walks from the nearer end, `rlist_index` from the
first element, and each undoes the other. -/
namespace Ratlib.Rlist

variable {P : Platform} {m : Mem} {p : RList} {objs : List Nat} {q e i rounds index : Nat} {f : Field}

/-- A list in memory: the links in both directions make the same sequence of distinct
elements, each behind a header. -/
structure WellFormed (P : Platform) (p : RList) (m : Mem) (objs : List Nat) : Prop where
  linked : Linked (rlistNext P m) (rlistPrev P m) 0 p.first p.last objs
  above : ∀ q ∈ objs, sizeofElem P < q
  nodup : objs.Nodup
  count : p.count = objs.length
  small : p.count ≤ P.sizeMax

def neighbour (P : Platform) (m : Mem) (f : Field) (obj : Nat) : Nat := objOf P (field P m (objElem P obj) f)

/-- A pointer to an element is the one to its header. -/
theorem field_neighbour (above : sizeofElem P < neighbour P m f q) :
    field P m (objElem P q) f = objElem P (neighbour P m f q) := by
  rw [← elemOf_of above, neighbour, elemOf_objOf]

/-- The loops of `rlist_at` follow the pointers between the elements. -/
theorem walk_path (path : Path (neighbour P m f) q objs 0) (above : ∀ q ∈ objs, sizeofElem P < q)
    (inside : i < objs.length) : walk P m f i (objElem P q) = objElem P objs[i] := by
  induction i generalizing q objs with
  | zero =>
    cases objs with
    | nil => cases inside
    | cons x rest =>
      obtain ⟨rfl, -⟩ := path
      rfl
  | succ i ih =>
    cases objs with
    | nil => cases inside
    | cons x rest =>
      obtain ⟨rfl, path⟩ := path
      cases rest with
      | nil => exact absurd inside (by simp)
      | cons y rest =>
        have behind : sizeofElem P < neighbour P m f q := path.1 ▸ above y (by simp)
        rw [walk, field_neighbour behind]
        exact ih path (fun q member => above q (List.mem_cons_of_mem _ member))
          (Nat.lt_of_succ_lt_succ inside)

/-- The loop of `rlist_index` counts the elements before its target. -/
theorem indexLoop_path (path : Path (neighbour P m .next) q objs 0) (above : ∀ q ∈ objs, sizeofElem P < q)
    (nodup : objs.Nodup) (inside : i < objs.length) (few : i < rounds) (small : index + i ≤ P.sizeMax) :
    indexLoop P m (objElem P objs[i]) rounds (objElem P q) index = some (index + i) := by
  induction i generalizing q objs rounds index with
  | zero =>
    obtain ⟨rounds, rfl⟩ := Nat.exists_eq_succ_of_ne_zero (Nat.ne_zero_of_lt few)
    cases objs with
    | nil => cases inside
    | cons x rest =>
      obtain ⟨rfl, -⟩ := path
      exact if_pos rfl
  | succ i ih =>
    obtain ⟨rounds, rfl⟩ := Nat.exists_eq_succ_of_ne_zero (Nat.ne_zero_of_lt few)
    cases objs with
    | nil => cases inside
    | cons x rest =>
      obtain ⟨rfl, path⟩ := path
      have low : i < rest.length := Nat.lt_of_succ_lt_succ inside
      have later : rest[i] ∈ rest := List.getElem_mem low
      have aboveHere := above q List.mem_cons_self
      have aboveThere := above rest[i] (List.mem_cons_of_mem q later)
      have other : objElem P q ≠ objElem P rest[i] := by
        intro same
        have equal : q = rest[i] := by
          rw [objElem, objElem] at same
          omega
        exact (List.nodup_cons.mp nodup).1 (equal ▸ later)
      have behind : sizeofElem P < neighbour P m .next q := by
        rw [path.entry]
        cases rest with
        | nil => cases low
        | cons y rest => exact above y (by simp)
      rw [indexLoop, List.getElem_cons_succ, if_neg other, if_neg (objElem_pos aboveHere),
        field_neighbour behind, Platform.add_of_le (by omega)]
      rw [ih path (fun q member => above q (List.mem_cons_of_mem _ member)) (List.nodup_cons.mp nodup).2
        low (by omega) (by omega), Nat.add_assoc, Nat.add_comm 1 i]

section Results
variable (list : WellFormed P p m objs)
include list

/-- Either walk of `rlist_at` ends at the element of that position. -/
theorem rlistAt_spec (inside : i < objs.length) : rlistAt P p m i = objs[i] := by
  have forward : Path (neighbour P m .next) p.first objs 0 := list.linked.forward
  have backward : Path (neighbour P m .prev) p.last objs.reverse 0 := list.linked.backward
  have above := list.above objs[i] (List.getElem_mem inside)
  have small := list.small
  have count := list.count
  rw [rlistAt]
  split
  · rw [walk_path forward list.above inside, data_objElem above]
  · have back : objs.length - i - 1 < objs.reverse.length := by
      rw [List.length_reverse]
      omega
    have place : objs.reverse[objs.length - i - 1] = objs[i] := by
      rw [List.getElem_reverse]
      congr 1
      omega
    rw [Platform.sub_of_le (by omega) small, Platform.sub_of_le (by omega) (by omega), count,
      walk_path backward (fun q member => list.above q (List.mem_reverse.mp member)) back, place,
      data_objElem above]

theorem rlistIndex_spec (inside : i < objs.length) : rlistIndex P p m objs[i] = some i := by
  have small := list.small
  have count := list.count
  have found : rlistIndex P p m objs[i] = some (0 + i) :=
    indexLoop_path list.linked.forward list.above list.nodup inside (by omega) (by omega)
  rwa [Nat.zero_add] at found

/-- In a well-formed list `rlist_at` returns what as many steps of `next` from `p->first`
come to, `rlist_index` ends for every element, and the two undo each other. -/
theorem rlist_positions :
    (∀ index < p.count, rlistAt P p m index = (rlistNext P m)^[index] p.first ∧
      rlistAt P p m index ∈ objs ∧ rlistIndex P p m (rlistAt P p m index) = some index) ∧
    ∀ e ∈ objs, ∃ index, rlistIndex P p m e = some index ∧ index < p.count ∧ rlistAt P p m index = e := by
  constructor
  · intro index inside
    rw [list.count] at inside
    rw [rlistAt_spec list inside]
    exact ⟨(list.linked.forward.iterate inside).symm, List.getElem_mem inside, rlistIndex_spec list inside⟩
  · intro e member
    obtain ⟨index, inside, rfl⟩ := List.mem_iff_getElem.mp member
    exact ⟨index, rlistIndex_spec list inside, list.count ▸ inside, rlistAt_spec list inside⟩

end Results

section Runs
variable {σ : Type u} {ι : Type v} {A : Ralc σ} {owner : ι} {ok : World σ → Blocks ι → Prop}
  {w : World σ} {L : Blocks ι} {s : State σ}

theorem Holds.wellFormed (serves : Serves P A owner ok limit) (holds : Holds P ok owner p w L objs) :
    WellFormed P p w.mem objs where
  linked := holds.linked
  above _ member := Nat.lt_of_le_of_lt sizeofElem_le (holds.above serves member)
  nodup := holds.nodup
  count := holds.count
  small := holds.count ▸ (holds.nodes serves).length_le holds.nodup

/-- After any run the list is well-formed, and its elements are the live ones. -/
theorem run_wellFormed (serves : Serves P A owner ok limit) (initial : ok w L)
    (ran : run (step P A limit) (start w) ops = some s) : WellFormed P s.list s.world.mem s.live := by
  obtain ⟨L', holds⟩ := run_invariant (Inv P ok owner) (fun _ _ _ => step_inv serves)
    (inv_start initial) ran
  exact holds.wellFormed serves

theorem rlist_positions_lp64 : ∃ s, run (step .lp64 (Gen.ralcGen .lp64) 4096) (start Gen.kib)
      [.insert 0 4, .insert 0 8, .insert 4144 1] = some s ∧ s.list.count = 3 ∧
    rlistAt .lp64 s.list s.world.mem 2 = (rlistNext .lp64 s.world.mem)^[2] s.list.first ∧
    rlistIndex .lp64 s.list s.world.mem (rlistAt .lp64 s.list s.world.mem 2) = some 2 := by
  have facts : (run (step .lp64 (Gen.ralcGen .lp64) 4096) (start Gen.kib)
      [.insert 0 4, .insert 0 8, .insert 4144 1]).map (fun s => s.list.count) = some 3 := by
    decide +kernel
  obtain ⟨s, ran, count⟩ := Option.map_eq_some_iff.mp facts
  obtain ⟨walks, -, found⟩ :=
    (rlist_positions (run_wellFormed (Gen.kib_serves ()) Gen.kib_ok ran)).1 2 (by omega)
  exact ⟨s, ran, count, walks, found⟩

end Runs
end Ratlib.Rlist
